import Dandelion.ChainRuns

/-!
# When `get_sharding` cannot panic

A chain without inner joins never panics, and with a join order of distinct
indices every chain that `get_sharding` builds is well formed, so the call returns
for all inputs.
-/

namespace Dandelion

open Outcome JoinIterator

variable {Ctx : Type}

/-- A chain that cannot panic when it fills in an entry of `n` sets. -/
structure Sound (n : Nat) (it : JoinIterator Ctx) : Prop where
  live : Live it
  noInner : ∀ node ∈ it, node.mode ≠ .inner
  write : ∀ node ∈ it, node.writeIndex < n

theorem Sound.of_shape {n : Nat} {it it' : JoinIterator Ctx} (h : Sound n it)
    (hs : shape it' = shape it) : Sound n it' := by
  refine ⟨h.live.of_shape hs, fun node hnode => ?_, fun node hnode => ?_⟩
  · have hmem : node.shape ∈ shape it := hs ▸ List.mem_map_of_mem hnode
    obtain ⟨node', hnode', he⟩ := List.mem_map.mp hmem
    have hm : node'.mode = node.mode := congrArg (fun p => p.2.2) he
    exact hm ▸ h.noInner node' hnode'
  · have hmem : node.shape ∈ shape it := hs ▸ List.mem_map_of_mem hnode
    obtain ⟨node', hnode', he⟩ := List.mem_map.mp hmem
    have hw : node'.writeIndex = node.writeIndex := congrArg (fun p => p.2.1) he
    exact hw ▸ h.write node' hnode'

theorem sound_nil (n : Nat) : Sound n ([] : JoinIterator Ctx) :=
  ⟨⟨fun _ h => absurd h List.not_mem_nil, fun _ h => by cases h⟩,
    fun _ h => absurd h List.not_mem_nil, fun _ h => absurd h List.not_mem_nil⟩

theorem Sound.cons {n : Nat} {node : JoinNode Ctx} {left : JoinIterator Ctx} (h : Sound n left)
    (hr : Shards node.right) (hw : node.writeIndex < n) (hi : node.mode ≠ .inner)
    (hl : left = [] → node.mode ≠ .left) : Sound n (node :: left) := by
  refine ⟨h.live.cons hr fun hnil => ⟨hi, hl hnil⟩, ?_, ?_⟩
  · exact List.forall_mem_cons.mpr ⟨hi, h.noInner⟩
  · exact List.forall_mem_cons.mpr ⟨hw, h.write⟩

theorem fillIn_total {it : JoinIterator Ctx} {toFill : Entry Ctx}
    (hr : ∀ node ∈ it, Shards node.right) (hw : ∀ node ∈ it, node.writeIndex < toFill.length) :
    ∃ r, fillIn it toFill = .ok r := by
  induction it with
  | nil => exact ⟨_, rfl⟩
  | cons node left ih =>
    obtain ⟨⟨filled, entry⟩, hfill⟩ := ih (fun n hn => hr n (List.mem_cons_of_mem _ hn))
      (fun n hn => hw n (List.mem_cons_of_mem _ hn))
    have hlt : node.writeIndex < entry.length := by
      rw [length_fillIn hfill]
      exact hw node List.mem_cons_self
    rw [fillIn_cons hfill]
    cases hs : node.right[node.rightIndex]? with
    | none => exact ⟨_, rfl⟩
    | some shard =>
      have hk := keyAt_eq hs ((hr node List.mem_cons_self).shard_ne_nil _ (List.mem_of_getElem? hs))
      simp only [hk, pure_bind, hlt, if_true]
      by_cases hkey : node.key = shard.firstKey
      · exact ⟨_, if_pos hkey⟩
      · exact ⟨_, if_neg hkey⟩

theorem new_sound {n w : Nat} {left : JoinIterator Ctx} (h : Sound n left) {mode : JoinStrategy}
    (hm : mode ≠ .inner) (hw : w < n) (rightOpt : Option (ShardingMode × CompositionSet Ctx)) :
    Meets (JoinIterator.new mode left rightOpt w) (Sound n) (fun _ => False) := by
  rcases rightOpt with _ | ⟨setMode, set⟩
  · exact h
  by_cases hs : set.itemList = []
  · rw [new_empty mode left setMode hs]
    exact h
  have hr := Shards.of_shard set setMode hs
  rw [new_shards mode left hs (hr.keyAt_lt hr.length_pos)]
  cases left with
  | nil =>
    by_cases hroot : mode = .inner ∨ mode = .left
    · simp only [if_pos hroot]
      exact h
    · simp only [if_neg hroot]
      exact h.cons hr hw hm (fun _ he => hroot (Or.inr he))
  | cons l ls =>
    have hne : l :: ls = [] → mode ≠ .left := fun he => absurd he (List.cons_ne_nil _ _)
    cases mode with
    | inner => exact absurd rfl hm
    | left =>
      apply (skipBelow_meets hr l.key 0).bind
      intro index _
      split
      · exact h
      · exact h.cons hr hw hm hne
    | right => exact h.cons hr hw hm hne
    | outer => exact h.cons hr hw hm hne
    | cross => exact h.cons hr hw hm hne

theorem joinFrom_sound {n : Nat} (sets : ShardedInputs Ctx) (order : List (Nat × JoinStrategy))
    {it : JoinIterator Ctx} (h : Sound n it) (hlt : ∀ p ∈ order, p.1 < n)
    (hm : ∀ p ∈ order, p.2 ≠ .inner) :
    Meets (joinFrom sets it order) (Sound n) (fun _ => False) := by
  induction order generalizing it with
  | nil => exact h
  | cons p order ih =>
    rw [joinFrom]
    apply (new_sound h (hm p List.mem_cons_self) (hlt p List.mem_cons_self) _).bind
    intro it' h'
    exact ih h' (fun q hq => hlt q (List.mem_cons_of_mem _ hq))
      (fun q hq => hm q (List.mem_cons_of_mem _ hq))

theorem Sound.advance_total {n : Nat} {it : JoinIterator Ctx} (h : Sound n it) (hne : it ≠ []) :
    Meets (advance it) (Stepped it) (fun _ => False) := by
  apply (advance_steps h.live hne).mono (fun _ hr => hr)
  rintro stop ⟨-, node, hnode, hinner⟩
  exact h.noInner node hnode hinner

/-- Every position of the chain gives an entry, and there are at most `moves` of them. -/
theorem Sound.enumerate_total {n : Nat} {it : JoinIterator Ctx} (h : Sound n it) :
    ∃ es, enumerate n it = .ok es := by
  have hfills : ∀ it' : JoinIterator Ctx, shape it' = shape it →
      ∃ r, fillIn it' (List.replicate n none) = .ok r := by
    intro it' hs
    exact fillIn_total (h.of_shape hs).live.shards
      (fun node hnode => by simpa using (h.of_shape hs).write node hnode)
  cases it with
  | nil => exact ⟨_, rfl⟩
  | cons node left =>
    obtain ⟨⟨filled, entry⟩, hfill⟩ := hfills _ rfl
    rw [enumerate, hfill]
    change ∃ es, loop (enumerateRound n) _ _ = .ok es
    have hloop : Meets (loop (enumerateRound n) (moves (node :: left) + 1) (node :: left, [entry]))
        (fun _ => True) (fun _ => False) := by
      apply loop_meets (fun s => shape s.1 = shape (node :: left)) (fun s => moves s.1)
      · rintro ⟨it', acc⟩ hs
        have hne := ne_nil_of_shape hs (List.cons_ne_nil _ _)
        apply ((h.of_shape hs).advance_total hne).bind
        rintro ⟨moved, it''⟩ hstep
        cases moved with
        | false => trivial
        | true =>
          obtain ⟨⟨filled', entry'⟩, hfill'⟩ := hfills it'' (hstep.1.trans hs)
          simp only [if_true, hfill']
          exact ⟨hstep.1.trans hs, hstep.moves_lt⟩
      · rfl
      · exact Nat.lt_succ_self _
    obtain ⟨es, hes, -⟩ := (meets_total_iff _ _).mp hloop
    exact ⟨es, hes⟩

theorem getSharding_total (sets : ShardedInputs Ctx) (joinOrder : List Nat)
    (joinStrategies : List JoinStrategy) (hn : joinOrder.Nodup)
    (hlt : ∀ i ∈ joinOrder, i < sets.length)
    (hm : .inner ∉ joinStrategies.take (sets.length - 1)) :
    ∃ es, getSharding sets joinOrder joinStrategies = .ok es := by
  by_cases hpos : sets.length = 0
  · rw [getSharding]
    exact ⟨[], if_pos hpos⟩
  · rw [getSharding_eq sets joinOrder joinStrategies (by omega) hn hlt]
    have hjoin := joinFrom_sound sets ((fullOrder sets.length joinOrder).zip
      (fullStrategies sets.length joinStrategies)) (sound_nil sets.length)
      (fun p hp => (mem_fullOrder hlt p.1).mp (List.of_mem_zip hp).1)
      (by
        intro p hp
        rcases List.mem_cons.mp (List.of_mem_zip hp).2 with he | hp
        · simp [he]
        · rcases List.mem_append.mp hp with hp | hp
          · exact fun he => hm (he ▸ hp)
          · simp [List.eq_of_mem_replicate hp])
    obtain ⟨it, hit, hsound⟩ := (meets_total_iff _ _).mp hjoin
    rw [hit]
    exact hsound.enumerate_total

end Dandelion
