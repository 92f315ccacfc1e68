import Dandelion.ShardResults
import Dandelion.ShardingSafety

/-!
# Where the sets of a shard come from

Every set in an entry of `get_sharding` is a shard of the input set at its position, and a shard
is for the same set of its contexts as the set it was cut from. So all entries agree at every
position.
-/

namespace Dandelion

open Outcome JoinIterator

variable {Ctx : Type}

theorem setIndex_of_mem_shard {set shard : CompositionSet Ctx} {mode : ShardingMode}
    (h : shard ∈ set.shard mode) : shard.setIndex = set.setIndex := by
  cases mode with
  | all =>
    rw [List.mem_singleton.mp h]
  | each =>
    obtain ⟨item, -, rfl⟩ := List.mem_map.mp h
    rfl
  | key =>
    rw [CompositionSet.shard_key] at h
    obtain ⟨key, -, rfl⟩ := List.mem_map.mp h
    rfl

section Chains

variable {sets : ShardedInputs Ctx}

/-- The shards of every node are cut from the set at the position the node writes. -/
structure CutFrom (sets : ShardedInputs Ctx) (it : JoinIterator Ctx) : Prop where
  live : Live it
  origin : ∀ node ∈ it, ∃ mode set, sets[node.writeIndex]? = some (some (mode, set)) ∧
    ∀ shard ∈ node.right, shard.setIndex = set.setIndex

/-- The sets of an entry are for the same sets as those at their positions. -/
def DrawnFrom (sets : ShardedInputs Ctx) (entry : Entry Ctx) : Prop :=
  ∀ position shard, slotSet entry position = some shard →
    ∃ mode set, sets[position]? = some (some (mode, set)) ∧ shard.setIndex = set.setIndex

theorem cutFrom_nil : CutFrom sets ([] : JoinIterator Ctx) :=
  ⟨⟨fun _ h => absurd h List.not_mem_nil, fun _ h => by cases h⟩,
    fun _ h => absurd h List.not_mem_nil⟩

theorem CutFrom.of_shape {it it' : JoinIterator Ctx} (h : CutFrom sets it)
    (hs : shape it' = shape it) : CutFrom sets it' := by
  refine ⟨h.live.of_shape hs, fun node hnode => ?_⟩
  have hmem : node.shape ∈ shape it := hs ▸ List.mem_map_of_mem hnode
  obtain ⟨node', hnode', heq⟩ := List.mem_map.mp hmem
  have hright : node'.right = node.right := congrArg Prod.fst heq
  have hwrite : node'.writeIndex = node.writeIndex := congrArg (fun p => p.2.1) heq
  rw [← hright, ← hwrite]
  exact h.origin node' hnode'

theorem CutFrom.cons {node : JoinNode Ctx} {left : JoinIterator Ctx} (h : CutFrom sets left)
    {setMode : ShardingMode} {set : CompositionSet Ctx} (hs : set.itemList ≠ [])
    (hright : node.right = set.shard setMode)
    (hset : sets[node.writeIndex]? = some (some (setMode, set)))
    (hroot : left = [] → node.mode ≠ .inner ∧ node.mode ≠ .left) : CutFrom sets (node :: left) := by
  refine ⟨h.live.cons (hright ▸ Shards.of_shard set setMode hs) hroot,
    List.forall_mem_cons.mpr ⟨⟨setMode, set, hset, fun shard hshard => ?_⟩, h.origin⟩⟩
  exact setIndex_of_mem_shard (hright ▸ hshard)

/-- The search for the first match moves the cursors of the left side only. -/
theorem matchRound_shape {right : List (CompositionSet Ctx)} (hr : Shards right)
    {left : JoinIterator Ctx} (hlive : Live left) (hne : left ≠ []) (fuel index key : Nat) :
    Meets (loop (matchRound right) fuel (index, key, left)) (fun r => shape r.2.2 = shape left)
      (fun _ => True) := by
  apply loop_meets_partial (fun s : Nat × Nat × JoinIterator Ctx => shape s.2.2 = shape left) trivial
  · rintro ⟨index, key, left'⟩ hs
    rw [matchRound]
    split
    · split
      · split
        · next hlt =>
          rw [hr.keyAt_lt hlt]
          exact hs
        · exact hs
      · have hsteps := advance_steps (hlive.of_shape hs) (ne_nil_of_shape hs hne)
        apply (hsteps.mono (fun _ h => h) fun _ _ => trivial).bind
        rintro ⟨moved, left''⟩ hstep
        cases moved <;> exact hstep.1.trans hs
    · exact hs
  · rfl

theorem new_cutFrom {left : JoinIterator Ctx} (h : CutFrom sets left) (mode : JoinStrategy)
    {rightOpt : Option (ShardingMode × CompositionSet Ctx)} {writeIndex : Nat}
    (hset : ∀ right, rightOpt = some right → sets[writeIndex]? = some (some right)) :
    Meets (JoinIterator.new mode left rightOpt writeIndex) (CutFrom sets) (fun _ => True) := by
  rcases rightOpt with _ | ⟨setMode, set⟩
  · exact h
  by_cases hs : set.itemList = []
  · rw [new_empty mode left setMode hs]
    exact h
  have hr := Shards.of_shard set setMode hs
  have hset := hset _ rfl
  rw [new_shards mode left hs (hr.keyAt_lt hr.length_pos)]
  cases left with
  | nil =>
    by_cases hroot : mode = .inner ∨ mode = .left
    · simp only [if_pos hroot]
      exact h
    · simp only [if_neg hroot]
      exact h.cons hs rfl hset fun _ => not_or.mp hroot
  | cons l ls =>
    have hne : l :: ls ≠ [] := List.cons_ne_nil l ls
    cases mode with
    | inner =>
      apply (matchRound_shape hr h.live hne _ _ _).bind
      rintro ⟨index, key, left⟩ hshape
      have hleft := ne_nil_of_shape hshape hne
      change Meets (if index = (set.shard setMode).length then _ else _) _ _
      split
      · exact cutFrom_nil
      · exact (h.of_shape hshape).cons hs rfl hset fun hnil => absurd hnil hleft
    | left =>
      apply ((skipBelow_meets hr l.key 0).mono (fun _ h => h) fun _ _ => trivial).bind
      intro index _
      split
      · exact h
      · exact h.cons hs rfl hset fun hnil => absurd hnil hne
    | right => exact h.cons hs rfl hset fun hnil => absurd hnil hne
    | outer => exact h.cons hs rfl hset fun hnil => absurd hnil hne
    | cross => exact h.cons hs rfl hset fun hnil => absurd hnil hne

/-- What is left of the sets after some were taken. -/
def TakenFrom (sets taken : ShardedInputs Ctx) : Prop :=
  ∀ (index : Nat) (right), taken[index]? = some (some right) → sets[index]? = some (some right)

theorem takeSet_takenFrom {taken : ShardedInputs Ctx} (h : TakenFrom sets taken) (index : Nat) :
    Meets (takeSet taken index) (fun r => TakenFrom sets r.2 ∧
      ∀ right, r.1 = some right → sets[index]? = some (some right)) (fun _ => True) := by
  rw [takeSet]
  cases hget : taken[index]? with
  | none => trivial
  | some set =>
    refine ⟨fun position right hright => ?_, fun right hright => h index right (hright ▸ hget)⟩
    rw [List.getElem?_set] at hright
    split at hright
    · split at hright <;> cases hright
    · exact h position right hright

theorem joinAll_cutFrom {it : JoinIterator Ctx} {taken : ShardedInputs Ctx} (h : CutFrom sets it)
    (htaken : TakenFrom sets taken) (order : List Nat) (strategies : List JoinStrategy) :
    Meets (joinAll it taken order strategies) (CutFrom sets) (fun _ => True) := by
  induction order generalizing it taken strategies with
  | nil =>
    cases strategies with
    | nil => exact h
    | cons strategy strategies => trivial
  | cons index order ih =>
    cases strategies with
    | nil => trivial
    | cons strategy strategies =>
      rw [joinAll]
      apply (takeSet_takenFrom htaken index).bind
      rintro ⟨set, rest⟩ ⟨hrest, hset⟩
      apply (new_cutFrom h strategy hset).bind
      intro it' h'
      exact ih h' hrest strategies

/-- Filling in an entry puts shards of a node at the position of its set. -/
theorem fillIn_drawnFrom {it : JoinIterator Ctx} {toFill entry : Entry Ctx} {filled : Bool}
    (h : CutFrom sets it) (htoFill : DrawnFrom sets toFill)
    (hfill : fillIn it toFill = .ok (filled, entry)) : DrawnFrom sets entry := by
  have horigin := h.origin
  clear h
  induction it generalizing filled entry with
  | nil =>
    cases hfill
    exact htoFill
  | cons node left ih =>
    obtain ⟨⟨mode, set, hset, hindex⟩, horigin⟩ := List.forall_mem_cons.mp horigin
    cases hleft : fillIn left toFill with
    | error stop =>
      rw [fillIn, hleft] at hfill
      cases hfill
    | ok r =>
      obtain ⟨leftFilled, leftEntry⟩ := r
      have hdrawn := ih hleft horigin
      rw [fillIn_cons hleft] at hfill
      cases hshard : node.right[node.rightIndex]? with
      | none =>
        simp only [hshard] at hfill
        cases hfill
        exact hdrawn
      | some shard =>
        simp only [hshard] at hfill
        obtain ⟨key, -, hfill⟩ := (bind_eq_ok_iff _ _ _).mp hfill
        split at hfill
        · split at hfill
          · next hwrite =>
            cases hfill
            intro position other hother
            by_cases heq : node.writeIndex = position
            · subst heq
              rw [slotSet, List.getElem?_set_self hwrite] at hother
              cases hother
              exact ⟨mode, set, hset, hindex shard (List.mem_of_getElem? hshard)⟩
            · rw [slotSet, List.getElem?_set_ne heq] at hother
              exact hdrawn position other hother
          · cases hfill
        · cases hfill
          exact hdrawn

theorem drawnFrom_replicate (sets : ShardedInputs Ctx) (setNum : Nat) :
    DrawnFrom sets (List.replicate setNum none) := by
  intro position shard hshard
  have hmem := List.mem_of_getElem? (getElem?_of_slotSet hshard)
  cases List.eq_of_mem_replicate hmem

/-- An entry of the sharding: as long as the inputs, and drawn from them. -/
def ShardOf (sets : ShardedInputs Ctx) (entry : Entry Ctx) : Prop :=
  entry.length = sets.length ∧ DrawnFrom sets entry

theorem shardOf_of_fillIn {it : JoinIterator Ctx} {entry : Entry Ctx} {filled : Bool}
    (h : CutFrom sets it) (hfill : fillIn it (List.replicate sets.length none) = .ok (filled, entry)) :
    ShardOf sets entry := by
  refine ⟨?_, fillIn_drawnFrom h (drawnFrom_replicate sets _) hfill⟩
  rw [length_fillIn hfill, List.length_replicate]

theorem enumerate_shardOf {it : JoinIterator Ctx} (h : CutFrom sets it) :
    Meets (enumerate sets.length it) (fun es => ∀ entry ∈ es, ShardOf sets entry) (fun _ => True) := by
  cases it with
  | nil => exact fun entry hentry => absurd hentry List.not_mem_nil
  | cons node left =>
    rw [enumerate]
    cases hfill : fillIn (node :: left) (List.replicate sets.length none) with
    | error stop => trivial
    | ok r =>
      obtain ⟨filled, entry⟩ := r
      change Meets (loop (enumerateRound sets.length) _ (node :: left, [entry])) _ _
      -- the chain keeps its shape, so that every position of it is cut from the sets
      apply loop_meets_partial (fun s : JoinIterator Ctx × List (Entry Ctx) =>
        shape s.1 = shape (node :: left) ∧ ∀ entry ∈ s.2, ShardOf sets entry) trivial
      · rintro ⟨it', entries⟩ ⟨hs, hentries⟩
        have hsteps := advance_steps (h.live.of_shape hs) (ne_nil_of_shape hs (List.cons_ne_nil _ _))
        apply (hsteps.mono (fun _ h => h) fun _ _ => trivial).bind
        rintro ⟨moved, it''⟩ hstep
        cases moved with
        | false => exact hentries
        | true =>
          have hshape := hstep.1.trans hs
          cases hfill' : fillIn it'' (List.replicate sets.length none) with
          | error stop =>
            simp only [if_true, hfill']
            trivial
          | ok r' =>
            simp only [if_true, hfill']
            refine ⟨hshape, List.forall_mem_append.mpr ⟨hentries, ?_⟩⟩
            intro entry' hentry'
            rw [List.mem_singleton.mp hentry']
            exact shardOf_of_fillIn (h.of_shape hshape) hfill'
      · refine ⟨rfl, fun entry' hentry' => ?_⟩
        rw [List.mem_singleton.mp hentry']
        exact shardOf_of_fillIn h hfill

/-- Every set in an entry of the sharding is for the same set of its contexts as the input set at
its position. -/
theorem getSharding_shardOf (sets : ShardedInputs Ctx) (joinOrder : List Nat)
    (joinStrategies : List JoinStrategy) :
    Meets (getSharding sets joinOrder joinStrategies) (fun es => ∀ entry ∈ es, ShardOf sets entry)
      (fun _ => True) := by
  rw [getSharding]
  split
  · exact fun entry hentry => absurd hentry List.not_mem_nil
  · have hmark : Meets (markJoined ((List.range sets.length).map some) joinOrder) (fun _ => True)
        (fun _ => True) := meets_of_ok fun _ _ => trivial
    apply hmark.bind
    intro missing _
    dsimp only
    split
    · trivial
    · next first rest _ =>
      apply (takeSet_takenFrom (fun _ _ h => h) first).bind
      rintro ⟨set, taken⟩ ⟨htaken, hset⟩
      apply (new_cutFrom cutFrom_nil .outer hset).bind
      intro it hit
      apply (joinAll_cutFrom hit htaken _ _).bind
      intro it' hit'
      exact enumerate_shardOf hit'

end Chains
end Dandelion
