import Dandelion.ShardingOrder

/-!
# Runs of a chain

A run of a chain is the list of entries that the `advance` loop of
`get_sharding` collects. The constructor and the steps of a single cursor are
computed here for any kind of shards.
-/

namespace Dandelion

open Outcome JoinIterator

variable {Ctx : Type}

/-- The entries a chain goes through after its current position. -/
inductive Visits (setNum : Nat) : JoinIterator Ctx → List (Entry Ctx) → Prop where
  | stop {it it' : JoinIterator Ctx} (h : advance it = .ok (false, it')) : Visits setNum it []
  | step {it it' : JoinIterator Ctx} {filled : Bool} {entry : Entry Ctx} {es : List (Entry Ctx)}
      (h : advance it = .ok (true, it'))
      (hfill : fillIn it' (List.replicate setNum none) = .ok (filled, entry))
      (hrest : Visits setNum it' es) : Visits setNum it (entry :: es)

theorem loop_enumerateRound {setNum : Nat} {it : JoinIterator Ctx} {es : List (Entry Ctx)}
    (hv : Visits setNum it es) (hlive : Live it) (hne : it ≠ []) (fuel : Nat)
    (hf : moves it < fuel) (acc : List (Entry Ctx)) :
    loop (enumerateRound setNum) fuel (it, acc) = .ok (acc ++ es) := by
  induction hv generalizing fuel acc with
  | stop h =>
    obtain ⟨fuel, rfl⟩ := Nat.exists_eq_add_of_lt hf
    rw [loop_succ, enumerateRound, h, List.append_nil]
    rfl
  | @step it it' filled entry es h hfill hrest ih =>
    cases fuel with
    | zero => omega
    | succ fuel =>
      have hstep := stepped_of_advance hlive hne h
      have hrun := ih (hlive.of_shape hstep.1) (ne_nil_of_shape hstep.1 hne) fuel
        (by have := hstep.moves_lt; omega) (acc ++ [entry])
      rw [List.append_assoc, List.singleton_append] at hrun
      rw [loop_succ, enumerateRound, h]
      change (fillIn it' (List.replicate setNum none) >>= _) >>= _ = _
      rw [hfill]
      exact hrun

/-- `get_sharding` returns the entry of the first position and of every position
the chain visits. -/
theorem enumerate_eq {setNum : Nat} {it : JoinIterator Ctx} {filled : Bool} {entry : Entry Ctx}
    {es : List (Entry Ctx)} (hlive : Live it) (hne : it ≠ [])
    (hfill : fillIn it (List.replicate setNum none) = .ok (filled, entry))
    (hv : Visits setNum it es) : enumerate setNum it = .ok (entry :: es) := by
  cases it with
  | nil => exact absurd rfl hne
  | cons node left =>
    rw [enumerate, hfill]
    exact loop_enumerateRound hv hlive hne _ (Nat.lt_succ_self _) [entry]

theorem enumerate_crash {setNum : Nat} {it : JoinIterator Ctx} {filled : Bool} {entry : Entry Ctx}
    (hne : it ≠ []) (hfill : fillIn it (List.replicate setNum none) = .ok (filled, entry))
    (h : advance it = crash) : enumerate setNum it = crash := by
  cases it with
  | nil => exact absurd rfl hne
  | cons node left =>
    rw [enumerate, hfill]
    change loop _ _ _ = _
    rw [loop_succ, enumerateRound, h]
    rfl

/-- `fill_in` of a node, once its left side is filled in. -/
theorem fillIn_cons {node : JoinNode Ctx} {left : JoinIterator Ctx} {toFill entry : Entry Ctx}
    {filled : Bool} (hl : fillIn left toFill = .ok (filled, entry)) :
    fillIn (node :: left) toFill = (match node.right[node.rightIndex]? with
      | none => .ok (filled, entry)
      | some shard => do
        if node.key = (← keyAt node.right node.rightIndex) then
          if node.writeIndex < entry.length then
            .ok (true, entry.set node.writeIndex (some shard))
          else crash
        else .ok (filled, entry)) := by
  rw [fillIn, hl]
  cases node.right[node.rightIndex]? <;> rfl

theorem length_fillIn {it : JoinIterator Ctx} {toFill entry : Entry Ctx} {filled : Bool}
    (h : fillIn it toFill = .ok (filled, entry)) : entry.length = toFill.length := by
  induction it generalizing filled entry with
  | nil =>
    cases h
    rfl
  | cons node left ih =>
    cases hl : fillIn left toFill with
    | error stop =>
      rw [fillIn, hl] at h
      cases h
    | ok r =>
      obtain ⟨leftFilled, e⟩ := r
      have hlen := ih hl
      rw [fillIn_cons hl] at h
      cases hs : node.right[node.rightIndex]? with
      | none =>
        simp only [hs] at h
        cases h
        exact hlen
      | some shard =>
        simp only [hs] at h
        cases hk : keyAt node.right node.rightIndex with
        | error stop =>
          rw [hk] at h
          cases h
        | ok k =>
          rw [hk] at h
          change (if node.key = k then _ else _) = _ at h
          split at h
          · split at h
            · cases h
              rw [List.length_set, hlen]
            · cases h
          · cases h
            exact hlen

section Root

variable {node : JoinNode Ctx}
  (hm : node.mode = .right ∨ node.mode = .outer ∨ node.mode = .cross)
include hm

theorem advanceRoot_next {k : Nat} (hlt : node.rightIndex + 1 < node.right.length)
    (hk : keyAt node.right (node.rightIndex + 1) = .ok k) :
    advanceRoot node = .ok (true, [{ node with rightIndex := node.rightIndex + 1, key := k }]) := by
  rw [advanceRoot, if_pos (Nat.lt_of_succ_lt hlt), if_pos hm, if_pos hlt, hk]
  rfl

theorem advanceRoot_last (hlt : node.rightIndex < node.right.length)
    (hend : ¬ node.rightIndex + 1 < node.right.length) :
    advanceRoot node = .ok (false, [{ node with rightIndex := node.rightIndex + 1 }]) := by
  rw [advanceRoot, if_pos hlt, if_pos hm, if_neg hend]
  rfl

end Root

theorem advanceRoot_done {node : JoinNode Ctx} (hend : ¬ node.rightIndex < node.right.length) :
    advanceRoot node = .ok (false, [node]) := by
  rw [advanceRoot, if_neg hend]
  rfl

section New

theorem new_empty (mode : JoinStrategy) (it : JoinIterator Ctx) (setMode : ShardingMode)
    {set : CompositionSet Ctx} (h : set.itemList = []) (w : Nat) :
    JoinIterator.new mode it (some (setMode, set)) w = .ok it := by
  have he : set.isEmpty = true := by rw [CompositionSet.isEmpty, h]; rfl
  simp only [JoinIterator.new, he, if_true]
  rfl

/-- A set with no items leaves the chain as it is, whatever the strategy. -/
theorem joinFrom_empty (sets : ShardedInputs Ctx) (it : JoinIterator Ctx)
    (order : List (Nat × JoinStrategy))
    (h : ∀ p ∈ order, ∀ mode set, sets[p.1]? = some (some (mode, set)) → set.itemList = []) :
    joinFrom sets it order = .ok it := by
  induction order with
  | nil => rfl
  | cons p order ih =>
    have hnew : JoinIterator.new p.2 it (sets[p.1]?.getD none) p.1 = .ok it := by
      rcases hs : sets[p.1]? with _ | _ | ⟨mode, set⟩
      · rfl
      · rfl
      · exact new_empty p.2 it mode (h p List.mem_cons_self mode set hs) p.1
    obtain ⟨index, strategy⟩ := p
    rw [joinFrom, hnew]
    exact ih (fun q hq => h q (List.mem_cons_of_mem _ hq))

theorem isEmpty_eq_false {s : CompositionSet Ctx} (hs : s.itemList ≠ []) : s.isEmpty = false := by
  cases hl : s.itemList with
  | nil => exact absurd hl hs
  | cons item rest => simp [CompositionSet.isEmpty, hl]

theorem new_shards (mode : JoinStrategy) (it : JoinIterator Ctx) {s : CompositionSet Ctx}
    {setMode : ShardingMode} {k : Nat} (hs : s.itemList ≠ [])
    (hk : keyAt (s.shard setMode) 0 = .ok k) (w : Nat) :
    JoinIterator.new mode it (some (setMode, s)) w = (match it with
      | [] =>
        if mode = .inner ∨ mode = .left then pure []
        else pure [⟨s.shard setMode, 0, w, mode, k⟩]
      | l :: ls =>
        match mode with
        | .inner => do
          let (rightIndex, key, left) ←
            loop (matchRound (s.shard setMode)) (moves (l :: ls) + (s.shard setMode).length + 1)
              (0, k, l :: ls)
          if rightIndex = (s.shard setMode).length then pure []
          else pure (⟨s.shard setMode, 0, w, mode, key⟩ :: left)
        | .left => do
          let rightIndex ← skipBelow (s.shard setMode) l.key 0
          if rightIndex = (s.shard setMode).length then pure (l :: ls)
          else pure (⟨s.shard setMode, 0, w, mode, l.key⟩ :: l :: ls)
        | .outer =>
          pure (⟨s.shard setMode, 0, w, mode, if l.key < k then l.key else k⟩ :: l :: ls)
        | .right | .cross => pure (⟨s.shard setMode, 0, w, mode, k⟩ :: l :: ls)) := by
  have hne : (s.shard setMode).isEmpty = false := by
    rw [List.isEmpty_eq_false_iff]
    exact (s.shard_nonempty setMode hs).1
  simp only [JoinIterator.new, isEmpty_eq_false hs, hne, Bool.false_eq_true, if_false, hk]
  cases it with
  | nil => rfl
  | cons l ls => cases mode <;> rfl

end New
end Dandelion
