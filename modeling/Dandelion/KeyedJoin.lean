import Dandelion.ChainRuns

/-!
# Runs of a join of two keyed sets

For two keyed sets the chain has two nodes, and everything it does is decided
by the two key lists. Both are strictly decreasing, since keyed sharding walks
a set from its end, while the join steps compare keys as if they increased.
-/

namespace Dandelion

open Outcome JoinIterator CompositionSet

variable {Ctx : Type}

/-- The cursor of a keyed set at position `position`. -/
def cursor (s : CompositionSet Ctx) (mode : JoinStrategy) (writeIndex position key : Nat) :
    JoinNode Ctx :=
  { right := s.shard .key, rightIndex := position, writeIndex, mode, key }

section Cursor

variable (s : CompositionSet Ctx)

@[simp] theorem length_shard_key : (s.shard .key).length = s.keysDesc.length := by
  rw [shard_key, List.length_map]

theorem getElem?_shard_key (p : Nat) : (s.shard .key)[p]? = s.keysDesc[p]?.map s.withKey := by
  rw [shard_key, List.getElem?_map]

theorem keyAt_shard_key {p k : Nat} (h : s.keysDesc[p]? = some k) :
    keyAt (s.shard .key) p = .ok k := by
  have hk : k ∈ s.keys := (s.mem_keysDesc k).mp (List.mem_of_getElem? h)
  have hset : (s.shard .key)[p]? = some (s.withKey k) := by rw [getElem?_shard_key, h]; rfl
  rw [keyAt_eq hset (s.itemList_withKey_ne_nil hk), s.firstKey_withKey hk]
  rfl

theorem keysDesc_ne_nil (hs : s.itemList ≠ []) : s.keysDesc ≠ [] := by
  have h := (s.shard_nonempty .key hs).1
  rwa [shard_key, ne_eq, List.map_eq_nil_iff] at h

variable {s}
variable {w : Nat}

theorem lt_of_getElem? {p k : Nat} (h : s.keysDesc[p]? = some k) : p < (s.shard .key).length := by
  rw [length_shard_key]
  exact (List.getElem?_eq_some_iff.mp h).1

theorem not_lt_of_getElem? {p : Nat} (h : s.keysDesc[p]? = none) : ¬ p < (s.shard .key).length := by
  rw [length_shard_key]
  exact Nat.not_lt.mpr (List.getElem?_eq_none_iff.mp h)

theorem advance_cursor {p k k' : Nat} (hk' : s.keysDesc[p + 1]? = some k') :
    advanceAt 1 [cursor s .outer w p k] = .ok (true, [cursor s .outer w (p + 1) k']) :=
  advanceRoot_next (Or.inr (Or.inl rfl)) (lt_of_getElem? hk') (keyAt_shard_key s hk')

theorem advance_cursor_last {p k : Nat} (hk : s.keysDesc[p]? = some k)
    (hend : s.keysDesc[p + 1]? = none) :
    advanceAt 1 [cursor s .outer w p k] = .ok (false, [cursor s .outer w (p + 1) k]) :=
  advanceRoot_last (Or.inr (Or.inl rfl)) (lt_of_getElem? hk) (not_lt_of_getElem? hend)

theorem advance_cursor_done {p k : Nat} (hend : s.keysDesc[p]? = none) :
    advanceAt 1 [cursor s .outer w p k] = .ok (false, [cursor s .outer w p k]) :=
  advanceRoot_done (not_lt_of_getElem? hend)

theorem live_cursor (hs : s.itemList ≠ []) (p k : Nat) : Live [cursor s .outer w p k] := by
  constructor
  · intro node hnode
    rw [List.mem_singleton.mp hnode]
    exact Shards.of_shard s .key hs
  · intro node hnode
    rw [← Option.some.inj hnode]
    exact ⟨JoinStrategy.noConfusion, JoinStrategy.noConfusion⟩

theorem live_cons_cursor (hs : s.itemList ≠ []) {left : JoinIterator Ctx} (hl : Live left)
    (hne : left ≠ []) (mode : JoinStrategy) (p k : Nat) : Live (cursor s mode w p k :: left) := by
  constructor
  · intro node hnode
    rcases List.mem_cons.mp hnode with rfl | hnode
    · exact Shards.of_shard s .key hs
    · exact hl.shards node hnode
  · intro node hnode
    apply hl.root node
    cases left with
    | nil => exact absurd rfl hne
    | cons l ls => simpa using hnode

/-- What a cursor copies into an entry: its shard, if its key is the one the node
stands for. -/
def shown (s : CompositionSet Ctx) (p k : Nat) : Option (CompositionSet Ctx) :=
  if s.keysDesc[p]? = some k then some (s.withKey k) else none

theorem fillIn_cursor {left : JoinIterator Ctx} {toFill t : Entry Ctx} {b : Bool}
    (hleft : fillIn left toFill = .ok (b, t)) (hw : t[w]? = some none) (mode : JoinStrategy)
    (p k : Nat) :
    ∃ b', fillIn (cursor s mode w p k :: left) toFill = .ok (b', t.set w (shown s p k)) := by
  have hlt : w < t.length := (List.getElem?_eq_some_iff.mp hw).1
  have hsame : t.set w none = t := by
    rw [← (List.getElem?_eq_some_iff.mp hw).2, List.set_getElem_self]
  cases hk : s.keysDesc[p]? with
  | none =>
    refine ⟨b, ?_⟩
    have hset : (s.shard .key)[p]? = none := by rw [getElem?_shard_key, hk]; rfl
    simp only [fillIn, hleft, cursor, hset, shown, hk, reduceCtorEq, if_false, hsame]
    rfl
  | some k' =>
    have hset : (s.shard .key)[p]? = some (s.withKey k') := by rw [getElem?_shard_key, hk]; rfl
    by_cases he : k = k'
    · refine ⟨true, ?_⟩
      simp only [fillIn, hleft, cursor, hset, keyAt_shard_key s hk, shown, hk, he, if_true]
      change (if k' = k' then if w < t.length then _ else crash else _) = _
      rw [if_pos rfl, if_pos hlt]
      rfl
    · refine ⟨b, ?_⟩
      have hne : some k' ≠ some k := fun h => he (Option.some.inj h).symm
      simp only [fillIn, hleft, cursor, hset, keyAt_shard_key s hk, shown, hk, hne, if_false, hsame]
      change (if k = k' then _ else pure (b, t)) = _
      rw [if_neg he]
      rfl

end Cursor

/-- The entry with `x` at position `i`, `y` at position `j` and no other set. -/
def pairEntry (setNum i : Nat) (x : Option (CompositionSet Ctx)) (j : Nat)
    (y : Option (CompositionSet Ctx)) : Entry Ctx :=
  ((List.replicate setNum none).set i x).set j y

section Pair

variable {A B : CompositionSet Ctx} {setNum i j : Nat}

theorem fillIn_pair (hi : i < setNum) (hj : j < setNum) (hij : i ≠ j) (mode : JoinStrategy)
    (p a q b : Nat) :
    ∃ filled, fillIn [cursor B mode j q b, cursor A .outer i p a] (List.replicate setNum none) =
      .ok (filled, pairEntry setNum i (shown A p a) j (shown B q b)) := by
  have hblank : fillIn ([] : JoinIterator Ctx) (List.replicate setNum none) =
      .ok (false, List.replicate setNum none) := rfl
  obtain ⟨b', hleft⟩ := fillIn_cursor (s := A) (w := i) hblank (by simp [hi]) .outer p a
  apply fillIn_cursor hleft
  rw [List.getElem?_set_ne hij]
  simp [hj]

theorem advance_pair (mode : JoinStrategy) (q b : Nat) (l : JoinNode Ctx) :
    advance [cursor B mode j q b, l] = (match mode with
      | .inner => advanceInner (advanceAt 1) (cursor B mode j q b) [l]
      | .left => advanceLeft (advanceAt 1) (cursor B mode j q b) [l]
      | .right => advanceRight (advanceAt 1) (cursor B mode j q b) [l]
      | .outer => advanceOuter (advanceAt 1) (cursor B mode j q b) [l]
      | .cross => advanceCross (advanceAt 1) (cursor B mode j q b) [l]) := by
  cases mode <;> rfl

end Pair
end Dandelion
