import Dandelion.KeyedJoinRuns

/-!
# `get_sharding` on two keyed sets

The inputs of an application in which exactly two sets have items, both sharded
by key. For each join strategy the call is computed in closed form: the list of
key pairs that meet in its entries, or the panic of the inner join.
-/

namespace Dandelion

open Outcome JoinIterator CompositionSet

variable {Ctx : Type}

/-- Among the inputs only `A` at position `i` and `B` at position `j` have items,
and both are sharded by key. -/
structure KeyedPair (sets : ShardedInputs Ctx) (i j : Nat) (A B : CompositionSet Ctx) : Prop where
  left : sets[i]? = some (some (.key, A))
  right : sets[j]? = some (some (.key, B))
  ne : i ≠ j
  leftItems : A.itemList ≠ []
  rightItems : B.itemList ≠ []
  others : ∀ k, k ≠ i → k ≠ j → ∀ mode set, sets[k]? = some (some (mode, set)) → set.itemList = []

theorem new_key (mode : JoinStrategy) (it : JoinIterator Ctx) {s : CompositionSet Ctx} {k : Nat}
    {ks : List Nat} (hs : s.itemList ≠ []) (hk : s.keysDesc = k :: ks) (w : Nat) :
    JoinIterator.new mode it (some (.key, s)) w = (match it with
      | [] =>
        if mode = .inner ∨ mode = .left then pure []
        else pure [cursor s mode w 0 k]
      | l :: ls =>
        match mode with
        | .inner => do
          let (rightIndex, key, left) ←
            loop (matchRound (s.shard .key)) (moves (l :: ls) + (s.shard .key).length + 1)
              (0, k, l :: ls)
          if rightIndex = (s.shard .key).length then pure []
          else pure (cursor s mode w 0 key :: left)
        | .left => do
          let rightIndex ← skipBelow (s.shard .key) l.key 0
          if rightIndex = (s.shard .key).length then pure (l :: ls)
          else pure (cursor s mode w 0 l.key :: l :: ls)
        | .outer => pure (cursor s mode w 0 (if l.key < k then l.key else k) :: l :: ls)
        | .right | .cross => pure (cursor s mode w 0 k :: l :: ls)) := by
  have hkey : keyAt (s.shard .key) 0 = .ok k := keyAt_shard_key s (by rw [hk]; rfl)
  rw [new_shards mode it hs hkey w]
  cases it with
  | nil => rfl
  | cons l ls => cases mode <;> rfl

section Chain

variable {sets : ShardedInputs Ctx} {i j : Nat} {A B : CompositionSet Ctx}

theorem KeyedPair.lt_left (h : KeyedPair sets i j A B) : i < sets.length :=
  (List.getElem?_eq_some_iff.mp h.left).1

theorem KeyedPair.lt_right (h : KeyedPair sets i j A B) : j < sets.length :=
  (List.getElem?_eq_some_iff.mp h.right).1

/-- The call joins `B` onto the cursor of `A` and enumerates that chain. -/
theorem KeyedPair.getSharding_eq (h : KeyedPair sets i j A B) {a : Nat} {as : List Nat}
    (ha : A.keysDesc = a :: as) (strategy : JoinStrategy) :
    getSharding sets [i, j] [strategy] =
      JoinIterator.new strategy [cursor A .outer i 0 a] (some (.key, B)) j >>=
        enumerate sets.length := by
  have hi := h.lt_left
  have hj := h.lt_right
  have hne := h.ne
  rw [Dandelion.getSharding_eq sets [i, j] [strategy] (by omega) (by simp [hne])
    (by simp [hi, hj])]
  congr 1
  have hstrategies : fullStrategies sets.length [strategy] =
      .outer :: strategy :: List.replicate (sets.length - 2) .cross := by
    obtain ⟨n, hn⟩ : ∃ n, sets.length = n + 2 := ⟨sets.length - 2, by omega⟩
    simp [fullStrategies, resize, hn]
  rw [hstrategies, fullOrder]
  simp only [List.cons_append, List.nil_append, List.zip_cons_cons, joinFrom, h.left, h.right,
    Option.getD_some, new_key .outer [] h.leftItems ha]
  change (JoinIterator.new strategy [cursor A .outer i 0 a] (some (.key, B)) j >>= _) = _
  cases JoinIterator.new strategy [cursor A .outer i 0 a] (some (.key, B)) j with
  | error stop => rfl
  | ok it =>
    apply joinFrom_empty
    intro p hp mode set hset
    have hmem := (List.of_mem_zip hp).1
    simp only [List.mem_filter, List.mem_cons, List.not_mem_nil, or_false, decide_eq_true_eq,
      not_or] at hmem
    exact h.others p.1 hmem.2.1 hmem.2.2 mode set hset

theorem pairEntry_none (setNum : Nat) (hij : i ≠ j) (x : Option (CompositionSet Ctx)) :
    pairEntry setNum i x j none = (List.replicate setNum none).set i x := by
  apply List.ext_getElem?
  intro k
  simp only [pairEntry, List.getElem?_set, List.length_set, List.length_replicate,
    List.getElem?_replicate]
  by_cases hk : j = k
  · subst hk
    by_cases hlt : j < setNum <;> simp [hij, hlt]
  · simp [hk]

theorem visits_root {setNum : Nat} (hi : i < setNum) (hij : i ≠ j) (rest : List Nat) (p a : Nat)
    (ha : A.keysDesc[p]? = some a) (hrest : A.keysDesc.drop (p + 1) = rest) :
    Visits setNum [cursor A .outer i p a]
      (rest.map (fun k => keyEntry setNum i A j B (some k, none))) := by
  induction rest generalizing p a with
  | nil => exact Visits.stop (advance_cursor_last ha (drop_eq_nil hrest))
  | cons k rest ih =>
    obtain ⟨hk, hrest⟩ := drop_eq_cons hrest
    have hblank : fillIn ([] : JoinIterator Ctx) (List.replicate setNum none) =
        .ok (false, List.replicate setNum none) := rfl
    obtain ⟨filled, hfill⟩ := fillIn_cursor (s := A) (w := i) hblank (by simp [hi]) .outer (p + 1) k
    rw [shown_eq hk, ← pairEntry_none setNum hij] at hfill
    exact Visits.step (advance_cursor hk) hfill (ih (p + 1) k hk hrest)

def leftKeys : List Nat → List Nat → List (Option Nat × Option Nat)
  | a :: as, b :: _ => (some a, if a = b then some b else none) :: as.map (fun k => (some k, none))
  | _, _ => []

/-- The keys a right join pairs: the largest left key with every right key, until
a right key other than the first is larger. -/
def rightKeys : List Nat → List Nat → List (Option Nat × Option Nat)
  | a :: _, b :: bs =>
    (some a, some b) :: bs.map (fun k => (if bs.head?.all (· ≤ a) then some a else none, some k))
  | _, _ => []

theorem head_of_keysDesc {s : CompositionSet Ctx} {k : Nat} {ks : List Nat}
    (h : s.keysDesc = k :: ks) : s.keysDesc[0]? = some k ∧ s.keysDesc.drop 1 = ks ∧ ∀ k' ∈ ks, k' < k := by
  have hsorted := s.keysDesc_sorted
  rw [h] at hsorted ⊢
  exact ⟨rfl, rfl, fun k' hk' => List.rel_of_pairwise_cons hsorted hk'⟩

theorem live_pair {w p a q b : Nat} (h : KeyedPair sets i j A B) (mode : JoinStrategy) :
    Live [cursor B mode w q b, cursor A .outer i p a] :=
  live_cons_cursor h.rightItems (live_cursor h.leftItems p a) (List.cons_ne_nil _ _) mode q b

theorem skipBelow_end {k : Nat} {ks : List Nat} {bound : Nat} (hs : B.itemList ≠ [])
    (hk : B.keysDesc = k :: ks) (hlt : k < bound) :
    skipBelow (B.shard .key) bound 0 = .ok (B.shard .key).length := by
  obtain ⟨index, hok, -, hle, -, hbound⟩ :=
    (meets_total_iff _ _).mp (skipBelow_meets (Shards.of_shard B .key hs) bound 0)
  obtain ⟨-, -, hks⟩ := head_of_keysDesc hk
  have hend : index = (B.shard .key).length := by
    rcases Nat.lt_or_eq_of_le (hle (Nat.zero_le _)) with hin | heq
    · have hge := hbound hin
      rw [length_shard_key] at hin
      have hget : (B.shard .key)[index]? = some (B.withKey B.keysDesc[index]) := by
        rw [getElem?_shard_key, List.getElem?_eq_getElem hin]
        rfl
      rw [(List.getElem?_eq_some_iff.mp hget).2] at hge
      generalize hk' : B.keysDesc[index] = k' at hge
      have hmem : k' ∈ B.keysDesc := hk' ▸ List.getElem_mem hin
      rw [B.firstKey_withKey ((B.mem_keysDesc k').mp hmem)] at hge
      rw [hk] at hmem
      have hle' : k' ≤ k := by
        rcases List.mem_cons.mp hmem with heq | hmem
        · exact heq.le
        · exact (hks k' hmem).le
      omega
    · exact heq
  rw [hok, hend]

theorem KeyedPair.getSharding_left (h : KeyedPair sets i j A B) :
    getSharding sets [i, j] [.left] =
      .ok ((leftKeys A.keysDesc B.keysDesc).map (keyEntry sets.length i A j B)) := by
  obtain ⟨a, as, ha⟩ := List.exists_cons_of_ne_nil (keysDesc_ne_nil A h.leftItems)
  obtain ⟨b, bs, hb⟩ := List.exists_cons_of_ne_nil (keysDesc_ne_nil B h.rightItems)
  obtain ⟨ha0, has, hlta⟩ := head_of_keysDesc ha
  obtain ⟨hb0, -, -⟩ := head_of_keysDesc hb
  rw [h.getSharding_eq ha, new_key .left _ h.rightItems hb, ha, hb, leftKeys, List.map_cons,
    List.map_map]
  by_cases hlt : b < a
  · -- every right key is below the first left key, so the right set is dropped
    rw [if_neg hlt.ne']
    change ((skipBelow (B.shard .key) a 0 >>= _) >>= _) = _
    rw [skipBelow_end h.rightItems hb hlt]
    change ((if (B.shard .key).length = (B.shard .key).length then _ else _) >>= _) = _
    rw [if_pos rfl]
    change enumerate sets.length [cursor A .outer i 0 a] = _
    have hblank : fillIn ([] : JoinIterator Ctx) (List.replicate sets.length none) =
        .ok (false, List.replicate sets.length none) := rfl
    obtain ⟨filled, hfill⟩ := fillIn_cursor (s := A) (w := i) hblank (by simp [h.lt_left]) .outer 0 a
    rw [shown_eq ha0, ← pairEntry_none sets.length h.ne] at hfill
    exact enumerate_eq (live_cursor h.leftItems 0 a) (List.cons_ne_nil _ _) hfill
      (visits_root h.lt_left h.ne as 0 a ha0 has)
  · have hstay : skipBelow (B.shard .key) a 0 = .ok 0 :=
      skipBelow_stay (lt_of_getElem? hb0) (keyAt_shard_key B hb0) (by omega)
    have hpos : 0 ≠ (B.shard .key).length := (lt_of_getElem? hb0).ne
    change ((skipBelow (B.shard .key) a 0 >>= _) >>= _) = _
    rw [hstay]
    change ((if 0 = (B.shard .key).length then _ else _) >>= _) = _
    rw [if_neg hpos]
    change enumerate sets.length [cursor B .left j 0 a, cursor A .outer i 0 a] = _
    obtain ⟨filled, hfill⟩ := fillIn_pair (A := A) (B := B) h.lt_left h.lt_right h.ne .left 0 a 0 a
    have hshown : shown B 0 a = (if a = b then some b else none).map B.withKey := by
      by_cases hab : a = b
      · rw [if_pos hab, hab, shown_eq hb0]
        rfl
      · rw [if_neg hab, shown_ne hb0 (Ne.symm hab)]
        rfl
    rw [shown_eq ha0, hshown] at hfill
    exact enumerate_eq (live_pair h .left) (List.cons_ne_nil _ _) hfill
      (visits_left h.lt_left h.lt_right h.ne hb0 as 0 a ha0 has
        (fun k hk => lt_of_lt_of_le (hlta k hk) (by omega)))

theorem KeyedPair.getSharding_right (h : KeyedPair sets i j A B) :
    getSharding sets [i, j] [.right] =
      .ok ((rightKeys A.keysDesc B.keysDesc).map (keyEntry sets.length i A j B)) := by
  obtain ⟨a, as, ha⟩ := List.exists_cons_of_ne_nil (keysDesc_ne_nil A h.leftItems)
  obtain ⟨b, bs, hb⟩ := List.exists_cons_of_ne_nil (keysDesc_ne_nil B h.rightItems)
  obtain ⟨ha0, has, hlta⟩ := head_of_keysDesc ha
  obtain ⟨hb0, hbs, -⟩ := head_of_keysDesc hb
  rw [h.getSharding_eq ha, new_key .right _ h.rightItems hb, ha, hb, rightKeys, List.map_cons,
    List.map_map]
  change enumerate sets.length [cursor B .right j 0 b, cursor A .outer i 0 a] = _
  obtain ⟨filled, hfill⟩ := fillIn_pair (A := A) (B := B) h.lt_left h.lt_right h.ne .right 0 a 0 b
  rw [shown_eq ha0, shown_eq hb0] at hfill
  apply enumerate_eq (live_pair h .right) (List.cons_ne_nil _ _) hfill
  have hsorted := B.keysDesc_sorted
  rw [hb] at hsorted
  cases bs with
  | nil => exact visits_right h.lt_left h.lt_right h.ne [] (by simp) 0 b hb0 hbs
  | cons b' bs =>
    obtain ⟨hb1, hbs1⟩ := drop_eq_cons hbs
    have hdesc : ∀ k ∈ bs, k < b' :=
      fun k hk => List.rel_of_pairwise_cons (List.pairwise_cons.mp hsorted).2 hk
    by_cases hle : b' ≤ a
    · have hkeep : ∀ k ∈ b' :: bs, k ≤ a := by
        intro k hk
        rcases List.mem_cons.mp hk with rfl | hk
        · exact hle
        · exact (hdesc k hk).le.trans hle
      have hv := visits_right (A := A) (B := B) (a := a) (p := 0) h.lt_left h.lt_right h.ne (b' :: bs)
        (fun k hk => catchUp_stay (hkeep k hk)) 0 b hb0 hbs
      rw [shown_eq ha0] at hv
      simp only [List.head?_cons, Option.all_some, hle, decide_true, if_true]
      exact hv
    · -- the second right key is larger than all left keys and uses them up
      obtain ⟨last, hcatch⟩ := catchUp_exhaust (A := A) (i := i) (k := b') as 0 a ha0 has (by omega)
        (fun k hk => (hlta k hk).trans (by omega)) (moves [cursor A .outer i 0 a] + 1)
        (by simp only [moves, cursor, length_shard_key, ha, List.length_cons]; omega)
      have hdone : A.keysDesc[A.keysDesc.length]? = none := List.getElem?_eq_none (Nat.le_refl _)
      have hadv : advance [cursor B .right j 0 b, cursor A .outer i 0 a] =
          .ok (true, [cursor B .right j 1 b', cursor A .outer i A.keysDesc.length last]) := by
        rw [advance_pair]
        exact advanceRight_next (lt_of_getElem? hb1) (keyAt_shard_key B hb1) hcatch
      obtain ⟨filled, hfill⟩ := fillIn_pair (A := A) (B := B) h.lt_left h.lt_right h.ne .right
        A.keysDesc.length last 1 b'
      have hv := visits_right (A := A) (B := B) (a := last) h.lt_left h.lt_right h.ne bs
        (fun k _ => catchUp_done hdone) 1 b' hb1 hbs1
      rw [shown_done hdone, shown_eq hb1] at hfill
      rw [shown_done hdone] at hv
      simp only [List.head?_cons, Option.all_some, hle, decide_false, Bool.false_eq_true, if_false,
        List.map_cons]
      exact Visits.step hadv hfill hv

theorem KeyedPair.getSharding_outer (h : KeyedPair sets i j A B) :
    getSharding sets [i, j] [.outer] =
      .ok ((outerKeys A.keysDesc B.keysDesc).map (keyEntry sets.length i A j B)) := by
  obtain ⟨a, as, ha⟩ := List.exists_cons_of_ne_nil (keysDesc_ne_nil A h.leftItems)
  obtain ⟨b, bs, hb⟩ := List.exists_cons_of_ne_nil (keysDesc_ne_nil B h.rightItems)
  obtain ⟨ha0, has, -⟩ := head_of_keysDesc ha
  obtain ⟨hb0, hbs, hltb⟩ := head_of_keysDesc hb
  rw [h.getSharding_eq ha, new_key .outer _ h.rightItems hb, ha, hb, outerKeys, List.map_cons]
  change enumerate sets.length [cursor B .outer j 0 (if a < b then a else b), cursor A .outer i 0 a] = _
  obtain ⟨filled, hfill⟩ := fillIn_pair (A := A) (B := B) h.lt_left h.lt_right h.ne .outer 0 a 0
    (if a < b then a else b)
  have hshown : shown B 0 (if a < b then a else b) =
      (if a < b then none else some b).map B.withKey := by
    by_cases hab : a < b
    · rw [if_pos hab, if_pos hab, shown_ne hb0 (by omega)]
      rfl
    · rw [if_neg hab, if_neg hab, shown_eq hb0]
      rfl
  rw [shown_eq ha0, hshown] at hfill
  exact enumerate_eq (live_pair h .outer) (List.cons_ne_nil _ _) hfill
    (visits_outer h.lt_left h.lt_right h.ne as bs 0 a b _ ha0 hb0 has hbs hltb)

end Chain
end Dandelion
