import Dandelion.KeyedSharding

/-!
# The inner join of two keyed sets

The constructor of an inner node searches for a first common key, and its
`advance` is meant to continue from there. The search compares keys as if they
increased; on decreasing lists it succeeds only when the two largest keys are
equal. `advance` gives up as soon as the left side can move, and moves past the
last right shard when neither side has another key.
-/

namespace Dandelion

open Outcome JoinIterator CompositionSet

variable {Ctx : Type} {sets : ShardedInputs Ctx} {i j : Nat} {A B : CompositionSet Ctx}

theorem matchRound_found (right : List (CompositionSet Ctx)) (left : JoinIterator Ctx) (fuel q : Nat) :
    loop (matchRound right) (fuel + 1) (q, left.key, left) = .ok (q, left.key, left) := by
  rw [loop_succ, matchRound, if_neg (by simp)]
  rfl

/-- When the first right key is smaller, the search runs the right cursor to its end. -/
theorem match_smaller {a b : Nat} {bs : List Nat} (hb : B.keysDesc = b :: bs) (hlt : b < a)
    (fuel : Nat) (hf : B.keysDesc.length < fuel) :
    ∃ key left, loop (matchRound (B.shard .key)) fuel (0, b, [cursor A .outer i 0 a]) =
      .ok ((B.shard .key).length, key, left) := by
  have hmeets : Meets (loop (matchRound (B.shard .key)) fuel (0, b, [cursor A .outer i 0 a]))
      (fun r => r.1 = (B.shard .key).length) (fun _ => False) := by
    apply loop_meets (fun r => r.2.2 = [cursor A .outer i 0 a] ∧ r.2.1 < a ∧
      r.1 ≤ (B.shard .key).length) (fun r => (B.shard .key).length - r.1)
    · rintro ⟨q, key, left⟩ ⟨hleft, hkey, hq⟩
      simp only at hleft hkey hq
      subst hleft
      by_cases hin : q < (B.shard .key).length
      · have hcond : q < (B.shard .key).length ∧ key ≠ JoinIterator.key [cursor A .outer i 0 a] :=
          ⟨hin, hkey.ne⟩
        have hkey' : key < JoinIterator.key [cursor A .outer i 0 a] := hkey
        rw [matchRound, if_pos hcond, if_pos hkey']
        by_cases hnext : q + 1 < (B.shard .key).length
        · rw [if_pos hnext]
          rw [length_shard_key] at hnext
          have hget := List.getElem?_eq_getElem hnext
          rw [keyAt_shard_key B hget]
          have hmem : B.keysDesc[q + 1] ∈ b :: bs := hb ▸ List.getElem_mem hnext
          have hle : B.keysDesc[q + 1] ≤ b := by
            rcases List.mem_cons.mp hmem with he | hmem
            · exact he.le
            · exact ((head_of_keysDesc hb).2.2 _ hmem).le
          exact ⟨⟨rfl, lt_of_le_of_lt hle hlt, hin⟩, Nat.sub_lt_sub_left hin (Nat.lt_succ_self q)⟩
        · rw [if_neg hnext]
          exact ⟨⟨rfl, hkey, hin⟩, Nat.sub_lt_sub_left hin (Nat.lt_succ_self q)⟩
      · rw [matchRound, if_neg (fun h => hin h.1)]
        exact Nat.le_antisymm hq (Nat.le_of_not_lt hin)
    · exact ⟨rfl, hlt, Nat.zero_le _⟩
    · rw [length_shard_key]
      exact hf
  obtain ⟨⟨q, key, left⟩, hok, hq⟩ := (meets_total_iff _ _).mp hmeets
  simp only at hq
  exact ⟨key, left, hq ▸ hok⟩

/-- When the first right key is larger, the search runs the left cursor to its end. -/
theorem match_larger {a b : Nat} {as : List Nat} (hA : A.itemList ≠ []) (hB : B.itemList ≠ [])
    (ha : A.keysDesc = a :: as) (hlt : a < b) (fuel : Nat)
    (hf : moves [cursor A .outer i 0 a] + (B.shard .key).length < fuel) :
    ∃ key left, loop (matchRound (B.shard .key)) fuel (0, b, [cursor A .outer i 0 a]) =
      .ok ((B.shard .key).length, key, left) := by
  have hpos : 0 < (B.shard .key).length := (Shards.of_shard B .key hB).length_pos
  have hmeets : Meets (loop (matchRound (B.shard .key)) fuel (0, b, [cursor A .outer i 0 a]))
      (fun r => r.1 = (B.shard .key).length) (fun _ => False) := by
    apply loop_meets (fun r => r.1 = (B.shard .key).length ∨ r.1 = 0 ∧ r.2.1 = b ∧
      ∃ p a', r.2.2 = [cursor A .outer i p a'] ∧ A.keysDesc[p]? = some a')
      (fun r => moves r.2.2 + ((B.shard .key).length - r.1))
    · rintro ⟨q, key, left⟩ hinv
      simp only at hinv
      rcases hinv with hq | ⟨rfl, rfl, p, a', rfl, ha'⟩
      · rw [matchRound, if_neg (fun h => absurd hq h.1.ne)]
        exact hq
      · have hmem : a' ∈ a :: as := ha ▸ List.mem_of_getElem? ha'
        have hle : a' ≤ a := by
          rcases List.mem_cons.mp hmem with he | hmem
          · exact he.le
          · exact ((head_of_keysDesc ha).2.2 _ hmem).le
        have hkey : JoinIterator.key [cursor A .outer i p a'] < key := lt_of_le_of_lt hle hlt
        have hstepped := advance_steps (live_cursor (w := i) hA p a') (List.cons_ne_nil _ _)
        rw [matchRound, if_pos ⟨hpos, hkey.ne'⟩, if_neg (by omega)]
        cases hnext : A.keysDesc[p + 1]? with
        | some k' =>
          rw [show advance [cursor A .outer i p a'] = _ from advance_cursor hnext] at hstepped ⊢
          exact ⟨Or.inr ⟨rfl, rfl, p + 1, k', rfl, hnext⟩,
            Nat.add_lt_add_right (Stepped.moves_lt hstepped) _⟩
        | none =>
          rw [show advance [cursor A .outer i p a'] = _ from advance_cursor_last ha' hnext]
            at hstepped ⊢
          refine ⟨Or.inl rfl, ?_⟩
          have hm := Stepped.moves_le hstepped
          simp only
          omega
    · exact Or.inr ⟨rfl, rfl, 0, a, rfl, (head_of_keysDesc ha).1⟩
    · exact hf
  obtain ⟨⟨q, key, left⟩, hok, hq⟩ := (meets_total_iff _ _).mp hmeets
  simp only at hq
  exact ⟨key, left, hq ▸ hok⟩

section Advance

variable {step : JoinIterator Ctx → Join (Bool × JoinIterator Ctx)} {node : JoinNode Ctx}
  {left left' : JoinIterator Ctx}

theorem advanceInner_moved (hlt : node.rightIndex < node.right.length)
    (h : step left = .ok (true, left')) :
    advanceInner step node left = .ok (false, node :: left') := by
  rw [advanceInner, if_neg (Nat.not_le.mpr hlt), h]
  rfl

theorem advanceInner_crash (hlt : node.rightIndex < node.right.length)
    (hend : ¬ node.rightIndex + 1 < node.right.length) (h : step left = .ok (false, left')) :
    advanceInner step node left = crash := by
  have hkey : keyAt node.right (node.rightIndex + 1) = crash := by
    simp [keyAt, List.getElem?_eq_none (Nat.le_of_not_lt hend)]
  rw [advanceInner, if_neg (Nat.not_le.mpr hlt), h]
  change (keyAt node.right (node.rightIndex + 1) >>= _) = _
  rw [hkey]
  rfl

theorem advanceInner_search {k : Nat} (hlt : node.rightIndex < node.right.length)
    (hk : keyAt node.right (node.rightIndex + 1) = .ok k) (h : step left = .ok (false, left')) :
    advanceInner step node left = loop (innerRound step)
      (moves ({ node with rightIndex := node.rightIndex + 1, key := k } :: left') + 1)
      ({ node with rightIndex := node.rightIndex + 1, key := k }, left') := by
  rw [advanceInner, if_neg (Nat.not_le.mpr hlt), h]
  change (keyAt node.right (node.rightIndex + 1) >>= _) = _
  rw [hk]
  rfl

end Advance

/-- Behind the largest right key only smaller ones follow, so the search after a
used-up left side ends without a match. -/
theorem inner_search_fails {a : Nat} (left : JoinIterator Ctx) (hleft : left.key = a) (q k : Nat)
    (hk : B.keysDesc[q]? = some k) (hlt : ∀ k' ∈ B.keysDesc.drop q, k' < a) (fuel : Nat)
    (hf : moves (cursor B .inner j q k :: left) < fuel)
    (step : JoinIterator Ctx → Join (Bool × JoinIterator Ctx)) :
    ∃ it, loop (innerRound step) fuel (cursor B .inner j q k, left) = .ok (false, it) := by
  induction fuel generalizing q k with
  | zero => omega
  | succ fuel ih =>
    have hka : k < a := hlt k (by rw [List.mem_iff_getElem?]; exact ⟨0, by simpa using hk⟩)
    have hgt : ¬ left.key < (cursor B .inner j q k).key := by
      rw [hleft]
      exact Nat.not_lt.mpr hka.le
    have hless : (cursor B .inner j q k).key < left.key := hleft ▸ hka
    rw [loop_succ, innerRound, if_neg hgt, if_pos hless]
    cases hnext : B.keysDesc[q + 1]? with
    | none =>
      have hend : ¬ q + 1 < (B.shard .key).length := not_lt_of_getElem? hnext
      change ∃ it, ((if q + 1 < (B.shard .key).length then _ else _) >>= _) = _
      rw [if_neg hend]
      exact ⟨_, rfl⟩
    | some k' =>
      have hin : q + 1 < (B.shard .key).length := lt_of_getElem? hnext
      change ∃ it, ((if q + 1 < (B.shard .key).length then
        keyAt (B.shard .key) (q + 1) >>= _ else _) >>= _) = _
      rw [if_pos hin, keyAt_shard_key B hnext]
      apply ih (q + 1) k' hnext
      · intro k'' hk''
        exact hlt k'' (List.mem_of_mem_drop (i := 1) (by rwa [List.drop_drop]))
      · have hm : moves (cursor B .inner j (q + 1) k' :: left) + 1 ≤
            moves (cursor B .inner j q k :: left) :=
          moves_lt_of_right rfl (Nat.lt_succ_self q) (lt_of_getElem? hk) (Nat.le_refl _)
        omega

/-- An inner join returns at most the entry of the largest keys, and panics when
each set has a single key and the two are equal. -/
theorem KeyedPair.getSharding_inner (h : KeyedPair sets i j A B) {a b : Nat} {as bs : List Nat}
    (ha : A.keysDesc = a :: as) (hb : B.keysDesc = b :: bs) :
    getSharding sets [i, j] [.inner] =
      if a = b then
        if as = [] ∧ bs = [] then crash else .ok [keyEntry sets.length i A j B (some a, some b)]
      else .ok [] := by
  obtain ⟨ha0, has, -⟩ := head_of_keysDesc ha
  obtain ⟨hb0, hbs, hltb⟩ := head_of_keysDesc hb
  rw [h.getSharding_eq ha, new_key .inner _ h.rightItems hb]
  by_cases hab : a = b
  · subst hab
    have hfound := matchRound_found (B.shard .key) [cursor A .outer i 0 a]
      (moves [cursor A .outer i 0 a] + (B.shard .key).length) 0
    change ((loop _ _ _ >>= _) >>= _) = _
    rw [show (0, a, [cursor A .outer i 0 a]) =
      (0, JoinIterator.key [cursor A .outer i 0 a], [cursor A .outer i 0 a]) from rfl, hfound]
    change ((if 0 = (B.shard .key).length then _ else _) >>= _) = _
    rw [if_neg (lt_of_getElem? hb0).ne, if_pos rfl]
    change enumerate sets.length [cursor B .inner j 0 a, cursor A .outer i 0 a] = _
    obtain ⟨filled, hfill⟩ := fillIn_pair (A := A) (B := B) h.lt_left h.lt_right h.ne .inner 0 a 0 a
    rw [shown_eq ha0, shown_eq hb0] at hfill
    by_cases has' : as = []
    · have hleft := advance_cursor_last (w := i) ha0 (drop_eq_nil (has.trans has'))
      by_cases hbs' : bs = []
      · rw [if_pos ⟨has', hbs'⟩]
        apply enumerate_crash (List.cons_ne_nil _ _) hfill
        rw [advance_pair]
        exact advanceInner_crash (lt_of_getElem? hb0)
          (not_lt_of_getElem? (drop_eq_nil (hbs.trans hbs'))) hleft
      · rw [if_neg (fun h => hbs' h.2)]
        obtain ⟨b', bs, rfl⟩ := List.exists_cons_of_ne_nil hbs'
        obtain ⟨hb1, -⟩ := drop_eq_cons hbs
        obtain ⟨it, hfail⟩ := inner_search_fails (B := B) (j := j) (a := a)
          [cursor A .outer i 1 a] rfl 1 b' hb1 (by rw [hbs]; exact hltb) _
          (Nat.lt_succ_self _) (advanceAt 1)
        apply enumerate_eq (live_pair h .inner) (List.cons_ne_nil _ _) hfill
        apply Visits.stop
        rw [advance_pair]
        exact (advanceInner_search (lt_of_getElem? hb0) (keyAt_shard_key B hb1) hleft).trans hfail
    · rw [if_neg (fun h => has' h.1)]
      obtain ⟨a', as, rfl⟩ := List.exists_cons_of_ne_nil has'
      obtain ⟨ha1, -⟩ := drop_eq_cons has
      apply enumerate_eq (live_pair h .inner) (List.cons_ne_nil _ _) hfill
      apply Visits.stop
      rw [advance_pair]
      exact advanceInner_moved (lt_of_getElem? hb0) (advance_cursor ha1)
  · rw [if_neg hab]
    have hnone : ∃ key left, loop (matchRound (B.shard .key))
        (moves [cursor A .outer i 0 a] + (B.shard .key).length + 1)
        (0, b, [cursor A .outer i 0 a]) = .ok ((B.shard .key).length, key, left) := by
      rcases Nat.lt_or_gt_of_ne hab with hlt | hgt
      · exact match_larger h.leftItems h.rightItems ha hlt _ (Nat.lt_succ_self _)
      · exact match_smaller hb hgt _ (by rw [length_shard_key]; omega)
    obtain ⟨key, left, hloop⟩ := hnone
    change ((loop _ _ _ >>= _) >>= _) = _
    rw [hloop]
    change ((if (B.shard .key).length = (B.shard .key).length then _ else _) >>= _) = _
    rw [if_pos rfl]
    rfl

end Dandelion
