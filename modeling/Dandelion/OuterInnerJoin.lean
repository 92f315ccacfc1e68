import Dandelion.JoinCorrectness

/-!
# Outer and inner joins of keyed sets

The outer join stops at the first key that the two sets do not share, and the
inner join never looks past the largest keys. Both therefore agree with their
description on few inputs, which are given here.
-/

namespace Dandelion

open Outcome JoinIterator CompositionSet

variable {Ctx : Type} {sets : ShardedInputs Ctx} {i j : Nat} {A B : CompositionSet Ctx}

section Outer

/-- The sides on which `k` occurs, for two key lists. -/
def listPair (as bs : List Nat) (k : Nat) : Option Nat × Option Nat :=
  (if k ∈ as then some k else none, if k ∈ bs then some k else none)

/-- On decreasing lists the pairs of `outerKeys` are those of the full outer join
exactly when the lists agree until the right one ends, or until the left one ends
with one right key to go. -/
theorem outerKeys_iff (as bs : List Nat) (has : as.Pairwise (· > ·)) (hbs : bs.Pairwise (· > ·)) :
    (outerKeys as bs : Multiset (Option Nat × Option Nat)) =
        (as.toFinset ∪ bs.toFinset).val.map (listPair as bs) ↔
      bs <+: as ∨ (as <+: bs ∧ bs.length = as.length + 1) := by
  have hnodup : ∀ l : List Nat, l.Pairwise (· > ·) → l.toFinset.val = (l : Multiset Nat) := by
    intro l hl
    rw [List.toFinset_val, List.dedup_eq_self.mpr (hl.imp (fun h => h.ne'))]
  induction as generalizing bs with
  | nil =>
    cases bs with
    | nil => simp [outerKeys]
    | cons b bs =>
      rw [List.toFinset_nil, Finset.empty_union, hnodup _ hbs, Multiset.map_coe]
      simp only [outerKeys, List.prefix_nil, reduceCtorEq, List.nil_prefix, true_and, false_or,
        List.length_cons, List.length_nil]
      constructor
      · intro he
        simpa using congrArg Multiset.card he.symm
      · intro hlen
        have hnil : bs = [] := List.length_eq_zero_iff.mp (by omega)
        simp [hnil, listPair]
  | cons a as ih =>
    cases bs with
    | nil =>
      rw [List.toFinset_nil, Finset.union_empty, hnodup _ has, Multiset.map_coe, outerKeys_nil_right]
      simp only [List.nil_prefix, true_or, iff_true]
      congr 1
      apply List.map_congr_left
      intro k hk
      simp [listPair, hk]
    | cons b bs =>
      obtain ⟨hlta, has'⟩ := List.pairwise_cons.mp has
      obtain ⟨hltb, hbs'⟩ := List.pairwise_cons.mp hbs
      by_cases hab : a = b
      · subst hab
        have hnot : a ∉ as.toFinset ∪ bs.toFinset := by
          rw [Finset.mem_union, List.mem_toFinset, List.mem_toFinset]
          rintro (h | h)
          · exact absurd (hlta a h) (by simp)
          · exact absurd (hltb a h) (by simp)
        have hunion : (a :: as).toFinset ∪ (a :: bs).toFinset = insert a (as.toFinset ∪ bs.toFinset) := by
          ext k
          simp only [List.toFinset_cons, Finset.mem_union, Finset.mem_insert, List.mem_toFinset]
          tauto
        have hrest : (as.toFinset ∪ bs.toFinset).val.map (listPair (a :: as) (a :: bs)) =
            (as.toFinset ∪ bs.toFinset).val.map (listPair as bs) := by
          apply Multiset.map_congr rfl
          intro k hk
          have hne : k ≠ a := fun he => hnot (he ▸ hk)
          simp [listPair, hne]
        rw [hunion, Finset.insert_val_of_notMem hnot, Multiset.map_cons, hrest, outerKeys, if_pos rfl,
          if_neg (Nat.lt_irrefl a)]
        have hhead : listPair (a :: as) (a :: bs) a = (some a, some a) := by simp [listPair]
        rw [hhead, ← Multiset.cons_coe, Multiset.cons_inj_right]
        refine (ih bs has' hbs').trans ?_
        simp only [List.cons_prefix_cons, true_and, List.length_cons, Nat.add_right_cancel_iff]
      · have hcard : 2 ≤ ((a :: as).toFinset ∪ (b :: bs).toFinset).card := by
          have hsub : ({a, b} : Finset Nat) ⊆ (a :: as).toFinset ∪ (b :: bs).toFinset := by
            intro k hk
            simp only [Finset.mem_insert, Finset.mem_singleton] at hk
            rcases hk with rfl | rfl <;> simp
          exact (Finset.card_pair hab).symm.le.trans (Finset.card_le_card hsub)
        simp only [List.cons_prefix_cons, hab, Ne.symm hab, false_and, or_self, iff_false]
        intro he
        have hc := congrArg Multiset.card he
        rw [outerKeys, if_neg hab, Multiset.card_map, Multiset.coe_card, List.length_cons,
          List.length_nil] at hc
        change 0 + 1 = ((a :: as).toFinset ∪ (b :: bs).toFinset).card at hc
        omega


theorem occurs_outerKeys {p : Option Nat × Option Nat} (as bs : List Nat)
    (has : ∀ k ∈ as, k ∈ A.keys) (hbs : ∀ k ∈ bs, k ∈ B.keys) (hp : p ∈ outerKeys as bs) :
    Occurs A B p := by
  induction as generalizing bs with
  | nil =>
    cases bs with
    | nil => simp [outerKeys] at hp
    | cons b bs =>
      rw [outerKeys, List.mem_singleton] at hp
      subst hp
      refine ⟨fun k hk => by simp at hk, fun k hk => ?_⟩
      rw [← Option.some.inj hk]
      exact hbs b List.mem_cons_self
  | cons a as ih =>
    cases bs with
    | nil =>
      rw [outerKeys_nil_right] at hp
      obtain ⟨k', hk', rfl⟩ := List.mem_map.mp hp
      refine ⟨fun k hk => ?_, fun k hk => by simp at hk⟩
      rw [← Option.some.inj hk]
      exact has k' hk'
    | cons b bs =>
      rw [outerKeys] at hp
      rcases List.mem_cons.mp hp with rfl | hp
      · refine ⟨fun k hk => ?_, fun k hk => ?_⟩
        · rw [← Option.some.inj hk]
          exact has a List.mem_cons_self
        · split at hk
          · simp at hk
          · rw [← Option.some.inj hk]
            exact hbs b List.mem_cons_self
      · split at hp
        · exact ih bs (fun k hk => has k (List.mem_cons_of_mem a hk))
            (fun k hk => hbs k (List.mem_cons_of_mem b hk)) hp
        · simp at hp

theorem toFinset_keysDesc (s : CompositionSet Ctx) : s.keysDesc.toFinset = s.keySet := by
  ext k
  rw [List.mem_toFinset, mem_keysDesc, mem_keySet]

/-- `get_sharding` returns the outer join of two keyed sets exactly when the keys,
from the largest down, agree until those of the right set end, or until those of
the left set end with one right key to go. -/
theorem outer_join_iff (h : KeyedPair sets i j A B) :
    (∃ es, getSharding sets [i, j] [.outer] = .ok es ∧
      JoinsOver sets.length i A j B (A.keySet ∪ B.keySet) es) ↔
    B.keysDesc <+: A.keysDesc ∨
      (A.keysDesc <+: B.keysDesc ∧ B.keysDesc.length = A.keysDesc.length + 1) := by
  have hoccurs : ∀ p ∈ outerKeys A.keysDesc B.keysDesc, Occurs A B p := fun p =>
    occurs_outerKeys _ _ (fun k => (mem_keysDesc A k).mp) (fun k => (mem_keysDesc B k).mp)
  have hpair : listPair A.keysDesc B.keysDesc = keyPair A B := by
    funext k
    simp only [listPair, keyPair, mem_keysDesc]
  rw [exists_ok_iff h.getSharding_outer, joinsOver_iff h.lt_left h.lt_right h.ne hoccurs,
    ← toFinset_keysDesc A, ← toFinset_keysDesc B, ← hpair]
  exact outerKeys_iff _ _ A.keysDesc_sorted B.keysDesc_sorted

theorem keysDesc_ofKeys (ks : List Nat) (h : ks.Pairwise (· ≤ ·)) (hlt : ks.Pairwise (· < ·)) :
    (ofKeys ks h).keysDesc = ks.reverse := by
  apply List.Pairwise.eq_of_mem_iff (keysDesc_sorted _) (List.pairwise_reverse.mpr hlt)
  intro k
  simp [keys, ofKeys]

/-- The right keys are the two largest left keys. -/
theorem outer_join_iff_prefix :
    ∃ es, getSharding [some (.key, ofKeys [1, 2, 3] (by decide)), some (.key, ofKeys [2, 3] (by decide))]
        [0, 1] [.outer] = .ok es ∧
      JoinsOver 2 0 (ofKeys [1, 2, 3] (by decide)) 1 (ofKeys [2, 3] (by decide))
        ((ofKeys [1, 2, 3] (by decide)).keySet ∪ (ofKeys [2, 3] (by decide)).keySet) es :=
  (outer_join_iff (keyedPair_two (by decide) (by decide))).mpr (Or.inl (by
    rw [keysDesc_ofKeys [2, 3] (by decide) (by decide),
      keysDesc_ofKeys [1, 2, 3] (by decide) (by decide)]
    decide))

/-- Two sets with one key each: only the entry of the left key is returned. -/
theorem outer_join_loses_right :
    ¬ ∃ es, getSharding [some (.key, ofKeys [1] (by decide)), some (.key, ofKeys [2] (by decide))]
        [0, 1] [.outer] = .ok es ∧
      JoinsOver 2 0 (ofKeys [1] (by decide)) 1 (ofKeys [2] (by decide))
        ((ofKeys [1] (by decide)).keySet ∪ (ofKeys [2] (by decide)).keySet) es := by
  rintro ⟨es, hes, hjoin⟩
  have hrun : getSharding [some (.key, ofKeys [1] (by decide)), some (.key, ofKeys [2] (by decide))]
      [0, 1] [.outer] = .ok [[some (ofKeys [1] (by decide)), none]] := by decide
  rw [hrun] at hes
  cases hes
  revert hjoin
  unfold JoinsOver
  decide

end Outer

section Inner

theorem card_keySet {s : CompositionSet Ctx} {k : Nat} {ks : List Nat}
    (h : s.keysDesc = k :: ks) : s.keySet.card = ks.length + 1 := by
  rw [Finset.card_def, keySet_val, h, Multiset.coe_card, List.length_cons]

/-- `get_sharding` returns the inner join of two keyed sets exactly when no key is
shared, or when a single key is shared, it is the largest of both sets, and one of
them has further keys. -/
theorem inner_join_iff (h : KeyedPair sets i j A B) :
    (∃ es, getSharding sets [i, j] [.inner] = .ok es ∧
      JoinsOver sets.length i A j B (A.keySet ∩ B.keySet) es) ↔
    A.keySet ∩ B.keySet = ∅ ∨
      ∃ k, A.keySet ∩ B.keySet = {k} ∧ IsGreatest (A.keySet : Set Nat) k ∧
        IsGreatest (B.keySet : Set Nat) k ∧ (2 ≤ A.keySet.card ∨ 2 ≤ B.keySet.card) := by
  obtain ⟨a, as, ha⟩ := List.exists_cons_of_ne_nil (keysDesc_ne_nil A h.leftItems)
  obtain ⟨b, bs, hb⟩ := List.exists_cons_of_ne_nil (keysDesc_ne_nil B h.rightItems)
  have hgA := isGreatest_of_keysDesc ha
  have hgB := isGreatest_of_keysDesc hb
  have hrun := h.getSharding_inner ha hb
  by_cases hab : a = b
  · subst hab
    have hmem : a ∈ A.keySet ∩ B.keySet := Finset.mem_inter.mpr ⟨hgA.1, hgB.1⟩
    have hnonempty : A.keySet ∩ B.keySet ≠ ∅ := Finset.ne_empty_of_mem hmem
    have hoccurs : Occurs A B (some a, some a) := by
      rw [← keyPair_eq a ((mem_keySet A a).mp hgA.1) ((mem_keySet B a).mp hgB.1)]
      exact occurs_keyPair A B a
    rw [if_pos rfl] at hrun
    by_cases hsingle : as = [] ∧ bs = []
    · -- the search for the next match runs past both sets
      rw [if_pos hsingle] at hrun
      constructor
      · rintro ⟨es, hes, -⟩
        rw [hrun] at hes
        cases hes
      · rintro (hempty | ⟨k, -, -, -, hcard⟩)
        · exact absurd hempty hnonempty
        · rw [card_keySet ha, card_keySet hb, hsingle.1, hsingle.2] at hcard
          simp at hcard
    · rw [if_neg hsingle, ← List.map_singleton] at hrun
      have hcard : 2 ≤ A.keySet.card ∨ 2 ≤ B.keySet.card := by
        rw [card_keySet ha, card_keySet hb]
        by_contra hno
        exact hsingle ⟨List.length_eq_zero_iff.mp (by omega), List.length_eq_zero_iff.mp (by omega)⟩
      rw [exists_ok_iff hrun, joinsOver_iff h.lt_left h.lt_right h.ne
        (fun p hp => List.mem_singleton.mp hp ▸ hoccurs)]
      constructor
      · intro he
        right
        have hone : (A.keySet ∩ B.keySet).card = 1 := by
          have := congrArg Multiset.card he
          rw [Multiset.card_map] at this
          exact this.symm
        obtain ⟨k, hk⟩ := Finset.card_eq_one.mp hone
        have hak : a = k := by rwa [hk, Finset.mem_singleton] at hmem
        exact ⟨k, hk, hak ▸ hgA, hak ▸ hgB, hcard⟩
      · rintro (hempty | ⟨k, hk, hkA, -, -⟩)
        · exact absurd hempty hnonempty
        · rw [hk, Finset.singleton_val, Multiset.map_singleton, hkA.unique hgA,
            keyPair_eq a ((mem_keySet A a).mp hgA.1) ((mem_keySet B a).mp hgB.1)]
          rfl
  · rw [if_neg hab, ← List.map_nil (f := keyEntry sets.length i A j B)] at hrun
    rw [exists_ok_iff hrun, joinsOver_iff h.lt_left h.lt_right h.ne (fun p hp => by simp at hp)]
    constructor
    · intro he
      left
      have := congrArg Multiset.card he
      rw [Multiset.card_map] at this
      exact Finset.card_eq_zero.mp this.symm
    · rintro (hempty | ⟨k, -, hkA, hkB, -⟩)
      · rw [hempty]
        rfl
      · exact absurd ((hgA.unique hkA).trans (hkB.unique hgB)) hab

theorem inner_join_iff_largest :
    ∃ es, getSharding [some (.key, ofKeys [1, 3] (by decide)), some (.key, ofKeys [2, 3] (by decide))]
        [0, 1] [.inner] = .ok es ∧
      JoinsOver 2 0 (ofKeys [1, 3] (by decide)) 1 (ofKeys [2, 3] (by decide))
        ((ofKeys [1, 3] (by decide)).keySet ∩ (ofKeys [2, 3] (by decide)).keySet) es :=
  (inner_join_iff (keyedPair_two (by decide) (by decide))).mpr
    (Or.inr ⟨3, by decide, ⟨by decide, fun k' hk' => by revert k'; decide⟩,
      ⟨by decide, fun k' hk' => by revert k'; decide⟩, Or.inl (by decide)⟩)

/-- Both sets have the keys 1 and 2; only the entry of key 2 is returned. -/
theorem inner_join_loses_key :
    ¬ ∃ es, getSharding [some (.key, ofKeys [1, 2] (by decide)), some (.key, ofKeys [1, 2] (by decide))]
        [0, 1] [.inner] = .ok es ∧
      JoinsOver 2 0 (ofKeys [1, 2] (by decide)) 1 (ofKeys [1, 2] (by decide))
        ((ofKeys [1, 2] (by decide)).keySet ∩ (ofKeys [1, 2] (by decide)).keySet) es := by
  rintro ⟨es, hes, hjoin⟩
  have hrun : getSharding [some (.key, ofKeys [1, 2] (by decide)),
      some (.key, ofKeys [1, 2] (by decide))] [0, 1] [.inner] =
      .ok [[some (ofKeys [2] (by decide)), some (ofKeys [2] (by decide))]] := by decide
  rw [hrun] at hes
  cases hes
  revert hjoin
  unfold JoinsOver
  decide

end Inner
end Dandelion
