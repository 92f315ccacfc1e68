import Dandelion.JoinSpec

/-!
# When the keyed joins are correct

The description of each join strategy holds for `get_sharding` on exactly the
inputs given here. Outside of them a key is lost, an item reaches an entry of
another key, or the call panics.
-/

namespace Dandelion

open Outcome JoinIterator CompositionSet

variable {Ctx : Type} {sets : ShardedInputs Ctx} {i j : Nat} {A B : CompositionSet Ctx}

theorem isGreatest_of_keysDesc {s : CompositionSet Ctx} {k : Nat} {ks : List Nat}
    (h : s.keysDesc = k :: ks) : IsGreatest (s.keySet : Set Nat) k := by
  constructor
  · rw [Finset.mem_coe, mem_keySet, ← mem_keysDesc, h]
    exact List.mem_cons_self
  · intro k' hk'
    rw [Finset.mem_coe, mem_keySet, ← mem_keysDesc, h] at hk'
    rcases List.mem_cons.mp hk' with heq | hk'
    · exact heq.le
    · exact ((head_of_keysDesc h).2.2 k' hk').le

theorem mem_keys_of_keysDesc {s : CompositionSet Ctx} {k : Nat} {ks : List Nat}
    (h : s.keysDesc = k :: ks) (k' : Nat) : k' ∈ s.keys ↔ k' = k ∨ k' ∈ ks := by
  rw [← mem_keysDesc, h, List.mem_cons]

theorem keyPair_eq (k : Nat) (ha : k ∈ A.keys) (hb : k ∈ B.keys) :
    keyPair A B k = (some k, some k) := by
  rw [keyPair, if_pos ha, if_pos hb]

theorem keyPair_left (k : Nat) (ha : k ∈ A.keys) (hb : k ∉ B.keys) :
    keyPair A B k = (some k, none) := by
  rw [keyPair, if_pos ha, if_neg hb]

theorem exists_ok_iff {es : List (Entry Ctx)} {x : Join (List (Entry Ctx))} (h : x = .ok es)
    (P : List (Entry Ctx) → Prop) : (∃ es', x = .ok es' ∧ P es') ↔ P es := by
  constructor
  · rintro ⟨es', he, hP⟩
    rw [h] at he
    cases he
    exact hP
  · exact fun hP => ⟨es, h, hP⟩

section Left

theorem occurs_leftKeys {p : Option Nat × Option Nat} (hp : p ∈ leftKeys A.keysDesc B.keysDesc) :
    Occurs A B p := by
  cases ha : A.keysDesc with
  | nil => simp [ha, leftKeys] at hp
  | cons a as =>
    cases hb : B.keysDesc with
    | nil => simp [ha, hb, leftKeys] at hp
    | cons b bs =>
      have hA := mem_keys_of_keysDesc ha
      have hB := mem_keys_of_keysDesc hb
      rw [ha, hb, leftKeys] at hp
      rcases List.mem_cons.mp hp with rfl | hp
      · refine ⟨fun k hk => ?_, fun k hk => ?_⟩
        · exact (hA k).mpr (Or.inl (Option.some.inj hk).symm)
        · by_cases hab : a = b
          · simp only [hab, if_true, Option.mem_some_iff] at hk
            exact (hB k).mpr (Or.inl hk.symm)
          · simp [hab] at hk
      · obtain ⟨k', hk', rfl⟩ := List.mem_map.mp hp
        refine ⟨fun k hk => ?_, fun k hk => by simp at hk⟩
        rw [← Option.some.inj hk]
        exact (hA k').mpr (Or.inr hk')

/-- `get_sharding` returns the left join of two keyed sets exactly when every key
they share is the largest key of both. -/
theorem left_join_iff (h : KeyedPair sets i j A B) :
    (∃ es, getSharding sets [i, j] [.left] = .ok es ∧
      JoinsOver sets.length i A j B A.keySet es) ↔
    ∀ k, k ∈ A.keys → k ∈ B.keys →
      IsGreatest (A.keySet : Set Nat) k ∧ IsGreatest (B.keySet : Set Nat) k := by
  rw [exists_ok_iff h.getSharding_left,
    joinsOver_iff h.lt_left h.lt_right h.ne (fun _ => occurs_leftKeys), keySet_val,
    Multiset.map_coe]
  obtain ⟨a, as, ha⟩ := List.exists_cons_of_ne_nil (keysDesc_ne_nil A h.leftItems)
  obtain ⟨b, bs, hb⟩ := List.exists_cons_of_ne_nil (keysDesc_ne_nil B h.rightItems)
  have hA := mem_keys_of_keysDesc ha
  have hgA := isGreatest_of_keysDesc ha
  have hgB := isGreatest_of_keysDesc hb
  have hlt := (head_of_keysDesc ha).2.2
  rw [ha, hb, leftKeys]
  constructor
  · intro he k hkA hkB
    have hmem : (some k, some k) ∈
        ((a :: as).map (keyPair A B) : Multiset (Option Nat × Option Nat)) := by
      rw [Multiset.mem_coe, List.mem_map]
      exact ⟨k, List.mem_cons.mpr ((hA k).mp hkA), keyPair_eq k hkA hkB⟩
    rw [← he, Multiset.mem_coe, List.mem_cons] at hmem
    rcases hmem with hfirst | hrest
    · obtain ⟨rfl, hif⟩ := Prod.ext_iff.mp hfirst |>.imp Option.some.inj id
      have hab : k = b := by
        by_contra hne
        simp [hne] at hif
      exact ⟨hgA, hab ▸ hgB⟩
    · simp at hrest
  · intro hcommon
    congr 1
    rw [List.map_cons]
    congr 1
    · by_cases hab : a = b
      · rw [if_pos hab, keyPair_eq a ((hA a).mpr (Or.inl rfl))
          (hab ▸ (mem_keySet B b).mp hgB.1), hab]
      · rw [if_neg hab, keyPair_left a ((hA a).mpr (Or.inl rfl))]
        exact fun haB => hab ((hcommon a ((hA a).mpr (Or.inl rfl)) haB).2.unique hgB)
    · apply List.map_congr_left
      intro k hk
      have hkA : k ∈ A.keys := (hA k).mpr (Or.inr hk)
      rw [keyPair_left k hkA]
      exact fun hkB => (hlt k hk).ne ((hcommon k hkA hkB).1.unique hgA)

theorem keyedPair_two {A B : CompositionSet Ctx} (hA : A.itemList ≠ []) (hB : B.itemList ≠ []) :
    KeyedPair [some (.key, A), some (.key, B)] 0 1 A B := by
  refine ⟨rfl, rfl, Nat.zero_ne_one, hA, hB, ?_⟩
  intro k h0 h1 mode set hk
  match k with
  | 0 => exact absurd rfl h0
  | 1 => exact absurd rfl h1
  | k + 2 => simp at hk

/-- Two sets that share only their largest key. -/
theorem left_join_iff_largest_shared :
    ∃ es, getSharding [some (.key, ofKeys [1, 3] (by decide)), some (.key, ofKeys [2, 3] (by decide))]
        [0, 1] [.left] = .ok es ∧
      JoinsOver 2 0 (ofKeys [1, 3] (by decide)) 1 (ofKeys [2, 3] (by decide))
        (ofKeys [1, 3] (by decide)).keySet es := by
  refine (left_join_iff (keyedPair_two (by decide) (by decide))).mpr ?_
  intro k hA hB
  have hk : k = 3 := by
    simp only [keys, ofKeys, List.map_cons, List.map_nil, List.mem_cons, List.not_mem_nil, or_false]
      at hA hB
    omega
  subst hk
  exact ⟨⟨by decide, fun k' hk' => by revert k'; decide⟩, ⟨by decide, fun k' hk' => by revert k'; decide⟩⟩

/-- The key 1 is shared but is not the largest key on the left: its right items are lost. -/
theorem left_join_drops_right :
    ¬ ∃ es, getSharding [some (.key, ofKeys [1, 2] (by decide)), some (.key, ofKeys [1] (by decide))]
        [0, 1] [.left] = .ok es ∧
      JoinsOver 2 0 (ofKeys [1, 2] (by decide)) 1 (ofKeys [1] (by decide))
        (ofKeys [1, 2] (by decide)).keySet es := by
  rintro ⟨es, hes, hjoin⟩
  have hrun : getSharding [some (.key, ofKeys [1, 2] (by decide)), some (.key, ofKeys [1] (by decide))]
      [0, 1] [.left] = .ok [[some (ofKeys [2] (by decide)), none], [some (ofKeys [1] (by decide)), none]] :=
    by decide
  rw [hrun] at hes
  cases hes
  revert hjoin
  unfold JoinsOver
  decide

end Left

section Right

theorem keyPair_fst {k x : Nat} (h : (keyPair A B k).1 = some x) : k = x := by
  simp only [keyPair] at h
  split at h
  · exact Option.some.inj h
  · cases h

theorem keyPair_snd {k y : Nat} (h : (keyPair A B k).2 = some y) : k = y := by
  simp only [keyPair] at h
  split at h
  · exact Option.some.inj h
  · cases h

theorem occurs_rightKeys {p : Option Nat × Option Nat} (hp : p ∈ rightKeys A.keysDesc B.keysDesc) :
    Occurs A B p := by
  cases ha : A.keysDesc with
  | nil => simp [ha, rightKeys] at hp
  | cons a as =>
    cases hb : B.keysDesc with
    | nil => simp [ha, hb, rightKeys] at hp
    | cons b bs =>
      have hA := mem_keys_of_keysDesc ha
      have hB := mem_keys_of_keysDesc hb
      rw [ha, hb, rightKeys] at hp
      rcases List.mem_cons.mp hp with rfl | hp
      · refine ⟨fun k hk => ?_, fun k hk => ?_⟩
        · exact (hA k).mpr (Or.inl (Option.some.inj hk).symm)
        · exact (hB k).mpr (Or.inl (Option.some.inj hk).symm)
      · obtain ⟨k', hk', rfl⟩ := List.mem_map.mp hp
        refine ⟨fun k hk => ?_, fun k hk => ?_⟩
        · split at hk
          · exact (hA k).mpr (Or.inl (Option.some.inj hk).symm)
          · simp at hk
        · rw [← Option.some.inj hk]
          exact (hB k').mpr (Or.inr hk')

/-- `get_sharding` returns the right join of two keyed sets exactly when the right
set has a single key and it is the largest key of the left set. -/
theorem right_join_iff (h : KeyedPair sets i j A B) :
    (∃ es, getSharding sets [i, j] [.right] = .ok es ∧
      JoinsOver sets.length i A j B B.keySet es) ↔
    ∃ k, B.keySet = {k} ∧ IsGreatest (A.keySet : Set Nat) k := by
  rw [exists_ok_iff h.getSharding_right,
    joinsOver_iff h.lt_left h.lt_right h.ne (fun _ => occurs_rightKeys), keySet_val,
    Multiset.map_coe]
  obtain ⟨a, as, ha⟩ := List.exists_cons_of_ne_nil (keysDesc_ne_nil A h.leftItems)
  obtain ⟨b, bs, hb⟩ := List.exists_cons_of_ne_nil (keysDesc_ne_nil B h.rightItems)
  have hA := mem_keys_of_keysDesc ha
  have hB := mem_keys_of_keysDesc hb
  have hgA := isGreatest_of_keysDesc ha
  have hltb := (head_of_keysDesc hb).2.2
  rw [ha, hb, rightKeys]
  constructor
  · intro he
    -- an entry that shows a left and a right key must show the same one
    have hsame : ∀ x y, (some x, some y) ∈ (some a, some b) :: bs.map (fun k =>
        (if bs.head?.all (· ≤ a) then some a else none, some k)) → x = y := by
      intro x y hxy
      rw [← Multiset.mem_coe, he, Multiset.mem_coe] at hxy
      obtain ⟨k, -, hk⟩ := List.mem_map.mp hxy
      rw [← keyPair_fst (congrArg Prod.fst hk), ← keyPair_snd (congrArg Prod.snd hk)]
    have hab : a = b := hsame a b List.mem_cons_self
    have hbs : bs = [] := by
      cases bs with
      | nil => rfl
      | cons b' bs =>
        have hlt : b' < b := hltb b' List.mem_cons_self
        have hb' : a = b' := by
          apply hsame a b'
          simp [show b' ≤ a by omega]
        omega
    refine ⟨a, ?_, hgA⟩
    ext k
    rw [mem_keySet, hB, hbs, Finset.mem_singleton, hab]
    simp
  · rintro ⟨k, hBk, hgk⟩
    have hka : k = a := hgk.unique hgA
    have hkb : b = k := by
      have hmem : b ∈ B.keySet := by rw [mem_keySet, hB]; exact Or.inl rfl
      rwa [hBk, Finset.mem_singleton] at hmem
    have hbs : bs = [] := by
      apply List.eq_nil_iff_forall_not_mem.mpr
      intro k' hk'
      have hmem : k' ∈ B.keySet := by rw [mem_keySet, hB]; exact Or.inr hk'
      rw [hBk, Finset.mem_singleton] at hmem
      have := hltb k' hk'
      omega
    rw [hbs, hkb, hka, List.map_nil, List.map_cons, List.map_nil,
      keyPair_eq a ((hA a).mpr (Or.inl rfl)) ((hB a).mpr (Or.inl (by omega)))]

theorem right_join_iff_single :
    ∃ es, getSharding [some (.key, ofKeys [1, 3] (by decide)), some (.key, ofKeys [3] (by decide))]
        [0, 1] [.right] = .ok es ∧
      JoinsOver 2 0 (ofKeys [1, 3] (by decide)) 1 (ofKeys [3] (by decide))
        (ofKeys [3] (by decide)).keySet es :=
  (right_join_iff (keyedPair_two (by decide) (by decide))).mpr
    ⟨3, by decide, by decide, fun k' hk' => by revert k'; decide⟩

/-- Both sets have the keys 1 and 2; the entry of key 1 gets the left items of key 2. -/
theorem right_join_leaks_left :
    ¬ ∃ es, getSharding [some (.key, ofKeys [1, 2] (by decide)), some (.key, ofKeys [1, 2] (by decide))]
        [0, 1] [.right] = .ok es ∧
      JoinsOver 2 0 (ofKeys [1, 2] (by decide)) 1 (ofKeys [1, 2] (by decide))
        (ofKeys [1, 2] (by decide)).keySet es := by
  rintro ⟨es, hes, hjoin⟩
  have hrun : getSharding [some (.key, ofKeys [1, 2] (by decide)),
      some (.key, ofKeys [1, 2] (by decide))] [0, 1] [.right] =
      .ok [[some (ofKeys [2] (by decide)), some (ofKeys [2] (by decide))],
        [some (ofKeys [2] (by decide)), some (ofKeys [1] (by decide))]] := by decide
  rw [hrun] at hes
  cases hes
  revert hjoin
  unfold JoinsOver
  decide

end Right

end Dandelion
