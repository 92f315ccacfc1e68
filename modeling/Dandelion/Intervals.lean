import Dandelion.OrderedMap
import Mathlib.Data.Set.BooleanAlgebra
import Mathlib.Order.CompletePartialOrder
import Mathlib.Order.Interval.Set.LinearOrder
import Mathlib.Tactic.Tauto

/-!
# Sets kept as separated intervals

An ordered map from the start to the end of an interval, the end excluded, stands
for the union of its intervals. Cutting an interval off and adding a disjoint one,
merged with its neighbours, act on the set as difference and union, as long as no
two of the intervals overlap or touch. When they are not empty either, the map is
determined by the set it stands for.

Who holds which part of a set is a list of pieces that are disjoint and make up the set: `Tiles`.
-/

namespace Intervals

variable {κ : Type*} [LinearOrder κ]

/-- The union of the intervals of `m`. -/
def covered (m : OrderedMap κ κ) : Set κ := {i | ∃ s e, m.get? s = some e ∧ s ≤ i ∧ i < e}

/-- There is a gap between any two of the intervals; some may be empty. -/
structure Spaced (m : OrderedMap κ κ) : Prop where
  le : ∀ s e, m.get? s = some e → s ≤ e
  gap : ∀ s e s' e', m.get? s = some e → m.get? s' = some e' → s < s' → e < s'

/-- The intervals are not empty and there is a gap between any two of them. -/
structure Separated (m : OrderedMap κ κ) : Prop where
  pos : ∀ s e, m.get? s = some e → s < e
  gap : ∀ s e s' e', m.get? s = some e → m.get? s' = some e' → s < s' → e < s'

theorem spaced_empty : Spaced (OrderedMap.empty : OrderedMap κ κ) := by
  constructor
  · intro s e hs
    cases hs
  · intro s e s' e' hs
    cases hs

theorem Separated.spaced {m : OrderedMap κ κ} (h : Separated m) : Spaced m :=
  ⟨fun s e hs => (h.pos s e hs).le, h.gap⟩

theorem Spaced.separated {m : OrderedMap κ κ} (h : Spaced m) (hne : ∀ s, m.get? s ≠ some s) :
    Separated m := by
  refine ⟨fun s e hs => (h.le s e hs).lt_of_ne ?_, h.gap⟩
  rintro rfl
  exact hne s hs

theorem mem_covered (m : OrderedMap κ κ) (i : κ) :
    i ∈ covered m ↔ ∃ s e, m.get? s = some e ∧ s ≤ i ∧ i < e := Iff.rfl

namespace Spaced

variable {m : OrderedMap κ κ} (h : Spaced m)
include h

theorem eq_of_mem {s e s' e' i : κ} (hs : m.get? s = some e) (hs' : m.get? s' = some e')
    (hi : s ≤ i ∧ i < e) (hi' : s' ≤ i ∧ i < e') : s = s' := by
  rcases lt_trichotomy s s' with hlt | heq | hgt
  · exact absurd (h.gap s e s' e' hs hs' hlt) (hi'.1.trans_lt hi.2).not_gt
  · exact heq
  · exact absurd (h.gap s' e' s e hs' hs hgt) (hi.1.trans_lt hi'.2).not_gt

theorem end_not_covered {s e : κ} (hs : m.get? s = some e) : e ∉ covered m := by
  rintro ⟨s', e', hs', hle, hlt⟩
  rcases lt_trichotomy s s' with hl | heq | hg
  · exact absurd (h.gap s e s' e' hs hs' hl) hle.not_gt
  · subst heq
    rw [hs] at hs'
    exact absurd hlt (Option.some.inj hs' ▸ lt_irrefl e)
  · exact absurd (h.gap s' e' s e hs' hs hg) ((h.le s e hs).trans_lt hlt).not_gt

theorem of_Ico_subset {a b : κ} (hab : a < b) (hsub : Set.Ico a b ⊆ covered m) :
    ∃ s e, m.get? s = some e ∧ s ≤ a ∧ b ≤ e := by
  obtain ⟨s, e, hs, hsa, hae⟩ := hsub ⟨le_refl a, hab⟩
  refine ⟨s, e, hs, hsa, ?_⟩
  by_contra hlt
  exact h.end_not_covered hs (hsub ⟨hae.le, lt_of_not_ge hlt⟩)

end Spaced

theorem Separated.eq_of_covered_Ico {m : OrderedMap κ κ} (h : Separated m) {a b : κ} (hab : a < b)
    (hc : covered m = Set.Ico a b) : m.entries = [(a, b)] := by
  obtain ⟨s, e, hs, hsa, hbe⟩ := h.spaced.of_Ico_subset hab hc.ge
  have hall : ∀ s' e', m.get? s' = some e' → s' = s := by
    intro s' e' hs'
    have hmem : s' ∈ Set.Ico a b := hc ▸ ⟨s', e', hs', le_refl _, h.pos s' e' hs'⟩
    exact h.spaced.eq_of_mem hs' hs ⟨le_refl _, h.pos s' e' hs'⟩
      ⟨hsa.trans hmem.1, hmem.2.trans_le hbe⟩
  have hsin : s ∈ Set.Ico a b := hc ▸ ⟨s, e, hs, le_refl _, h.pos s e hs⟩
  have hs_eq : s = a := le_antisymm hsa hsin.1
  have he_eq : e = b := by
    apply le_antisymm _ hbe
    by_contra hlt
    have hmem : b ∈ covered m := ⟨s, e, hs, hsin.2.le, lt_of_not_ge hlt⟩
    rw [hc] at hmem
    exact lt_irrefl b hmem.2
  have hmap : m = OrderedMap.empty.insert a b := by
    apply OrderedMap.ext_get?
    intro k
    rw [OrderedMap.get?_insert, OrderedMap.get?_empty]
    by_cases hk : k = a
    · rw [if_pos hk, hk, ← hs_eq, hs, he_eq]
    · rw [if_neg hk]
      cases hget : m.get? k with
      | none => rfl
      | some e' => exact absurd ((hall k e' hget).trans hs_eq) hk
  rw [hmap]
  rfl

section Cut

variable {m : OrderedMap κ κ} {s e : κ}

/-- Cut the part from `e'` on off the interval that starts at `s`. -/
theorem spaced_shorten (h : Spaced m) (hs : m.get? s = some e) {e' : κ} (hse : s ≤ e')
    (hle : e' ≤ e) : Spaced (m.insert s e') := by
  constructor
  · intro a b hab
    rcases (m.get?_insert_eq_some_iff s a e' b).mp hab with ⟨rfl, rfl⟩ | ⟨-, hab⟩
    · exact hse
    · exact h.le a b hab
  · intro a b a' b' hab hab' hlt
    rcases (m.get?_insert_eq_some_iff s a e' b).mp hab with ⟨rfl, rfl⟩ | ⟨-, hold⟩
    · rcases (m.get?_insert_eq_some_iff a a' b b').mp hab' with ⟨rfl, rfl⟩ | ⟨-, hold'⟩
      · exact absurd hlt (lt_irrefl _)
      · exact hle.trans_lt (h.gap a e a' b' hs hold' hlt)
    · rcases (m.get?_insert_eq_some_iff s a' e' b').mp hab' with ⟨rfl, rfl⟩ | ⟨-, hold'⟩
      · exact h.gap a b a' e hold hs hlt
      · exact h.gap a b a' b' hold hold' hlt

theorem covered_shorten (h : Spaced m) (hs : m.get? s = some e) {e' : κ} (hle : e' ≤ e)
    (hse : s ≤ e') : covered (m.insert s e') = covered m \ Set.Ico e' e := by
  ext i
  simp only [Set.mem_sdiff, mem_covered, Set.mem_Ico, not_and, not_lt,
    OrderedMap.get?_insert_eq_some_iff]
  constructor
  · rintro ⟨a, b, ⟨rfl, rfl⟩ | ⟨ha, hab⟩, hai, hib⟩
    · exact ⟨⟨a, e, hs, hai, hib.trans_le hle⟩, fun hi => absurd hib hi.not_gt⟩
    · refine ⟨⟨a, b, hab, hai, hib⟩, fun hi => ?_⟩
      by_contra hie
      exact ha (h.eq_of_mem hab hs ⟨hai, hib⟩ ⟨hse.trans hi, lt_of_not_ge hie⟩)
  · rintro ⟨⟨a, b, hab, hai, hib⟩, hout⟩
    by_cases ha : a = s
    · subst ha
      rw [hs] at hab
      cases hab
      refine ⟨a, e', Or.inl ⟨rfl, rfl⟩, hai, ?_⟩
      by_contra hi
      exact absurd (hout (le_of_not_gt hi)) hib.not_ge
    · exact ⟨a, b, Or.inr ⟨ha, hab⟩, hai, hib⟩

theorem spaced_remove (h : Spaced m) (s : κ) : Spaced (m.remove s) := by
  have hold : ∀ a b, (m.remove s).get? a = some b → m.get? a = some b :=
    fun a b hab => ((m.get?_remove_eq_some_iff s a b).mp hab).2
  exact ⟨fun a b hab => h.le a b (hold a b hab),
    fun a b a' b' hab hab' => h.gap a b a' b' (hold a b hab) (hold a' b' hab')⟩

theorem covered_remove (h : Spaced m) (hs : m.get? s = some e) :
    covered (m.remove s) = covered m \ Set.Ico s e := by
  ext i
  simp only [Set.mem_sdiff, mem_covered, Set.mem_Ico, OrderedMap.get?_remove_eq_some_iff]
  constructor
  · rintro ⟨a, b, ⟨ha, hab⟩, hai, hib⟩
    exact ⟨⟨a, b, hab, hai, hib⟩, fun hi => ha (h.eq_of_mem hab hs ⟨hai, hib⟩ hi)⟩
  · rintro ⟨⟨a, b, hab, hai, hib⟩, hout⟩
    refine ⟨a, b, ⟨?_, hab⟩, hai, hib⟩
    rintro rfl
    rw [hs] at hab
    cases hab
    exact hout ⟨hai, hib⟩

end Cut

section Add

variable {m : OrderedMap κ κ} {a b : κ}

theorem spaced_insert (h : Spaced m) (hab : a ≤ b)
    (hgap : ∀ s e, m.get? s = some e → s < a ∧ e < a ∨ b < s) : Spaced (m.insert a b) := by
  constructor
  · intro s e hs
    rcases (m.get?_insert_eq_some_iff a s b e).mp hs with ⟨rfl, rfl⟩ | ⟨-, hs⟩
    · exact hab
    · exact h.le s e hs
  · intro s e s' e' hs hs' hlt
    rcases (m.get?_insert_eq_some_iff a s b e).mp hs with ⟨rfl, rfl⟩ | ⟨-, hold⟩
    · rcases (m.get?_insert_eq_some_iff s s' e e').mp hs' with ⟨rfl, rfl⟩ | ⟨-, hold'⟩
      · exact absurd hlt (lt_irrefl _)
      · rcases hgap s' e' hold' with ⟨hlt', -⟩ | hgt
        · exact absurd hlt' hlt.not_gt
        · exact hgt
    · rcases (m.get?_insert_eq_some_iff a s' b e').mp hs' with ⟨rfl, rfl⟩ | ⟨-, hold'⟩
      · rcases hgap s e hold with ⟨-, he⟩ | hgt
        · exact he
        · exact absurd (hab.trans_lt hgt) hlt.not_gt
      · exact h.gap s e s' e' hold hold' hlt

theorem covered_insert (hnew : m.get? a = none) :
    covered (m.insert a b) = covered m ∪ Set.Ico a b := by
  ext i
  simp only [Set.mem_union, mem_covered, Set.mem_Ico, OrderedMap.get?_insert_eq_some_iff]
  constructor
  · rintro ⟨s, e, ⟨rfl, rfl⟩ | ⟨-, hs⟩, hsi, hie⟩
    · exact Or.inr ⟨hsi, hie⟩
    · exact Or.inl ⟨s, e, hs, hsi, hie⟩
  · rintro (⟨s, e, hs, hsi, hie⟩ | hi)
    · refine ⟨s, e, Or.inr ⟨?_, hs⟩, hsi, hie⟩
      rintro rfl
      rw [hnew] at hs
      cases hs
    · exact ⟨a, b, Or.inl ⟨rfl, rfl⟩, hi⟩

/-- Extend the interval from `p` to `a` up to `b`. -/
theorem spaced_extend (h : Spaced m) {p : κ} (hp : m.get? p = some a) (hab : a ≤ b)
    (hgap : ∀ s e, m.get? s = some e → p < s → b < s) : Spaced (m.insert p b) := by
  constructor
  · intro s e hs
    rcases (m.get?_insert_eq_some_iff p s b e).mp hs with ⟨rfl, rfl⟩ | ⟨-, hs⟩
    · exact (h.le s a hp).trans hab
    · exact h.le s e hs
  · intro s e s' e' hs hs' hlt
    rcases (m.get?_insert_eq_some_iff p s b e).mp hs with ⟨rfl, rfl⟩ | ⟨-, hold⟩
    · rcases (m.get?_insert_eq_some_iff s s' e e').mp hs' with ⟨rfl, rfl⟩ | ⟨-, hold'⟩
      · exact absurd hlt (lt_irrefl _)
      · exact hgap s' e' hold' hlt
    · rcases (m.get?_insert_eq_some_iff p s' b e').mp hs' with ⟨rfl, rfl⟩ | ⟨-, hold'⟩
      · exact h.gap s e s' a hold hp hlt
      · exact h.gap s e s' e' hold hold' hlt

theorem covered_extend {p : κ} (hp : m.get? p = some a) (hpa : p ≤ a) (hab : a ≤ b) :
    covered (m.insert p b) = covered m ∪ Set.Ico a b := by
  ext i
  simp only [Set.mem_union, mem_covered, Set.mem_Ico, OrderedMap.get?_insert_eq_some_iff]
  constructor
  · rintro ⟨s, e, ⟨rfl, rfl⟩ | ⟨-, hs⟩, hsi, hie⟩
    · rcases lt_or_ge i a with hia | hai
      · exact Or.inl ⟨s, a, hp, hsi, hia⟩
      · exact Or.inr ⟨hai, hie⟩
    · exact Or.inl ⟨s, e, hs, hsi, hie⟩
  · rintro (⟨s, e, hs, hsi, hie⟩ | ⟨hai, hib⟩)
    · by_cases hsp : s = p
      · subst hsp
        rw [hp] at hs
        cases hs
        exact ⟨s, b, Or.inl ⟨rfl, rfl⟩, hsi, hie.trans_le hab⟩
      · exact ⟨s, e, Or.inr ⟨hsp, hs⟩, hsi, hie⟩
    · exact ⟨p, b, Or.inl ⟨rfl, rfl⟩, hpa.trans hai, hib⟩

end Add

/-! ## Sets in pieces -/

section Tiles

variable {α : Type*} {whole : Set α}

/-- A set that is cut into pieces. -/
structure Tiles (whole : Set α) (pieces : List (Set α)) : Prop where
  disjoint : pieces.Pairwise Disjoint
  cover : ∀ i, i ∈ whole ↔ ∃ piece ∈ pieces, i ∈ piece

theorem Tiles.split {part piece : Set α} {pieces : List (Set α)} (h : Tiles whole (piece :: pieces))
    (hsub : part ⊆ piece) : Tiles whole ((piece \ part) :: part :: pieces) := by
  obtain ⟨hpiece, hrest⟩ := List.pairwise_cons.mp h.disjoint
  constructor
  · refine List.pairwise_cons.mpr ⟨List.forall_mem_cons.mpr ⟨Set.disjoint_sdiff_left, ?_⟩, ?_⟩
    · exact fun other hother => (hpiece other hother).mono_left Set.sdiff_subset
    · exact List.pairwise_cons.mpr ⟨fun other hother => (hpiece other hother).mono_left hsub, hrest⟩
  · intro i
    rw [h.cover i]
    simp only [List.mem_cons, exists_eq_or_imp, Set.mem_sdiff]
    have hi : i ∈ part → i ∈ piece := fun hi => hsub hi
    tauto

theorem Tiles.merge {part piece : Set α} {pieces : List (Set α)}
    (h : Tiles whole (piece :: part :: pieces)) : Tiles whole ((piece ∪ part) :: pieces) := by
  obtain ⟨hpiece, htail⟩ := List.pairwise_cons.mp h.disjoint
  obtain ⟨hpart, hrest⟩ := List.pairwise_cons.mp htail
  constructor
  · refine List.pairwise_cons.mpr ⟨fun other hother => ?_, hrest⟩
    exact Set.disjoint_union_left.mpr ⟨hpiece other (List.mem_cons_of_mem _ hother), hpart other hother⟩
  · intro i
    rw [h.cover i]
    simp only [List.mem_cons, exists_eq_or_imp, Set.mem_union, or_assoc]

theorem Tiles.perm {pieces pieces' : List (Set α)} (h : Tiles whole pieces)
    (hperm : pieces.Perm pieces') : Tiles whole pieces' := by
  constructor
  · exact (hperm.pairwise_iff fun hab => Disjoint.symm hab).mp h.disjoint
  · intro i
    rw [h.cover i]
    simp only [hperm.mem_iff]

end Tiles

end Intervals
