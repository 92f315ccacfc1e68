import Mathlib.Data.List.Infix

/-!
# Searching for a substring

`find` gives the first place where a pattern occurs in a text, over any alphabet.
-/

namespace Substrings

variable {α : Type} [BEq α] [LawfulBEq α] {text pattern : List α} {place : Nat}

/-- The first suffix of the text that starts with the pattern. -/
def find {α : Type} [BEq α] (text pattern : List α) : Option Nat :=
  text.tails.findIdx? pattern.isPrefixOf

/-- The pattern is at the place, and at none before it. -/
def FirstAt (text pattern : List α) (place : Nat) : Prop :=
  place ≤ text.length ∧ pattern <+: text.drop place ∧ ∀ j < place, ¬ pattern <+: text.drop j

theorem find_eq_some_iff : find text pattern = some place ↔ FirstAt text pattern place := by
  rw [find, List.findIdx?_eq_some_iff_getElem]
  unfold FirstAt
  simp only [List.getElem_tails, List.length_tails, List.isPrefixOf_iff_prefix]
  constructor
  · rintro ⟨hlt, hat, hbefore⟩
    exact ⟨by omega, hat, hbefore⟩
  · rintro ⟨hle, hat, hbefore⟩
    exact ⟨by omega, hat, hbefore⟩

theorem FirstAt.unique {other : Nat} (h : FirstAt text pattern place)
    (hother : FirstAt text pattern other) : place = other := by
  rw [← find_eq_some_iff] at h hother
  rw [h] at hother
  exact Option.some.inj hother

end Substrings
