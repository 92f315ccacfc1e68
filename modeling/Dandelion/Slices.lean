import Dandelion.Outcome

/-!
# Slices of a vector

Indexing with a bounds check: what lies outside of the vector panics.
-/

open Outcome

namespace Slices

variable {ε α : Type}

/-- `xs[i]` -/
def index (xs : List α) (i : Nat) : Outcome ε α :=
  match xs[i]? with
  | some x => pure x
  | none => crash

/-- `&xs[start..stop]` -/
def range (xs : List α) (start stop : Nat) : Outcome ε (List α) :=
  if start ≤ stop ∧ stop ≤ xs.length then pure ((xs.drop start).take (stop - start)) else crash

/-- `&xs[start..]` -/
def rangeFrom (xs : List α) (start : Nat) : Outcome ε (List α) :=
  if start ≤ xs.length then pure (xs.drop start) else crash

variable {xs : List α} {start stop : Nat}

theorem index_eq_ok {i : Nat} {x : α} (h : xs[i]? = some x) : (index xs i : Outcome ε α) = .ok x := by
  rw [index, h]
  rfl

theorem index_eq_crash {i : Nat} (h : xs[i]? = none) : (index xs i : Outcome ε α) = crash := by
  rw [index, h]

theorem range_eq_ok (h : start ≤ stop) (hstop : stop ≤ xs.length) :
    (range xs start stop : Outcome ε (List α)) = .ok ((xs.drop start).take (stop - start)) :=
  if_pos ⟨h, hstop⟩

theorem range_inside {part : List α} (h : (range xs start stop : Outcome ε (List α)) = .ok part) :
    start ≤ stop ∧ stop ≤ xs.length := by
  by_contra hout
  rw [range, if_neg hout] at h
  cases h

theorem rangeFrom_eq_ok (h : start ≤ xs.length) :
    (rangeFrom xs start : Outcome ε (List α)) = .ok (xs.drop start) :=
  if_pos h

/-- The elements before the first one that meets `p`. -/
theorem take_findIdx? (p : α → Bool) (xs : List α) :
    (match xs.findIdx? p with
      | some i => xs.take i
      | none => xs) = xs.takeWhile fun x => !p x := by
  induction xs with
  | nil => rfl
  | cons x xs ih =>
    rw [List.findIdx?_cons, List.takeWhile_cons]
    by_cases hx : p x
    · simp [hx]
    · rw [← ih]
      cases xs.findIdx? p with
      | none => simp [hx]
      | some i => simp [hx]

end Slices
