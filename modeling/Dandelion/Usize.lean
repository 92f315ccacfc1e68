import Dandelion.Outcome
import Mathlib.Algebra.GroupWithZero.Nat

/-!
# Machine words of the host

`usize` arithmetic on natural numbers, with the overflow checks of a debug build
or the wrapping of a release build.
-/

open Outcome

/-- What an arithmetic operation does when its result leaves the type. -/
inductive Overflow where
  | checked
  | wrapping
deriving DecidableEq, Repr

namespace Usize

variable {ε : Type}

/-- One past the largest `usize`. -/
def limit : Nat := 2 ^ 64

/-- The largest size of an allocation. -/
def isizeMax : Nat := 2 ^ 63 - 1

def add : Overflow → Nat → Nat → Outcome ε Nat
  | .checked, a, b => if a + b < limit then pure (a + b) else crash
  | .wrapping, a, b => pure ((a + b) % limit)

def sub : Overflow → Nat → Nat → Outcome ε Nat
  | .checked, a, b => if b ≤ a then pure (a - b) else crash
  | .wrapping, a, b => pure ((a + limit - b) % limit)

def mul : Overflow → Nat → Nat → Outcome ε Nat
  | .checked, a, b => if a * b < limit then pure (a * b) else crash
  | .wrapping, a, b => pure (a * b % limit)

/-- `next_multiple_of` -/
def nextMultipleOf (mode : Overflow) (n unit : Nat) : Outcome ε Nat :=
  if unit = 0 then crash
  else if n % unit = 0 then pure n
  else add mode n (unit - n % unit)

theorem add_eq_ok {a b : Nat} (h : a + b < limit) : (add .checked a b : Outcome ε Nat) = .ok (a + b) :=
  if_pos h

theorem add_eq_crash {a b : Nat} (h : ¬ a + b < limit) : (add .checked a b : Outcome ε Nat) = crash :=
  if_neg h

theorem sub_eq_ok {a b : Nat} (h : b ≤ a) : (sub .checked a b : Outcome ε Nat) = .ok (a - b) :=
  if_pos h

theorem sub_eq_crash {a b : Nat} (h : a < b) : (sub .checked a b : Outcome ε Nat) = crash :=
  if_neg (Nat.not_le_of_lt h)

theorem mul_eq_ok {a b : Nat} (h : a * b < limit) : (mul .checked a b : Outcome ε Nat) = .ok (a * b) :=
  if_pos h

theorem add_of_lt {a b : Nat} (mode : Overflow) (h : a + b < limit) :
    (add mode a b : Outcome ε Nat) = .ok (a + b) := by
  cases mode with
  | checked => exact if_pos h
  | wrapping => exact congrArg Except.ok (Nat.mod_eq_of_lt h)

theorem mul_of_lt {a b : Nat} (mode : Overflow) (h : a * b < limit) :
    (mul mode a b : Outcome ε Nat) = .ok (a * b) := by
  cases mode with
  | checked => exact if_pos h
  | wrapping => exact congrArg Except.ok (Nat.mod_eq_of_lt h)

theorem sub_eq_ok_iff {a b c : Nat} :
    (sub .checked a b : Outcome ε Nat) = .ok c ↔ a = c + b := by
  constructor
  · intro h
    by_cases hle : b ≤ a
    · rw [sub_eq_ok hle] at h
      cases h
      omega
    · rw [sub, if_neg hle] at h
      cases h
  · intro h
    rw [sub_eq_ok (by omega), h, Nat.add_sub_cancel]

theorem add_eq_ok_iff {a b c : Nat} :
    (add .checked a b : Outcome ε Nat) = .ok c ↔ a + b < limit ∧ c = a + b := by
  by_cases h : a + b < limit
  · rw [add_eq_ok h]
    constructor
    · intro he
      cases he
      exact ⟨h, rfl⟩
    · rintro ⟨-, rfl⟩
      rfl
  · constructor
    · intro he
      rw [add_eq_crash h] at he
      cases he
    · exact fun he => absurd he.1 h

/-- A sum of words that is not below the first one has not wrapped around. -/
theorem add_eq_of_le {mode : Overflow} {a b c : Nat} (ha : a < limit) (hb : b < limit) (hle : a ≤ c)
    (h : (add mode a b : Outcome ε Nat) = .ok c) : a + b < limit ∧ c = a + b := by
  cases mode with
  | checked => exact add_eq_ok_iff.mp h
  | wrapping =>
    cases h
    have hlt : a + b < limit := by
      by_contra hwrap
      rw [Nat.mod_eq_sub_mod (Nat.le_of_not_lt hwrap), Nat.mod_eq_of_lt (by omega)] at hle
      omega
    exact ⟨hlt, Nat.mod_eq_of_lt hlt⟩

theorem mul_eq_ok_iff {a b c : Nat} :
    (mul .checked a b : Outcome ε Nat) = .ok c ↔ a * b < limit ∧ c = a * b := by
  by_cases h : a * b < limit
  · rw [mul_eq_ok h]
    constructor
    · intro he
      cases he
      exact ⟨h, rfl⟩
    · rintro ⟨-, rfl⟩
      rfl
  · constructor
    · intro he
      rw [mul, if_neg h] at he
      cases he
    · exact fun he => absurd he.1 h

@[simp] theorem returns_add (a b : Nat) :
    Returns (add .checked a b : Outcome ε Nat) ↔ a + b < limit := by
  rw [add]
  by_cases h : a + b < limit
  · simp [h]
  · simp [h]

theorem nextMultipleOf_eq_ok {n unit bound : Nat} (hunit : 0 < unit) (hle : n ≤ unit * bound)
    (hlimit : unit * bound < limit) :
    ∃ k, (nextMultipleOf .checked n unit : Outcome ε Nat) = .ok (unit * k) ∧ n ≤ unit * k
      ∧ unit * k < n + unit ∧ unit * k ≤ unit * bound := by
  have hdiv := Nat.div_add_mod n unit
  have hmod := Nat.mod_lt n hunit
  rw [nextMultipleOf, if_neg (by omega)]
  by_cases hzero : n % unit = 0
  · rw [if_pos hzero]
    refine ⟨n / unit, ?_, by omega, by omega, by omega⟩
    rw [show unit * (n / unit) = n by omega]
    rfl
  · have hbound : n / unit + 1 ≤ bound := by
      by_contra hlt
      have := Nat.mul_le_mul_left unit (show bound ≤ n / unit by omega)
      omega
    have hnext := Nat.mul_le_mul_left unit hbound
    have heq : unit * (n / unit + 1) = n + (unit - n % unit) := by
      rw [Nat.mul_add]
      omega
    rw [if_neg hzero, add_eq_ok (by omega), ← heq]
    exact ⟨n / unit + 1, rfl, by omega, by omega, hnext⟩

end Usize
