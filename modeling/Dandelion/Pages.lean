import Mathlib.Algebra.Order.Ring.Nat
import Mathlib.Tactic.Ring

/-!
# Pages

Rounding an address to the boundaries of its page.
-/

namespace Dandelion

def pageSize : Nat := 4096

theorem pageSize_pos : 0 < pageSize := by decide

/-- `address & !(PAGE_SIZE - 1)` -/
def roundDownToPage (address : Nat) : Nat := address / pageSize * pageSize

/-- `next_multiple_of(PAGE_SIZE)` -/
def nextPage (address : Nat) : Nat := (address + (pageSize - 1)) / pageSize * pageSize

theorem roundDownToPage_le (address : Nat) : roundDownToPage address ≤ address :=
  Nat.div_mul_le_self _ _

theorem lt_roundDownToPage_add (address : Nat) : address < roundDownToPage address + pageSize := by
  have := Nat.div_add_mod' address pageSize
  have := Nat.mod_lt address pageSize_pos
  unfold roundDownToPage
  omega

theorem dvd_roundDownToPage (address : Nat) : pageSize ∣ roundDownToPage address :=
  Dvd.intro_left _ rfl

theorem dvd_nextPage (address : Nat) : pageSize ∣ nextPage address := Dvd.intro_left _ rfl

theorem le_nextPage (address : Nat) : address ≤ nextPage address := by
  have := lt_roundDownToPage_add (address + (pageSize - 1))
  have := pageSize_pos
  unfold nextPage
  unfold roundDownToPage at *
  omega

theorem nextPage_lt_add (address : Nat) : nextPage address < address + pageSize := by
  have := roundDownToPage_le (address + (pageSize - 1))
  have := pageSize_pos
  unfold nextPage
  unfold roundDownToPage at *
  omega

theorem add_pageSize_le {a b : Nat} (ha : pageSize ∣ a) (hb : pageSize ∣ b) (h : a < b) :
    a + pageSize ≤ b := by
  obtain ⟨i, rfl⟩ := ha
  obtain ⟨j, rfl⟩ := hb
  have hij : i + 1 ≤ j := Nat.lt_of_mul_lt_mul_left h
  calc pageSize * i + pageSize = pageSize * (i + 1) := by ring
    _ ≤ pageSize * j := Nat.mul_le_mul_left _ hij

/-- A page boundary before the end of a page is at or below its start. -/
theorem le_roundDownToPage_of_lt {a address : Nat} (ha : pageSize ∣ a)
    (h : a < roundDownToPage address + pageSize) : a ≤ roundDownToPage address := by
  by_contra hlt
  have := add_pageSize_le (dvd_roundDownToPage address) ha (Nat.lt_of_not_le hlt)
  omega

/-- A page boundary at or below an address is at or below the start of its page. -/
theorem le_roundDownToPage {a address : Nat} (ha : pageSize ∣ a) (h : a ≤ address) :
    a ≤ roundDownToPage address := by
  have := lt_roundDownToPage_add address
  exact le_roundDownToPage_of_lt ha (by omega)

theorem nextPage_le {a address : Nat} (ha : pageSize ∣ a) (h : address ≤ a) :
    nextPage address ≤ a := by
  by_contra hlt
  have := add_pageSize_le ha (dvd_nextPage address) (Nat.lt_of_not_le hlt)
  have := nextPage_lt_add address
  omega

theorem div_eq_of_mem_page {address o : Nat} (h : roundDownToPage address ≤ o)
    (h' : o < roundDownToPage address + pageSize) : address / pageSize = o / pageSize := by
  unfold roundDownToPage at h h'
  refine (Nat.div_eq_of_lt_le h ?_).symm
  calc o < address / pageSize * pageSize + pageSize := h'
    _ = (address / pageSize + 1) * pageSize := by ring

section SameOffset

variable {a b : Nat} (h : a % pageSize = b % pageSize)
include h

/-- Addresses at the same place in their pages are as far from the next page. -/
theorem nextPage_add_eq : nextPage a + b = nextPage b + a := by
  unfold nextPage pageSize at *
  omega

theorem roundDownToPage_add_eq (n : Nat) :
    roundDownToPage (a + n) + b = roundDownToPage (b + n) + a := by
  unfold roundDownToPage pageSize at *
  omega

end SameOffset

end Dandelion
