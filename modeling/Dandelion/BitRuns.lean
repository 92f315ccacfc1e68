import Mathlib.Data.BitVec
import Mathlib.Data.List.Pairwise
import Mathlib.Order.Lattice

/-!
# Runs of set bits

A scan over a list of bits that counts the ones it has just passed and reports a run at
the zero behind it. What it reports, with what is left over at the end, are the maximal
runs of ones, each of them once and in ascending order. The bits of a machine word are
scanned by its trailing zeros and ones.
-/

namespace BitRuns

/-- The ones from `start` on, up to `stop` excluded, with a zero or the border on each side. -/
structure IsRun (bit : Nat → Bool) (start stop : Nat) : Prop where
  lt : start < stop
  ones : ∀ {i}, start ≤ i → i < stop → bit i = true
  front : ∀ {i}, start = i + 1 → bit i = false
  back : bit stop = false

theorem IsRun.unique {bit : Nat → Bool} {a b a' b' i : Nat} (h : IsRun bit a b)
    (h' : IsRun bit a' b') (hi : a ≤ i ∧ i < b) (hi' : a' ≤ i ∧ i < b') : a = a' ∧ b = b' := by
  have start_le {a b a' b' : Nat} (h : IsRun bit a b) (h' : IsRun bit a' b') (hi : a ≤ i ∧ i < b)
      (hi' : a' ≤ i ∧ i < b') : a ≤ a' := by
    by_contra hlt
    have hfront : bit (a - 1) = false := h.front (by omega)
    rw [h'.ones (by omega) (by omega)] at hfront
    cases hfront
  have stop_le {a b a' b' : Nat} (h : IsRun bit a b) (h' : IsRun bit a' b') (hi : a ≤ i ∧ i < b)
      (hi' : a' ≤ i ∧ i < b') : b' ≤ b := by
    by_contra hlt
    have hback := h.back
    rw [h'.ones (by omega) (by omega)] at hback
    cases hback
  exact ⟨Nat.le_antisymm (start_le h h' hi hi') (start_le h' h hi' hi),
    Nat.le_antisymm (stop_le h' h hi' hi) (stop_le h h' hi hi')⟩

/-- The run of the last `c` bits before `p`, if there is one. -/
def flushed (p c : Nat) : List (Nat × Nat) := if 0 < c then [(p - c, p)] else []

@[simp] theorem flushed_zero (p : Nat) : flushed p 0 = [] := rfl

theorem flushed_pos (p : Nat) {c : Nat} (h : 0 < c) : flushed p c = [(p - c, p)] := if_pos h

theorem mem_flushed (p c : Nat) (r : Nat × Nat) : r ∈ flushed p c ↔ 0 < c ∧ r = (p - c, p) := by
  rw [flushed]
  split
  · next h => simp [h]
  · next h => simp [h]

/-- The runs that a zero of the list ends. The list starts at bit `p`, behind `c` ones. -/
def closed : List Bool → Nat → Nat → List (Nat × Nat)
  | [], _, _ => []
  | true :: bits, p, c => closed bits (p + 1) (c + 1)
  | false :: bits, p, c => flushed p c ++ closed bits (p + 1) 0

/-- The ones at the end of the list, with the `c` ones before it. -/
def pending : List Bool → Nat → Nat
  | [], c => c
  | true :: bits, c => pending bits (c + 1)
  | false :: bits, _ => pending bits 0

/-- All runs of the list; it starts at bit `p`, behind `c` ones. -/
def runsFrom (bits : List Bool) (p c : Nat) : List (Nat × Nat) :=
  closed bits p c ++ flushed (p + bits.length) (pending bits c)

section Scan

variable (bits : List Bool) (p c : Nat)

@[simp] theorem runsFrom_nil : runsFrom [] p c = flushed p c := by
  rw [runsFrom, closed, pending]
  rfl

theorem runsFrom_true : runsFrom (true :: bits) p c = runsFrom bits (p + 1) (c + 1) := by
  rw [runsFrom, runsFrom, closed, pending, List.length_cons, Nat.add_right_comm, Nat.add_assoc]

theorem runsFrom_false :
    runsFrom (false :: bits) p c = flushed p c ++ runsFrom bits (p + 1) 0 := by
  rw [runsFrom, runsFrom, closed, pending, List.length_cons, List.append_assoc,
    Nat.add_right_comm, Nat.add_assoc]

section Head

variable {bits} (h : bits.head? = some false)
include h

theorem closed_head : closed bits p c = flushed p c ++ closed bits p 0 := by
  obtain ⟨bits, rfl⟩ := List.head?_eq_some_iff.mp h
  rw [closed, closed, flushed_zero, List.nil_append]

theorem pending_head : pending bits c = pending bits 0 := by
  obtain ⟨bits, rfl⟩ := List.head?_eq_some_iff.mp h
  rfl

theorem runsFrom_head : runsFrom bits p c = flushed p c ++ runsFrom bits p 0 := by
  rw [runsFrom, runsFrom, closed_head p c h, pending_head c h, List.append_assoc]

end Head

theorem closed_append (xs : List Bool) :
    closed (xs ++ bits) p c = closed xs p c ++ closed bits (p + xs.length) (pending xs c) := by
  induction xs generalizing p c with
  | nil => rfl
  | cons x xs ih =>
    have hlength : p + (x :: xs).length = p + 1 + xs.length := by
      rw [List.length_cons]
      omega
    rw [hlength]
    cases x with
    | true => exact ih (p + 1) (c + 1)
    | false =>
      rw [List.cons_append, closed, closed, ih, List.append_assoc]
      rfl

theorem pending_append (xs : List Bool) : pending (xs ++ bits) c = pending bits (pending xs c) := by
  induction xs generalizing c with
  | nil => rfl
  | cons x xs ih =>
    cases x with
    | true => exact ih (c + 1)
    | false => exact ih 0

theorem runsFrom_append (xs : List Bool) :
    runsFrom (xs ++ bits) p c = closed xs p c ++ runsFrom bits (p + xs.length) (pending xs c) := by
  rw [runsFrom, runsFrom, closed_append, pending_append, List.append_assoc, List.length_append,
    Nat.add_assoc]

@[simp] theorem closed_ones (n : Nat) : closed (List.replicate n true) p c = [] := by
  induction n generalizing p c with
  | zero => rfl
  | succ n ih => exact ih (p + 1) (c + 1)

@[simp] theorem pending_ones (n : Nat) : pending (List.replicate n true) c = c + n := by
  induction n generalizing c with
  | zero => rfl
  | succ n ih =>
    calc pending (List.replicate (n + 1) true) c = pending (List.replicate n true) (c + 1) := rfl
      _ = c + (n + 1) := by rw [ih, Nat.add_assoc, Nat.add_comm 1 n]

@[simp] theorem closed_zeros (n : Nat) : closed (List.replicate n false) p 0 = [] := by
  induction n generalizing p with
  | zero => rfl
  | succ n ih => exact ih (p + 1)

@[simp] theorem pending_zeros (n : Nat) : pending (List.replicate n false) 0 = 0 := by
  induction n with
  | zero => rfl
  | succ n ih => exact ih

section ZerosOnes

variable {zeros : Nat} (h : 0 < zeros → c = 0) (ones : Nat)
include h

theorem scan_zeros_ones :
    closed (List.replicate zeros false ++ List.replicate ones true) p c = [] ∧
      pending (List.replicate zeros false ++ List.replicate ones true) c = c + ones := by
  rw [closed_append, pending_append, closed_ones, pending_ones, List.append_nil]
  rcases Nat.eq_zero_or_pos zeros with rfl | hpos
  · exact ⟨rfl, rfl⟩
  · obtain rfl := h hpos
    rw [closed_zeros, pending_zeros]
    exact ⟨rfl, rfl⟩

theorem closed_zeros_ones :
    closed (List.replicate zeros false ++ (List.replicate ones true ++ bits)) p c =
      closed bits (p + (zeros + ones)) (c + ones) := by
  obtain ⟨hclosed, hpending⟩ := scan_zeros_ones p c h ones
  rw [← List.append_assoc, closed_append, hclosed, hpending, List.length_append,
    List.length_replicate, List.length_replicate, List.nil_append]

theorem pending_zeros_ones :
    pending (List.replicate zeros false ++ (List.replicate ones true ++ bits)) c =
      pending bits (c + ones) := by
  rw [← List.append_assoc, pending_append, (scan_zeros_ones 0 c h ones).2]

theorem runsFrom_zeros_ones :
    runsFrom (List.replicate zeros false ++ (List.replicate ones true ++ bits)) p c =
      runsFrom bits (p + (zeros + ones)) (c + ones) := by
  rw [runsFrom, runsFrom, closed_zeros_ones bits p c h, pending_zeros_ones bits c h]
  simp only [List.length_append, List.length_replicate, Nat.add_assoc]

end ZerosOnes

theorem pending_le (h : c ≤ p) : pending bits c ≤ p + bits.length := by
  induction bits generalizing p c with
  | nil => exact h
  | cons bit bits ih =>
    rw [List.length_cons]
    cases bit with
    | true =>
      have := ih (p + 1) (c + 1) (by omega)
      rw [pending]
      omega
    | false =>
      have := ih (p + 1) 0 (by omega)
      rw [pending]
      omega

theorem exists_stop_ge (h : 0 < c) : ∃ r ∈ runsFrom bits p c, p ≤ r.2 := by
  induction bits generalizing p c with
  | nil => exact ⟨_, (mem_flushed p c _).mpr ⟨h, rfl⟩, Nat.le_refl p⟩
  | cons bit bits ih =>
    cases bit with
    | true =>
      obtain ⟨r, hr, hle⟩ := ih (p + 1) (c + 1) (by omega)
      exact ⟨r, by rwa [runsFrom_true], by omega⟩
    | false =>
      rw [runsFrom_false]
      exact ⟨_, List.mem_append_left _ ((mem_flushed p c _).mpr ⟨h, rfl⟩), Nat.le_refl p⟩

theorem le_of_mem_runsFrom {r : Nat × Nat} (h : c ≤ p) (hr : r ∈ runsFrom bits p c) :
    p - c ≤ r.1 := by
  induction bits generalizing p c with
  | nil =>
    obtain ⟨-, rfl⟩ := (mem_flushed p c r).mp (by simpa using hr)
    exact Nat.le_refl _
  | cons bit bits ih =>
    cases bit with
    | true =>
      rw [runsFrom_true] at hr
      have := ih (p + 1) (c + 1) (by omega) hr
      omega
    | false =>
      rw [runsFrom_false, List.mem_append, mem_flushed] at hr
      rcases hr with ⟨-, rfl⟩ | hr
      · exact Nat.le_refl _
      · have := ih (p + 1) 0 (by omega) hr
        omega

theorem pairwise_runsFrom (h : c ≤ p) :
    (runsFrom bits p c).Pairwise fun r r' => r.2 < r'.1 := by
  have hflushed : ∀ q d, (flushed q d).Pairwise fun r r' => r.2 < r'.1 := by
    intro q d
    rw [flushed]
    split
    · exact List.pairwise_singleton _ _
    · exact List.Pairwise.nil
  induction bits generalizing p c with
  | nil =>
    rw [runsFrom_nil]
    exact hflushed p c
  | cons bit bits ih =>
    cases bit with
    | true =>
      rw [runsFrom_true]
      exact ih (p + 1) (c + 1) (by omega)
    | false =>
      rw [runsFrom_false]
      refine List.pairwise_append.mpr ⟨hflushed p c, ih (p + 1) 0 (by omega), ?_⟩
      intro r hr r' hr'
      obtain ⟨-, rfl⟩ := (mem_flushed p c r).mp hr
      have := le_of_mem_runsFrom bits (p + 1) 0 (by omega) hr'
      exact Nat.lt_of_lt_of_le (by omega) this

end Scan

/-- A scan that has counted the `c` ones before bit `p`, back to a zero or the border. -/
structure Counted (bit : Nat → Bool) (p c : Nat) : Prop where
  le : c ≤ p
  ones : ∀ {i}, p - c ≤ i → i < p → bit i = true
  front : ∀ {i}, p - c = i + 1 → bit i = false

section Counted

variable {bit : Nat → Bool} {p c : Nat} (h : Counted bit p c)
include h

theorem Counted.isRun (hpos : 0 < c) (hback : bit p = false) : IsRun bit (p - c) p :=
  ⟨by have := h.le; omega, h.ones, h.front, hback⟩

theorem Counted.one (hbit : bit p = true) : Counted bit (p + 1) (c + 1) := by
  have heq : p + 1 - (c + 1) = p - c := by omega
  refine ⟨by have := h.le; omega, fun {i} hle hlt => ?_, fun {i} hi => h.front (by omega)⟩
  rcases Nat.lt_or_eq_of_le (Nat.le_of_lt_succ hlt) with hlt | rfl
  · exact h.ones (by omega) hlt
  · exact hbit

omit h in
theorem Counted.zero (hbit : bit p = false) : Counted bit (p + 1) 0 := by
  refine ⟨Nat.zero_le _, fun {i} hle hlt => by omega, fun {i} hi => ?_⟩
  obtain rfl : i = p := by omega
  exact hbit

/-- The runs from the counted ones on, at a zero: the counted ones, and what follows. -/
theorem Counted.isRun_iff (hback : bit p = false) (r : Nat × Nat) :
    IsRun bit r.1 r.2 ∧ p - c ≤ r.1 ↔
      r ∈ flushed p c ∨ IsRun bit r.1 r.2 ∧ p + 1 - 0 ≤ r.1 := by
  rw [mem_flushed]
  constructor
  · rintro ⟨hrun, hle⟩
    have hlt := hrun.lt
    by_cases hstart : p < r.1
    · exact .inr ⟨hrun, by omega⟩
    · have hne : r.1 ≠ p := by
        intro heq
        have hone := hrun.ones (Nat.le_refl _) hlt
        rw [heq, hback] at hone
        cases hone
      have hpos : 0 < c := by omega
      obtain ⟨heq, heq'⟩ := hrun.unique (h.isRun hpos hback) ⟨Nat.le_refl _, hlt⟩ ⟨hle, by omega⟩
      exact .inl ⟨hpos, Prod.ext heq heq'⟩
  · rintro (⟨hpos, rfl⟩ | ⟨hrun, hle⟩)
    · exact ⟨h.isRun hpos hback, Nat.le_refl _⟩
    · exact ⟨hrun, by omega⟩

theorem mem_runsFrom_iff {bits : List Bool} (hbits : ∀ i, bits.getD i false = bit (p + i))
    (r : Nat × Nat) : r ∈ runsFrom bits p c ↔ IsRun bit r.1 r.2 ∧ p - c ≤ r.1 := by
  induction bits generalizing p c with
  | nil =>
    have hback : ∀ i, p ≤ i → bit i = false := by
      intro i hi
      rw [← Nat.add_sub_of_le hi, ← hbits]
      rfl
    rw [runsFrom_nil, h.isRun_iff (hback p (Nat.le_refl p))]
    constructor
    · exact .inl
    · rintro (hr | ⟨hrun, hle⟩)
      · exact hr
      · have hone := hrun.ones (Nat.le_refl _) hrun.lt
        rw [hback _ (by omega)] at hone
        cases hone
  | cons b bits ih =>
    have hbit : b = bit p := hbits 0
    have hrest : ∀ i, bits.getD i false = bit (p + 1 + i) := by
      intro i
      rw [Nat.add_assoc, Nat.add_comm 1 i, ← hbits]
      rfl
    cases b with
    | true =>
      rw [runsFrom_true, ih (h.one hbit.symm) hrest, Nat.add_sub_add_right]
    | false =>
      rw [runsFrom_false, List.mem_append, ih (Counted.zero hbit.symm) hrest,
        h.isRun_iff hbit.symm]

theorem exists_run_iff {bits : List Bool} (hbits : ∀ i, bits.getD i false = bit (p + i)) (i : Nat) :
    (∃ r ∈ runsFrom bits p c, r.1 ≤ i ∧ i < r.2) ↔ p - c ≤ i ∧ bit i = true := by
  constructor
  · rintro ⟨r, hr, hle, hlt⟩
    obtain ⟨hrun, hstart⟩ := (mem_runsFrom_iff h hbits r).mp hr
    exact ⟨by omega, hrun.ones hle hlt⟩
  rintro ⟨hle, hone⟩
  induction bits generalizing p c with
  | nil =>
    have hlt : i < p := by
      by_contra hge
      have hback := hbits (i - p)
      rw [Nat.add_sub_cancel' (Nat.le_of_not_lt hge), hone] at hback
      cases hback
    rw [runsFrom_nil]
    exact ⟨_, (mem_flushed p c _).mpr ⟨by omega, rfl⟩, hle, hlt⟩
  | cons b bits ih =>
    have hbit : b = bit p := hbits 0
    have hrest : ∀ j, bits.getD j false = bit (p + 1 + j) := by
      intro j
      rw [Nat.add_assoc, Nat.add_comm 1 j, ← hbits]
      rfl
    cases b with
    | true =>
      rw [runsFrom_true]
      exact ih (h.one hbit.symm) hrest (by omega)
    | false =>
      rw [runsFrom_false]
      by_cases hlt : i < p
      · exact ⟨_, List.mem_append_left _ ((mem_flushed p c _).mpr ⟨by omega, rfl⟩), hle, hlt⟩
      · have hne : i ≠ p := by
          rintro rfl
          rw [hone] at hbit
          cases hbit
        obtain ⟨r, hr, hin⟩ := ih (Counted.zero hbit.symm) hrest (by omega)
        exact ⟨r, List.mem_append_right _ hr, hin⟩

end Counted

section Whole

variable (bits : List Bool)

theorem counted_start (bit : Nat → Bool) : Counted bit 0 0 :=
  ⟨Nat.le_refl _, fun _ hlt => absurd hlt (Nat.not_lt_zero _), fun hi => by omega⟩

theorem mem_runs_iff (r : Nat × Nat) :
    r ∈ runsFrom bits 0 0 ↔ IsRun (fun i => bits.getD i false) r.1 r.2 := by
  rw [mem_runsFrom_iff (counted_start fun i => bits.getD i false) (fun i => by rw [Nat.zero_add])]
  exact and_iff_left (Nat.zero_le _)

theorem exists_run (i : Nat) :
    (∃ r ∈ runsFrom bits 0 0, r.1 ≤ i ∧ i < r.2) ↔ bits.getD i false = true := by
  rw [exists_run_iff (counted_start fun i => bits.getD i false) (fun i => by rw [Nat.zero_add])]
  exact and_iff_right (Nat.zero_le _)

end Whole

section Words

variable {w : Nat} (x : BitVec w)

/-- The first `n` bits of a word, the lowest first. -/
def wordBits (n : Nat) : List Bool := (List.range n).map x.getLsbD

@[simp] theorem length_wordBits (n : Nat) : (wordBits x n).length = n := by
  rw [wordBits, List.length_map, List.length_range]

theorem wordBits_add (k n : Nat) :
    wordBits x (k + n) = wordBits x k ++ wordBits (x >>> k) n := by
  rw [wordBits, wordBits, wordBits, List.range_add, List.map_append, List.map_map]
  congr 1
  apply List.map_congr_left
  intro i hi
  rw [Function.comp_apply, BitVec.getLsbD_ushiftRight]

theorem head?_wordBits {n : Nat} (h : 0 < n) : (wordBits x n).head? = some (x.getLsbD 0) := by
  obtain ⟨n, rfl⟩ := Nat.exists_eq_succ_of_ne_zero (Nat.pos_iff_ne_zero.mp h)
  rw [wordBits, List.head?_map, List.head?_range, if_neg (Nat.succ_ne_zero n)]
  rfl

theorem wordBits_congr {bit : Bool} {n : Nat} (h : ∀ i < n, x.getLsbD i = bit) :
    wordBits x n = List.replicate n bit := by
  rw [wordBits, List.map_eq_replicate_iff.mpr, List.length_range]
  intro i hi
  exact h i (List.mem_range.mp hi)

theorem wordBits_zeros {n : Nat} (h : n ≤ x.ctz.toNat) :
    wordBits x n = List.replicate n false :=
  wordBits_congr x fun _ hi => BitVec.getLsbD_false_of_lt_ctz (by omega)

theorem wordBits_ones {n : Nat} (h : n ≤ (~~~x).ctz.toNat) (hw : n ≤ w) :
    wordBits x n = List.replicate n true := by
  apply wordBits_congr
  intro i hi
  have hnot := BitVec.getLsbD_false_of_lt_ctz (x := ~~~x) (i := i) (by omega)
  rw [BitVec.getLsbD_not, decide_eq_true (by omega), Bool.true_and] at hnot
  simpa using hnot

theorem ushiftRight_ctz_ne_allOnes (hx : x ≠ BitVec.allOnes w) :
    x >>> x.ctz.toNat ≠ BitVec.allOnes w := by
  intro heq
  by_cases hz : x.ctz.toNat = 0
  · rw [hz, BitVec.ushiftRight_zero] at heq
    exact hx heq
  · have hw : 0 < w := by
      by_contra hzero
      obtain rfl : w = 0 := by omega
      exact hz (Nat.lt_one_iff.mp x.ctz.isLt)
    have hbit := congrArg (fun y => y.getLsbD (w - 1)) heq
    simp only [BitVec.getLsbD_ushiftRight, BitVec.getLsbD_allOnes] at hbit
    rw [BitVec.getLsbD_of_ge _ _ (by omega), decide_eq_true (by omega)] at hbit
    cases hbit

theorem getLsbD_trailing_ones (hx : x ≠ BitVec.allOnes w) :
    (~~~x).ctz.toNat < w ∧ x.getLsbD (~~~x).ctz.toNat = false := by
  have hne : ~~~x ≠ 0#w := fun heq => hx (by rw [← BitVec.not_not (b := x), heq, BitVec.not_zero])
  have hbit := BitVec.getLsbD_true_ctz_of_ne_zero hne
  have hlt : (~~~x).ctz.toNat < w := BitVec.lt_of_getLsbD hbit
  refine ⟨hlt, ?_⟩
  rw [BitVec.getLsbD_not, decide_eq_true hlt, Bool.true_and] at hbit
  simpa using hbit

end Words

end BitRuns
