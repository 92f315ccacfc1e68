import Dandelion.Errors
import Dandelion.Usize
import Mathlib.Data.List.Pairwise
import Mathlib.Order.Nat

/-!
# The occupied regions of a context

A context keeps its occupied regions as a list of positions, with empty regions at
both ends. `occupy_space` finds the region a new one starts behind and merges the
regions it meets. Sorted regions inside the context stay so, which excludes every
overflow and underflow once the new region is inside the context.
-/

namespace Dandelion

open Outcome

structure Position where
  offset : Nat
  size : Nat
deriving DecidableEq, Repr

/-- The loop of `Context::insert`: merge `current` with the regions it reaches. -/
def absorb (mode : Overflow) : Position → List Position → DandelionResult (List Position)
  | current, [] => pure [current]
  | current, next :: rest => do
    let currentEnd ← Usize.add mode current.offset current.size
    if next.offset ≤ currentEnd then
      let gap ← Usize.sub mode next.offset current.offset
      let size ← Usize.add mode gap next.size
      absorb mode { current with size } rest
    else pure (current :: next :: rest)

/-- `Context::insert`: only merge with the region before on a seamless insert, leave a
hole otherwise. -/
def insertOccupation (mode : Overflow) (occupation : List Position) (index offset size : Nat) :
    DandelionResult (List Position) :=
  match occupation[index]? with
  | none => crash
  | some current => do
    let currentEnd ← Usize.add mode current.offset current.size
    if currentEnd = offset then
      let before ← Usize.sub mode offset current.offset
      let newSize ← Usize.add mode before size
      let merged ← absorb mode { current with size := newSize } (occupation.drop (index + 1))
      pure (occupation.take index ++ merged)
    else
      let merged ← absorb mode ⟨offset, size⟩ (occupation.drop (index + 1))
      pure (occupation.take (index + 1) ++ merged)

/-- The first window of two regions whose offsets enclose `offset`. -/
def insertionIndex : List Position → Nat → Option Nat
  | lower :: upper :: rest, offset =>
    if lower.offset ≤ offset ∧ offset < upper.offset then some 0
    else (insertionIndex (upper :: rest) offset).map (· + 1)
  | _, _ => none

def occupySpace (mode : Overflow) (contextSize : Nat) (occupation : List Position)
    (offset size : Nat) : DandelionResult (List Position) := do
  let regionEnd ← Usize.add mode offset size
  if contextSize < regionEnd then fail .invalidWrite
  else
    match insertionIndex occupation offset with
    | some index => insertOccupation mode occupation index offset size
    | none => pure occupation

/-- The occupation of a context without content. -/
def clearedOccupation (contextSize : Nat) : List Position := [⟨0, 0⟩, ⟨contextSize, 0⟩]

/-- Sorted regions inside a context of the given size. -/
structure InContext (contextSize : Nat) (occupation : List Position) : Prop where
  sorted : occupation.Pairwise (fun p q => p.offset ≤ q.offset)
  inside : ∀ p ∈ occupation, p.offset + p.size ≤ contextSize

theorem inContext_cleared (contextSize : Nat) :
    InContext contextSize (clearedOccupation contextSize) := by
  constructor
  · simp [clearedOccupation]
  · simp [clearedOccupation]

section Insert

variable {contextSize : Nat} (hsize : contextSize < Usize.limit)
include hsize

theorem absorb_spec (current : Position) (rest : List Position)
    (h : InContext contextSize (current :: rest)) :
    ∃ merged, absorb .checked current rest = .ok merged ∧ InContext contextSize merged ∧
      ∀ p ∈ merged, current.offset ≤ p.offset := by
  induction rest generalizing current with
  | nil =>
    refine ⟨[current], rfl, h, fun p hp => ?_⟩
    rw [List.mem_singleton.mp hp]
  | cons next rest ih =>
    obtain ⟨hfirst, hrest⟩ := List.pairwise_cons.mp h.sorted
    have hcur := h.inside current List.mem_cons_self
    have hnext := h.inside next (List.mem_cons_of_mem _ List.mem_cons_self)
    have hle : current.offset ≤ next.offset := hfirst next List.mem_cons_self
    rw [absorb, Usize.add_eq_ok (by omega)]
    by_cases hmeet : next.offset ≤ current.offset + current.size
    · have hgrown : InContext contextSize
          (⟨current.offset, next.offset - current.offset + next.size⟩ :: rest) := by
        constructor
        · exact List.pairwise_cons.mpr ⟨fun q hq => hfirst q (List.mem_cons_of_mem _ hq),
            (List.pairwise_cons.mp hrest).2⟩
        · refine List.forall_mem_cons.mpr ⟨?_, fun q hq =>
            h.inside q (List.mem_cons_of_mem _ (List.mem_cons_of_mem _ hq))⟩
          change current.offset + (next.offset - current.offset + next.size) ≤ contextSize
          omega
      obtain ⟨merged, hok, hin, hmin⟩ := ih _ hgrown
      refine ⟨merged, ?_, hin, hmin⟩
      change (if next.offset ≤ current.offset + current.size then _ else _) = _
      rw [if_pos hmeet, Usize.sub_eq_ok hle]
      change (Usize.add .checked (next.offset - current.offset) next.size >>= _) = _
      rw [Usize.add_eq_ok (by omega)]
      exact hok
    · refine ⟨current :: next :: rest, ?_, h, ?_⟩
      · change (if next.offset ≤ current.offset + current.size then _ else _) = _
        rw [if_neg hmeet]
        rfl
      · exact List.forall_mem_cons.mpr ⟨Nat.le_refl _, hfirst⟩

/-- A region behind the one at `index` and before the next is inserted without overflow. -/
theorem insertOccupation_spec {occupation : List Position} (h : InContext contextSize occupation)
    {index offset size : Nat} {lower upper : Position} (hlower : occupation[index]? = some lower)
    (hupper : occupation[index + 1]? = some upper) (hle : lower.offset ≤ offset)
    (hlt : offset < upper.offset) (hend : offset + size ≤ contextSize) :
    ∃ merged, insertOccupation .checked occupation index offset size = .ok merged ∧
      InContext contextSize merged := by
  obtain ⟨hi, hget⟩ := List.getElem?_eq_some_iff.mp hlower
  obtain ⟨hi', hget'⟩ := List.getElem?_eq_some_iff.mp hupper
  have hsplit : occupation = occupation.take index ++ lower :: occupation.drop (index + 1) := by
    rw [← hget, ← List.drop_eq_getElem_cons hi, List.take_append_drop]
  have hin := h
  rw [hsplit] at hin
  obtain ⟨hbefore, hafter, hcross⟩ := List.pairwise_append.mp hin.sorted
  obtain ⟨hfirst, hrest⟩ := List.pairwise_cons.mp hafter
  have hlowerEnd := h.inside lower (hget ▸ List.getElem_mem hi)
  have hdrop : occupation.drop (index + 1) = upper :: occupation.drop (index + 1 + 1) := by
    rw [← hget', ← List.drop_eq_getElem_cons hi']
  have habove : ∀ q ∈ occupation.drop (index + 1), upper.offset ≤ q.offset := by
    rw [hdrop] at hrest ⊢
    exact List.forall_mem_cons.mpr ⟨Nat.le_refl _, (List.pairwise_cons.mp hrest).1⟩
  have hinside : ∀ q ∈ occupation.drop (index + 1), q.offset + q.size ≤ contextSize :=
    fun q hq => h.inside q (List.mem_of_mem_drop hq)
  have hinsideBefore : ∀ q ∈ occupation.take index, q.offset + q.size ≤ contextSize :=
    fun q hq => h.inside q (List.mem_of_mem_take hq)
  rw [insertOccupation, hlower]
  simp only [Usize.add_eq_ok (show lower.offset + lower.size < Usize.limit by omega)]
  by_cases hseam : lower.offset + lower.size = offset
  · have hgrown : InContext contextSize
        (⟨lower.offset, offset - lower.offset + size⟩ :: occupation.drop (index + 1)) := by
      constructor
      · exact List.pairwise_cons.mpr ⟨hfirst, hrest⟩
      · refine List.forall_mem_cons.mpr ⟨?_, hinside⟩
        change lower.offset + (offset - lower.offset + size) ≤ contextSize
        omega
    obtain ⟨merged, hok, hmerged, hmin⟩ := absorb_spec hsize _ _ hgrown
    refine ⟨occupation.take index ++ merged, ?_, ?_, ?_⟩
    · change (if lower.offset + lower.size = offset then _ else _) = _
      rw [if_pos hseam, Usize.sub_eq_ok hle]
      change (Usize.add .checked (offset - lower.offset) size >>= _) = _
      rw [Usize.add_eq_ok (by omega)]
      change (absorb _ _ _ >>= _) = _
      rw [hok]
      rfl
    · refine List.pairwise_append.mpr ⟨hbefore, hmerged.sorted, fun p hp q hq => ?_⟩
      exact (hcross p hp lower List.mem_cons_self).trans (hmin q hq)
    · exact List.forall_mem_append.mpr ⟨hinsideBefore, hmerged.inside⟩
  · have hnew : InContext contextSize (⟨offset, size⟩ :: occupation.drop (index + 1)) := by
      constructor
      · exact List.pairwise_cons.mpr ⟨fun q hq => hlt.le.trans (habove q hq), hrest⟩
      · exact List.forall_mem_cons.mpr ⟨hend, hinside⟩
    obtain ⟨merged, hok, hmerged, hmin⟩ := absorb_spec hsize _ _ hnew
    have htake : occupation.take (index + 1) = occupation.take index ++ [lower] := by
      rw [List.take_add_one, hlower]
      rfl
    refine ⟨occupation.take (index + 1) ++ merged, ?_, ?_, ?_⟩
    · change (if lower.offset + lower.size = offset then _ else _) = _
      rw [if_neg hseam, hok]
      rfl
    · rw [htake, List.append_assoc]
      refine List.pairwise_append.mpr ⟨hbefore, List.pairwise_cons.mpr
        ⟨fun q hq => hle.trans (hmin q hq), hmerged.sorted⟩, fun p hp q hq => ?_⟩
      have hpl := hcross p hp lower List.mem_cons_self
      rcases List.mem_cons.mp hq with rfl | hq
      · exact hpl
      · exact (hpl.trans hle).trans (hmin q hq)
    · rw [htake, List.append_assoc]
      exact List.forall_mem_append.mpr
        ⟨hinsideBefore, List.forall_mem_cons.mpr ⟨hlowerEnd, hmerged.inside⟩⟩

end Insert

theorem insertionIndex_spec {occupation : List Position} {offset index : Nat}
    (h : insertionIndex occupation offset = some index) :
    ∃ lower upper, occupation[index]? = some lower ∧ occupation[index + 1]? = some upper ∧
      lower.offset ≤ offset ∧ offset < upper.offset := by
  induction occupation generalizing index with
  | nil => cases h
  | cons lower rest ih =>
    cases rest with
    | nil => cases h
    | cons upper rest =>
      rw [insertionIndex] at h
      split at h
      · rename_i hin
        cases h
        exact ⟨lower, upper, rfl, rfl, hin⟩
      · obtain ⟨index, hrest, rfl⟩ := Option.map_eq_some_iff.mp h
        exact ih hrest

section Occupy

variable {contextSize : Nat} {occupation : List Position} (hsize : contextSize < Usize.limit)
  (h : InContext contextSize occupation)
include hsize h

theorem occupySpace_inside {offset size : Nat} (hend : offset + size ≤ contextSize) :
    ∃ merged, occupySpace .checked contextSize occupation offset size = .ok merged ∧
      InContext contextSize merged := by
  rw [occupySpace, Usize.add_eq_ok (by omega)]
  change ∃ merged, (if contextSize < offset + size then _ else _) = _ ∧ _
  rw [if_neg (by omega)]
  cases hindex : insertionIndex occupation offset with
  | none => exact ⟨occupation, rfl, h⟩
  | some index =>
    obtain ⟨lower, upper, hlower, hupper, hle, hlt⟩ := insertionIndex_spec hindex
    exact insertOccupation_spec hsize h hlower hupper hle hlt hend

theorem occupySpace_returns (offset size : Nat) :
    Returns (occupySpace .checked contextSize occupation offset size) ↔
      offset + size < Usize.limit := by
  constructor
  · intro hret
    rw [occupySpace, returns_bind, Usize.returns_add] at hret
    exact hret.1
  · intro hlt
    by_cases hend : offset + size ≤ contextSize
    · obtain ⟨merged, hok, -⟩ := occupySpace_inside hsize h hend
      rw [hok]
      exact returns_ok merged
    · rw [occupySpace, Usize.add_eq_ok hlt]
      change Returns (if contextSize < offset + size then _ else _)
      rw [if_pos (Nat.lt_of_not_le hend)]
      exact returns_fail _

omit hsize h in
theorem occupySpace_ok_le {offset size : Nat} {merged : List Position}
    (hok : occupySpace .checked contextSize occupation offset size = .ok merged) :
    offset + size ≤ contextSize := by
  obtain ⟨regionEnd, hadd, hok⟩ := (bind_eq_ok_iff _ _ _).mp hok
  obtain ⟨-, rfl⟩ := Usize.add_eq_ok_iff.mp hadd
  by_contra hend
  rw [if_pos (Nat.lt_of_not_le hend)] at hok
  cases hok

end Occupy

end Dandelion
