import Dandelion.AllocationLimits

/-!
# Occupied ranges

`occupy_space` marks a range as occupied that may overlap with what is occupied. It does so if
the range starts in a gap, and ends no later than the next region if it reaches that. A range
that starts inside of a region is entered behind it, and one that ends behind the next region
is cut off at the end of this.
-/

namespace Dandelion

open Outcome Transitions

/-- The range starts in a gap, and ends no later than the next region if it reaches it. -/
def Occupiable (occupation : List Position) (offset size : Nat) : Prop :=
  ∀ front lower upper back, occupation = front ++ lower :: upper :: back →
    lower.offset ≤ offset → offset < upper.offset →
      lower.offset + lower.size ≤ offset
        ∧ (upper.offset ≤ offset + size → offset + size ≤ upper.offset + upper.size)

theorem insertionIndex_some {occupation : List Position} {offset index : Nat}
    (h : insertionIndex occupation offset = some index) :
    ∃ front lower upper back, occupation = front ++ lower :: upper :: back
      ∧ index = front.length ∧ lower.offset ≤ offset ∧ offset < upper.offset := by
  induction occupation generalizing index with
  | nil => cases h
  | cons lower rest ih =>
    cases rest with
    | nil => cases h
    | cons upper rest =>
      rw [insertionIndex] at h
      split_ifs at h with hin
      · cases h
        exact ⟨[], lower, upper, rest, rfl, rfl, hin⟩
      · obtain ⟨index, hrest, rfl⟩ := Option.map_eq_some_iff.mp h
        obtain ⟨front, lower', upper', back, hsplit, hindex, hin'⟩ := ih hrest
        exact ⟨lower :: front, lower', upper', back, by rw [hsplit]; rfl, by rw [hindex]; rfl, hin'⟩

theorem insertionIndex_none {occupation : List Position} {p : Position} {offset : Nat}
    (h : insertionIndex (p :: occupation) offset = none) (hp : p.offset ≤ offset) :
    ∀ q ∈ (p :: occupation).getLast?, q.offset ≤ offset := by
  induction occupation generalizing p with
  | nil =>
    intro q hq
    cases hq
    exact hp
  | cons upper rest ih =>
    rw [insertionIndex] at h
    split_ifs at h with hin
    have hupper : upper.offset ≤ offset := by omega
    rw [List.getLast?_cons_cons]
    exact ih (Option.map_eq_none_iff.mp h) hupper

/-- A region that is reached is merged from its own end, however far the new one goes. -/
theorem absorb_reaching {current next : Position} {rest : List Position}
    (hlimit : current.offset + current.size < Usize.limit) (hle : current.offset ≤ next.offset)
    (hmeet : next.offset ≤ current.offset + current.size) :
    absorb .checked current (next :: rest)
      = absorb .checked ⟨current.offset, next.offset - current.offset⟩ (next :: rest) := by
  have hend : current.offset + (next.offset - current.offset) = next.offset := by omega
  rw [absorb, absorb, Usize.add_eq_ok hlimit, ok_bind, if_pos hmeet]
  dsimp only
  rw [Usize.add_eq_ok (by omega), ok_bind, if_pos hend.ge]

theorem insertOccupation_reaching {front back : List Position} {lower upper : Position}
    {offset size : Nat} (hlower : lower.offset + lower.size ≤ offset) (hle : offset ≤ upper.offset)
    (hmeet : upper.offset ≤ offset + size) (hlimit : offset + size < Usize.limit) :
    insertOccupation .checked (front ++ lower :: upper :: back) front.length offset size
      = insertOccupation .checked (front ++ lower :: upper :: back) front.length offset
        (upper.offset - offset) := by
  rw [insertOccupation_split, insertOccupation_split, Usize.add_eq_ok (by omega), ok_bind, ok_bind]
  by_cases hseam : lower.offset + lower.size = offset
  · rw [if_pos hseam, if_pos hseam, Usize.sub_eq_ok (by omega), ok_bind, ok_bind,
      Usize.add_eq_ok (by omega), ok_bind, Usize.add_eq_ok (by omega), ok_bind]
    rw [absorb_reaching (by dsimp only; omega) (by dsimp only; omega) (by dsimp only; omega)]
    have hgap : upper.offset - lower.offset = offset - lower.offset + (upper.offset - offset) := by
      omega
    rw [hgap]
  · rw [if_neg hseam, if_neg hseam,
      absorb_reaching (by dsimp only; omega) (by dsimp only; omega) (by dsimp only; omega)]

section Occupy

variable {contextSize : Nat} (hsize : contextSize < Usize.limit) {front back : List Position}
  {lower upper : Position} {offset size : Nat}
  (h : Spanning contextSize (front ++ lower :: upper :: back))
  (hend : offset + size ≤ contextSize) (hlower : lower.offset + lower.size ≤ offset)
  (hle : offset ≤ upper.offset)
include hsize h hend hlower hle

/-- What an insertion adds ends with the new region, or where the next one starts. -/
theorem insertOccupation_overlapping :
    ∃ merged, insertOccupation .checked (front ++ lower :: upper :: back) front.length offset size
        = .ok merged
      ∧ Spanning contextSize merged
      ∧ ∀ o, Occupied merged o ↔ Occupied (front ++ lower :: upper :: back) o
        ∨ (offset ≤ o ∧ o < offset + size ∧ o < upper.offset) := by
  by_cases hmeet : upper.offset ≤ offset + size
  · rw [insertOccupation_reaching hlower hle hmeet (by omega)]
    have hroom : offset + (upper.offset - offset) ≤ upper.offset := by omega
    obtain ⟨merged, hok, hspanning, hoccupied, -⟩ :=
      insertOccupation_spanning hsize h hlower hroom
    refine ⟨merged, hok, hspanning, fun o => ?_⟩
    rw [hoccupied]
    have hiff : (offset ≤ o ∧ o < offset + (upper.offset - offset))
        ↔ (offset ≤ o ∧ o < offset + size ∧ o < upper.offset) := by omega
    rw [hiff]
  · obtain ⟨merged, hok, hspanning, hoccupied, -⟩ :=
      insertOccupation_spanning hsize h hlower (show offset + size ≤ upper.offset by omega)
    refine ⟨merged, hok, hspanning, fun o => ?_⟩
    rw [hoccupied]
    have hiff : (offset ≤ o ∧ o < offset + size)
        ↔ (offset ≤ o ∧ o < offset + size ∧ o < upper.offset) := by omega
    rw [hiff]

end Occupy

theorem getFreeSpace_spanning {contextSize size alignment start : Nat}
    {occupation occupation' : List Position} (hsize : contextSize < Usize.limit)
    (h : Spanning contextSize occupation)
    (hok : getFreeSpace .checked contextSize occupation size alignment = .ok (start, occupation')) :
    FreeRange occupation start size ∧ Spanning contextSize occupation'
      ∧ ∀ o, Occupied occupation' o ↔ Occupied occupation o ∨ (start ≤ o ∧ o < start + size) := by
  obtain ⟨space, hfind, hok⟩ := (bind_eq_ok_iff _ _ _).mp hok
  obtain ⟨merged, hinsert, hok⟩ := (bind_eq_ok_iff _ _ _).mp hok
  cases hok
  obtain ⟨front, lower, upper, back, rfl, hindex, hfits⟩ := findSpace_ok hfind
  have hlowerEnd := h.ends_lt hsize lower (by simp)
  have hstart := hfits.start_eq
  have hpos : 0 < alignment := by
    by_contra hzero
    rw [Usize.nextMultipleOf, if_pos (by omega)] at hstart
    cases hstart
  have hplace := placement_nextMultiple hpos
  rw [hplace.startOf_eq _ hlowerEnd] at hstart
  split_ifs at hstart with hlimit
  · replace hstart := Except.ok.inj hstart
    obtain ⟨⟨hle, -⟩, -⟩ := hplace.least (lower.offset + lower.size)
    rw [hstart] at hle hlimit
    rw [hindex] at hinsert
    have hgap := (List.pairwise_append.mp h.apart.apart).2.1
    have hbefore := (List.pairwise_cons.mp hgap).1 upper List.mem_cons_self
    -- an empty region behind the start of the next one is not entered
    have hroom : space.start + size ≤ upper.offset := by
      have := hfits.size_eq
      have := hfits.size_le
      by_contra hbehind
      rw [insertOccupation_behind hlowerEnd (by omega) (by omega) (by omega)] at hinsert
      cases hinsert
    obtain ⟨merged', hinsert', hspanning, hoccupied, -⟩ :=
      insertOccupation_spanning hsize h hle hroom
    rw [hinsert'] at hinsert
    cases hinsert
    exact ⟨freeRange_of_gap h.apart hle hroom, hspanning, hoccupied⟩
  · cases hstart

/-- A call of a run. Ranges that `occupy_space` gets may be entered. -/
inductive OccupyStep (contextSize : Nat) : List Position → List Position → Prop where
  | occupied {occupation occupation' : List Position} {offset size : Nat}
      (hend : offset + size ≤ contextSize) (hok : Occupiable occupation offset size)
      (hcall : occupySpace .checked contextSize occupation offset size = .ok occupation') :
      OccupyStep contextSize occupation occupation'
  | given {occupation occupation' : List Position} {size alignment start : Nat}
      (hcall : getFreeSpace .checked contextSize occupation size alignment
        = .ok (start, occupation')) :
      OccupyStep contextSize occupation occupation'

/-- The range is occupied together with what was, and no later region overlaps with that. -/
def OccupiesRange (contextSize : Nat) (occupation : List Position) (offset size : Nat) : Prop :=
  ∃ occupation', occupySpace .checked contextSize occupation offset size = .ok occupation'
    ∧ (∀ o, Occupied occupation' o ↔ Occupied occupation o ∨ (offset ≤ o ∧ o < offset + size))
    ∧ occupation'.Pairwise (fun p q => p.offset + p.size ≤ q.offset)
    ∧ ∀ later laterSize alignment start after,
      Reaches (OccupyStep contextSize) occupation' later →
      getFreeSpace .checked contextSize later laterSize alignment = .ok (start, after) →
      ∀ o, Occupied occupation' o → ¬ (start ≤ o ∧ o < start + laterSize)

section Ranges

variable {contextSize : Nat} (hsize : contextSize < Usize.limit) {occupation : List Position}
  (h : Spanning contextSize occupation) {offset size : Nat} (hend : offset + size ≤ contextSize)

include hsize hend in
theorem occupySpace_eq : occupySpace .checked contextSize occupation offset size
    = match insertionIndex occupation offset with
      | some index => insertOccupation .checked occupation index offset size
      | none => pure occupation := by
  rw [occupySpace, Usize.add_eq_ok (by omega), ok_bind]
  exact if_neg (by omega)

include hsize h hend in
theorem occupySpace_of_occupiable (hok : Occupiable occupation offset size) :
    ∃ occupation', occupySpace .checked contextSize occupation offset size = .ok occupation'
      ∧ Spanning contextSize occupation'
      ∧ ∀ o, Occupied occupation' o ↔ Occupied occupation o ∨ (offset ≤ o ∧ o < offset + size) := by
  rw [occupySpace_eq hsize hend]
  cases hindex : insertionIndex occupation offset with
  | none =>
    refine ⟨occupation, rfl, h, fun o => ?_⟩
    -- the last region ends with the context
    obtain ⟨last, hlast, hlastEnd⟩ := Option.map_eq_some_iff.mp h.last
    have hmem := List.mem_of_getLast? hlast
    have hbelow : last.offset ≤ offset := by
      cases occupation with
      | nil => cases hmem
      | cons p rest =>
        have hfirst : p.offset = 0 := Option.some.inj h.first
        exact insertionIndex_none hindex (by omega) last hlast
    constructor
    · exact Or.inl
    · rintro (hocc | ⟨hmin, hmax⟩)
      · exact hocc
      · exact ⟨last, hmem, by omega, by omega⟩
  | some index =>
    obtain ⟨front, lower, upper, back, rfl, rfl, hlower, hupper⟩ := insertionIndex_some hindex
    obtain ⟨hbehind, hreach⟩ := hok front lower upper back rfl hlower hupper
    obtain ⟨merged, hinsert, hspanning, hoccupied⟩ :=
      insertOccupation_overlapping hsize h hend hbehind hupper.le
    refine ⟨merged, hinsert, hspanning, fun o => ?_⟩
    rw [hoccupied]
    constructor
    · rintro (hocc | hin)
      · exact Or.inl hocc
      · exact Or.inr ⟨hin.1, hin.2.1⟩
    · rintro (hocc | ⟨hmin, hmax⟩)
      · exact Or.inl hocc
      · by_cases hin : o < upper.offset
        · exact Or.inr ⟨hmin, hmax, hin⟩
        · have := hreach (by omega)
          exact Or.inl ⟨upper, by simp, by omega, by omega⟩

theorem insertionIndex_split {front back : List Position} {lower upper : Position}
    (hsorted : (front ++ lower :: upper :: back).Pairwise fun p q => p.offset ≤ q.offset)
    (hlower : lower.offset ≤ offset) (hupper : offset < upper.offset) :
    insertionIndex (front ++ lower :: upper :: back) offset = some front.length := by
  induction front with
  | nil => exact if_pos ⟨hlower, hupper⟩
  | cons p front ih =>
    have hrest := (List.pairwise_cons.mp hsorted).2
    have hnext : ∃ q tail, front ++ lower :: upper :: back = q :: tail ∧ q.offset ≤ offset := by
      cases front with
      | nil => exact ⟨lower, upper :: back, rfl, hlower⟩
      | cons q front =>
        have := (List.pairwise_cons.mp hrest).1 lower (by simp)
        exact ⟨q, front ++ lower :: upper :: back, rfl, by omega⟩
    obtain ⟨q, tail, hsplit, hq⟩ := hnext
    have hfound := ih hrest
    rw [List.cons_append, hsplit, insertionIndex, if_neg (by omega), ← hsplit, hfound]
    rfl

include hsize h hend in
theorem occupiable_of_occupiesRange (hok : OccupiesRange contextSize occupation offset size) :
    Occupiable occupation offset size := by
  rintro front lower upper back rfl hlower hupper
  obtain ⟨occupation', hcall, hoccupied, hapart, -⟩ := hok
  rw [occupySpace_eq hsize hend, insertionIndex_split (spanning_sorted h) hlower hupper] at hcall
  have hbehind : lower.offset + lower.size ≤ offset := by
    by_contra hinside
    obtain ⟨merged, ⟨hseam, -, -⟩ | ⟨-, habsorb, rfl⟩⟩ := insertOccupation_ok hcall
    · omega
    · obtain ⟨taken, tail, newSize, -, rfl, -, -⟩ := absorb_ok habsorb
      have hback := (List.pairwise_append.mp hapart).2.1
      have hle := (List.pairwise_cons.mp hback).1 _ List.mem_cons_self
      exact hinside hle
  refine ⟨hbehind, fun hmeet => ?_⟩
  by_contra hcut
  obtain ⟨merged, hinsert, -, hmerged⟩ :=
    insertOccupation_overlapping hsize h hend hbehind hupper.le
  obtain rfl : merged = occupation' := Except.ok.inj (hinsert.symm.trans hcall)
  -- the byte behind the next region is lost
  have hlost := (hoccupied (upper.offset + upper.size)).mpr (Or.inr (by omega))
  rcases (hmerged _).mp hlost with hocc | hin
  · have hgaps := h.gaps (by omega)
    obtain ⟨-, hback, hcross⟩ := List.pairwise_append.mp hgaps
    have hrest := (List.pairwise_cons.mp (List.pairwise_cons.mp hback).2).1
    have hfirst := (List.pairwise_cons.mp hback).1 upper List.mem_cons_self
    rw [occupied_append, occupied_cons, occupied_cons] at hocc
    rcases hocc with ⟨p, hp, hin⟩ | hin | hin | ⟨p, hp, hin⟩
    · have := hcross p hp lower List.mem_cons_self
      omega
    · omega
    · omega
    · have := hrest p hp
      omega
  · omega

end Ranges

section Runs

variable {contextSize : Nat} (hsize : contextSize < Usize.limit)
include hsize

theorem OccupyStep.keeps {occupation occupation' : List Position} (h : Spanning contextSize occupation)
    (hstep : OccupyStep contextSize occupation occupation') :
    Spanning contextSize occupation' ∧ ∀ o, Occupied occupation o → Occupied occupation' o := by
  cases hstep with
  | occupied hend hok hcall =>
    obtain ⟨merged, hcall', hspanning, hoccupied⟩ := occupySpace_of_occupiable hsize h hend hok
    obtain rfl : merged = occupation' := Except.ok.inj (hcall'.symm.trans hcall)
    exact ⟨hspanning, fun o hocc => (hoccupied o).mpr (Or.inl hocc)⟩
  | given hcall =>
    obtain ⟨-, hspanning, hoccupied⟩ := getFreeSpace_spanning hsize h hcall
    exact ⟨hspanning, fun o hocc => (hoccupied o).mpr (Or.inl hocc)⟩

theorem occupyRun_keeps {occupation later : List Position} (h : Spanning contextSize occupation)
    (hreaches : Reaches (OccupyStep contextSize) occupation later) :
    Spanning contextSize later ∧ ∀ o, Occupied occupation o → Occupied later o := by
  refine hreaches.invariant (I := fun later =>
    Spanning contextSize later ∧ ∀ o, Occupied occupation o → Occupied later o) ?_ ⟨h, fun _ => id⟩
  intro s t hs hstep
  obtain ⟨hspanning, hmono⟩ := hstep.keeps hsize hs.1
  exact ⟨hspanning, fun o hocc => hmono o (hs.2 o hocc)⟩

/-- In a run whose ranges may be entered, `occupy_space` marks a range exactly if that may be
entered too. -/
theorem occupiesRange_iff {occupation : List Position}
    (hreaches : Reaches (OccupyStep contextSize) (clearedOccupation contextSize) occupation)
    {offset size : Nat} (hend : offset + size ≤ contextSize) :
    OccupiesRange contextSize occupation offset size ↔ Occupiable occupation offset size := by
  have h := (occupyRun_keeps hsize (spanning_cleared contextSize) hreaches).1
  refine ⟨occupiable_of_occupiesRange hsize h hend, fun hok => ?_⟩
  obtain ⟨occupation', hcall, hspanning, hoccupied⟩ := occupySpace_of_occupiable hsize h hend hok
  refine ⟨occupation', hcall, hoccupied, hspanning.apart.apart, ?_⟩
  intro later laterSize alignment start after hlater hgiven o hocc hin
  obtain ⟨hspanning', hmono⟩ := occupyRun_keeps hsize hspanning hlater
  obtain ⟨hfree, -, -⟩ := getFreeSpace_spanning hsize hspanning' hgiven
  exact hfree o hin.1 hin.2 (hmono o hocc)

end Runs

theorem tenOccupied_reached :
    Reaches (OccupyStep 20) (clearedOccupation 20) [⟨0, 10⟩, ⟨20, 0⟩] := by
  have hcall : getFreeSpace .checked 20 (clearedOccupation 20) 10 1
      = .ok (0, [⟨0, 10⟩, ⟨20, 0⟩]) := rfl
  exact .tail (.refl _) (.given hcall)

theorem tenOccupied_occupiesRange : OccupiesRange 20 [⟨0, 10⟩, ⟨20, 0⟩] 12 3 := by
  refine (occupiesRange_iff (by decide) tenOccupied_reached (by decide)).mpr ?_
  intro front lower upper back hsplit hlower hupper
  cases front with
  | nil =>
    cases hsplit
    exact ⟨by decide, fun hmeet => absurd hmeet (by decide)⟩
  | cons p front =>
    have hlength := congrArg List.length hsplit
    simp only [List.length_append, List.length_cons, List.length_nil] at hlength
    omega

/-- A range inside of a region is entered behind it, and bytes of the region are given out again. -/
theorem tenOccupied_entered_twice :
    Reaches (OccupyStep 20) (clearedOccupation 20) [⟨0, 10⟩, ⟨20, 0⟩]
      ∧ ¬ OccupiesRange 20 [⟨0, 10⟩, ⟨20, 0⟩] 5 2
      ∧ occupySpace .checked 20 [⟨0, 10⟩, ⟨20, 0⟩] 5 2 = .ok [⟨0, 10⟩, ⟨5, 2⟩, ⟨20, 0⟩]
      ∧ getFreeSpace .checked 20 [⟨0, 10⟩, ⟨5, 2⟩, ⟨20, 0⟩] 1 1
        = .ok (7, [⟨0, 10⟩, ⟨5, 3⟩, ⟨20, 0⟩]) := by
  have hcall : occupySpace .checked 20 [⟨0, 10⟩, ⟨20, 0⟩] 5 2
      = .ok [⟨0, 10⟩, ⟨5, 2⟩, ⟨20, 0⟩] := rfl
  have hgiven : getFreeSpace .checked 20 [⟨0, 10⟩, ⟨5, 2⟩, ⟨20, 0⟩] 1 1
      = .ok (7, [⟨0, 10⟩, ⟨5, 3⟩, ⟨20, 0⟩]) := rfl
  refine ⟨tenOccupied_reached, ?_, hcall, hgiven⟩
  rintro ⟨occupation', hcall', -, -, hlater⟩
  rw [hcall] at hcall'
  cases hcall'
  have hseven : Occupied [⟨0, 10⟩, ⟨5, 2⟩, ⟨20, 0⟩] 7 := ⟨⟨0, 10⟩, by simp, by decide, by decide⟩
  exact hlater _ 1 1 7 _ (.refl _) hgiven 7 hseven (by decide)

end Dandelion
