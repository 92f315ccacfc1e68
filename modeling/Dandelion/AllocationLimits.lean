import Dandelion.AllocationRuns

/-!
# Empty regions and the last region

Two places at which the allocation goes wrong. A region without bytes also fits a gap whose first
suitable place is behind its end, and is then inserted behind the next region. And the end of the
last item is read from the last region but one, which is only right while the empty region at
the end of the context is there.
-/

namespace Dandelion

open Outcome Stateful Transitions

/-! ## Empty regions -/

/-- The first gap that has no byte left behind its first suitable place ends at this place. -/
def EmptyFits (place : Nat → Nat) : List Position → Prop
  | lower :: upper :: rest =>
    place (lower.offset + lower.size) = upper.offset
      ∨ place (lower.offset + lower.size) < upper.offset ∧ EmptyFits place (upper :: rest)
  | _ => True

section Search

variable {place : Nat → Nat} {occupation : List Position} {index : Nat} {best : Space}

theorem bestSpace_of_zero (hbest : best.size = 0) :
    bestSpace place 0 occupation index best = best := by
  induction occupation generalizing index with
  | nil => rfl
  | cons lower occupation ih =>
    cases occupation with
    | nil => rfl
    | cons upper rest =>
      rw [bestSpace, if_neg (by omega)]
      exact ih

theorem bestSpace_of_emptyFits (index : Nat) (best : Space) (hpos : 0 < best.size)
    (h : EmptyFits place occupation) :
    bestSpace place 0 occupation index best = best
      ∨ ∃ front lower upper back, occupation = front ++ lower :: upper :: back
        ∧ (bestSpace place 0 occupation index best).index = index + front.length
        ∧ (bestSpace place 0 occupation index best).start = place (lower.offset + lower.size)
        ∧ place (lower.offset + lower.size) ≤ upper.offset := by
  induction occupation generalizing index best with
  | nil => exact Or.inl rfl
  | cons lower occupation ih =>
    cases occupation with
    | nil => exact Or.inl rfl
    | cons upper rest =>
      rw [bestSpace]
      rcases h with heq | ⟨hlt, hrest⟩
      · right
        have hzero : upper.offset - place (lower.offset + lower.size) = 0 := by omega
        rw [if_pos (by omega), bestSpace_of_zero hzero]
        exact ⟨[], lower, upper, rest, rfl, rfl, rfl, heq.le⟩
      · by_cases hbetter : 0 ≤ upper.offset - place (lower.offset + lower.size)
            ∧ upper.offset - place (lower.offset + lower.size) < best.size
        · rw [if_pos hbetter]
          right
          have hleft : 0 < upper.offset - place (lower.offset + lower.size) := by omega
          rcases ih (index + 1) ⟨_, index, _⟩ hleft hrest with
            hsame | ⟨front, lower', upper', back, hsplit, hindex, hstart, hle⟩
          · rw [hsame]
            exact ⟨[], lower, upper, rest, rfl, rfl, rfl, hlt.le⟩
          · refine ⟨lower :: front, lower', upper', back, by rw [hsplit]; rfl, ?_, hstart, hle⟩
            rw [hindex, List.length_cons]
            omega
        · rw [if_neg hbetter]
          rcases ih (index + 1) best hpos hrest with
            hsame | ⟨front, lower', upper', back, hsplit, hindex, hstart, hle⟩
          · exact Or.inl hsame
          · right
            refine ⟨lower :: front, lower', upper', back, by rw [hsplit]; rfl, ?_, hstart, hle⟩
            rw [hindex, List.length_cons]
            omega

/-- Otherwise the place that is found is behind the start of the next region. -/
theorem bestSpace_of_not_emptyFits (index : Nat) (best : Space) (hpos : 0 < best.size)
    (h : ¬ EmptyFits place occupation) :
    ∃ front lower upper back, occupation = front ++ lower :: upper :: back
      ∧ bestSpace place 0 occupation index best
        = ⟨0, index + front.length, place (lower.offset + lower.size)⟩
      ∧ upper.offset < place (lower.offset + lower.size) := by
  induction occupation generalizing index best with
  | nil => exact absurd trivial h
  | cons lower occupation ih =>
    cases occupation with
    | nil => exact absurd trivial h
    | cons upper rest =>
      rw [bestSpace]
      rcases Nat.lt_trichotomy (place (lower.offset + lower.size)) upper.offset with hlt | heq | hgt
      · have hrest : ¬ EmptyFits place (upper :: rest) := fun hrest => h (Or.inr ⟨hlt, hrest⟩)
        have hnext : 0 < (if 0 ≤ upper.offset - place (lower.offset + lower.size)
            ∧ upper.offset - place (lower.offset + lower.size) < best.size
            then (⟨upper.offset - place (lower.offset + lower.size), index,
              place (lower.offset + lower.size)⟩ : Space) else best).size := by
          split_ifs
          · exact Nat.sub_pos_of_lt hlt
          · exact hpos
        obtain ⟨front, lower', upper', back, hsplit, hfound, hbehind⟩ :=
          ih (index + 1) _ hnext hrest
        refine ⟨lower :: front, lower', upper', back, by rw [hsplit]; rfl, ?_, hbehind⟩
        rw [hfound, List.length_cons, Nat.add_right_comm, Nat.add_assoc]
      · exact absurd (Or.inl heq) h
      · have hzero : upper.offset - place (lower.offset + lower.size) = 0 := by omega
        rw [if_pos (by omega), bestSpace_of_zero hzero, hzero]
        exact ⟨[], lower, upper, rest, rfl, rfl, hgt⟩

end Search

/-- The distance to a region that starts before the new one is below zero. -/
theorem insertOccupation_behind {front back : List Position} {lower upper : Position} {offset size : Nat}
    (hlimit : lower.offset + lower.size < Usize.limit) (hlower : lower.offset + lower.size ≠ offset)
    (hend : offset + size < Usize.limit) (hupper : upper.offset < offset) :
    insertOccupation .checked (front ++ lower :: upper :: back) front.length offset size = crash := by
  rw [insertOccupation_split, Usize.add_eq_ok hlimit, ok_bind, if_neg hlower, absorb,
    Usize.add_eq_ok hend, ok_bind, if_pos (by omega), Usize.sub, if_neg (Nat.not_le_of_lt hupper)]
  rfl

/-- An empty region is given out inside the context and as aligned, or the context is full; and the
occupied bytes are what they were. -/
def EmptyHarmless (contextSize : Nat) (occupation : List Position) (alignment : Nat) : Prop :=
  ∃ outcome occupation', exec ((SpaceCall.freeSpace 0 alignment).take contextSize) occupation
      = (outcome, occupation')
    ∧ (outcome = fail .contextFull
      ∨ ∃ start, outcome = .ok start ∧ start ≤ contextSize ∧ alignment ∣ start)
    ∧ occupation'.Pairwise (fun p q => p.offset ≤ q.offset)
    ∧ ∀ o, Occupied occupation' o ↔ Occupied occupation o

section Empty

variable {contextSize : Nat} {occupation : List Position} (h : Spanning contextSize occupation)
include h

theorem spanning_sorted : occupation.Pairwise fun p q => p.offset ≤ q.offset :=
  h.apart.apart.imp fun hle => by omega

variable {alignment : Nat} (hpos : 1 ≤ alignment)
include hpos

theorem emptyHarmless_of_fits (hlimit : contextSize + 1 < Usize.limit)
    (hin : Addressable (nextMultiple · alignment) occupation)
    (hfits : EmptyFits (nextMultiple · alignment) occupation) :
    EmptyHarmless contextSize occupation alignment := by
  have hplace := placement_nextMultiple hpos
  have hfind := findSpace_eq_bestSpace hplace 0 h hlimit hin
  rcases bestSpace_of_emptyFits 0 ⟨contextSize + 1, 0, 0⟩ (Nat.succ_pos _) hfits with
    hsame | ⟨front, lower, upper, back, rfl, hindex, hstart, hle⟩
  · rw [hsame, if_pos rfl] at hfind
    have houtcome : (SpaceCall.freeSpace 0 alignment).outcome contextSize occupation
        = fail .contextFull := by
      rw [SpaceCall.outcome, getFreeSpace, hfind]
      rfl
    exact ⟨_, _, SpaceCall.exec_take_error houtcome, Or.inl rfl, spanning_sorted h, fun o => Iff.rfl⟩
  · obtain ⟨⟨hlower, hdvd⟩, -⟩ := hplace.least (lower.offset + lower.size)
    have hupper := h.apart.inside upper (by simp)
    obtain ⟨merged, hinsert, hspanning, hoccupied, -⟩ :=
      insertOccupation_spanning (by omega) h hlower (show _ + 0 ≤ upper.offset from hle)
    generalize hbest : bestSpace (nextMultiple · alignment) 0 (front ++ lower :: upper :: back) 0
      ⟨contextSize + 1, 0, 0⟩ = best at *
    by_cases hfull : best.size = contextSize + 1
    · rw [if_pos hfull] at hfind
      have houtcome : (SpaceCall.freeSpace 0 alignment).outcome contextSize
          (front ++ lower :: upper :: back) = fail .contextFull := by
        rw [SpaceCall.outcome, getFreeSpace, hfind]
        rfl
      exact ⟨_, _, SpaceCall.exec_take_error houtcome, Or.inl rfl, spanning_sorted h,
        fun o => Iff.rfl⟩
    · rw [if_neg hfull] at hfind
      have houtcome : (SpaceCall.freeSpace 0 alignment).outcome contextSize
          (front ++ lower :: upper :: back) = .ok (best.start, merged) := by
        rw [SpaceCall.outcome, getFreeSpace, hfind, ok_bind, hindex, hstart, Nat.zero_add, hinsert]
        rfl
      refine ⟨_, _, SpaceCall.exec_take_ok houtcome, Or.inr ⟨_, rfl, ?_, ?_⟩,
        spanning_sorted hspanning, fun o => ?_⟩
      · rw [hstart]
        omega
      · rw [hstart]
        exact hdvd
      · rw [hoccupied]
        constructor
        · rintro (hocc | hin)
          · exact hocc
          · omega
        · exact Or.inl

theorem fits_of_emptyHarmless (hsize : contextSize < Usize.limit)
    (hok : EmptyHarmless contextSize occupation alignment) :
    contextSize + 1 < Usize.limit ∧ Addressable (nextMultiple · alignment) occupation
      ∧ EmptyFits (nextMultiple · alignment) occupation := by
  have hplace := placement_nextMultiple hpos
  obtain ⟨outcome, occupation', hexec, hreturned, -⟩ := hok
  have hcrash : (SpaceCall.freeSpace 0 alignment).outcome contextSize occupation ≠ crash := by
    intro hcrash
    rw [SpaceCall.exec_take_error hcrash] at hexec
    obtain ⟨rfl, -⟩ := Prod.mk.inj hexec
    rcases hreturned with hfull | ⟨start, hstart, -⟩
    · cases hfull
    · cases hstart
  have hin : contextSize + 1 < Usize.limit ∧ Addressable (nextMultiple · alignment) occupation := by
    by_contra hout
    exact hcrash (claimSpace_overflow hplace 0 (h.ends_lt hsize) hout)
  refine ⟨hin.1, hin.2, ?_⟩
  by_contra hfits
  apply hcrash
  obtain ⟨front, lower, upper, back, rfl, hbest, hbehind⟩ :=
    bestSpace_of_not_emptyFits 0 ⟨contextSize + 1, 0, 0⟩ (Nat.succ_pos _) hfits
  have hfind := findSpace_eq_bestSpace hplace 0 h hin.1 hin.2
  rw [hbest, if_neg (Nat.succ_ne_zero _).symm] at hfind
  have hlower := h.ends_lt hsize lower (by simp)
  have hstart : nextMultiple (lower.offset + lower.size) alignment < Usize.limit := by
    refine hin.2 lower ?_
    rw [List.dropLast_append_of_ne_nil (List.cons_ne_nil _ _)]
    exact List.mem_append_right _ List.mem_cons_self
  have hgap := (List.pairwise_append.mp h.apart.apart).2.1
  have hle := (List.pairwise_cons.mp hgap).1 upper List.mem_cons_self
  rw [SpaceCall.outcome, getFreeSpace, hfind, ok_bind, Nat.zero_add,
    insertOccupation_behind hlower (by omega) hstart hbehind]
  rfl

end Empty

/-- An allocation of no bytes does no harm exactly if its sums stay inside `usize` and the first gap
without a byte behind its first multiple of the alignment ends at this multiple. -/
theorem emptyHarmless_iff {contextSize alignment : Nat} {s : Spaces}
    (hsize : contextSize < Usize.limit) (h : s.Reachable contextSize) (hpos : 1 ≤ alignment) :
    EmptyHarmless contextSize s.occupation alignment ↔
      contextSize + 1 < Usize.limit ∧ Addressable (nextMultiple · alignment) s.occupation
        ∧ EmptyFits (nextMultiple · alignment) s.occupation := by
  have hspanning := (h.kept hsize).spanning
  constructor
  · exact fits_of_emptyHarmless hspanning hpos hsize
  · rintro ⟨hlimit, hin, hfits⟩
    exact emptyHarmless_of_fits hspanning hpos hlimit hin hfits

/-- One byte of a context of two. -/
def oneByte : Spaces := ⟨[⟨0, 1⟩, ⟨2, 0⟩], [⟨0, 1⟩]⟩

theorem oneByte_reachable : oneByte.Reachable 2 := by
  have hstep : Spaces.Step 2 ⟨clearedOccupation 2, []⟩ oneByte := by
    have hvalid : (SpaceCall.freeSpace 1 1).Valid := ⟨by decide, by decide⟩
    exact .granted hvalid rfl
  exact ⟨_, .cleared, .tail (.refl _) hstep⟩

theorem oneByte_emptyHarmless : oneByte.Reachable 2 ∧ EmptyHarmless 2 oneByte.occupation 2 := by
  have hin : Addressable (nextMultiple · 2) oneByte.occupation := by
    unfold Addressable
    decide
  exact ⟨oneByte_reachable, (emptyHarmless_iff (by decide) oneByte_reachable (by decide)).mpr
    ⟨by decide, hin, Or.inl rfl⟩⟩

/-- The next multiple of four is behind the end of the context. -/
theorem oneByte_emptyPanics : oneByte.Reachable 2 ∧ ¬ EmptyHarmless 2 oneByte.occupation 4 := by
  refine ⟨oneByte_reachable, ?_⟩
  rintro ⟨outcome, occupation, hexec, hreturned, -⟩
  have hcrash : exec ((SpaceCall.freeSpace 0 4).take 2) oneByte.occupation
      = (crash, oneByte.occupation) := rfl
  rw [hcrash] at hexec
  obtain ⟨rfl, -⟩ := Prod.mk.inj hexec
  rcases hreturned with hfull | ⟨start, hstart, -⟩
  · cases hfull
  · cases hstart

/-! ## The last region -/

/-- The end of the last region but one. -/
def getLastItemEnd (mode : Overflow) (occupation : List Position) : DandelionResult Nat := do
  let index ← Usize.sub mode occupation.length 2
  match occupation[index]? with
  | none => crash
  | some lastItem => Usize.add mode lastItem.offset lastItem.size

/-- The bounds of the heap that `setup_input_structs` writes for the function. -/
def heapBounds (mode : Overflow) (contextSize : Nat) (occupation : List Position) :
    DandelionResult (Nat × Nat) := do
  let heapBegin ← getLastItemEnd mode occupation
  let heapEnd ← Usize.sub mode contextSize 128
  pure (heapBegin, heapEnd)

/-- The check of `KvmLoop::run` on the stack and the tables, which are above `stackStart`. -/
def stackAccepted (minStackStart stackStart : Nat) : Bool := !(stackStart ≤ minStackStart)

/-- The end of the last item is the largest end, and the heap and the stack are above it. -/
def AboveItems (contextSize : Nat) (s : Spaces) : Prop :=
  ∃ last, getLastItemEnd .checked s.occupation = .ok last
    ∧ (∀ p ∈ s.given, p.offset + p.size ≤ last)
    ∧ (last = 0 ∨ ∃ p ∈ s.given, p.offset + p.size = last)
    ∧ (∀ heapBegin heapEnd, heapBounds .checked contextSize s.occupation = .ok (heapBegin, heapEnd) →
      ∀ o, heapBegin ≤ o → o < heapEnd → ¬ Occupied s.given o)
    ∧ ∀ stackStart, stackAccepted last stackStart → ∀ o, stackStart ≤ o → ¬ Occupied s.given o

/-- No region with a byte ends at the end of the context. -/
def EndFree (contextSize : Nat) (s : Spaces) : Prop :=
  ∀ p ∈ s.given, 0 < p.size → p.offset + p.size ≠ contextSize

section Last

variable {contextSize : Nat} {s : Spaces}

theorem getLastItemEnd_split (front : List Position) {lower : Position} (upper : Position)
    (hlimit : lower.offset + lower.size < Usize.limit) :
    getLastItemEnd .checked (front ++ [lower, upper]) = .ok (lower.offset + lower.size) := by
  have hlength : (front ++ [lower, upper]).length = front.length + 2 := List.length_append
  have hget : (front ++ [lower, upper])[front.length]? = some lower := by
    rw [List.getElem?_append_right (le_refl _), Nat.sub_self]
    rfl
  rw [getLastItemEnd, hlength, Usize.sub_eq_ok (by omega), ok_bind, Nat.add_sub_cancel, hget]
  exact Usize.add_eq_ok hlimit

theorem occupation_of_size_zero (h : s.Reachable 0) : s.occupation = clearedOccupation 0 := by
  obtain ⟨first, hnew, hreaches⟩ := h
  have hsize : 0 < Usize.limit := by decide
  have hfirst : first.Kept 0 ∧ first.occupation = clearedOccupation 0 := by
    refine ⟨hnew.kept hsize, ?_⟩
    cases hnew with
    | cleared => rfl
    | reserved hle hok =>
      obtain rfl := Nat.le_zero.mp hle
      cases hok
      rfl
  refine (hreaches.invariant (I := fun s => s.Kept 0 ∧ s.occupation = clearedOccupation 0)
    (fun s s' hs hstep => ⟨hs.1.step hsize hstep, ?_⟩) hfirst).2
  cases hstep with
  | granted hvalid hexec =>
    have hend := (hs.1.step hsize (.granted hvalid hexec)).inside _ List.mem_cons_self
    have := SpaceCall.size_pos hvalid
    dsimp only at hend
    omega
  | refused hvalid hexec =>
    rcases hs.1.take hvalid (hs.1.inRange hsize hvalid hexec (returns_fail _)) with
      ⟨start, occupation, hexec', -⟩ | ⟨hexec', -⟩
    · rw [hexec'] at hexec
      cases hexec
    · rw [hexec'] at hexec
      cases hexec
      exact hs.2

theorem exists_last (h : s.Kept contextSize) :
    ∃ front last, s.occupation = front ++ [last] ∧ last.offset + last.size = contextSize := by
  obtain ⟨last, hlast, hend⟩ := Option.map_eq_some_iff.mp h.spanning.last
  obtain ⟨front, hsplit⟩ := List.getLast?_eq_some_iff.mp hlast
  exact ⟨front, last, hsplit, hend⟩

/-- While no region ends with the context, its empty last region is there. -/
theorem exists_lastItem (hsize : contextSize < Usize.limit) (h : s.Reachable contextSize)
    (hfree : EndFree contextSize s) :
    ∃ front lower upper, s.occupation = front ++ [lower, upper] ∧ upper.size = 0
      ∧ upper.offset = contextSize := by
  have hkept := h.kept hsize
  obtain ⟨front, upper, hsplit, hend⟩ := exists_last hkept
  have hzero : upper.size = 0 := by
    by_contra hne
    have hocc : Occupied s.occupation (contextSize - 1) :=
      ⟨upper, by rw [hsplit]; simp, by omega, by omega⟩
    obtain ⟨p, hp, hmin, hmax⟩ := (hkept.occupied _).mp hocc
    have := hkept.inside p hp
    exact hfree p hp (by omega) (by omega)
  have hoffset : upper.offset = contextSize := by omega
  rcases Nat.eq_zero_or_pos contextSize with rfl | hpos
  · exact ⟨[], ⟨0, 0⟩, ⟨0, 0⟩, occupation_of_size_zero h, rfl, rfl⟩
  · rcases List.eq_nil_or_concat front with rfl | ⟨front, lower, rfl⟩
    · have hfirst := hkept.spanning.first
      rw [hsplit] at hfirst
      have : upper.offset = 0 := Option.some.inj hfirst
      omega
    · refine ⟨front, lower, upper, ?_, hzero, hoffset⟩
      rw [hsplit, List.concat_eq_append, List.append_assoc]
      rfl

theorem aboveItems_of_endFree (hsize : contextSize < Usize.limit) (h : s.Reachable contextSize)
    (hfree : EndFree contextSize s) : AboveItems contextSize s := by
  have hkept := h.kept hsize
  obtain ⟨front, lower, upper, hsplit, hzero, hoffset⟩ := exists_lastItem hsize h hfree
  have hspanning := hkept.spanning
  rw [hsplit] at hspanning
  have hlowerEnd := hspanning.ends_lt hsize lower (by simp)
  obtain ⟨-, hback, hcross⟩ := apart_append.mp hspanning.apart
  have hget := getLastItemEnd_split front upper hlowerEnd
  rw [← hsplit] at hget
  have hbelow : ∀ o, Occupied s.given o → o < lower.offset + lower.size := by
    intro o hocc
    obtain ⟨q, hq, hmin, hmax⟩ := (hkept.occupied o).mpr hocc
    rw [hsplit] at hq
    rcases List.mem_append.mp hq with hq | hq
    · have := hcross q hq lower List.mem_cons_self
      omega
    · simp only [List.mem_cons, List.not_mem_nil, or_false] at hq
      rcases hq with rfl | rfl
      · exact hmax
      · omega
  have hends : ∀ p ∈ s.given, p.offset + p.size ≤ lower.offset + lower.size := by
    intro p hp
    rcases Nat.eq_zero_or_pos p.size with hempty | hpos
    · have := hkept.front p hp hempty
      omega
    · have := hbelow (p.offset + p.size - 1) ⟨p, hp, by omega, by omega⟩
      omega
  refine ⟨_, hget, hends, ?_, ?_, ?_⟩
  · rcases Nat.eq_zero_or_pos lower.size with hempty | hpos
    · left
      have hle := (apart_cons.mp hback).2.2 upper List.mem_cons_self
      rcases hkept.empty lower (by rw [hsplit]; simp) hempty with hfirst | hlast
      · omega
      · rcases Nat.eq_zero_or_pos contextSize with rfl | hcontext
        · omega
        · have hgaps := (List.pairwise_append.mp (hspanning.gaps hcontext)).2.1
          have := (List.pairwise_cons.mp hgaps).1 upper List.mem_cons_self
          omega
    · right
      have hocc : Occupied s.occupation (lower.offset + lower.size - 1) :=
        ⟨lower, by rw [hsplit]; simp, by omega, by omega⟩
      obtain ⟨p, hp, hmin, hmax⟩ := (hkept.occupied _).mp hocc
      have := hends p hp
      exact ⟨p, hp, by omega⟩
  · intro heapBegin heapEnd hheap o hmin hmax hocc
    rw [heapBounds, hget, ok_bind] at hheap
    obtain ⟨heapEnd', -, hheap⟩ := (bind_eq_ok_iff _ _ _).mp hheap
    cases hheap
    exact absurd (hbelow o hocc) (Nat.not_lt_of_le hmin)
  · intro stackStart haccepted o hmin hocc
    have := hbelow o hocc
    simp only [stackAccepted, Bool.not_eq_true', decide_eq_false_iff_not] at haccepted
    omega

theorem endFree_of_aboveItems (hsize : contextSize < Usize.limit) (h : s.Reachable contextSize)
    (habove : AboveItems contextSize s) : EndFree contextSize s := by
  have hkept := h.kept hsize
  intro p hp hpos hend
  obtain ⟨last, hget, hends, -⟩ := habove
  have hlast := hends p hp
  obtain ⟨front, upper, hsplit, hupper⟩ := exists_last hkept
  have hgaps := hkept.spanning.gaps (by omega)
  have hinside := hkept.spanning.ends_lt hsize
  have hocc : Occupied s.occupation (contextSize - 1) :=
    (hkept.occupied _).mpr ⟨p, hp, by omega, by omega⟩
  obtain ⟨q, hq, hmin, hmax⟩ := hocc
  rw [hsplit] at hq hgaps hget hinside
  have hbefore := (List.pairwise_append.mp hgaps).2.2
  -- the last byte is in the last region, so that the one before ends below it
  have hlt : upper.offset < contextSize := by
    rcases List.mem_append.mp hq with hq | hq
    · have := hbefore q hq upper (List.mem_singleton.mpr rfl)
      omega
    · obtain rfl := List.mem_singleton.mp hq
      omega
  rcases List.eq_nil_or_concat front with rfl | ⟨front, lower, rfl⟩
  · cases hget
  · rw [List.concat_eq_append, List.append_assoc] at hget
    have hlower := hbefore lower (by simp) upper (List.mem_singleton.mpr rfl)
    have hget' := getLastItemEnd_split front upper (hinside lower (by simp))
    have heq : last = lower.offset + lower.size := Except.ok.inj (hget.symm.trans hget')
    omega

/-- The heap and the stack are above all items exactly if no region ends with the context. -/
theorem aboveItems_iff (hsize : contextSize < Usize.limit) (h : s.Reachable contextSize) :
    AboveItems contextSize s ↔ EndFree contextSize s :=
  ⟨endFree_of_aboveItems hsize h, aboveItems_of_endFree hsize h⟩

end Last

theorem oneByte_aboveItems : oneByte.Reachable 2 ∧ AboveItems 2 oneByte := by
  refine ⟨oneByte_reachable, (aboveItems_iff (by decide) oneByte_reachable).mpr fun p hp _ => ?_⟩
  rw [List.mem_singleton.mp hp]
  decide

/-- A region in front of one that ends with the context. -/
def lastByte : Spaces := ⟨[⟨0, 1⟩, ⟨4, 4⟩], [⟨4, 4⟩, ⟨0, 1⟩]⟩

theorem lastByte_reachable : lastByte.Reachable 8 := by
  have hfirst : Spaces.Step 8 ⟨clearedOccupation 8, []⟩ ⟨[⟨0, 1⟩, ⟨8, 0⟩], [⟨0, 1⟩]⟩ := by
    have hvalid : (SpaceCall.freeSpace 1 1).Valid := ⟨by decide, by decide⟩
    exact .granted hvalid rfl
  have hsecond : Spaces.Step 8 ⟨[⟨0, 1⟩, ⟨8, 0⟩], [⟨0, 1⟩]⟩ lastByte := by
    have hvalid : (SpaceCall.freeSpace 4 4).Valid := ⟨by decide, by decide⟩
    exact .granted hvalid rfl
  exact ⟨_, .cleared, .tail (.tail (.refl _) hfirst) hsecond⟩

/-- The end of the first region is taken for the end of the last one. -/
theorem lastByte_not_aboveItems : lastByte.Reachable 8 ∧ ¬ AboveItems 8 lastByte := by
  refine ⟨lastByte_reachable, ?_⟩
  rintro ⟨last, hget, hends, -⟩
  have hone : last = 1 := by
    cases hget
    rfl
  have := hends ⟨4, 4⟩ List.mem_cons_self
  dsimp only at this
  omega

end Dandelion
