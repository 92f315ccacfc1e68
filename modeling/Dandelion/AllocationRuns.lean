import Dandelion.Allocation
import Dandelion.Stateful
import Dandelion.Transitions

/-!
# Runs of allocations

A new context, of which a front part may be occupied, is given out region by region. Every
region that is given out is inside the context, suits the call and is free until then, and a
call fails only when no such region is left.
-/

namespace Dandelion

open Outcome Stateful Transitions

/-- The two ways to a place for data in a context. -/
inductive SpaceCall where
  | freeSpace (size alignment : Nat)
  /-- `get_transfer_offset`, and the insertion of what it found -/
  | transfer (sourceOffset size : Nat)
deriving DecidableEq, Repr

namespace SpaceCall

def size : SpaceCall → Nat
  | freeSpace size _ => size
  | transfer _ size => size

/-- Sizes and alignments are at least one. -/
def Valid : SpaceCall → Prop
  | freeSpace size alignment => 1 ≤ size ∧ 1 ≤ alignment
  | transfer _ size => 1 ≤ size

/-- Aligned as asked, or as far from the start of its page as the source. -/
def Suits : SpaceCall → Nat → Prop
  | freeSpace _ alignment, start => alignment ∣ start
  | transfer sourceOffset _, start => start % pageSize = sourceOffset % pageSize

/-- The first place from an address on. -/
def place : SpaceCall → Nat → Nat
  | freeSpace _ alignment => (nextMultiple · alignment)
  | transfer sourceOffset _ => transferPlace (sourceOffset % pageSize)

def outcome (contextSize : Nat) (occupation : List Position) :
    SpaceCall → DandelionResult (Nat × List Position)
  | freeSpace size alignment => getFreeSpace .checked contextSize occupation size alignment
  | transfer sourceOffset size => do
    let (index, start) ← getTransferOffset .checked occupation sourceOffset contextSize size
    let occupation ← insertOccupation .checked occupation index start size
    pure (start, occupation)

/-- The call on a context, whose state is its occupation. -/
def take (contextSize : Nat) (call : SpaceCall) : Stateful DandelionError (List Position) Nat := do
  let occupation ← get
  let (start, occupation) ← lift (call.outcome contextSize occupation)
  set occupation
  pure start

/-- None of the sums of the call leaves `usize`. -/
def InRange (contextSize : Nat) (occupation : List Position) (call : SpaceCall) : Prop :=
  contextSize + 1 < Usize.limit ∧ Addressable call.place occupation

theorem exists_placement {call : SpaceCall} (hvalid : call.Valid) :
    ∃ startOf, Placement startOf call.place call.Suits ∧ ∀ contextSize occupation,
      call.outcome contextSize occupation = claimSpace startOf contextSize occupation call.size := by
  cases call with
  | freeSpace size alignment =>
    exact ⟨_, placement_nextMultiple hvalid.2, fun contextSize occupation => rfl⟩
  | transfer sourceOffset size =>
    refine ⟨_, placement_transferPlace (Nat.mod_lt _ pageSize_pos), fun contextSize occupation => ?_⟩
    simp only [outcome, getTransferOffset, claimSpace, SpaceCall.size, bind_assoc, pure_bind]

theorem size_pos {call : SpaceCall} (hvalid : call.Valid) : 0 < call.size := by
  cases call with
  | freeSpace size alignment => exact hvalid.1
  | transfer sourceOffset size => exact hvalid

section Take

variable {contextSize : Nat} {call : SpaceCall} {occupation : List Position}

theorem exec_take_ok {start : Nat} {occupation' : List Position}
    (h : call.outcome contextSize occupation = .ok (start, occupation')) :
    exec (call.take contextSize) occupation = (.ok start, occupation') := by
  rw [take, exec_get_bind, h]
  rfl

theorem exec_take_error {stop : Stop DandelionError}
    (h : call.outcome contextSize occupation = .error stop) :
    exec (call.take contextSize) occupation = (.error stop, occupation) := by
  rw [take, exec_get_bind, h]
  rfl

end Take

end SpaceCall

/-- The occupation of a context with the regions that have been given out. -/
structure Spaces where
  occupation : List Position
  given : List Position

/-- A new context, or one whose front is occupied. -/
inductive Spaces.New (contextSize : Nat) : Spaces → Prop where
  | cleared : New contextSize ⟨clearedOccupation contextSize, []⟩
  | reserved {reserved : Nat} {occupation : List Position} (hle : reserved ≤ contextSize)
      (hok : occupySpace .checked contextSize (clearedOccupation contextSize) 0 reserved
        = .ok occupation) :
      New contextSize ⟨occupation, [⟨0, reserved⟩]⟩

/-- A call that returns: with a region, or with an error. -/
inductive Spaces.Step (contextSize : Nat) : Spaces → Spaces → Prop where
  | granted {s : Spaces} {call : SpaceCall} {start : Nat} {occupation : List Position}
      (hvalid : call.Valid)
      (hexec : exec (call.take contextSize) s.occupation = (.ok start, occupation)) :
      Step contextSize s ⟨occupation, ⟨start, call.size⟩ :: s.given⟩
  | refused {s : Spaces} {call : SpaceCall} {e : DandelionError} {occupation : List Position}
      (hvalid : call.Valid)
      (hexec : exec (call.take contextSize) s.occupation = (fail e, occupation)) :
      Step contextSize s ⟨occupation, s.given⟩

/-- What the given regions are to each other and to the occupation. -/
structure Spaces.Kept (contextSize : Nat) (s : Spaces) : Prop where
  spanning : Spanning contextSize s.occupation
  empty : EmptyAtEnds contextSize s.occupation
  occupied : ∀ o, Occupied s.occupation o ↔ Occupied s.given o
  inside : ∀ p ∈ s.given, p.offset + p.size ≤ contextSize
  front : ∀ p ∈ s.given, p.size = 0 → p.offset = 0
  disjoint : s.given.Pairwise fun p q =>
    ∀ o, ¬ ((p.offset ≤ o ∧ o < p.offset + p.size) ∧ q.offset ≤ o ∧ o < q.offset + q.size)

theorem Spaces.Kept.of_single {contextSize reserved : Nat} {occupation : List Position}
    (hle : reserved ≤ contextSize) (hspanning : Spanning contextSize occupation)
    (hempty : EmptyAtEnds contextSize occupation)
    (hoccupied : ∀ o, Occupied occupation o ↔ o < reserved) :
    Spaces.Kept contextSize ⟨occupation, [⟨0, reserved⟩]⟩ := by
  refine ⟨hspanning, hempty, fun o => ?_, fun p hp => ?_, fun p hp _ => ?_,
    List.pairwise_singleton _ _⟩
  · rw [hoccupied]
    simp [Occupied]
  · rw [List.mem_singleton.mp hp]
    simpa using hle
  · rw [List.mem_singleton.mp hp]

theorem not_occupied_cleared (contextSize o : Nat) :
    ¬ Occupied (clearedOccupation contextSize) o := by
  simp only [clearedOccupation, Occupied, List.mem_cons, List.not_mem_nil, or_false,
    exists_eq_or_imp, exists_eq_left]
  omega

theorem emptyAtEnds_cleared (contextSize : Nat) :
    EmptyAtEnds contextSize (clearedOccupation contextSize) := by
  intro p hp _
  simp only [clearedOccupation, List.mem_cons, List.not_mem_nil, or_false] at hp
  rcases hp with rfl | rfl
  · exact Or.inl rfl
  · exact Or.inr rfl

theorem occupySpace_front {contextSize reserved : Nat} (hsize : contextSize < Usize.limit)
    (hle : reserved ≤ contextSize) {occupation : List Position}
    (hok : occupySpace .checked contextSize (clearedOccupation contextSize) 0 reserved
      = .ok occupation) :
    Spanning contextSize occupation ∧ EmptyAtEnds contextSize occupation
      ∧ ∀ o, Occupied occupation o ↔ o < reserved := by
  rw [occupySpace, Usize.add_eq_ok (by omega), ok_bind, if_neg (by omega)] at hok
  rcases Nat.eq_zero_or_pos contextSize with rfl | hpos
  · obtain rfl : reserved = 0 := by omega
    cases hok
    refine ⟨spanning_cleared 0, emptyAtEnds_cleared 0, fun o => ?_⟩
    simp [not_occupied_cleared]
  · have hindex : insertionIndex (clearedOccupation contextSize) 0 = some 0 :=
      if_pos ⟨le_refl 0, hpos⟩
    rw [hindex] at hok
    have hin : Spanning contextSize ([] ++ ⟨0, 0⟩ :: ⟨contextSize, 0⟩ :: []) :=
      spanning_cleared contextSize
    have hfront : 0 + 0 ≤ 0 := le_refl 0
    have hroom : 0 + reserved ≤ contextSize := by omega
    obtain ⟨merged, hinsert, hspanning, hoccupied, -⟩ :=
      insertOccupation_spanning hsize hin hfront hroom
    obtain rfl : merged = occupation := Except.ok.inj (hinsert.symm.trans hok)
    obtain ⟨merged', hinsert', -, -, hstarts⟩ :=
      insertOccupation_apart hsize hin.apart hfront hroom
    obtain rfl : merged' = merged := Except.ok.inj (hinsert'.symm.trans hinsert)
    refine ⟨hspanning, fun p hp _ => ?_, fun o => ?_⟩
    · rcases hstarts p hp with hoffset | ⟨q, hq, hoffset⟩
      · exact Or.inl hoffset
      · simp only [List.nil_append, List.mem_cons, List.not_mem_nil, or_false] at hq
        rcases hq with rfl | rfl
        · exact Or.inl hoffset
        · exact Or.inr hoffset
    · rw [hoccupied]
      have := not_occupied_cleared contextSize o
      constructor
      · rintro (hocc | hlt)
        · exact absurd hocc this
        · omega
      · exact fun hlt => Or.inr (by omega)

theorem Spaces.New.kept {contextSize : Nat} (hsize : contextSize < Usize.limit) {s : Spaces}
    (h : Spaces.New contextSize s) : s.Kept contextSize := by
  cases h with
  | cleared =>
    refine ⟨spanning_cleared contextSize, emptyAtEnds_cleared contextSize, fun o => ?_, ?_, ?_, .nil⟩
    · refine ⟨fun hocc => absurd hocc (not_occupied_cleared contextSize o), ?_⟩
      rintro ⟨p, hp, -⟩
      cases hp
    · exact fun p hp => by cases hp
    · exact fun p hp => by cases hp
  | reserved hle hok =>
    obtain ⟨hspanning, hempty, hoccupied⟩ := occupySpace_front hsize hle hok
    exact .of_single hle hspanning hempty hoccupied

section Runs

variable {contextSize : Nat} {s : Spaces}

theorem Spaces.Kept.take (h : s.Kept contextSize) {call : SpaceCall} (hvalid : call.Valid)
    (hrange : call.InRange contextSize s.occupation) :
    (∃ start occupation, exec (call.take contextSize) s.occupation = (.ok start, occupation)
        ∧ call.Suits start ∧ start + call.size ≤ contextSize
        ∧ FreeRange s.occupation start call.size
        ∧ Spaces.Kept contextSize ⟨occupation, ⟨start, call.size⟩ :: s.given⟩)
      ∨ exec (call.take contextSize) s.occupation = (fail .contextFull, s.occupation)
        ∧ ∀ start, call.Suits start → start + call.size ≤ contextSize →
          ¬ FreeRange s.occupation start call.size := by
  obtain ⟨startOf, hplace, houtcome⟩ := SpaceCall.exists_placement hvalid
  rcases claimSpace_spec hplace call.size h.spanning h.empty (SpaceCall.size_pos hvalid) hrange.1
    hrange.2 with ⟨start, occupation, hok, hsuits, hend, hfree, hspanning, hempty, hoccupied⟩ | ⟨hfull, hnone⟩
  · left
    refine ⟨start, occupation, SpaceCall.exec_take_ok ((houtcome ..).trans hok), hsuits, hend, hfree,
      hspanning, hempty, fun o => ?_, ?_, ?_, ?_⟩
    · rw [hoccupied, h.occupied, occupied_cons, or_comm]
    · exact List.forall_mem_cons.mpr ⟨hend, h.inside⟩
    · refine List.forall_mem_cons.mpr ⟨fun hzero => ?_, h.front⟩
      exact absurd hzero (SpaceCall.size_pos hvalid).ne'
    · refine List.pairwise_cons.mpr ⟨fun q hq o ho => ?_, h.disjoint⟩
      exact hfree o ho.1.1 ho.1.2 ((h.occupied o).mpr ⟨q, hq, ho.2⟩)
  · right
    exact ⟨SpaceCall.exec_take_error ((houtcome ..).trans hfull), hnone⟩

/-- A call that returns has made no sum outside of `usize`. -/
theorem Spaces.Kept.inRange (hsize : contextSize < Usize.limit) (h : s.Kept contextSize)
    {call : SpaceCall} (hvalid : call.Valid) {outcome : DandelionResult Nat}
    {occupation : List Position}
    (hexec : exec (call.take contextSize) s.occupation = (outcome, occupation))
    (hreturns : Returns outcome) : call.InRange contextSize s.occupation := by
  by_contra hout
  obtain ⟨startOf, hplace, houtcome⟩ := SpaceCall.exists_placement hvalid
  have hends := h.spanning.ends_lt hsize
  have hcrash := SpaceCall.exec_take_error
    ((houtcome ..).trans (claimSpace_overflow hplace call.size hends hout))
  rw [hexec] at hcrash
  rw [(Prod.mk.inj hcrash).1] at hreturns
  exact not_returns_crash hreturns

theorem Spaces.Kept.step (hsize : contextSize < Usize.limit) {s' : Spaces} (h : s.Kept contextSize)
    (hstep : Spaces.Step contextSize s s') : s'.Kept contextSize := by
  cases hstep with
  | granted hvalid hexec =>
    have hrange := h.inRange hsize hvalid hexec (returns_ok _)
    rcases h.take hvalid hrange with ⟨start', occupation', hexec', -, -, -, hkept⟩ | ⟨hexec', -⟩
    · rw [hexec'] at hexec
      cases hexec
      exact hkept
    · rw [hexec'] at hexec
      cases hexec
  | refused hvalid hexec =>
    have hrange := h.inRange hsize hvalid hexec (returns_fail _)
    rcases h.take hvalid hrange with ⟨start', occupation', hexec', -, -, -, hkept⟩ | ⟨hexec', -⟩
    · rw [hexec'] at hexec
      cases hexec
    · rw [hexec'] at hexec
      cases hexec
      exact h

/-- The states of the runs of a context. -/
def Spaces.Reachable (contextSize : Nat) (s : Spaces) : Prop :=
  ∃ first, Spaces.New contextSize first ∧ Reaches (Spaces.Step contextSize) first s

theorem Spaces.Reachable.kept (hsize : contextSize < Usize.limit) (h : s.Reachable contextSize) :
    s.Kept contextSize := by
  obtain ⟨first, hnew, hreaches⟩ := h
  exact hreaches.invariant (fun _ _ hkept hstep => hkept.step hsize hstep) (hnew.kept hsize)

/-- What is given out in any run is inside the context, free until then and as the call asks for; and
a call that gives nothing out had no place to take. -/
theorem allocation_sound_complete (hsize : contextSize < Usize.limit)
    (h : s.Reachable contextSize) :
    s.occupation.Pairwise (fun p q => p.offset + p.size ≤ q.offset)
      ∧ s.occupation.head?.map Position.offset = some 0
      ∧ (∀ p ∈ s.given, p.offset + p.size ≤ contextSize)
      ∧ s.given.Pairwise (fun p q => ∀ o,
        ¬ ((p.offset ≤ o ∧ o < p.offset + p.size) ∧ q.offset ≤ o ∧ o < q.offset + q.size))
      ∧ (∀ o, Occupied s.occupation o ↔ Occupied s.given o)
      ∧ ∀ call : SpaceCall, call.Valid → call.InRange contextSize s.occupation →
        ((∃ start occupation, exec (call.take contextSize) s.occupation = (.ok start, occupation)
            ∧ call.Suits start ∧ start + call.size ≤ contextSize
            ∧ FreeRange s.occupation start call.size)
          ∨ exec (call.take contextSize) s.occupation = (fail .contextFull, s.occupation))
        ∧ ((exec (call.take contextSize) s.occupation).1 = fail .contextFull ↔
          ¬ ∃ start, call.Suits start ∧ start + call.size ≤ contextSize
            ∧ FreeRange s.occupation start call.size) := by
  have hkept := h.kept hsize
  refine ⟨hkept.spanning.apart.apart, hkept.spanning.first, hkept.inside, hkept.disjoint,
    hkept.occupied, fun call hvalid hrange => ?_⟩
  rcases hkept.take hvalid hrange with
    ⟨start, occupation, hexec, hsuits, hend, hfree, -⟩ | ⟨hexec, hnone⟩
  · refine ⟨Or.inl ⟨start, occupation, hexec, hsuits, hend, hfree⟩, ?_⟩
    rw [hexec]
    constructor
    · intro hfull
      cases hfull
    · exact fun hno => absurd ⟨start, hsuits, hend, hfree⟩ hno
  · refine ⟨Or.inr hexec, ?_⟩
    rw [hexec]
    refine ⟨fun _ => ?_, fun _ => rfl⟩
    rintro ⟨start, hsuits, hend, hfree⟩
    exact hnone start hsuits hend hfree

end Runs

/-- A front of a hundred bytes, and ten bytes at the next multiple of 128. -/
def tenBytes : Spaces := ⟨[⟨0, 100⟩, ⟨128, 10⟩, ⟨256, 0⟩], [⟨128, 10⟩, ⟨0, 100⟩]⟩

theorem tenBytes_reachable : tenBytes.Reachable 256 := by
  have hnew : Spaces.New 256 ⟨[⟨0, 100⟩, ⟨256, 0⟩], [⟨0, 100⟩]⟩ := .reserved (by decide) rfl
  have hstep : Spaces.Step 256 ⟨[⟨0, 100⟩, ⟨256, 0⟩], [⟨0, 100⟩]⟩ tenBytes := by
    have hvalid : (SpaceCall.freeSpace 10 128).Valid := ⟨by decide, by decide⟩
    exact .granted hvalid rfl
  exact ⟨_, hnew, .tail (.refl _) hstep⟩

theorem tenBytes_full : tenBytes.Reachable 256
    ∧ ((exec ((SpaceCall.freeSpace 119 1).take 256) tenBytes.occupation).1 = fail .contextFull ↔
      ¬ ∃ start, 1 ∣ start ∧ start + 119 ≤ 256 ∧ FreeRange tenBytes.occupation start 119) := by
  have hrange : (SpaceCall.freeSpace 119 1).InRange 256 tenBytes.occupation := by
    unfold SpaceCall.InRange Addressable
    decide
  have hcall := (allocation_sound_complete (by decide) tenBytes_reachable).2.2.2.2.2
    (.freeSpace 119 1) ⟨by decide, by decide⟩ hrange
  exact ⟨tenBytes_reachable, hcall.2⟩

end Dandelion
