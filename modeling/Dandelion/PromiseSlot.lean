import Dandelion.Errors
import Dandelion.Transitions
import Mathlib.Logic.Function.Basic

/-!
# A promise and its debt

One slot of the promise buffer while a `Promise` and a `Debt` refer to it. The owner of the
promise polls it and drops it in the end, the owner of the debt fulfils or drops it; every
step of the system is one atomic operation or one memory access of one of the two. The
flags are the byte of the source, whose bits the two sides test and change separately.
-/

namespace Dandelion.PromiseSlot

open Transitions

abbrev FlagByte := BitVec 8

def wakerIndex : FlagByte := 0b0000_0001#8

def debtAlive : FlagByte := 0b0001_0000#8

def promiseAlive : FlagByte := 0b0010_0000#8

def contentSet : FlagByte := 0b0100_0000#8

def alive : FlagByte := debtAlive ||| promiseAlive

def FlagByte.has (flags mask : FlagByte) : Bool := flags &&& mask ≠ 0

/-- The waker cell that an index byte stands for. -/
def cell (index : FlagByte) : Bool := index = 1

/-- The flags that a poll tries to store: the content is taken and the index flipped. -/
def FlagByte.taken (flags : FlagByte) : FlagByte := (flags ^^^ wakerIndex) &&& ~~~contentSet

section Flags

variable (flags : FlagByte)

theorem has_twoPow (i : Nat) (hi : i < 8) :
    FlagByte.has flags (BitVec.twoPow 8 i) = flags.getLsbD i := by
  have hne : BitVec.twoPow 8 i ≠ 0#8 := by
    intro hzero
    have hbit : (BitVec.twoPow 8 i).getLsbD i = (0#8).getLsbD i := by rw [hzero]
    rw [BitVec.getLsbD_twoPow, BitVec.getLsbD_zero] at hbit
    simp [hi] at hbit
  rw [FlagByte.has, BitVec.and_twoPow]
  cases flags.getLsbD i with
  | true => exact decide_eq_true hne
  | false => rfl

theorem has_promiseAlive : FlagByte.has flags promiseAlive = flags.getLsbD 5 :=
  has_twoPow flags 5 (by decide)

theorem has_contentSet : FlagByte.has flags contentSet = flags.getLsbD 6 :=
  has_twoPow flags 6 (by decide)

theorem and_wakerIndex :
    flags &&& wakerIndex = if flags.getLsbD 0 = true then wakerIndex else 0#8 :=
  BitVec.and_twoPow flags 0

theorem cell_wakerIndex : cell (flags &&& wakerIndex) = flags.getLsbD 0 := by
  rw [and_wakerIndex]
  cases flags.getLsbD 0 <;> rfl

@[simp] theorem has_or_contentSet : FlagByte.has (flags ||| contentSet) contentSet = true := by
  rw [has_contentSet, BitVec.getLsbD_or]
  exact Bool.or_true _

@[simp] theorem cell_or_contentSet :
    cell ((flags ||| contentSet) &&& wakerIndex) = cell (flags &&& wakerIndex) := by
  rw [cell_wakerIndex, cell_wakerIndex, BitVec.getLsbD_or]
  exact Bool.or_false _

@[simp] theorem promiseAlive_or_contentSet :
    FlagByte.has (flags ||| contentSet) promiseAlive = flags.has promiseAlive := by
  rw [has_promiseAlive, has_promiseAlive, BitVec.getLsbD_or]
  exact Bool.or_false _

@[simp] theorem has_taken : FlagByte.has (FlagByte.taken flags) contentSet = false := by
  rw [has_contentSet, FlagByte.taken, BitVec.getLsbD_and]
  exact Bool.and_false _

@[simp] theorem cell_taken :
    cell (FlagByte.taken flags &&& wakerIndex) = cell ((flags &&& wakerIndex) ^^^ wakerIndex) := by
  have htaken : (FlagByte.taken flags).getLsbD 0 = !flags.getLsbD 0 := by
    rw [FlagByte.taken, BitVec.getLsbD_and, BitVec.getLsbD_xor]
    cases flags.getLsbD 0 <;> rfl
  rw [cell_wakerIndex, htaken, and_wakerIndex]
  cases flags.getLsbD 0 <;> rfl

@[simp] theorem contentSet_and_debtAlive :
    FlagByte.has (flags &&& ~~~debtAlive) contentSet = flags.has contentSet := by
  rw [has_contentSet, has_contentSet, BitVec.getLsbD_and]
  exact Bool.and_true _

@[simp] theorem contentSet_and_promiseAlive :
    FlagByte.has (flags &&& ~~~promiseAlive) contentSet = flags.has contentSet := by
  rw [has_contentSet, has_contentSet, BitVec.getLsbD_and]
  exact Bool.and_true _

@[simp] theorem cell_and_promiseAlive :
    cell ((flags &&& ~~~promiseAlive) &&& wakerIndex) = cell (flags &&& wakerIndex) := by
  rw [cell_wakerIndex, cell_wakerIndex, BitVec.getLsbD_and]
  exact Bool.and_true _

/-- The bit of the promise is not the bit that `Debt::drop` compares it with. -/
theorem and_promiseAlive_ne_one : flags &&& promiseAlive ≠ 1 := by
  intro h
  have hbit : (flags &&& promiseAlive).getLsbD 0 = true := by rw [h]; rfl
  rw [BitVec.getLsbD_and] at hbit
  exact absurd ((Bool.and_false _).symm.trans hbit) Bool.false_ne_true

end Flags

/-- A waker that a poll passed; the number of the poll tells it from the others. -/
structure TaskWaker (W : Type) where
  poll : Nat
  waker : W
deriving DecidableEq, Repr

inductive LastPoll (ω W : Type) where
  | none
  | running
  | pending (waker : TaskWaker W)
  | ready (results : Except DandelionError ω)

/-- Where the owner of the promise is: in a `poll` with the flags it has loaded, or in its drop, where
`reclaiming` has found the debt gone. -/
inductive PromisePc (W : Type) where
  | idle
  | loaded (flags : FlagByte) (waker : TaskWaker W)
  | wakerStored (flags : FlagByte) (waker : TaskWaker W)
  | exchanged (result : Except FlagByte FlagByte) (waker : TaskWaker W)
  | releasing
  | reclaiming
  | dropped

/-- Where the owner of the debt is. A `fulfill` ends in the drop, which pays if it finds the promise
alive without content, and then wakes. -/
inductive DebtPc (ω : Type) where
  | idle
  | fulfilling (results : Except DandelionError ω)
  | resultsSet
  | contentFlagged (index : Bool)
  | dropping
  | handleCleared
  | paying
  | paid
  | waking
  | taking (index : Bool)
  | releasing
  | reclaiming
  | dropped

/-- The slot, its two owners, and what has happened so far: what polls have returned as ready, the last
one first, what `fulfill` was called with, and how often the slot went back to the free list. -/
structure Slot (ω W : Type) where
  flags : FlagByte
  results : Except DandelionError ω
  wakers : Bool → Option (TaskWaker W)
  abortHandle : Bool
  promise : PromisePc W
  debt : DebtPc ω
  polls : Nat
  lastPoll : LastPoll ω W
  ready : List (Except DandelionError ω)
  fulfilled : Option (Except DandelionError ω)
  fulfillDone : Bool
  woken : List (TaskWaker W)
  reclaimed : Nat

variable {ω W : Type}

def initial : Slot ω W where
  flags := debtAlive ||| promiseAlive
  results := .error (.promiseError .default)
  wakers := fun _ => none
  abortHandle := false
  promise := .idle
  debt := .idle
  polls := 0
  lastPoll := .none
  ready := []
  fulfilled := none
  fulfillDone := false
  woken := []
  reclaimed := 0

/-- The first access of an operation, or the next access of the side that is in one. -/
inductive Action (ω W : Type) where
  | poll (waker : W)
  | dropPromise
  | promise
  | installAbortHandle
  | fulfill (results : Except DandelionError ω)
  | dropDebt
  | debt

/-- Both results of a `compare_exchange` carry the flags it found. -/
def currentFlags : Except FlagByte FlagByte → FlagByte
  | .ok flags => flags
  | .error flags => flags

def promiseStep (s : Slot ω W) : Option (Slot ω W) :=
  match s.promise with
  | .loaded flags waker =>
    some { s with
      wakers := Function.update s.wakers (cell ((flags &&& wakerIndex) ^^^ wakerIndex)) (some waker)
      promise := .wakerStored flags waker }
  | .wakerStored flags waker =>
    if s.flags = flags then
      some { s with flags := flags.taken, promise := .exchanged (.ok flags) waker }
    else some { s with promise := .exchanged (.error s.flags) waker }
  | .exchanged result waker =>
    if (currentFlags result).has contentSet then
      some { s with
        results := .error (.promiseError .takenPromise)
        promise := .idle
        lastPoll := .ready s.results
        ready := s.results :: s.ready }
    else some { s with promise := .idle, lastPoll := .pending waker }
  | .releasing =>
    let flags := s.flags &&& ~~~promiseAlive
    some { s with flags, promise := if flags &&& alive = 0 then .reclaiming else .dropped }
  | .reclaiming => some { s with promise := .dropped, reclaimed := s.reclaimed + 1 }
  | .idle => none
  | .dropped => none

def wake (s : Slot ω W) (index : Bool) : Slot ω W :=
  { s with
    wakers := Function.update s.wakers index none
    woken := (s.wakers index).toList ++ s.woken }

def debtStep (s : Slot ω W) : Option (Slot ω W) :=
  match s.debt with
  | .fulfilling results => some { s with results, debt := .resultsSet }
  | .resultsSet =>
    some { s with
      flags := s.flags ||| contentSet
      debt := .contentFlagged (cell (s.flags &&& wakerIndex)) }
  | .contentFlagged index => some { wake s index with debt := .dropping, fulfillDone := true }
  | .dropping => some { s with abortHandle := false, debt := .handleCleared }
  | .handleCleared =>
    if s.flags &&& promiseAlive = 1 then
      some { s with debt := if s.flags &&& contentSet = 0 then .paying else .waking }
    else some { s with debt := .releasing }
  | .paying => some { s with results := .error (.promiseError .droppedDebt), debt := .paid }
  | .paid => some { s with flags := s.flags ||| contentSet, debt := .waking }
  | .waking => some { s with debt := .taking (cell (s.flags &&& wakerIndex)) }
  | .taking index => some { wake s index with debt := .releasing }
  | .releasing =>
    let flags := s.flags &&& ~~~debtAlive
    some { s with flags, debt := if flags &&& alive = 0 then .reclaiming else .dropped }
  | .reclaiming => some { s with debt := .dropped, reclaimed := s.reclaimed + 1 }
  | .idle => none
  | .dropped => none

def step (s : Slot ω W) : Action ω W → Option (Slot ω W)
  | .poll waker =>
    match s.promise with
    | .idle =>
      some { s with
        promise := .loaded s.flags ⟨s.polls, waker⟩
        polls := s.polls + 1
        lastPoll := .running }
    | _ => none
  | .dropPromise =>
    match s.promise with
    | .idle => some { s with abortHandle := false, promise := .releasing }
    | _ => none
  | .promise => promiseStep s
  | .installAbortHandle =>
    match s.debt with
    | .idle => some { s with abortHandle := true }
    | _ => none
  | .fulfill results =>
    match s.debt with
    | .idle =>
      some { s with abortHandle := false, debt := .fulfilling results, fulfilled := some results }
    | _ => none
  | .dropDebt =>
    match s.debt with
    | .idle => some { s with debt := .dropping }
    | _ => none
  | .debt => debtStep s

def Step (s t : Slot ω W) : Prop := ∃ action, step s action = some t

def Reachable (s : Slot ω W) : Prop := Reaches Step initial s

end Dandelion.PromiseSlot
