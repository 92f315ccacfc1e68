import Dandelion.PromiseOwnership
import Dandelion.PromiseWakeups

/-!
# Giving a slot back

The owners of a promise and of its debt, each up to the end of its drop. The one that finds the
other gone drops the data of the slot, writes the head of the free list behind it and exchanges the
head, again and again until no other client has changed the head in between.
-/

namespace Dandelion.PromiseSlot

open Transitions PromiseBuffer

variable {ω W P : Type}

/-! ## The two sides -/

/-- The side has cleared its flag. -/
def Slot.released (s : Slot ω W) : Origin → Bool
  | .promise => match s.promise with
    | .reclaiming => true
    | .dropped => true
    | _ => false
  | .debt => match s.debt with
    | .reclaiming => true
    | .dropped => true
    | _ => false

/-- The side will not access the slot any more. -/
def Slot.gone (s : Slot ω W) : Origin → Bool
  | .promise => match s.promise with
    | .dropped => true
    | _ => false
  | .debt => match s.debt with
    | .dropped => true
    | _ => false

/-- The side has found the other one gone. -/
def Slot.reclaiming (s : Slot ω W) (origin : Origin) : Bool := s.released origin && !s.gone origin

def Origin.other : Origin → Origin
  | .promise => .debt
  | .debt => .promise

theorem Origin.forall_iff (origin : Origin) {p : Origin → Prop} :
    (∀ side, p side) ↔ p origin ∧ p (Origin.other origin) := by
  constructor
  · exact fun h => ⟨h _, h _⟩
  · rintro ⟨hself, hother⟩ side
    cases origin <;> cases side <;> assumption

theorem Slot.released_of_gone {s : Slot ω W} {origin : Origin} (h : s.gone origin = true) :
    s.released origin = true := by
  cases origin with
  | promise =>
    simp only [gone] at h
    split at h
    · next hpromise => simp only [released, hpromise]
    · cases h
  | debt =>
    simp only [gone] at h
    split at h
    · next hdebt => simp only [released, hdebt]
    · cases h

/-- The flags say which sides have not cleared theirs. Of two sides that have, the second one
reclaims the slot. -/
structure Settled (s : Slot ω W) : Prop where
  flag : ∀ origin : Origin, s.flags.has origin.flag = !s.released origin
  count : (s.gone .promise).toNat + (s.gone .debt).toNat
      + (s.released .promise && s.released .debt).toNat
    = (s.released .promise).toNat + (s.released .debt).toNat + s.reclaimed

theorem settled_initial : Settled (initial : Slot ω W) where
  flag := fun origin => by
    change FlagByte.has (debtAlive ||| promiseAlive) origin.flag = !Slot.released initial origin
    cases origin with
    | promise => simp [Slot.released, initial, FlagByte.has, Origin.flag, debtAlive, promiseAlive]
    | debt => simp [Slot.released, initial, FlagByte.has, Origin.flag, debtAlive, promiseAlive]
  count := rfl

section Flags

variable (flags : FlagByte)

theorem has_debtAlive : FlagByte.has flags debtAlive = flags.getLsbD 4 :=
  has_twoPow flags 4 (by decide)

theorem has_flag_or_contentSet (origin : Origin) :
    FlagByte.has (flags ||| contentSet) origin.flag = flags.has origin.flag := by
  cases origin with
  | promise => exact promiseAlive_or_contentSet flags
  | debt =>
    rw [Origin.flag, has_debtAlive, has_debtAlive, BitVec.getLsbD_or]
    exact Bool.or_false _

theorem getLsbD_taken {i : Nat} (hindex : wakerIndex.getLsbD i = false)
    (hcontent : (~~~contentSet).getLsbD i = true) : flags.taken.getLsbD i = flags.getLsbD i := by
  rw [FlagByte.taken, BitVec.getLsbD_and, BitVec.getLsbD_xor, hindex, hcontent, Bool.and_true,
    Bool.xor_false]

theorem has_flag_taken (origin : Origin) : flags.taken.has origin.flag = flags.has origin.flag := by
  cases origin with
  | promise =>
    rw [Origin.flag, has_promiseAlive, has_promiseAlive]
    exact getLsbD_taken flags rfl rfl
  | debt =>
    rw [Origin.flag, has_debtAlive, has_debtAlive]
    exact getLsbD_taken flags rfl rfl

end Flags

theorem Slot.gone_of_not_released {s : Slot ω W} {origin : Origin} (h : s.released origin = false) :
    s.gone origin = false := by
  rw [← Bool.not_eq_true]
  intro hgone
  rw [released_of_gone hgone] at h
  cases h

/-- A step of a side that has not cleared its flag and does not do so. -/
theorem Settled.of_alive {s : Slot ω W} (hs : Settled s) (t : Slot ω W) (origin : Origin)
    (hflag : ∀ side : Origin, t.flags.has side.flag = s.flags.has side.flag)
    (hbefore : s.released origin = false) (hafter : t.released origin = false)
    (hreleased : t.released (Origin.other origin) = s.released (Origin.other origin))
    (hgone : t.gone (Origin.other origin) = s.gone (Origin.other origin))
    (hreclaimed : t.reclaimed = s.reclaimed) : Settled t := by
  have hreleased' : ∀ side, t.released side = s.released side :=
    (Origin.forall_iff origin).mpr ⟨hafter.trans hbefore.symm, hreleased⟩
  have hgone' : ∀ side, t.gone side = s.gone side :=
    (Origin.forall_iff origin).mpr
      ⟨(Slot.gone_of_not_released hafter).trans (Slot.gone_of_not_released hbefore).symm, hgone⟩
  exact {
    flag := fun side => by rw [hflag, hreleased', hs.flag]
    count := by rw [hgone', hgone', hreleased', hreleased', hreclaimed, hs.count] }

theorem count_release {gone released : Bool} {reclaimed : Nat} (hle : gone = true → released = true)
    (h : gone.toNat = released.toNat + reclaimed) :
    (!released).toNat + gone.toNat + released.toNat = 1 + released.toNat + reclaimed := by
  cases gone with
  | true =>
    cases hle rfl
    simp only [Bool.not_true, Bool.toNat_false, Bool.toNat_true] at h ⊢
    omega
  | false =>
    cases released with
    | true =>
      simp only [Bool.toNat_false, Bool.toNat_true] at h
      omega
    | false =>
      simp only [Bool.not_false, Bool.toNat_false, Bool.toNat_true] at h ⊢
      omega

/-- The fetch of `drop_promise_data` clears the flag of a side. -/
theorem Settled.release {s t : Slot ω W} (hs : Settled s) (origin : Origin)
    (hflags : t.flags = s.flags &&& ~~~origin.flag) (hbefore : s.released origin = false)
    (hafter : t.released origin = true) (hgone : t.gone origin = decide (t.flags &&& alive ≠ 0))
    (hreleased : t.released (Origin.other origin) = s.released (Origin.other origin))
    (hother : t.gone (Origin.other origin) = s.gone (Origin.other origin))
    (hreclaimed : t.reclaimed = s.reclaimed) : Settled t := by
  have hne : Origin.other origin ≠ origin := by cases origin <;> nofun
  have hflag : ∀ side : Origin, t.flags.has side.flag = !t.released side := by
    refine (Origin.forall_iff origin).mpr ⟨?_, ?_⟩
    · rw [hafter, Bool.not_true, ← Bool.not_eq_true, hflags, has_and_not_flag]
      exact fun h => h.1 rfl
    · rw [hreleased, ← hs.flag, hflags, Bool.eq_iff_iff, has_and_not_flag]
      exact and_iff_right hne
  -- the side is gone at once if the other one has not cleared its flag
  have hlast : t.gone origin = !s.released (Origin.other origin) := by
    rw [hgone, Bool.eq_iff_iff, decide_eq_true_eq, ne_eq, and_alive_eq_zero_iff, ← hreleased]
    simp only [hflag]
    rw [Origin.forall_iff origin, hafter]
    simp
  refine ⟨hflag, ?_⟩
  have hcount := hs.count
  have hself := Slot.gone_of_not_released hbefore
  have hle : s.gone (Origin.other origin) = true → s.released (Origin.other origin) = true :=
    Slot.released_of_gone
  cases origin with
  | promise =>
    simp only [Origin.other] at hlast hreleased hother hle
    rw [hlast, hother, hafter, hreleased, hreclaimed]
    rw [hself, hbefore] at hcount
    simp only [Bool.false_and, Bool.toNat_false] at hcount
    have := count_release hle (show _ = _ + s.reclaimed by omega)
    simp only [Bool.true_and, Bool.toNat_true]
    omega
  | debt =>
    simp only [Origin.other] at hlast hreleased hother hle
    rw [hlast, hother, hafter, hreleased, hreclaimed]
    rw [hself, hbefore] at hcount
    simp only [Bool.and_false, Bool.toNat_false] at hcount
    have := count_release hle (show _ = _ + s.reclaimed by omega)
    simp only [Bool.and_true, Bool.toNat_true]
    omega

theorem Settled.reclaim {s t : Slot ω W} (hs : Settled s) (origin : Origin)
    (hflags : t.flags = s.flags) (hreleased : t.released = s.released)
    (hbefore : s.gone origin = false) (hafter : t.gone origin = true)
    (hother : t.gone (Origin.other origin) = s.gone (Origin.other origin))
    (hreclaimed : t.reclaimed = s.reclaimed + 1) : Settled t where
  flag := fun side => by rw [hflags, hreleased, hs.flag]
  count := by
    have hcount := hs.count
    rw [hreleased, hreclaimed]
    cases origin with
    | promise =>
      rw [hafter, show t.gone .debt = s.gone .debt from hother, Bool.toNat_true]
      rw [hbefore, Bool.toNat_false] at hcount
      omega
    | debt =>
      rw [hafter, show t.gone .promise = s.gone .promise from hother, Bool.toNat_true]
      rw [hbefore, Bool.toNat_false] at hcount
      omega

theorem settled_step (s t : Slot ω W) (hsides : Sides s) (hs : Settled s) (h : Step s t) : Settled t := by
  cases h.move with
  | load waker hpromise =>
    exact hs.of_alive _ .promise (fun _ => rfl) (by simp [Slot.released, hpromise]) rfl rfl rfl rfl
  | setWaker flags waker hpromise =>
    exact hs.of_alive _ .promise (fun _ => rfl) (by simp [Slot.released, hpromise]) rfl rfl rfl rfl
  | exchange waker hpromise =>
    exact hs.of_alive _ .promise (has_flag_taken _) (by simp [Slot.released, hpromise]) rfl rfl rfl rfl
  | exchangeFails flags waker hpromise hflags =>
    exact hs.of_alive _ .promise (fun _ => rfl) (by simp [Slot.released, hpromise]) rfl rfl rfl rfl
  | ready result waker hpromise hcontent =>
    exact hs.of_alive _ .promise (fun _ => rfl) (by simp [Slot.released, hpromise]) rfl rfl rfl rfl
  | pending result waker hpromise hcontent =>
    exact hs.of_alive _ .promise (fun _ => rfl) (by simp [Slot.released, hpromise]) rfl rfl rfl rfl
  | abort hpromise =>
    exact hs.of_alive _ .promise (fun _ => rfl) (by simp [Slot.released, hpromise]) rfl rfl rfl rfl
  | releasePromise pc hpromise hpc =>
    rcases hpc with ⟨hgone, rfl⟩ | ⟨hgone, rfl⟩
    · exact hs.release .promise rfl (by simp [Slot.released, hpromise]) rfl
        (by simpa [Slot.gone] using hgone) rfl rfl rfl
    · exact hs.release .promise rfl (by simp [Slot.released, hpromise]) rfl
        (by simpa [Slot.gone] using hgone) rfl rfl rfl
  | reclaimPromise hpromise =>
    refine hs.reclaim .promise rfl ?_ (by simp [Slot.gone, hpromise]) rfl rfl rfl
    funext origin
    cases origin <;> simp [Slot.released, hpromise]
  | install hdebt =>
    exact hs.of_alive _ .debt (fun _ => rfl) (by simp [Slot.released, hdebt])
      (by simp [Slot.released, hdebt]) rfl rfl rfl
  | fulfill results hdebt =>
    exact hs.of_alive _ .debt (fun _ => rfl) (by simp [Slot.released, hdebt]) rfl rfl rfl rfl
  | setResults results hdebt =>
    exact hs.of_alive _ .debt (fun _ => rfl) (by simp [Slot.released, hdebt]) rfl rfl rfl rfl
  | setContent hdebt =>
    exact hs.of_alive _ .debt (has_flag_or_contentSet _) (by simp [Slot.released, hdebt]) rfl rfl rfl rfl
  | wake index hdebt =>
    exact hs.of_alive _ .debt (fun _ => rfl) (by simp [Slot.released, hdebt]) rfl rfl rfl rfl
  | dropDebt hdebt =>
    exact hs.of_alive _ .debt (fun _ => rfl) (by simp [Slot.released, hdebt]) rfl rfl rfl rfl
  | clearHandle hdebt =>
    exact hs.of_alive _ .debt (fun _ => rfl) (by simp [Slot.released, hdebt]) rfl rfl rfl rfl
  | skipPayment hdebt =>
    exact hs.of_alive _ .debt (fun _ => rfl) (by simp [Slot.released, hdebt]) rfl rfl rfl rfl
  | releaseDebt pc hdebt hpc =>
    rcases hpc with ⟨hgone, rfl⟩ | ⟨hgone, rfl⟩
    · exact hs.release .debt rfl (by simp [Slot.released, hdebt]) rfl
        (by simpa [Slot.gone] using hgone) rfl rfl rfl
    · exact hs.release .debt rfl (by simp [Slot.released, hdebt]) rfl
        (by simpa [Slot.gone] using hgone) rfl rfl rfl
  | reclaimDebt hdebt =>
    refine hs.reclaim .debt rfl ?_ (by simp [Slot.gone, hdebt]) rfl rfl rfl
    funext origin
    cases origin <;> simp [Slot.released, hdebt]
  | pay t hdebt => exact (hsides.not_pay hdebt).elim

theorem Reachable.settled {s : Slot ω W} (h : Reachable s) : Settled s := by
  have hboth : Agree s ∧ Settled s :=
    Reaches.invariant (I := fun s => Agree s ∧ Settled s)
      (fun s t hs hstep => ⟨agree_step s t hs.1 hstep, settled_step s t hs.1.sides hs.2 hstep⟩) h
      ⟨agree_initial, settled_initial⟩
  exact hboth.2

/-! ## Back on the free list -/

/-- Where the side that reclaims the slot is in `drop_promise_data`. -/
inductive PushPc (P : Type) where
  | started
  | dataDropped
  /-- it has a head and has not written it -/
  | gotHead (head : P)
  /-- the head is written behind the slot -/
  | linked (head : P)
deriving DecidableEq, Repr

/-- A slot with the head of the free list, and how often the slot was made the head. -/
structure Returning (ω W P : Type) where
  slot : Slot ω W
  push : PushPc P
  head : P
  next : Option P
  pushes : Nat

/-- A slot that was just handed out, with any head. -/
def Returning.initial (head : P) : Returning ω W P := ⟨PromiseSlot.initial, .started, head, none, 0⟩

inductive ReturnAction (ω W P : Type) where
  /-- a step of an owner that does not reclaim the slot -/
  | act (action : Action ω W)
  /-- the next step of the side that reclaims the slot -/
  | push (origin : Origin)
  /-- another client changes the head -/
  | setHead (head : P)

/-- The action that ends the drop of a side. -/
def Origin.last : Origin → Action ω W
  | .promise => .promise
  | .debt => .debt

/-- The side whose next step the action is. -/
def Action.side : Action ω W → Option Origin
  | .promise => some .promise
  | .debt => some .debt
  | _ => none

/-- The steps of a slot at address `self`; reclaiming it is taken apart. -/
def Returning.step [DecidableEq P] (self : P) (s : Returning ω W P) :
    ReturnAction ω W P → Option (Returning ω W P)
  | .act action =>
    if action.side.any s.slot.reclaiming then none
    else (PromiseSlot.step s.slot action).map fun slot => { s with slot }
  | .push origin =>
    if s.slot.reclaiming origin then
      match s.push with
      | .started => some { s with push := .dataDropped }
      | .dataDropped => some { s with push := .gotHead s.head }
      | .gotHead head => some { s with next := some head, push := .linked head }
      | .linked head =>
        if s.head = head then
          (PromiseSlot.step s.slot (Origin.last origin)).map fun slot =>
            { s with slot, head := self, pushes := s.pushes + 1 }
        else some { s with push := .gotHead s.head }
    else none
  | .setHead head => some { s with head }

section Slots

variable {s t : Slot ω W}

theorem reclaiming_promise : s.reclaiming .promise = true ↔ s.promise = .reclaiming := by
  cases hpromise : s.promise <;> simp [Slot.reclaiming, Slot.released, Slot.gone, hpromise]

theorem reclaiming_debt : s.reclaiming .debt = true ↔ s.debt = .reclaiming := by
  cases hdebt : s.debt <;> simp [Slot.reclaiming, Slot.released, Slot.gone, hdebt]

theorem gone_promise : s.gone .promise = true ↔ s.promise = .dropped := by
  cases hpromise : s.promise <;> simp [Slot.gone, hpromise]

theorem gone_debt : s.gone .debt = true ↔ s.debt = .dropped := by
  cases hdebt : s.debt <;> simp [Slot.gone, hdebt]

theorem promiseStep_reclaimed (h : promiseStep s = some t) (hpromise : s.promise ≠ .reclaiming) :
    t.reclaimed = s.reclaimed := by
  unfold promiseStep at h
  split at h
  · cases h
    rfl
  · split at h <;> cases h <;> rfl
  · split at h <;> cases h <;> rfl
  · cases h
    rfl
  · exact absurd ‹_› hpromise
  · cases h
  · cases h

theorem debtStep_reclaimed (h : debtStep s = some t) (hdebt : s.debt ≠ .reclaiming) :
    t.reclaimed = s.reclaimed := by
  unfold debtStep at h
  split at h
  case h_5 => split at h <;> cases h <;> rfl
  case h_11 => exact absurd ‹_› hdebt
  all_goals cases h
  all_goals rfl

theorem step_reclaimed {action : Action ω W} (h : PromiseSlot.step s action = some t)
    (hside : action.side.any s.reclaiming = false) : t.reclaimed = s.reclaimed := by
  cases action with
  | promise =>
    refine promiseStep_reclaimed h ?_
    rw [ne_eq, ← reclaiming_promise]
    simpa [Action.side] using hside
  | debt =>
    refine debtStep_reclaimed h ?_
    rw [ne_eq, ← reclaiming_debt]
    simpa [Action.side] using hside
  | poll waker =>
    simp only [PromiseSlot.step] at h
    split at h <;> cases h
    rfl
  | dropPromise =>
    simp only [PromiseSlot.step] at h
    split at h <;> cases h
    rfl
  | installAbortHandle =>
    simp only [PromiseSlot.step] at h
    split at h <;> cases h
    rfl
  | fulfill results =>
    simp only [PromiseSlot.step] at h
    split at h <;> cases h
    rfl
  | dropDebt =>
    simp only [PromiseSlot.step] at h
    split at h <;> cases h
    rfl

theorem step_last {origin : Origin} (h : s.reclaiming origin = true) :
    ∃ t, PromiseSlot.step s (Origin.last origin) = some t ∧ t.reclaimed = s.reclaimed + 1 := by
  cases origin with
  | promise =>
    have hpromise := reclaiming_promise.mp h
    exact ⟨{ s with promise := .dropped, reclaimed := s.reclaimed + 1 },
      by simp only [Origin.last, PromiseSlot.step, promiseStep, hpromise], rfl⟩
  | debt =>
    have hdebt := reclaiming_debt.mp h
    exact ⟨{ s with debt := .dropped, reclaimed := s.reclaimed + 1 },
      by simp only [Origin.last, PromiseSlot.step, debtStep, hdebt], rfl⟩

theorem Settled.other_gone (hs : Settled s) {origin : Origin} (h : s.reclaiming origin = true) :
    s.gone (Origin.other origin) = true ∧ s.reclaimed = 0 ∧ s.flags &&& alive = 0 := by
  rw [Slot.reclaiming, Bool.and_eq_true, Bool.not_eq_true'] at h
  have hcount := hs.count
  have hother : s.gone (Origin.other origin) = true ∧ s.reclaimed = 0 := by
    cases origin with
    | promise =>
      rw [h.1, h.2] at hcount
      cases hgone : s.gone .debt with
      | true =>
        simp [hgone, Slot.released_of_gone hgone] at hcount
        exact ⟨hgone, by omega⟩
      | false =>
        simp [hgone] at hcount
        omega
    | debt =>
      rw [h.1, h.2] at hcount
      cases hgone : s.gone .promise with
      | true =>
        simp [hgone, Slot.released_of_gone hgone] at hcount
        exact ⟨hgone, by omega⟩
      | false =>
        simp [hgone] at hcount
        omega
  refine ⟨hother.1, hother.2, (and_alive_eq_zero_iff _).mpr ?_⟩
  refine (Origin.forall_iff origin).mpr ⟨?_, ?_⟩
  · rw [hs.flag, h.1, Bool.not_true]
  · rw [hs.flag, Slot.released_of_gone hother.1, Bool.not_true]

theorem Settled.reclaimed_eq (hs : Settled s) :
    s.reclaimed = (s.gone .promise && s.gone .debt).toNat := by
  have hcount := hs.count
  cases hpromise : s.gone .promise with
  | true =>
    rw [hpromise, Slot.released_of_gone hpromise] at hcount
    cases hdebt : s.gone .debt with
    | true =>
      simp [hdebt, Slot.released_of_gone hdebt] at hcount
      simp
      omega
    | false =>
      simp [hdebt] at hcount
      simp
      omega
  | false =>
    simp only [Bool.false_and, Bool.toNat_false]
    cases hdebt : s.gone .debt with
    | true =>
      simp [hpromise, hdebt, Slot.released_of_gone hdebt] at hcount
      omega
    | false =>
      cases hreleased : s.released .promise <;> cases hreleased' : s.released .debt <;>
        simp [hpromise, hdebt, hreleased, hreleased'] at hcount <;> omega

end Slots

/-! ## Until both sides are gone -/

/-- How far the promise is from the end of its drop. -/
def PromisePc.rank : PromisePc W → Nat
  | .loaded _ _ => 6
  | .wakerStored _ _ => 5
  | .exchanged _ _ => 4
  | .idle => 3
  | .releasing => 2
  | .reclaiming => 1
  | .dropped => 0

def DebtPc.rank : DebtPc ω → Nat
  | .fulfilling _ => 11
  | .resultsSet => 10
  | .contentFlagged _ => 9
  | .idle => 9
  | .dropping => 8
  | .handleCleared => 7
  | .paying => 6
  | .paid => 5
  | .waking => 4
  | .taking _ => 3
  | .releasing => 2
  | .reclaiming => 1
  | .dropped => 0

def PushPc.rank [DecidableEq P] (current : P) : PushPc P → Nat
  | .started => 6
  | .dataDropped => 5
  | .gotHead head => if current = head then 2 else 4
  | .linked head => if current = head then 1 else 3

section Progress

variable {s : Slot ω W}

/-- The owner of a promise can go on until it has cleared its flag. -/
theorem promise_progress (h : s.released .promise = false) :
    ∃ action t, PromiseSlot.step s action = some t ∧ action.side.any s.reclaiming = false ∧
      t.promise.rank + t.debt.rank < s.promise.rank + s.debt.rank := by
  have hside : s.reclaiming .promise = false := by rw [Slot.reclaiming, h, Bool.false_and]
  cases hpromise : s.promise with
  | idle =>
    refine ⟨.dropPromise, _, by simp only [PromiseSlot.step, hpromise]; rfl, rfl, ?_⟩
    simp [PromisePc.rank]
  | loaded flags waker =>
    refine ⟨.promise, _, by simp only [PromiseSlot.step, promiseStep, hpromise]; rfl, hside, ?_⟩
    simp [PromisePc.rank]
  | wakerStored flags waker =>
    by_cases hflags : s.flags = flags
    · refine ⟨.promise, _, by simp only [PromiseSlot.step, promiseStep, hpromise, if_pos hflags]; rfl,
        hside, ?_⟩
      simp [PromisePc.rank]
    · refine ⟨.promise, _, by simp only [PromiseSlot.step, promiseStep, hpromise, if_neg hflags]; rfl,
        hside, ?_⟩
      simp [PromisePc.rank]
  | exchanged result waker =>
    by_cases hcontent : (currentFlags result).has contentSet = true
    · refine ⟨.promise, _, by simp only [PromiseSlot.step, promiseStep, hpromise, if_pos hcontent]; rfl,
        hside, ?_⟩
      simp [PromisePc.rank]
    · refine ⟨.promise, _, by simp only [PromiseSlot.step, promiseStep, hpromise, if_neg hcontent]; rfl,
        hside, ?_⟩
      simp [PromisePc.rank]
  | releasing =>
    refine ⟨.promise, _, by simp only [PromiseSlot.step, promiseStep, hpromise]; rfl, hside, ?_⟩
    split <;> simp [PromisePc.rank]
  | reclaiming => simp [Slot.released, hpromise] at h
  | dropped => simp [Slot.released, hpromise] at h

theorem debt_progress (h : s.released .debt = false) :
    ∃ action t, PromiseSlot.step s action = some t ∧ action.side.any s.reclaiming = false ∧
      t.promise.rank + t.debt.rank < s.promise.rank + s.debt.rank := by
  have hside : s.reclaiming .debt = false := by rw [Slot.reclaiming, h, Bool.false_and]
  cases hdebt : s.debt with
  | idle =>
    refine ⟨.dropDebt, _, by simp only [PromiseSlot.step, hdebt]; rfl, rfl, ?_⟩
    simp [DebtPc.rank]
  | handleCleared =>
    by_cases halive : s.flags &&& promiseAlive = 1
    · exact absurd halive (and_promiseAlive_ne_one _)
    · refine ⟨.debt, _, by simp only [PromiseSlot.step, debtStep, hdebt, if_neg halive]; rfl, hside, ?_⟩
      simp [DebtPc.rank]
  | releasing =>
    refine ⟨.debt, _, by simp only [PromiseSlot.step, debtStep, hdebt]; rfl, hside, ?_⟩
    split <;> simp [DebtPc.rank]
  | reclaiming => simp [Slot.released, hdebt] at h
  | dropped => simp [Slot.released, hdebt] at h
  | _ =>
    refine ⟨.debt, _, by simp only [PromiseSlot.step, debtStep, hdebt]; rfl, hside, ?_⟩
    simp [DebtPc.rank, wake]

end Progress

namespace Returning

variable [DecidableEq P] (self : P)

/-- One step of a side, or of another client. -/
def Step (s t : Returning ω W P) : Prop := ∃ action, s.step self action = some t

/-- A state of the slot in some interleaving, with the head it was handed out with. -/
def Reachable (s : Returning ω W P) : Prop := ∃ head, Reaches (Step self) (initial head) s

/-- The slot alone follows its own steps, and the pushes are counted there. -/
structure Inv (s : Returning ω W P) : Prop where
  reachable : PromiseSlot.Reachable s.slot
  pushes : s.pushes = s.slot.reclaimed

variable {self} {s : Returning ω W P}

theorem inv_step (s t : Returning ω W P) (hs : Inv s) (h : Step self s t) : Inv t := by
  obtain ⟨action, haction⟩ := h
  cases action with
  | act action =>
    simp only [step] at haction
    split at haction
    · cases haction
    · next hside =>
      obtain ⟨slot, hslot, rfl⟩ := Option.map_eq_some_iff.mp haction
      exact ⟨hs.reachable.tail ⟨action, hslot⟩,
        hs.pushes.trans (step_reclaimed hslot (by simpa using hside)).symm⟩
  | push origin =>
    simp only [step] at haction
    split at haction
    · next hreclaiming =>
      split at haction
      · cases haction
        exact { hs with }
      · cases haction
        exact { hs with }
      · cases haction
        exact { hs with }
      · split at haction
        · obtain ⟨slot, hslot, rfl⟩ := Option.map_eq_some_iff.mp haction
          obtain ⟨slot', hslot', hcount⟩ := step_last hreclaiming
          rw [hslot] at hslot'
          cases hslot'
          exact ⟨hs.reachable.tail ⟨_, hslot⟩, by rw [hcount, hs.pushes]⟩
        · cases haction
          exact { hs with }
    · cases haction
  | setHead head =>
    cases haction
    exact { hs with }

theorem Reachable.inv (h : Reachable self s) : Inv s := by
  obtain ⟨head, h⟩ := h
  exact h.invariant inv_step ⟨.refl _, rfl⟩

theorem step_eq_none (hpromise : s.slot.gone .promise = true) (hdebt : s.slot.gone .debt = true) :
    (∀ action, s.step self (.act action) = none) ∧ ∀ origin, s.step self (.push origin) = none := by
  have hboth : ∀ origin, s.slot.gone origin = true := fun origin => by
    cases origin <;> assumption
  have hreclaiming : ∀ origin, s.slot.reclaiming origin = false := fun origin => by
    rw [Slot.reclaiming, hboth, Bool.not_true, Bool.and_false]
  rw [gone_promise] at hpromise
  rw [gone_debt] at hdebt
  constructor
  · intro action
    simp only [step]
    split
    · rfl
    · cases action <;>
        simp only [PromiseSlot.step, promiseStep, debtStep, hpromise, hdebt, Option.map_none]
  · intro origin
    simp only [step, hreclaiming, Bool.false_eq_true, if_false]

def rank (s : Returning ω W P) : Nat :=
  8 * (s.slot.promise.rank + s.slot.debt.rank) + s.push.rank s.head

theorem act_progress {action : Action ω W} {slot : Slot ω W}
    (hstep : PromiseSlot.step s.slot action = some slot) (hside : action.side.any s.slot.reclaiming = false)
    (hrank : slot.promise.rank + slot.debt.rank < s.slot.promise.rank + s.slot.debt.rank) :
    ∃ t, Step self s t ∧ rank t < rank s := by
  refine ⟨{ s with slot }, ⟨.act action, ?_⟩, ?_⟩
  · simp only [step, hside, hstep, Bool.false_eq_true, if_false, Option.map_some]
  · simp only [rank]
    omega

theorem last_rank {slot t : Slot ω W} {origin : Origin} (h : slot.reclaiming origin = true)
    (hstep : PromiseSlot.step slot (Origin.last origin) = some t) :
    t.promise.rank + t.debt.rank + 1 = slot.promise.rank + slot.debt.rank := by
  cases origin with
  | promise =>
    have hpromise := reclaiming_promise.mp h
    simp only [Origin.last, PromiseSlot.step, promiseStep, hpromise, Option.some.injEq] at hstep
    subst hstep
    simp only [hpromise, PromisePc.rank]
    omega
  | debt =>
    have hdebt := reclaiming_debt.mp h
    simp only [Origin.last, PromiseSlot.step, debtStep, hdebt, Option.some.injEq] at hstep
    subst hstep
    simp only [hdebt, DebtPc.rank]

theorem PushPc.rank_le (current : P) (pc : PushPc P) : pc.rank current ≤ 6 := by
  cases pc <;> simp only [PushPc.rank] <;> first | omega | (split <;> omega)

/-- The side that reclaims the slot can go on; no other client changes the head for ever. -/
theorem push_progress (origin : Origin) (h : s.slot.reclaiming origin = true) :
    ∃ t, Step self s t ∧ rank t < rank s := by
  cases hpush : s.push with
  | started =>
    refine ⟨{ s with push := .dataDropped }, ⟨.push origin, by simp only [step, h, if_true, hpush]⟩, ?_⟩
    simp [rank, hpush, PushPc.rank]
  | dataDropped =>
    refine ⟨{ s with push := .gotHead s.head }, ⟨.push origin, by simp only [step, h, if_true, hpush]⟩, ?_⟩
    simp [rank, hpush, PushPc.rank]
  | gotHead head =>
    refine ⟨{ s with next := some head, push := .linked head },
      ⟨.push origin, by simp only [step, h, if_true, hpush]⟩, ?_⟩
    simp only [rank, hpush, PushPc.rank]
    split <;> omega
  | linked head =>
    by_cases hhead : s.head = head
    · obtain ⟨slot, hslot, -⟩ := step_last h
      have hlast := last_rank h hslot
      refine ⟨{ s with slot, head := self, pushes := s.pushes + 1 }, ⟨.push origin, ?_⟩, ?_⟩
      · simp only [step, h, if_true, hpush, if_pos hhead, hslot, Option.map_some]
      · have hle := PushPc.rank_le self s.push
        simp only [rank]
        omega
    · refine ⟨{ s with push := .gotHead s.head },
        ⟨.push origin, by simp only [step, h, if_true, hpush, if_neg hhead]⟩, ?_⟩
      simp [rank, hpush, PushPc.rank, hhead]

theorem Inv.progress (h : Inv s) : s.pushes = 1 ∨ ∃ t, Step self s t ∧ Inv t ∧ rank t < rank s := by
  have hnext : (∃ t, Step self s t ∧ rank t < rank s) → ∃ t, Step self s t ∧ Inv t ∧ rank t < rank s :=
    fun ⟨t, hst, hlt⟩ => ⟨t, hst, inv_step s t h hst, hlt⟩
  cases hpromise : s.slot.released .promise with
  | false =>
    obtain ⟨action, slot, hstep, hside, hrank⟩ := promise_progress hpromise
    exact .inr (hnext (act_progress hstep hside hrank))
  | true =>
    cases hdebt : s.slot.released .debt with
    | false =>
      obtain ⟨action, slot, hstep, hside, hrank⟩ := debt_progress hdebt
      exact .inr (hnext (act_progress hstep hside hrank))
    | true =>
      cases hgone : s.slot.gone .promise with
      | false =>
        exact .inr (hnext (push_progress .promise
          (by rw [Slot.reclaiming, hpromise, hgone]; rfl)))
      | true =>
        cases hgone' : s.slot.gone .debt with
        | false =>
          exact .inr (hnext (push_progress .debt
            (by rw [Slot.reclaiming, hdebt, hgone']; rfl)))
        | true =>
          refine .inl ?_
          rw [h.pushes, h.reachable.settled.reclaimed_eq, hgone, hgone']
          rfl

/-- A slot that `get_promise` handed out is pushed back on the free list once: when the promise and
the debt have made their last access to it, and not before. Who pushes it finds the other side gone
and both flags clear; whatever has happened, the slot can still be pushed back. -/
theorem slot_returned_once (h : Reachable self s) :
    s.pushes ≤ 1 ∧ (s.pushes = 1 ↔ s.slot.gone .promise = true ∧ s.slot.gone .debt = true)
    ∧ (s.pushes = 1 → (∀ action, s.step self (.act action) = none) ∧
        ∀ origin, s.step self (.push origin) = none)
    ∧ (∀ origin t, s.step self (.push origin) = some t →
        s.pushes = 0 ∧ s.slot.gone (Origin.other origin) = true ∧ s.slot.flags &&& alive = 0)
    ∧ ∃ t, Reaches (Step self) s t ∧ t.pushes = 1 := by
  have hinv := h.inv
  have hsettled := hinv.reachable.settled
  have hpushes : s.pushes = (s.slot.gone .promise && s.slot.gone .debt).toNat :=
    hinv.pushes.trans hsettled.reclaimed_eq
  have hone : s.pushes = 1 ↔ s.slot.gone .promise = true ∧ s.slot.gone .debt = true := by
    rw [hpushes, Bool.toNat_eq_one, Bool.and_eq_true]
  refine ⟨hpushes ▸ Bool.toNat_le _, hone, fun hdone => ?_, fun origin t hstep => ?_, ?_⟩
  · obtain ⟨hpromise, hdebt⟩ := hone.mp hdone
    exact step_eq_none hpromise hdebt
  · by_cases hreclaiming : s.slot.reclaiming origin = true
    · obtain ⟨hother, hzero, hflags⟩ := hsettled.other_gone hreclaiming
      exact ⟨hinv.pushes.trans hzero, hother, hflags⟩
    · simp only [step, hreclaiming, Bool.false_eq_true, if_false] at hstep
      cases hstep
  · obtain ⟨t, hst, -, hdone⟩ := exists_reaches_done rank (fun s => Inv.progress) hinv
    exact ⟨t, hst, hdone⟩

/-- The debt goes last; another client changes the head before its first exchange. -/
theorem slot_returned_second_exchange :
    ∃ s : Returning Nat Unit Nat, run (fun s action => s.step 1 action) (initial 0)
        [.act .dropPromise, .act .promise, .act .dropDebt, .act .debt, .act .debt, .act .debt,
          .push .debt, .push .debt, .push .debt, .setHead 5, .push .debt, .push .debt, .push .debt] = some s ∧
      s.head = 1 ∧ s.next = some 5 ∧ s.pushes = 1 ∧
      s.slot.gone .promise = true ∧ s.slot.gone .debt = true := by
  have hreachable := reaches_of_run (fun (s : Returning Nat Unit Nat) action => s.step 1 action)
    (s := initial 0) [.act .dropPromise, .act .promise, .act .dropDebt, .act .debt, .act .debt, .act .debt,
      .push .debt, .push .debt, .push .debt, .setHead 5, .push .debt, .push .debt, .push .debt] rfl
  exact ⟨_, rfl, rfl, rfl, rfl, (slot_returned_once ⟨0, hreachable⟩).2.1.mp rfl⟩

end Returning

end Dandelion.PromiseSlot
