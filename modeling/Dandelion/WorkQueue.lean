import Dandelion.TicketLock
import Dandelion.Transitions

/-!
# The work queue

Consumers of the queue take turns by tickets before they search it under its lock. `get_work` takes
a ticket and spins until it is its turn; `try_get_work` takes one only if it has its turn at once,
which it finds out with an exchange of `end` for a value that it read from `start` before. Every
step is one atomic operation on the counters or one search; producers append under the same lock.
-/

namespace Dandelion

open TicketLock Transitions

structure QueueElement (Work : Type) where
  flags : BitVec 32
  work : Work

namespace WorkQueue

/-- The two calls of a consumer. -/
inductive Call where
  | tryGetWork
  | getWork
deriving DecidableEq, Repr

/-- Where a consumer is: outside, with what its last call returned; in `try_get_work` with the value of
`start`; in the loop of `get_work`, with or without a ticket; or in its turn. -/
inductive Pc (Work : Type) where
  | outside (result : Option Work)
  | loaded (engineFlags : BitVec 32) (queueHead : Nat)
  | looping (engineFlags : BitVec 32)
  | spinning (engineFlags : BitVec 32) (localTicket : Nat)
  | turn (call : Call) (engineFlags : BitVec 32) (ticket : Nat)
  | searched (call : Call) (engineFlags : BitVec 32) (ticket : Nat) (result : Option Work)

end WorkQueue

open WorkQueue in
/-- A queue and its consumers. `start` and `stop` are the counters of `AtomicTickets`. -/
structure WorkQueue (Consumer Work : Type) where
  inner : List (QueueElement Work)
  start : Nat
  stop : Nat
  consumers : Consumer → Pc Work

namespace WorkQueue

variable {Consumer Work : Type}

def init : WorkQueue Consumer Work where
  inner := []
  start := 0
  stop := 0
  consumers := fun _ => .outside none

inductive Action (Consumer Work : Type) where
  | push (element : QueueElement Work)
  | tryGetWork (consumer : Consumer) (engineFlags : BitVec 32)
  | getWork (consumer : Consumer) (engineFlags : BitVec 32)
  | advance (consumer : Consumer)

/-- The filter of `extract_if`. -/
def matchesFlags (engineFlags : BitVec 32) (element : QueueElement Work) : Bool :=
  element.flags &&& engineFlags == engineFlags

/-- `get_work` does not return without work. -/
def Call.leave (engineFlags : BitVec 32) : Call → Option Work → Pc Work
  | .tryGetWork, result => .outside result
  | .getWork, some work => .outside (some work)
  | .getWork, none => .looping engineFlags

section Steps

variable [DecidableEq Consumer]

def setConsumer (s : WorkQueue Consumer Work) (consumer : Consumer) (pc : Pc Work) :
    WorkQueue Consumer Work :=
  { s with consumers := Function.update s.consumers consumer pc }

def takeTicket (s : WorkQueue Consumer Work) (consumer : Consumer) (engineFlags : BitVec 32) :
    WorkQueue Consumer Work :=
  { s.setConsumer consumer (.spinning engineFlags s.stop) with stop := s.stop + 1 }

def advance (s : WorkQueue Consumer Work) (consumer : Consumer) : Option (WorkQueue Consumer Work) :=
  match s.consumers consumer with
  | .outside _ => none
  | .loaded engineFlags queueHead =>
    -- `end.compare_exchange(queue_head, queue_head + 1)`
    if s.stop = queueHead then
      some { s.setConsumer consumer (.turn .tryGetWork engineFlags queueHead) with stop := queueHead + 1 }
    else some (s.setConsumer consumer (.outside none))
  | .looping engineFlags => some (s.takeTicket consumer engineFlags)
  | .spinning engineFlags localTicket =>
    if localTicket ≠ s.start then some s
    else some (s.setConsumer consumer (.turn .getWork engineFlags localTicket))
  | .turn call engineFlags ticket =>
    let result := (s.inner.find? (matchesFlags engineFlags)).map QueueElement.work
    some { s.setConsumer consumer (.searched call engineFlags ticket result) with
      inner := s.inner.eraseP (matchesFlags engineFlags) }
  | .searched call engineFlags _ result =>
    -- `start.fetch_add(1)`
    some { s.setConsumer consumer (call.leave engineFlags result) with start := s.start + 1 }

def step (s : WorkQueue Consumer Work) : Action Consumer Work → Option (WorkQueue Consumer Work)
  | .push element => some { s with inner := s.inner ++ [element] }
  | .tryGetWork consumer engineFlags =>
    match s.consumers consumer with
    | .outside _ => some (s.setConsumer consumer (.loaded engineFlags s.start))
    | _ => none
  | .getWork consumer engineFlags =>
    match s.consumers consumer with
    | .outside _ => some (s.takeTicket consumer engineFlags)
    | _ => none
  | .advance consumer => advance s consumer

end Steps

/-! ## Turns -/

namespace Pc

def ticket : Pc Work → Option Nat
  | .outside _ => none
  | .loaded _ _ => none
  | .looping _ => none
  | .spinning _ localTicket => some localTicket
  | .turn _ _ ticket => some ticket
  | .searched _ _ ticket _ => some ticket

/-- The consumer is between obtaining its turn and incrementing `start`. -/
def InTurn : Pc Work → Prop
  | .turn _ _ _ => True
  | .searched _ _ _ _ => True
  | _ => False

end Pc

/-- The tickets that are out, as those of a lock. -/
def lock (s : WorkQueue Consumer Work) : Lock Consumer :=
  ⟨s.start, s.stop, fun consumer => (s.consumers consumer).ticket⟩

/-- One consumer has its turn at a time. A consumer inside its turn has the ticket `start`, and no
ticket is out when nobody has this one, so also when nobody is inside a call. -/
structure OneTurn (s : WorkQueue Consumer Work) : Prop where
  le : s.start ≤ s.stop
  one : ∀ consumer other, (s.consumers consumer).InTurn → (s.consumers other).InTurn → consumer = other
  turn : ∀ consumer, (s.consumers consumer).InTurn → (s.consumers consumer).ticket = some s.start
  tickets : ∀ ticket, s.start ≤ ticket → ticket < s.stop →
    ∃! consumer, (s.consumers consumer).ticket = some ticket
  range : ∀ consumer ticket, (s.consumers consumer).ticket = some ticket →
    s.start ≤ ticket ∧ ticket < s.stop
  vacant : s.start = s.stop ↔ ∀ consumer, (s.consumers consumer).ticket ≠ some s.start
  unused : (∀ consumer, ∃ result, s.consumers consumer = .outside result) → s.start = s.stop

/-- What a run keeps: the tickets are those of a fair lock, a loaded value of `start` is not ahead of
it, and who is inside its turn has the lowest ticket. -/
structure Inv (s : WorkQueue Consumer Work) : Prop where
  fair : Fair s.lock
  loaded : ∀ consumer engineFlags queueHead, s.consumers consumer = .loaded engineFlags queueHead →
    queueHead ≤ s.start
  turn : ∀ consumer, (s.consumers consumer).InTurn → HasTurn s.lock consumer

theorem Inv.oneTurn {s : WorkQueue Consumer Work} (h : Inv s) : OneTurn s where
  le := h.fair.le
  one consumer other hconsumer hother :=
    h.fair.turn_unique (h.turn consumer hconsumer) (h.turn other hother)
  turn := h.turn
  tickets _ hle hlt := h.fair.existsUnique hle hlt
  range := h.fair.range
  vacant := h.fair.start_eq_stop_iff
  unused houtside := h.fair.start_eq_stop_iff.mpr fun consumer hturn => by
    obtain ⟨result, hresult⟩ := houtside consumer
    change (s.consumers consumer).ticket = some s.start at hturn
    rw [hresult] at hturn
    cases hturn

theorem inv_init : Inv (init : WorkQueue Consumer Work) where
  fair := fair_unused 0
  loaded _ _ _ h := by cases h
  turn _ h := h.elim

theorem leave_spec (engineFlags : BitVec 32) (call : Call) (result : Option Work) :
    (call.leave engineFlags result).ticket = none ∧
      (∀ flags queueHead, call.leave engineFlags result ≠ .loaded flags queueHead) ∧
      ¬ (call.leave engineFlags result).InTurn := by
  cases call with
  | tryGetWork => exact ⟨rfl, nofun, fun h => h⟩
  | getWork =>
    cases result with
    | none => exact ⟨rfl, nofun, fun h => h⟩
    | some work => exact ⟨rfl, nofun, fun h => h⟩

section Steps

variable [DecidableEq Consumer] {s : WorkQueue Consumer Work} {consumer : Consumer}

theorem ticket_update (pc : Pc Work) (other : Consumer) :
    (Function.update s.consumers consumer pc other).ticket =
      if other = consumer then pc.ticket else (s.consumers other).ticket := by
  rw [Function.update_apply]
  split
  · rfl
  · rfl

theorem lock_setConsumer {pc : Pc Work} (h : pc.ticket = (s.consumers consumer).ticket) :
    (s.setConsumer consumer pc).lock = s.lock := by
  have hheld : (fun other => (Function.update s.consumers consumer pc other).ticket) =
      fun other => (s.consumers other).ticket := by
    funext other
    rw [ticket_update]
    split
    · next heq => rw [heq, h]
    · rfl
  rw [lock, lock]
  exact congrArg (Lock.mk s.start s.stop) hheld

theorem lock_take {pc : Pc Work} (h : pc.ticket = some s.stop) :
    lock { s.setConsumer consumer pc with stop := s.stop + 1 } = s.lock.take consumer := by
  have hheld : (fun other => (Function.update s.consumers consumer pc other).ticket) =
      Function.update (fun other => (s.consumers other).ticket) consumer (some s.stop) := by
    funext other
    rw [ticket_update, Function.update_apply, h]
  rw [lock, Lock.take]
  exact congrArg (Lock.mk s.start (s.stop + 1)) hheld

theorem lock_pass {pc : Pc Work} (h : pc.ticket = none) :
    lock { s.setConsumer consumer pc with start := s.start + 1 } = s.lock.pass consumer := by
  have hheld : (fun other => (Function.update s.consumers consumer pc other).ticket) =
      Function.update (fun other => (s.consumers other).ticket) consumer none := by
    funext other
    rw [ticket_update, Function.update_apply, h]
  rw [lock, Lock.pass]
  exact congrArg (Lock.mk (s.start + 1) s.stop) hheld

/-- A step of one consumer keeps the invariant, if its own part of it holds after the step and the
ticket that has its turn is nobody else's. -/
theorem Inv.of_step {t : WorkQueue Consumer Work} {pc : Pc Work} (h : Inv s)
    (hconsumers : t.consumers = Function.update s.consumers consumer pc) (hfair : Fair t.lock)
    (hstart : s.start ≤ t.start)
    (hloaded : ∀ engineFlags queueHead, pc = .loaded engineFlags queueHead → queueHead ≤ t.start)
    (hturn : pc.InTurn → pc.ticket = some t.start)
    (hothers : ∀ other, other ≠ consumer → HasTurn s.lock other → t.start = s.start) : Inv t where
  fair := hfair
  loaded other engineFlags queueHead hpc := by
    rw [hconsumers, Function.update_apply] at hpc
    split at hpc
    · exact hloaded engineFlags queueHead hpc
    · exact Nat.le_trans (h.loaded other engineFlags queueHead hpc) hstart
  turn other hpc := by
    change (t.consumers other).ticket = some t.start
    rw [hconsumers, Function.update_apply] at hpc ⊢
    split at hpc
    · next heq =>
      rw [if_pos heq]
      exact hturn hpc
    · next hne =>
      rw [if_neg hne, hothers other hne (h.turn other hpc)]
      exact h.turn other hpc

/-- A step of one consumer that leaves the counters and its ticket as they are. -/
theorem Inv.of_setConsumer {pc : Pc Work} (h : Inv s)
    (hticket : pc.ticket = (s.consumers consumer).ticket)
    (hloaded : ∀ engineFlags queueHead, pc = .loaded engineFlags queueHead → queueHead ≤ s.start)
    (hturn : pc.InTurn → pc.ticket = some s.start) : Inv (s.setConsumer consumer pc) := by
  refine h.of_step rfl ?_ (Nat.le_refl _) hloaded hturn fun _ _ _ => rfl
  rw [lock_setConsumer hticket]
  exact h.fair

theorem Inv.takeTicket (h : Inv s) (hconsumer : (s.consumers consumer).ticket = none)
    (engineFlags : BitVec 32) : Inv (s.takeTicket consumer engineFlags) := by
  refine h.of_step rfl ?_ (Nat.le_refl _) (fun _ _ hpc => by cases hpc) (fun hpc => hpc.elim)
    fun _ _ _ => rfl
  rw [WorkQueue.takeTicket, lock_take rfl]
  exact h.fair.take hconsumer

theorem inv_advance {t : WorkQueue Consumer Work} (h : Inv s) (hstep : advance s consumer = some t) :
    Inv t := by
  rw [advance] at hstep
  cases hpc : s.consumers consumer with
  | outside result =>
    rw [hpc] at hstep
    cases hstep
  | loaded engineFlags queueHead =>
    simp only [hpc] at hstep
    split at hstep
    · next hstop =>
      cases hstep
      -- `start` is not behind the loaded value and not ahead of `end`
      have hstart := h.fair.stop_eq_start (h.loaded consumer engineFlags queueHead hpc) hstop
      subst hstop
      refine h.of_step rfl ?_ (Nat.le_refl _) (fun _ _ heq => by cases heq)
        (fun _ => congrArg some hstart.symm) fun _ _ _ => rfl
      rw [lock_take rfl]
      exact h.fair.take (congrArg Pc.ticket hpc)
    · cases hstep
      exact h.of_setConsumer (congrArg Pc.ticket hpc).symm (fun _ _ heq => by cases heq)
        fun hturn => hturn.elim
  | looping engineFlags =>
    simp only [hpc] at hstep
    cases hstep
    exact h.takeTicket (congrArg Pc.ticket hpc) engineFlags
  | spinning engineFlags localTicket =>
    simp only [hpc] at hstep
    split at hstep
    · cases hstep
      exact h
    · next hticket =>
      cases hstep
      have hturn := not_not.mp hticket
      exact h.of_setConsumer (congrArg Pc.ticket hpc).symm (fun _ _ heq => by cases heq)
        fun _ => congrArg some hturn
  | turn call engineFlags ticket =>
    simp only [hpc] at hstep
    cases hstep
    have hturn := h.turn consumer (by rw [hpc]; trivial)
    have hticket : some ticket = some s.start := (congrArg Pc.ticket hpc).symm.trans hturn
    refine h.of_step rfl ?_ (Nat.le_refl _) (fun _ _ heq => by cases heq) (fun _ => hticket)
      fun _ _ _ => rfl
    change Fair (lock (s.setConsumer consumer (.searched call engineFlags ticket _)))
    rw [lock_setConsumer]
    · exact h.fair
    · exact (congrArg Pc.ticket hpc).symm
  | searched call engineFlags ticket result =>
    simp only [hpc] at hstep
    cases hstep
    have hturn := h.turn consumer (by rw [hpc]; trivial)
    obtain ⟨hnone, hloaded, hout⟩ := leave_spec engineFlags call result
    refine h.of_step rfl ?_ (Nat.le_succ _) (fun _ _ heq => absurd heq (hloaded _ _))
      (fun hin => (hout hin).elim)
      fun other hne hother => absurd (h.fair.turn_unique hother hturn) hne
    rw [lock_pass hnone]
    exact h.fair.pass hturn

theorem inv_step (s : WorkQueue Consumer Work) (action : Action Consumer Work)
    (t : WorkQueue Consumer Work) (h : Inv s) (hstep : step s action = some t) : Inv t := by
  cases action with
  | push element =>
    cases hstep
    exact ⟨h.fair, h.loaded, h.turn⟩
  | tryGetWork consumer engineFlags =>
    rw [step] at hstep
    split at hstep
    · next result hpc =>
      cases hstep
      refine h.of_setConsumer (congrArg Pc.ticket hpc).symm (fun _ _ heq => ?_) fun hturn => hturn.elim
      cases heq
      exact Nat.le_refl _
    · cases hstep
  | getWork consumer engineFlags =>
    rw [step] at hstep
    split at hstep
    · next result hpc =>
      cases hstep
      exact h.takeTicket (congrArg Pc.ticket hpc) engineFlags
    · cases hstep
  | advance consumer => exact inv_advance h hstep

/-- In every state that any interleaving reaches, one consumer has its turn at a time; and a call of
`try_get_work` whose exchange fails has changed no counter. -/
theorem one_turn_at_a_time :
    (∀ s : WorkQueue Consumer Work, Reaches (fun s t => ∃ action, step s action = some t) init s →
      OneTurn s) ∧
    (∀ (s t : WorkQueue Consumer Work) consumer engineFlags,
      step s (.tryGetWork consumer engineFlags) = some t →
        t.consumers consumer = .loaded engineFlags s.start ∧ t.start = s.start ∧ t.stop = s.stop) ∧
    ∀ (s t : WorkQueue Consumer Work) consumer engineFlags queueHead,
      s.consumers consumer = .loaded engineFlags queueHead → s.stop ≠ queueHead →
        step s (.advance consumer) = some t →
          t.consumers consumer = .outside none ∧ t.start = s.start ∧ t.stop = s.stop := by
  refine ⟨fun s hreach => ?_, fun s t consumer engineFlags hstep => ?_,
    fun s t consumer engineFlags queueHead hpc hfailed hstep => ?_⟩
  · refine (hreach.invariant (fun s t h hstep => ?_) inv_init).oneTurn
    obtain ⟨action, hstep⟩ := hstep
    exact inv_step s action t h hstep
  · rw [step] at hstep
    split at hstep
    · cases hstep
      exact ⟨Function.update_self _ _ _, rfl, rfl⟩
    · cases hstep
  · rw [step, advance, hpc] at hstep
    simp only [if_neg hfailed, Option.some.injEq] at hstep
    subst hstep
    exact ⟨Function.update_self _ _ _, rfl, rfl⟩

end Steps

/-- A consumer spins, or is about to, while another one tries. -/
theorem try_beside_spinning : ∃ s : WorkQueue Bool Unit,
    run step init [.push ⟨1, ()⟩, .getWork false 1, .tryGetWork true 1] = some s ∧ OneTurn s ∧
    ∃ t, step s (.advance true) = some t ∧ t.consumers true = .outside none ∧ t.start = s.start ∧
      t.stop = s.stop := by
  refine ⟨_, rfl, ?_, _, rfl, ?_⟩
  · exact one_turn_at_a_time.1 _ (reaches_of_run step
      [.push ⟨1, ()⟩, .getWork false 1, .tryGetWork true 1] rfl)
  · exact one_turn_at_a_time.2.2 _ _ true 1 0 rfl (by decide) rfl

end WorkQueue

end Dandelion
