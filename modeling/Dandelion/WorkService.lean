import Dandelion.PromiseWakeups
import Dandelion.QueueOrder
import Mathlib.Data.List.Nodup

/-!
# Work for the engines

Clients and engines around the work queue. `do_work` obtains a promise and its debt, pushes the work
with the debt, and polls the promise; an engine takes work with its debt from the queue, works on it,
and fulfills the debt or, where it panics, drops it. The queue is the one with the ticket lock, and
every promise is a slot with its two owners: one step is one step of the queue or of a slot, or a
local step of a client or of an engine. An engine may also spawn a task for the work, which fulfills
or drops the debt later. A promise is told by the number of its call: that its slot is nobody
else's is a matter of the buffer of the slots.
-/

namespace Dandelion

namespace WorkService

/-- What an engine does with the work and the debt that it has taken. -/
inductive Handling (Done : Type) where
  /-- fulfill the debt, and take more work -/
  | reply (results : Except DandelionError Done)
  /-- fulfill the debt, and end -/
  | last (results : Except DandelionError Done)
  /-- leave work and debt to a task, and take more work -/
  | spawn
  /-- drop the debt in a panic, and end -/
  | die

/-- Where an engine is: `taking` in a call on the queue, `paying` in `fulfill` or with a debt it drops. -/
inductive EnginePc (Work : Type) where
  | ready
  | taking
  | running (work : Work) (call : Nat)
  | paying (call : Nat) (last : Bool)
  | stopped

/-- Where a call of `do_work` is. -/
inductive CallPc (Work : Type) where
  | idle
  | failed
  | promised (flags : BitVec 32) (work : Work)
  | pushed (flags : BitVec 32) (work : Work)

end WorkService

open WorkService WorkQueue in
/-- The queue, its clients and its engines, and what has happened to the work. -/
structure WorkService (Engine Work Done W : Type) where
  queue : WorkQueue Engine (Work × Nat)
  calls : Nat → CallPc Work
  slots : Nat → PromiseSlot.Slot Done W
  engines : Engine → EnginePc Work
  tasks : Engine → List (Work × Nat)
  history : List (Event Engine (Work × Nat))

namespace WorkService

open WorkQueue Transitions

variable {Engine Work Done W : Type}

def init : WorkService Engine Work Done W where
  queue := .init
  calls := fun _ => .idle
  slots := fun _ => PromiseSlot.initial
  engines := fun _ => .ready
  tasks := fun _ => []
  history := []

inductive Action (Engine Work Done W : Type) where
  | getPromise (call : Nat) (flags : BitVec 32) (work : Work)
  | noPromise (call : Nat)
  | push (call : Nat)
  | promise (call : Nat) (action : PromiseSlot.Action Done W)
  | getWork (engine : Engine)
  | tryGetWork (engine : Engine)
  | take (engine : Engine)
  | handle (engine : Engine) (handling : Handling Done)
  | debt (call : Nat)
  | paid (engine : Engine)
  | finishTask (engine : Engine) (index : Nat) (results : Except DandelionError Done)
  | dropTask (engine : Engine) (index : Nat)

section Steps

variable [DecidableEq Engine]

def setCall (s : WorkService Engine Work Done W) (call : Nat) (pc : CallPc Work) :
    WorkService Engine Work Done W :=
  { s with calls := Function.update s.calls call pc }

def setEngine (s : WorkService Engine Work Done W) (engine : Engine) (pc : EnginePc Work) :
    WorkService Engine Work Done W :=
  { s with engines := Function.update s.engines engine pc }

def onSlot (s : WorkService Engine Work Done W) (call : Nat) (action : PromiseSlot.Action Done W) :
    Option (WorkService Engine Work Done W) :=
  (PromiseSlot.step (s.slots call) action).map fun slot =>
    { s with slots := Function.update s.slots call slot }

def onQueue (s : WorkService Engine Work Done W) (action : WorkQueue.Action Engine (Work × Nat)) :
    Option (WorkService Engine Work Done W) :=
  (s.queue.step action).map fun queue =>
    { s with queue, history := s.history ++ WorkQueue.events s.queue action }

def afterTake : Pc (Work × Nat) → EnginePc Work
  | .outside none => .ready
  | .outside (some (work, call)) => .running work call
  | _ => .taking

def isPromiseAction : PromiseSlot.Action Done W → Bool
  | .poll _ => true
  | .dropPromise => true
  | .promise => true
  | _ => false

variable (engineFlags : Engine → BitVec 32)

def act (s : WorkService Engine Work Done W) :
    Action Engine Work Done W → Option (WorkService Engine Work Done W)
  | .getPromise call flags work =>
    match s.calls call with
    | .idle => some (s.setCall call (.promised flags work))
    | _ => none
  | .noPromise call =>
    match s.calls call with
    | .idle => some (s.setCall call .failed)
    | _ => none
  | .push call =>
    match s.calls call with
    | .promised flags work =>
      (s.onQueue (.push ⟨flags, work, call⟩)).map (·.setCall call (.pushed flags work))
    | _ => none
  | .promise call action =>
    match s.calls call with
    | .pushed _ _ => if isPromiseAction action then s.onSlot call action else none
    | _ => none
  | .getWork engine =>
    match s.engines engine with
    | .ready => (s.onQueue (.getWork engine (engineFlags engine))).map (·.setEngine engine .taking)
    | _ => none
  | .tryGetWork engine =>
    match s.engines engine with
    | .ready => (s.onQueue (.tryGetWork engine (engineFlags engine))).map (·.setEngine engine .taking)
    | _ => none
  | .take engine =>
    match s.engines engine with
    | .taking => (s.onQueue (.advance engine)).map fun t =>
        t.setEngine engine (afterTake (t.queue.consumers engine))
    | _ => none
  | .handle engine handling =>
    match s.engines engine with
    | .running work call =>
      match handling with
      | .reply results => (s.onSlot call (.fulfill results)).map (·.setEngine engine (.paying call false))
      | .last results =>
        -- what the engine has spawned is gone before
        if (s.tasks engine).isEmpty then
          (s.onSlot call (.fulfill results)).map (·.setEngine engine (.paying call true))
        else none
      | .spawn => some { s.setEngine engine .ready with
          tasks := Function.update s.tasks engine ((work, call) :: s.tasks engine) }
      | .die => (s.onSlot call .dropDebt).map (·.setEngine engine (.paying call true))
    | _ => none
  | .debt call => s.onSlot call .debt
  | .paid engine =>
    match s.engines engine with
    | .paying call last =>
      match (s.slots call).debt with
      | .dropped => some (s.setEngine engine (if last then .stopped else .ready))
      | _ => none
    | _ => none
  | .finishTask engine index results =>
    match (s.tasks engine)[index]? with
    | some (_, call) => (s.onSlot call (.fulfill results)).map fun t =>
        { t with tasks := Function.update t.tasks engine ((t.tasks engine).eraseIdx index) }
    | none => none
  | .dropTask engine index =>
    match (s.tasks engine)[index]? with
    | some (_, call) => (s.onSlot call .dropDebt).map fun t =>
        { t with tasks := Function.update t.tasks engine ((t.tasks engine).eraseIdx index) }
    | none => none

end Steps

/-! ## What the engines do -/

section Behaviour

variable [DecidableEq Engine] (engineFlags : Engine → BitVec 32)
  (handles : Engine → Work → Handling Done → Prop)
  (finishes : Engine → Work → Except DandelionError Done → Prop)

/-- The engine handles its work as it can, and a task finishes with one of its results. -/
def Allowed (s : WorkService Engine Work Done W) : Action Engine Work Done W → Prop
  | .handle engine handling =>
    ∀ work call, s.engines engine = .running work call → handles engine work handling
  | .finishTask engine index results =>
    ∀ work call, (s.tasks engine)[index]? = some (work, call) → finishes engine work results
  | _ => True

def Step (s t : WorkService Engine Work Done W) : Prop :=
  ∃ action, Allowed handles finishes s action ∧ act engineFlags s action = some t

/-- What may become of work on an engine. -/
def Produces (engine : Engine) (work : Work) (results : Except DandelionError Done) : Prop :=
  handles engine work (.reply results) ∨ handles engine work (.last results) ∨
    handles engine work .spawn ∧ finishes engine work results

end Behaviour

def EnginePc.work : EnginePc Work → List (Work × Nat)
  | .running work call => [(work, call)]
  | _ => []

def held (s : WorkService Engine Work Done W) (engine : Engine) : List (Work × Nat) :=
  (s.engines engine).work ++ s.tasks engine

/-! ## The debt of a call is in one place -/

section Slots

open PromiseSlot

variable {slot slot' : Slot Done W}

theorem step_promise {action : PromiseSlot.Action Done W} (haction : isPromiseAction action = true)
    (hstep : PromiseSlot.step slot action = some slot') :
    slot'.debt = slot.debt ∧ slot'.fulfilled = slot.fulfilled := by
  cases action with
  | poll waker =>
    simp only [PromiseSlot.step] at hstep
    split at hstep <;> cases hstep
    exact ⟨rfl, rfl⟩
  | dropPromise =>
    simp only [PromiseSlot.step] at hstep
    split at hstep <;> cases hstep
    exact ⟨rfl, rfl⟩
  | promise =>
    simp only [PromiseSlot.step, promiseStep] at hstep
    split at hstep
    · cases hstep
      exact ⟨rfl, rfl⟩
    · split at hstep <;> cases hstep <;> exact ⟨rfl, rfl⟩
    · split at hstep <;> cases hstep <;> exact ⟨rfl, rfl⟩
    · cases hstep
      exact ⟨rfl, rfl⟩
    · cases hstep
      exact ⟨rfl, rfl⟩
    · cases hstep
    · cases hstep
  | installAbortHandle => cases haction
  | fulfill results => cases haction
  | dropDebt => cases haction
  | debt => cases haction

theorem step_debt (hstep : PromiseSlot.step slot .debt = some slot') :
    slot.debt ≠ .idle ∧ slot'.debt ≠ .idle ∧ slot'.fulfilled = slot.fulfilled := by
  simp only [PromiseSlot.step, debtStep] at hstep
  cases hdebt : slot.debt <;> simp only [hdebt] at hstep
  case handleCleared =>
    split at hstep
    · cases hstep
      refine ⟨by simp, ?_, rfl⟩
      dsimp only
      split <;> simp
    · cases hstep
      exact ⟨by simp, by simp, rfl⟩
  case releasing =>
    cases hstep
    refine ⟨by simp, ?_, rfl⟩
    dsimp only
    split <;> simp
  all_goals
    cases hstep
    try exact ⟨by simp, by simp, rfl⟩

theorem step_fulfill {results : Except DandelionError Done}
    (hstep : PromiseSlot.step slot (.fulfill results) = some slot') :
    slot.debt = .idle ∧ slot'.debt ≠ .idle ∧ slot'.fulfilled = some results := by
  simp only [PromiseSlot.step] at hstep
  split at hstep
  · next hdebt =>
    cases hstep
    exact ⟨hdebt, by simp, rfl⟩
  · cases hstep

theorem step_dropDebt (hstep : PromiseSlot.step slot .dropDebt = some slot') :
    slot.debt = .idle ∧ slot'.debt ≠ .idle ∧ slot'.fulfilled = slot.fulfilled := by
  simp only [PromiseSlot.step] at hstep
  split at hstep
  · next hdebt =>
    cases hstep
    exact ⟨hdebt, by simp, rfl⟩
  · cases hstep

end Slots

section History

variable {Consumer Item : Type} [DecidableEq Consumer] {queue : WorkQueue Consumer (Item × Nat)}
  {history : List (Event Consumer (Item × Nat))}

def takenPair? : Event Consumer (Item × Nat) → Option (Consumer × (Item × Nat))
  | .taken consumer _ element => some (consumer, element.work)
  | _ => none

/-- The calls whose work was pushed. -/
def pushedCalls (history : List (Event Consumer (Item × Nat))) : List Nat :=
  (history.filterMap Event.pushed?).map fun element => element.work.2

theorem takenBy_eq (consumer : Consumer) (history : List (Event Consumer (Item × Nat))) :
    history.filterMap (Event.takenBy? consumer) =
      ((history.filterMap takenPair?).filter fun pair => pair.1 = consumer).map Prod.snd := by
  induction history with
  | nil => rfl
  | cons event history ih =>
    cases event with
    | pushed element => simpa [List.filterMap_cons, Event.takenBy?, takenPair?] using ih
    | returned other work => simpa [List.filterMap_cons, Event.takenBy?, takenPair?] using ih
    | taken other flags element =>
      by_cases heq : other = consumer
      · simpa [List.filterMap_cons, Event.takenBy?, takenPair?, heq] using ih
      · simpa [List.filterMap_cons, Event.takenBy?, takenPair?, heq] using ih

omit [DecidableEq Consumer] in
theorem taken_eq (history : List (Event Consumer (Item × Nat))) :
    (history.filterMap takenPair?).map Prod.snd =
      (history.filterMap Event.taken?).map QueueElement.work := by
  induction history with
  | nil => rfl
  | cons event history ih => cases event <;> simpa [List.filterMap_cons, Event.taken?, takenPair?] using ih

/-- What was taken and what is in the queue are together what was pushed. -/
theorem perm_of_inOrder (h : InOrder history queue) :
    (history.filterMap Event.taken? ++ queue.inner).Perm (history.filterMap Event.pushed?) := by
  classical
  refine List.perm_iff_count.mpr fun element => ?_
  have hcount : ∀ elements : List (QueueElement (Item × Nat)),
      (elements.filter (·.flags == element.flags)).count element = elements.count element :=
    fun elements => List.count_filter (beq_self_eq_true element.flags)
  rw [← hcount, h.order element.flags, hcount]

theorem taken_nodup (h : InOrder history queue) (honce : (pushedCalls history).Nodup) :
    ((history.filterMap takenPair?).map fun pair => pair.2.2).Nodup := by
  have hperm := (perm_of_inOrder h).map fun element => element.work.2
  have hnodup := hperm.nodup_iff.mpr honce
  rw [List.map_append, List.nodup_append] at hnodup
  have heq : (history.filterMap takenPair?).map (fun pair => pair.2.2) =
      (history.filterMap Event.taken?).map fun element => element.work.2 := by
    have hworks := congrArg (List.map Prod.snd) (taken_eq history)
    rwa [List.map_map, List.map_map] at hworks
  rw [heq]
  exact hnodup.1

theorem takenPair_of_takenBy {consumer : Consumer} {work : Item × Nat}
    (hmem : work ∈ history.filterMap (Event.takenBy? consumer)) :
    (consumer, work) ∈ history.filterMap takenPair? := by
  rw [takenBy_eq] at hmem
  obtain ⟨⟨other, work'⟩, hfilter, heq⟩ := List.mem_map.mp hmem
  obtain ⟨hpair, hother⟩ := List.mem_filter.mp hfilter
  cases heq
  cases of_decide_eq_true hother
  exact hpair

theorem takenPair_of_returned (h : InOrder history queue) {consumer : Consumer} {work : Item × Nat}
    (hreturned : .returned consumer work ∈ history) :
    (consumer, work) ∈ history.filterMap takenPair? := by
  refine takenPair_of_takenBy ?_
  rw [h.delivered consumer]
  exact List.mem_append_left _ (List.mem_filterMap.mpr ⟨_, hreturned, if_pos rfl⟩)

theorem takenPair_of_carried (h : InOrder history queue) {consumer : Consumer} {work : Item × Nat}
    (hcarried : (queue.consumers consumer).carried = [work]) :
    (consumer, work) ∈ history.filterMap takenPair? := by
  refine takenPair_of_takenBy ?_
  rw [h.delivered consumer, hcarried]
  exact List.mem_append_right _ (List.mem_singleton.mpr rfl)

theorem returned_unique (h : InOrder history queue) (honce : (pushedCalls history).Nodup)
    {consumer other : Consumer} {work work' : Item} {call : Nat}
    (hreturned : .returned consumer (work, call) ∈ history)
    (hother : .returned other (work', call) ∈ history) : consumer = other ∧ work = work' := by
  have heq := List.inj_on_of_nodup_map (taken_nodup h honce) (takenPair_of_returned h hreturned)
    (takenPair_of_returned h hother) rfl
  cases heq
  exact ⟨rfl, rfl⟩

theorem carried_not_returned (h : InOrder history queue) (honce : (pushedCalls history).Nodup)
    {consumer other : Consumer} {work work' : Item} {call : Nat}
    (hcarried : (queue.consumers consumer).carried = [(work, call)]) :
    .returned other (work', call) ∉ history := by
  intro hreturned
  have hnodup := taken_nodup h honce
  cases List.inj_on_of_nodup_map hnodup (takenPair_of_carried h hcarried)
    (takenPair_of_returned h hreturned) rfl
  -- the consumer itself: its work would be there twice
  have hmine : ((history.filterMap (Event.takenBy? consumer)).map Prod.snd).Nodup := by
    rw [takenBy_eq, List.map_map]
    exact (List.filter_sublist.map _).nodup hnodup
  rw [h.delivered consumer, hcarried, List.map_append, List.nodup_append] at hmine
  refine hmine.2.2 call ?_ call (List.mem_singleton.mpr rfl) rfl
  exact List.mem_map.mpr ⟨(work, call), List.mem_filterMap.mpr ⟨_, hreturned, if_pos rfl⟩, rfl⟩

end History

/-! ## What a run of the service keeps -/

section Runs

variable [DecidableEq Engine] {engineFlags : Engine → BitVec 32}
  {handles : Engine → Work → Handling Done → Prop}
  {finishes : Engine → Work → Except DandelionError Done → Prop}
  {s t : WorkService Engine Work Done W}

/-- The engine has its own flags in its calls on the queue. -/
def OwnFlags (flags : BitVec 32) : Pc (Work × Nat) → Prop
  | .outside _ => True
  | .loaded engineFlags _ => engineFlags = flags
  | .looping engineFlags => engineFlags = flags
  | .spinning engineFlags _ => engineFlags = flags
  | .turn _ engineFlags _ => engineFlags = flags
  | .searched _ engineFlags _ _ => engineFlags = flags

variable (engineFlags handles finishes) in
/-- The debt of a call is where its work is: with the work in the queue, in the hands of one engine,
or, when the engine is done with it, gone. -/
structure Sound (s : WorkService Engine Work Done W) : Prop where
  order : InOrder s.history s.queue
  once : (pushedCalls s.history).Nodup
  pushed : ∀ flags work call,
    .pushed ⟨flags, (work, call)⟩ ∈ s.history ↔ s.calls call = .pushed flags work
  flags : ∀ engine, OwnFlags (engineFlags engine) (s.queue.consumers engine)
  taken : ∀ engine flags element, .taken engine flags element ∈ s.history → flags = engineFlags engine
  held : ∀ engine work call, (work, call) ∈ s.held engine →
    .returned engine (work, call) ∈ s.history ∧ (s.slots call).debt = .idle
  heldOnce : ∀ engine, ((s.held engine).map Prod.snd).Nodup
  kept : ∀ engine work call, .returned engine (work, call) ∈ s.history →
    (work, call) ∈ s.held engine ∨ (s.slots call).debt ≠ .idle
  unpaid : ∀ call, (s.slots call).debt ≠ .idle → ∃ engine work,
    .returned engine (work, call) ∈ s.history ∧
      ∀ results, (s.slots call).fulfilled = some results → Produces handles finishes engine work results
  slots : ∀ call, PromiseSlot.Reachable (s.slots call)

theorem sound_init : Sound engineFlags handles finishes (init : WorkService Engine Work Done W) where
  order := ⟨fun _ => rfl, fun _ _ _ hmem => absurd hmem List.not_mem_nil, fun _ => rfl⟩
  once := List.nodup_nil
  pushed _ _ _ := iff_of_false List.not_mem_nil fun h => by cases h
  flags _ := trivial
  taken _ _ _ h := absurd h List.not_mem_nil
  held _ _ _ h := absurd h List.not_mem_nil
  heldOnce _ := List.nodup_nil
  kept _ _ _ h := absurd h List.not_mem_nil
  unpaid _ h := absurd rfl h
  slots _ := .refl _

/-- A step of a call or of an engine that touches neither the queue nor a slot. -/
theorem Sound.local (h : Sound engineFlags handles finishes s) (hqueue : t.queue = s.queue)
    (hhistory : t.history = s.history) (hslots : t.slots = s.slots) (hheld : t.held = s.held)
    (hcalls : ∀ flags work call, t.calls call = .pushed flags work ↔ s.calls call = .pushed flags work) :
    Sound engineFlags handles finishes t where
  order := by rw [hqueue, hhistory]; exact h.order
  once := by rw [hhistory]; exact h.once
  pushed flags work call := by rw [hhistory, hcalls]; exact h.pushed flags work call
  flags := by rw [hqueue]; exact h.flags
  taken := by rw [hhistory]; exact h.taken
  held := by rw [hheld, hhistory, hslots]; exact h.held
  heldOnce := by rw [hheld]; exact h.heldOnce
  kept := by rw [hheld, hhistory, hslots]; exact h.kept
  unpaid := by rw [hhistory, hslots]; exact h.unpaid
  slots := by rw [hslots]; exact h.slots

theorem Sound.onSlot (h : Sound engineFlags handles finishes s) {call : Nat}
    {action : PromiseSlot.Action Done W} (hact : s.onSlot call action = some t)
    (hslot : ∀ slot, PromiseSlot.step (s.slots call) action = some slot →
      (slot.debt = .idle ↔ (s.slots call).debt = .idle) ∧ slot.fulfilled = (s.slots call).fulfilled) :
    Sound engineFlags handles finishes t := by
  obtain ⟨slot, hstep, rfl⟩ := Option.map_eq_some_iff.mp hact
  obtain ⟨hdebt, hfulfilled⟩ := hslot slot hstep
  have hidle : ∀ other, (Function.update s.slots call slot other).debt = .idle ↔
      (s.slots other).debt = .idle := by
    intro other
    by_cases heq : other = call
    · subst heq
      simpa using hdebt
    · rw [Function.update_of_ne heq]
  have hresults : ∀ other, (Function.update s.slots call slot other).fulfilled =
      (s.slots other).fulfilled := by
    intro other
    by_cases heq : other = call
    · subst heq
      simpa using hfulfilled
    · rw [Function.update_of_ne heq]
  exact {
    order := h.order
    once := h.once
    pushed := h.pushed
    flags := h.flags
    taken := h.taken
    held := fun engine work other hmem =>
      ⟨(h.held engine work other hmem).1, (hidle other).mpr (h.held engine work other hmem).2⟩
    heldOnce := h.heldOnce
    kept := fun engine work other hmem =>
      (h.kept engine work other hmem).imp_right fun hne hidle' => hne ((hidle other).mp hidle')
    unpaid := fun other hne => by
      obtain ⟨engine, work, hreturned, hproduces⟩ := h.unpaid other fun heq => hne ((hidle other).mpr heq)
      exact ⟨engine, work, hreturned, fun results hsome => hproduces results (hresults other ▸ hsome)⟩
    slots := fun other => by
      change PromiseSlot.Reachable (Function.update s.slots call slot other)
      by_cases heq : other = call
      · subst heq
        rw [Function.update_self]
        exact (h.slots other).tail ⟨action, hstep⟩
      · rw [Function.update_of_ne heq]
        exact h.slots other }

/-- An engine lets go of a debt that it holds, with a result or without. -/
theorem Sound.release (h : Sound engineFlags handles finishes s) {engine : Engine} {work : Work}
    {call : Nat} (before after : List (Work × Nat)) {slot : PromiseSlot.Slot Done W}
    (hheld : s.held engine = before ++ (work, call) :: after)
    (hstep : PromiseSlot.Step (s.slots call) slot) (hdebt : slot.debt ≠ .idle)
    (hproduces : ∀ results, slot.fulfilled = some results →
      Produces handles finishes engine work results)
    (hqueue : t.queue = s.queue) (hhistory : t.history = s.history)
    (hslots : t.slots = Function.update s.slots call slot) (hcalls : t.calls = s.calls)
    (hleft : t.held engine = before ++ after)
    (hothers : ∀ other, other ≠ engine → t.held other = s.held other) :
    Sound engineFlags handles finishes t := by
  have hmine : (work, call) ∈ s.held engine := by
    rw [hheld]
    exact List.mem_append_right _ List.mem_cons_self
  obtain ⟨hreturned, -⟩ := h.held engine work call hmine
  have honce : (before.map Prod.snd ++ call :: after.map Prod.snd).Nodup := by
    have hnodup := h.heldOnce engine
    rwa [hheld, List.map_append, List.map_cons] at hnodup
  -- nobody holds another debt of the call
  have hstill : ∀ other work' call', (work', call') ∈ t.held other →
      (work', call') ∈ s.held other ∧ call' ≠ call := by
    intro other work' call' hmem
    by_cases heq : other = engine
    · subst heq
      rw [hleft] at hmem
      rw [hheld]
      refine ⟨List.mem_append.mpr ((List.mem_append.mp hmem).imp_right (List.mem_cons_of_mem _)), ?_⟩
      rintro rfl
      have hcall : call' ∈ before.map Prod.snd ++ after.map Prod.snd := by
        rw [← List.map_append]
        exact List.mem_map.mpr ⟨_, hmem, rfl⟩
      exact (List.nodup_middle.mp honce).notMem hcall
    · rw [hothers other heq] at hmem
      refine ⟨hmem, ?_⟩
      rintro rfl
      exact heq (returned_unique h.order h.once (h.held other work' call' hmem).1 hreturned).1
  have hslot : ∀ other, other ≠ call → t.slots other = s.slots other := by
    intro other hne
    rw [hslots, Function.update_of_ne hne]
  have hcall : t.slots call = slot := by rw [hslots, Function.update_self]
  exact {
    order := by rw [hqueue, hhistory]; exact h.order
    once := by rw [hhistory]; exact h.once
    pushed := by rw [hhistory, hcalls]; exact h.pushed
    flags := by rw [hqueue]; exact h.flags
    taken := by rw [hhistory]; exact h.taken
    held := fun other work' call' hmem => by
      obtain ⟨hmem, hne⟩ := hstill other work' call' hmem
      rw [hhistory, hslot call' hne]
      exact h.held other work' call' hmem
    heldOnce := fun other => by
      by_cases heq : other = engine
      · subst heq
        rw [hleft, List.map_append]
        exact (List.nodup_middle.mp honce).of_cons
      · rw [hothers other heq]
        exact h.heldOnce other
    kept := fun other work' call' hmem => by
      rw [hhistory] at hmem
      by_cases heq : call' = call
      · subst heq
        rw [hcall]
        exact .inr hdebt
      · rw [hslot call' heq]
        refine (h.kept other work' call' hmem).imp_left fun hmem => ?_
        by_cases hengine : other = engine
        · subst hengine
          rw [hheld] at hmem
          rw [hleft]
          refine List.mem_append.mpr ((List.mem_append.mp hmem).imp_right fun hmem => ?_)
          refine (List.mem_cons.mp hmem).resolve_left fun heq' => ?_
          cases heq'
          exact heq rfl
        · rwa [hothers other hengine]
    unpaid := fun call' hne => by
      rw [hhistory]
      by_cases heq : call' = call
      · subst heq
        rw [hcall]
        exact ⟨engine, work, hreturned, hproduces⟩
      · rw [hslot call' heq] at hne ⊢
        exact h.unpaid call' hne
    slots := fun call' => by
      by_cases heq : call' = call
      · subst heq
        rw [hcall]
        exact (h.slots call').tail hstep
      · rw [hslot call' heq]
        exact h.slots call' }

theorem Sound.push (h : Sound engineFlags handles finishes s) {call : Nat} {flags : BitVec 32} {work : Work}
    (hcall : s.calls call = .promised flags work) {queue : WorkQueue Engine (Work × Nat)}
    (hstep : s.queue.step (.push ⟨flags, (work, call)⟩) = some queue) (hqueue : t.queue = queue)
    (hhistory : t.history = s.history ++ [.pushed ⟨flags, (work, call)⟩]) (hslots : t.slots = s.slots)
    (hcalls : t.calls = Function.update s.calls call (.pushed flags work)) (hheld : t.held = s.held) :
    Sound engineFlags handles finishes t := by
  have hnew : ∀ flags' work', .pushed ⟨flags', (work', call)⟩ ∉ s.history := by
    intro flags' work' hmem
    rw [h.pushed, hcall] at hmem
    cases hmem
  have hold : ∀ event ∈ t.history, event ∈ s.history ∨ event = .pushed ⟨flags, (work, call)⟩ := by
    intro event hmem
    rw [hhistory] at hmem
    exact (List.mem_append.mp hmem).imp_right List.mem_singleton.mp
  have hkeep : ∀ event ∈ s.history, event ∈ t.history := by
    intro event hmem
    rw [hhistory]
    exact List.mem_append_left _ hmem
  cases hstep
  exact {
    order := by rw [hqueue, hhistory]; exact h.order.push _
    once := by
      have heq : pushedCalls t.history = pushedCalls s.history ++ [call] := by
        rw [pushedCalls, hhistory, filterMap_concat, List.map_append]
        rfl
      rw [heq]
      refine List.nodup_append.mpr ⟨h.once, List.nodup_singleton _, ?_⟩
      intro other hother last hlast heq'
      rw [List.mem_singleton.mp hlast] at heq'
      subst heq'
      obtain ⟨element, helement, rfl⟩ := List.mem_map.mp hother
      obtain ⟨event, hevent, hpushed⟩ := List.mem_filterMap.mp helement
      cases event with
      | pushed other =>
        cases hpushed
        exact hnew _ _ hevent
      | taken _ _ _ => cases hpushed
      | returned _ _ => cases hpushed
    pushed := fun flags' work' other => by
      rw [hhistory, List.mem_append, h.pushed, hcalls]
      by_cases heq : other = call
      · subst heq
        rw [Function.update_self, hcall]
        simp [eq_comm]
      · rw [Function.update_of_ne heq]
        simp [heq]
    flags := by rw [hqueue]; exact h.flags
    taken := fun engine flags' element hmem => by
      rcases hold _ hmem with hmem | heq
      · exact h.taken engine flags' element hmem
      · cases heq
    held := fun engine work' other hmem => by
      rw [hheld] at hmem
      rw [hslots]
      exact (h.held engine work' other hmem).imp_left (hkeep _)
    heldOnce := by rw [hheld]; exact h.heldOnce
    kept := fun engine work' other hmem => by
      rcases hold _ hmem with hmem | heq
      · rw [hheld, hslots]
        exact h.kept engine work' other hmem
      · cases heq
    unpaid := fun other hne => by
      rw [hslots] at hne ⊢
      obtain ⟨engine, work', hreturned, hproduces⟩ := h.unpaid other hne
      exact ⟨engine, work', hkeep _ hreturned, hproduces⟩
    slots := by rw [hslots]; exact h.slots }

section Taking

variable {queue queue' : WorkQueue Engine (Work × Nat)} {engine : Engine}

/-- A step of a call on the queue moves one consumer, which keeps its flags. It takes work out of the
queue, or returns work that it carries, or does neither. -/
theorem advance_cases (hadvance : queue.advance engine = some queue') :
    (∀ other, other ≠ engine → queue'.consumers other = queue.consumers other) ∧
    (∀ flags, OwnFlags flags (queue.consumers engine) → OwnFlags flags (queue'.consumers engine)) ∧
    ((afterTake (queue'.consumers engine)).work = [] ∧
        (∀ event ∈ (queue.consumers engine).events queue engine, ∃ call flags ticket element,
          queue.consumers engine = .turn call flags ticket ∧ event = .taken engine flags element) ∨
      ∃ work call, (queue.consumers engine).carried = [(work, call)] ∧
        (queue.consumers engine).events queue engine = [.returned engine (work, call)] ∧
        afterTake (queue'.consumers engine) = .running work call) := by
  have hquiet : ∀ pc : Pc (Work × Nat), pc.events queue engine = [] →
      ∀ event ∈ pc.events queue engine, ∃ call flags ticket element,
        pc = .turn call flags ticket ∧ event = .taken engine flags element := by
    intro pc hnil event hmem
    rw [hnil] at hmem
    cases hmem
  have hmoves : ∀ pc : Pc (Work × Nat), ∀ other, other ≠ engine →
      Function.update queue.consumers engine pc other = queue.consumers other := by
    intro pc other hne
    rw [Function.update_of_ne hne]
  rw [WorkQueue.advance] at hadvance
  cases hpc : queue.consumers engine with
  | outside result =>
    rw [hpc] at hadvance
    cases hadvance
  | loaded flags queueHead =>
    simp only [hpc] at hadvance
    split at hadvance
    · cases hadvance
      refine ⟨hmoves _, fun flags' h => ?_, .inl ⟨?_, hquiet _ rfl⟩⟩
      · simpa [setConsumer, OwnFlags] using h
      · simp [setConsumer, afterTake, EnginePc.work]
    · cases hadvance
      refine ⟨hmoves _, fun flags' h => ?_, .inl ⟨?_, hquiet _ rfl⟩⟩
      · simp [setConsumer, OwnFlags]
      · simp [setConsumer, afterTake, EnginePc.work]
  | looping flags =>
    simp only [hpc] at hadvance
    cases hadvance
    refine ⟨hmoves _, fun flags' h => ?_, .inl ⟨?_, hquiet _ rfl⟩⟩
    · simpa [takeTicket, setConsumer, OwnFlags] using h
    · simp [takeTicket, setConsumer, afterTake, EnginePc.work]
  | spinning flags localTicket =>
    simp only [hpc] at hadvance
    split at hadvance
    · cases hadvance
      refine ⟨fun _ _ => rfl, fun flags' h => by rwa [hpc], .inl ⟨?_, hquiet _ rfl⟩⟩
      rw [hpc]
      rfl
    · cases hadvance
      refine ⟨hmoves _, fun flags' h => ?_, .inl ⟨?_, hquiet _ rfl⟩⟩
      · simpa [setConsumer, OwnFlags] using h
      · simp [setConsumer, afterTake, EnginePc.work]
  | turn call flags ticket =>
    simp only [hpc] at hadvance
    cases hadvance
    refine ⟨hmoves _, fun flags' h => ?_, .inl ⟨?_, fun event hmem => ?_⟩⟩
    · simpa [setConsumer, OwnFlags] using h
    · simp [setConsumer, afterTake, EnginePc.work]
    · rw [Pc.events] at hmem
      obtain ⟨element, -, rfl⟩ := Option.map_eq_some_iff.mp (Option.mem_toList.mp hmem)
      exact ⟨call, flags, ticket, element, rfl, rfl⟩
  | searched call flags ticket result =>
    simp only [hpc] at hadvance
    cases hadvance
    refine ⟨hmoves _, fun flags' h => ?_, ?_⟩
    · -- only a call that has found nothing and searches again keeps its flags
      have hflags : flags = flags' := h
      cases call <;> cases result <;> simp [setConsumer, Call.leave, OwnFlags, hflags]
    · cases result with
      | none =>
        refine .inl ⟨?_, hquiet _ rfl⟩
        cases call <;> simp [setConsumer, Call.leave, afterTake, EnginePc.work]
      | some work =>
        refine .inr ⟨work.1, work.2, rfl, rfl, ?_⟩
        cases call <;> simp [setConsumer, Call.leave, afterTake]

end Taking

theorem Sound.take (h : Sound engineFlags handles finishes s) (engine : Engine)
    (events : List (Event Engine (Work × Nat))) {queue : WorkQueue Engine (Work × Nat)}
    (horder : InOrder (s.history ++ events) queue)
    (hevents : ∀ event ∈ events, ∃ element, event = .taken engine (engineFlags engine) element)
    (hflags : ∀ other, OwnFlags (engineFlags other) (queue.consumers other)) (hqueue : t.queue = queue)
    (hhistory : t.history = s.history ++ events) (hslots : t.slots = s.slots) (hcalls : t.calls = s.calls)
    (hheld : t.held = s.held) : Sound engineFlags handles finishes t := by
  have hsame : ∀ event, (∀ element, event ≠ .taken engine (engineFlags engine) element) →
      (event ∈ t.history ↔ event ∈ s.history) := by
    intro event hne
    rw [hhistory, List.mem_append]
    refine or_iff_left fun hmem => ?_
    obtain ⟨element, heq⟩ := hevents event hmem
    exact hne element heq
  have hreturned : ∀ other work call, .returned other (work, call) ∈ t.history ↔
      .returned other (work, call) ∈ s.history :=
    fun other work call => hsame _ fun element heq => by cases heq
  have hpushed : ∀ element, .pushed element ∈ t.history ↔ .pushed element ∈ s.history :=
    fun element => hsame _ fun element heq => by cases heq
  exact {
    order := by rw [hqueue, hhistory]; exact horder
    once := by
      have hnone : events.filterMap Event.pushed? = [] := by
        refine List.filterMap_eq_nil_iff.mpr fun event hmem => ?_
        obtain ⟨element, rfl⟩ := hevents event hmem
        rfl
      rw [pushedCalls, hhistory, List.filterMap_append, hnone, List.append_nil]
      exact h.once
    pushed := fun flags work call => by
      rw [hpushed, hcalls]
      exact h.pushed flags work call
    flags := by rw [hqueue]; exact hflags
    taken := fun other flags element hmem => by
      rw [hhistory] at hmem
      rcases List.mem_append.mp hmem with hold | hnew
      · exact h.taken other flags element hold
      · obtain ⟨element', heq⟩ := hevents _ hnew
        cases heq
        rfl
    held := fun other work call hmem => by
      rw [hheld] at hmem
      rw [hreturned, hslots]
      exact h.held other work call hmem
    heldOnce := by rw [hheld]; exact h.heldOnce
    kept := fun other work call hmem => by
      rw [hheld, hslots]
      exact h.kept other work call ((hreturned _ _ _).mp hmem)
    unpaid := fun call hne => by
      rw [hslots] at hne ⊢
      obtain ⟨other, work, hmem, hproduces⟩ := h.unpaid call hne
      exact ⟨other, work, (hreturned _ _ _).mpr hmem, hproduces⟩
    slots := by rw [hslots]; exact h.slots }

theorem Sound.receive (h : Sound engineFlags handles finishes s) {engine : Engine} {work : Work} {call : Nat}
    {queue : WorkQueue Engine (Work × Nat)} (hcarried : (s.queue.consumers engine).carried = [(work, call)])
    (horder : InOrder (s.history ++ [.returned engine (work, call)]) queue)
    (hflags : ∀ other, OwnFlags (engineFlags other) (queue.consumers other)) (hqueue : t.queue = queue)
    (hhistory : t.history = s.history ++ [.returned engine (work, call)]) (hslots : t.slots = s.slots)
    (hcalls : t.calls = s.calls) (hmine : t.held engine = (work, call) :: s.held engine)
    (hothers : ∀ other, other ≠ engine → t.held other = s.held other) :
    Sound engineFlags handles finishes t := by
  have hnew : ∀ other work', .returned other (work', call) ∉ s.history :=
    fun other work' => carried_not_returned h.order h.once hcarried
  have hidle : (s.slots call).debt = .idle := by
    by_contra hne
    obtain ⟨other, work', hmem, -⟩ := h.unpaid call hne
    exact hnew other work' hmem
  have hcases : ∀ event, event ∈ t.history ↔
      event ∈ s.history ∨ event = .returned engine (work, call) := by
    intro event
    rw [hhistory, List.mem_append, List.mem_singleton]
  exact {
    order := by rw [hqueue, hhistory]; exact horder
    once := by
      rw [pushedCalls, hhistory, filterMap_concat]
      change (List.map _ (_ ++ [])).Nodup
      rw [List.append_nil]
      exact h.once
    pushed := fun flags work' other => by
      rw [hcases, hcalls, ← h.pushed]
      exact or_iff_left fun heq => by cases heq
    flags := by rw [hqueue]; exact hflags
    taken := fun other flags element hmem => by
      rcases (hcases _).mp hmem with hold | heq
      · exact h.taken other flags element hold
      · cases heq
    held := fun other work' call' hmem => by
      rw [hcases, hslots]
      by_cases heq : other = engine
      · subst heq
        rw [hmine] at hmem
        rcases List.mem_cons.mp hmem with hfirst | hold
        · cases hfirst
          exact ⟨.inr rfl, hidle⟩
        · exact (h.held other work' call' hold).imp_left .inl
      · rw [hothers other heq] at hmem
        exact (h.held other work' call' hmem).imp_left .inl
    heldOnce := fun other => by
      by_cases heq : other = engine
      · subst heq
        rw [hmine, List.map_cons]
        refine List.nodup_cons.mpr ⟨fun hmem => ?_, h.heldOnce other⟩
        obtain ⟨⟨work', call'⟩, hheld, hcall⟩ := List.mem_map.mp hmem
        cases hcall
        exact hnew other work' (h.held other work' _ hheld).1
      · rw [hothers other heq]
        exact h.heldOnce other
    kept := fun other work' call' hmem => by
      rw [hslots]
      rcases (hcases _).mp hmem with hold | heq
      · refine (h.kept other work' call' hold).imp_left fun hheld => ?_
        by_cases hengine : other = engine
        · subst hengine
          rw [hmine]
          exact List.mem_cons_of_mem _ hheld
        · rwa [hothers other hengine]
      · cases heq
        rw [hmine]
        exact .inl List.mem_cons_self
    unpaid := fun call' hne => by
      rw [hslots] at hne ⊢
      obtain ⟨other, work', hmem, hproduces⟩ := h.unpaid call' hne
      exact ⟨other, work', (hcases _).mpr (.inl hmem), hproduces⟩
    slots := by rw [hslots]; exact h.slots }

section Steps

variable {engine : Engine} {call : Nat} {pc : EnginePc Work}

theorem held_setEngine_self (s : WorkService Engine Work Done W) (engine : Engine) (pc : EnginePc Work) :
    (s.setEngine engine pc).held engine = pc.work ++ s.tasks engine := by
  simp [held, setEngine]

theorem held_setEngine_of_ne (s : WorkService Engine Work Done W) (pc : EnginePc Work) {other : Engine}
    (hne : other ≠ engine) : (s.setEngine engine pc).held other = s.held other := by
  simp [held, setEngine, hne]

theorem held_setEngine (hwork : pc.work = (s.engines engine).work) :
    (s.setEngine engine pc).held = s.held := by
  funext other
  by_cases heq : other = engine
  · subst heq
    rw [held_setEngine_self, hwork, held]
  · exact held_setEngine_of_ne s pc heq

omit [DecidableEq Engine] in
theorem setCall_pushed {pc : CallPc Work} (hold : ∀ flags work, s.calls call ≠ .pushed flags work)
    (hnew : ∀ flags work, pc ≠ .pushed flags work) (flags : BitVec 32) (work : Work) (other : Nat) :
    (s.setCall call pc).calls other = .pushed flags work ↔ s.calls other = .pushed flags work := by
  change Function.update s.calls call pc other = _ ↔ _
  by_cases heq : other = call
  · subst heq
    rw [Function.update_self]
    exact iff_of_false (hnew flags work) (hold flags work)
  · rw [Function.update_of_ne heq]

/-- A step of a queue that an engine's call has begun or goes on with moves its consumer only. -/
theorem ownFlags_of_update {queue : WorkQueue Engine (Work × Nat)}
    (h : Sound engineFlags handles finishes s)
    (hothers : ∀ other, other ≠ engine → queue.consumers other = s.queue.consumers other)
    (hmine : OwnFlags (engineFlags engine) (queue.consumers engine)) (other : Engine) :
    OwnFlags (engineFlags other) (queue.consumers other) := by
  by_cases heq : other = engine
  · subst heq
    exact hmine
  · rw [hothers other heq]
    exact h.flags other

theorem Sound.begin (h : Sound engineFlags handles finishes s)
    {action : WorkQueue.Action Engine (Work × Nat)}
    (hengine : s.engines engine = .ready) (hevents : WorkQueue.events s.queue action = [])
    (hbegun : ∀ queue, s.queue.step action = some queue →
      (∀ other, other ≠ engine → queue.consumers other = s.queue.consumers other) ∧
        OwnFlags (engineFlags engine) (queue.consumers engine))
    (hact : (s.onQueue action).map (·.setEngine engine .taking) = some t) :
    Sound engineFlags handles finishes t := by
  obtain ⟨u, hqueue, rfl⟩ := Option.map_eq_some_iff.mp hact
  obtain ⟨queue, hstep, rfl⟩ := Option.map_eq_some_iff.mp hqueue
  obtain ⟨hothers, hmine⟩ := hbegun queue hstep
  refine h.take engine [] ?_ (fun event hmem => absurd hmem List.not_mem_nil)
    (ownFlags_of_update h hothers hmine) rfl ?_ rfl rfl ?_
  · have horder := h.order.step hstep
    rwa [hevents] at horder
  · change s.history ++ WorkQueue.events s.queue action = _
    rw [hevents]
  · exact held_setEngine (by rw [show s.engines engine = .ready from hengine]; rfl)

theorem Sound.advance (h : Sound engineFlags handles finishes s) (hengine : s.engines engine = .taking)
    (hact : (s.onQueue (.advance engine)).map (fun t =>
      t.setEngine engine (afterTake (t.queue.consumers engine))) = some t) :
    Sound engineFlags handles finishes t := by
  obtain ⟨u, hqueue, rfl⟩ := Option.map_eq_some_iff.mp hact
  obtain ⟨queue, hstep, rfl⟩ := Option.map_eq_some_iff.mp hqueue
  have hadvance : s.queue.advance engine = some queue := hstep
  obtain ⟨hothers, hflags, hcases⟩ := advance_cases hadvance
  have hown := ownFlags_of_update h hothers (hflags _ (h.flags engine))
  rcases hcases with ⟨hwork, hevents⟩ | ⟨work, call, hcarried, hevents, hafter⟩
  · refine h.take engine _ (h.order.step hstep) (fun event hmem => ?_) hown rfl rfl rfl rfl ?_
    · obtain ⟨call, flags, ticket, element, hturn, rfl⟩ := hevents event hmem
      have heq := h.flags engine
      rw [hturn] at heq
      exact ⟨element, by rw [show flags = engineFlags engine from heq]⟩
    · exact held_setEngine (by rw [hwork, show s.engines engine = .taking from hengine]; rfl)
  · have horder := h.order.step hstep
    change InOrder (_ ++ (s.queue.consumers engine).events s.queue engine) queue at horder
    rw [hevents] at horder
    refine h.receive hcarried horder hown rfl ?_ rfl rfl ?_ fun other hne => held_setEngine_of_ne _ _ hne
    · change s.history ++ (s.queue.consumers engine).events s.queue engine = _
      rw [hevents]
    · rw [held_setEngine_self, hafter, WorkService.held, hengine]
      rfl

theorem Sound.releaseRunning (h : Sound engineFlags handles finishes s) {work : Work}
    {action : PromiseSlot.Action Done W} (hengine : s.engines engine = .running work call)
    (hpc : pc.work = []) (hslot : ∀ slot, PromiseSlot.step (s.slots call) action = some slot →
      slot.debt ≠ .idle ∧ ∀ results, slot.fulfilled = some results →
        Produces handles finishes engine work results)
    (hact : (s.onSlot call action).map (·.setEngine engine pc) = some t) :
    Sound engineFlags handles finishes t := by
  obtain ⟨u, honSlot, rfl⟩ := Option.map_eq_some_iff.mp hact
  obtain ⟨slot, hstep, rfl⟩ := Option.map_eq_some_iff.mp honSlot
  obtain ⟨hdebt, hproduces⟩ := hslot slot hstep
  refine h.release [] (s.tasks engine) ?_ ⟨action, hstep⟩ hdebt hproduces rfl rfl rfl
    rfl ?_ fun other hne => held_setEngine_of_ne _ _ hne
  · rw [WorkService.held, hengine]
    rfl
  · rw [held_setEngine_self, hpc]

theorem Sound.releaseTask (h : Sound engineFlags handles finishes s) {work : Work} {index : Nat}
    {action : PromiseSlot.Action Done W} (htask : (s.tasks engine)[index]? = some (work, call))
    (hslot : ∀ slot, PromiseSlot.step (s.slots call) action = some slot →
      slot.debt ≠ .idle ∧ ∀ results, slot.fulfilled = some results →
        Produces handles finishes engine work results)
    (hact : ((s.onSlot call action).map fun t => { t with
      tasks := Function.update t.tasks engine ((t.tasks engine).eraseIdx index) }) = some t) :
    Sound engineFlags handles finishes t := by
  obtain ⟨u, honSlot, rfl⟩ := Option.map_eq_some_iff.mp hact
  obtain ⟨slot, hstep, rfl⟩ := Option.map_eq_some_iff.mp honSlot
  obtain ⟨hdebt, hproduces⟩ := hslot slot hstep
  obtain ⟨hlt, hget⟩ := List.getElem?_eq_some_iff.mp htask
  refine h.release ((s.engines engine).work ++ (s.tasks engine).take index)
    ((s.tasks engine).drop (index + 1)) ?_ ⟨action, hstep⟩ hdebt hproduces rfl rfl rfl rfl ?_
    fun other hne => ?_
  · rw [WorkService.held, List.append_assoc, ← hget, List.getElem_cons_drop, List.take_append_drop]
  · simp [WorkService.held, List.eraseIdx_eq_take_drop_succ]
  · simp [WorkService.held, hne]

theorem not_fulfilled_of_idle (h : Sound engineFlags handles finishes s)
    (hidle : (s.slots call).debt = .idle) : (s.slots call).fulfilled = none := by
  have hexpected := (h.slots call).agree.sides.expected
  rwa [hidle] at hexpected

theorem Sound.dropped (h : Sound engineFlags handles finishes s) {work : Work}
    (slot : PromiseSlot.Slot Done W) (hstep : PromiseSlot.step (s.slots call) .dropDebt = some slot) :
    slot.debt ≠ .idle ∧ ∀ results, slot.fulfilled = some results →
      Produces handles finishes engine work results := by
  obtain ⟨hidle, hdebt, hfulfilled⟩ := step_dropDebt hstep
  refine ⟨hdebt, fun results hsome => ?_⟩
  rw [hfulfilled, not_fulfilled_of_idle h hidle] at hsome
  cases hsome

end Steps

/-- The tasks of an engine work on what it has spawned tasks for. -/
def Spawned (handles : Engine → Work → Handling Done → Prop) (s : WorkService Engine Work Done W) :
    Prop :=
  ∀ engine task, task ∈ s.tasks engine → handles engine task.1 .spawn

theorem Spawned.erase (h : Spawned handles s) {engine : Engine} {index : Nat}
    (htasks : t.tasks = Function.update s.tasks engine ((s.tasks engine).eraseIdx index)) :
    Spawned handles t := by
  intro other task hmem
  rw [htasks] at hmem
  by_cases heq : other = engine
  · subst heq
    rw [Function.update_self] at hmem
    exact h other task (List.mem_of_mem_eraseIdx hmem)
  · rw [Function.update_of_ne heq] at hmem
    exact h other task hmem

theorem spawned_step (h : Spawned handles s) (hstep : Step engineFlags handles finishes s t) :
    Spawned handles t := by
  obtain ⟨action, hallowed, hact⟩ := hstep
  have honSlot : ∀ {call : Nat} {action : PromiseSlot.Action Done W} {u : WorkService Engine Work Done W},
      s.onSlot call action = some u → u.tasks = s.tasks := by
    intro call action u hslot
    obtain ⟨slot, -, rfl⟩ := Option.map_eq_some_iff.mp hslot
    rfl
  have honQueue : ∀ {action : WorkQueue.Action Engine (Work × Nat)} {u : WorkService Engine Work Done W},
      s.onQueue action = some u → u.tasks = s.tasks := by
    intro action u hqueue
    obtain ⟨queue, -, rfl⟩ := Option.map_eq_some_iff.mp hqueue
    rfl
  have hkeep : t.tasks = s.tasks → Spawned handles t := by
    intro htasks
    rw [Spawned, htasks]
    exact h
  cases action with
  | handle engine handling =>
    simp only [act] at hact
    split at hact
    · next work call hengine =>
      cases handling with
      | reply results =>
        obtain ⟨u, hslot, rfl⟩ := Option.map_eq_some_iff.mp hact
        exact hkeep (show u.tasks = s.tasks from honSlot hslot)
      | last results =>
        simp only at hact
        split at hact
        · obtain ⟨u, hslot, rfl⟩ := Option.map_eq_some_iff.mp hact
          exact hkeep (show u.tasks = s.tasks from honSlot hslot)
        · cases hact
      | spawn =>
        cases hact
        intro other task hmem
        by_cases heq : other = engine
        · subst heq
          simp only [Function.update_self, List.mem_cons] at hmem
          rcases hmem with rfl | hold
          · exact hallowed work call hengine
          · exact h other task hold
        · simp only [Function.update_of_ne heq] at hmem
          exact h other task hmem
      | die =>
        obtain ⟨u, hslot, rfl⟩ := Option.map_eq_some_iff.mp hact
        exact hkeep (show u.tasks = s.tasks from honSlot hslot)
    · cases hact
  | finishTask engine index results =>
    simp only [act] at hact
    split at hact
    · obtain ⟨u, hslot, rfl⟩ := Option.map_eq_some_iff.mp hact
      exact h.erase (by rw [honSlot hslot])
    · cases hact
  | dropTask engine index =>
    simp only [act] at hact
    split at hact
    · obtain ⟨u, hslot, rfl⟩ := Option.map_eq_some_iff.mp hact
      exact h.erase (by rw [honSlot hslot])
    · cases hact
  | debt call => exact hkeep (honSlot hact)
  | promise call action =>
    simp only [act] at hact
    split at hact
    · split at hact
      · exact hkeep (honSlot hact)
      · cases hact
    · cases hact
  | paid engine =>
    simp only [act] at hact
    split at hact
    · split at hact
      · cases hact
        exact h
      · cases hact
    · cases hact
  | getPromise call flags work =>
    simp only [act] at hact
    split at hact
    · cases hact
      exact h
    · cases hact
  | noPromise call =>
    simp only [act] at hact
    split at hact
    · cases hact
      exact h
    · cases hact
  | push call =>
    simp only [act] at hact
    split at hact
    · obtain ⟨u, hqueue, rfl⟩ := Option.map_eq_some_iff.mp hact
      exact hkeep (show u.tasks = s.tasks from honQueue hqueue)
    · cases hact
  | getWork engine =>
    simp only [act] at hact
    split at hact
    · obtain ⟨u, hqueue, rfl⟩ := Option.map_eq_some_iff.mp hact
      exact hkeep (show u.tasks = s.tasks from honQueue hqueue)
    · cases hact
  | tryGetWork engine =>
    simp only [act] at hact
    split at hact
    · obtain ⟨u, hqueue, rfl⟩ := Option.map_eq_some_iff.mp hact
      exact hkeep (show u.tasks = s.tasks from honQueue hqueue)
    · cases hact
  | take engine =>
    simp only [act] at hact
    split at hact
    · obtain ⟨u, hqueue, rfl⟩ := Option.map_eq_some_iff.mp hact
      exact hkeep (show u.tasks = s.tasks from honQueue hqueue)
    · cases hact

theorem sound_step (h : Sound engineFlags handles finishes s) (hspawned : Spawned handles s)
    (hstep : Step engineFlags handles finishes s t) : Sound engineFlags handles finishes t := by
  obtain ⟨action, hallowed, hact⟩ := hstep
  cases action with
  | getPromise call flags work =>
    simp only [act] at hact
    split at hact
    · next hcall =>
      cases hact
      exact h.local rfl rfl rfl rfl (setCall_pushed (by simp [hcall]) (by simp))
    · cases hact
  | noPromise call =>
    simp only [act] at hact
    split at hact
    · next hcall =>
      cases hact
      exact h.local rfl rfl rfl rfl (setCall_pushed (by simp [hcall]) (by simp))
    · cases hact
  | push call =>
    simp only [act] at hact
    split at hact
    · next flags work hcall =>
      obtain ⟨u, hqueue, rfl⟩ := Option.map_eq_some_iff.mp hact
      obtain ⟨queue, hpush, rfl⟩ := Option.map_eq_some_iff.mp hqueue
      exact h.push hcall hpush rfl rfl rfl rfl rfl
    · cases hact
  | promise call action =>
    simp only [act] at hact
    split at hact
    · split at hact
      · next haction =>
        refine h.onSlot hact fun slot hslot => ?_
        obtain ⟨hdebt, hfulfilled⟩ := step_promise haction hslot
        exact ⟨by rw [hdebt], hfulfilled⟩
      · cases hact
    · cases hact
  | getWork engine =>
    simp only [act] at hact
    split at hact
    · next hengine =>
      refine h.begin hengine rfl (fun queue hqueue => ?_) hact
      rw [WorkQueue.step] at hqueue
      split at hqueue
      · cases hqueue
        exact ⟨fun other hne => Function.update_of_ne hne _ _,
          by simp [takeTicket, setConsumer, OwnFlags]⟩
      · cases hqueue
    · cases hact
  | tryGetWork engine =>
    simp only [act] at hact
    split at hact
    · next hengine =>
      refine h.begin hengine rfl (fun queue hqueue => ?_) hact
      rw [WorkQueue.step] at hqueue
      split at hqueue
      · cases hqueue
        exact ⟨fun other hne => Function.update_of_ne hne _ _, by simp [setConsumer, OwnFlags]⟩
      · cases hqueue
    · cases hact
  | take engine =>
    simp only [act] at hact
    split at hact
    · next hengine => exact h.advance hengine hact
    · cases hact
  | handle engine handling =>
    simp only [act] at hact
    split at hact
    · next work call hengine =>
      have hhandles : handles engine work handling := hallowed work call hengine
      cases handling with
      | reply results =>
        refine h.releaseRunning hengine rfl (fun slot hslot => ?_) hact
        obtain ⟨-, hdebt, hfulfilled⟩ := step_fulfill hslot
        refine ⟨hdebt, fun results' hsome => ?_⟩
        cases hfulfilled.symm.trans hsome
        exact .inl hhandles
      | last results =>
        simp only at hact
        split at hact
        · refine h.releaseRunning hengine rfl (fun slot hslot => ?_) hact
          obtain ⟨-, hdebt, hfulfilled⟩ := step_fulfill hslot
          refine ⟨hdebt, fun results' hsome => ?_⟩
          cases hfulfilled.symm.trans hsome
          exact .inr (.inl hhandles)
        · cases hact
      | spawn =>
        cases hact
        refine h.local rfl rfl rfl (funext fun other => ?_) fun _ _ _ => Iff.rfl
        by_cases heq : other = engine
        · subst heq
          simp [WorkService.held, setEngine, hengine, EnginePc.work]
        · simp [WorkService.held, setEngine, heq]
      | die => exact h.releaseRunning hengine rfl h.dropped hact
    · cases hact
  | debt call =>
    refine h.onSlot hact fun slot hslot => ?_
    obtain ⟨hold, hnew, hfulfilled⟩ := step_debt hslot
    exact ⟨iff_of_false hnew hold, hfulfilled⟩
  | paid engine =>
    simp only [act] at hact
    split at hact
    · next call last hengine =>
      split at hact
      · cases hact
        refine h.local rfl rfl rfl (held_setEngine ?_) fun _ _ _ => Iff.rfl
        rw [hengine]
        cases last <;> rfl
      · cases hact
    · cases hact
  | finishTask engine index results =>
    simp only [act] at hact
    split at hact
    · next work call htask =>
      refine h.releaseTask htask (fun slot hslot => ?_) hact
      obtain ⟨-, hdebt, hfulfilled⟩ := step_fulfill hslot
      refine ⟨hdebt, fun results' hsome => ?_⟩
      cases hfulfilled.symm.trans hsome
      exact .inr (.inr ⟨hspawned engine _ (List.mem_of_getElem? htask), hallowed work call htask⟩)
    · cases hact
  | dropTask engine index =>
    simp only [act] at hact
    split at hact
    · next work call htask => exact h.releaseTask htask h.dropped hact
    · cases hact

theorem sound_of_reaches (hreach : Reaches (Step engineFlags handles finishes) init s) :
    Sound engineFlags handles finishes s := by
  have h : Sound engineFlags handles finishes s ∧ Spawned handles s := by
    refine hreach.invariant (I := fun s => Sound engineFlags handles finishes s ∧ Spawned handles s)
      (fun s t hs hstep => ?_) ⟨sound_init, fun _ _ hmem => absurd hmem List.not_mem_nil⟩
    exact ⟨sound_step hs.1 hs.2 hstep, spawned_step hs.2 hstep⟩
  exact h.1

/-! ## What becomes of the work -/

/-- Where the debt of a call is. -/
inductive Place (Engine : Type) where
  | queue
  | carried (engine : Engine)
  | held (engine : Engine)
  | released

def At (s : WorkService Engine Work Done W) (flags : BitVec 32) (work : Work) (call : Nat) :
    Place Engine → Prop
  | .queue => ⟨flags, (work, call)⟩ ∈ s.queue.inner ∧ (s.slots call).debt = .idle
  | .carried engine => (s.queue.consumers engine).carried = [(work, call)] ∧ (s.slots call).debt = .idle
  | .held engine => (work, call) ∈ s.held engine ∧ (s.slots call).debt = .idle
  | .released => (s.slots call).debt ≠ .idle

theorem not_taken_of_queued {history : List (Event Engine (Work × Nat))}
    {queue : WorkQueue Engine (Work × Nat)} (h : InOrder history queue) (honce : (pushedCalls history).Nodup)
    {flags : BitVec 32} {work work' : Work} {call : Nat} {engine : Engine}
    (hqueued : ⟨flags, (work, call)⟩ ∈ queue.inner) :
    (engine, (work', call)) ∉ history.filterMap takenPair? := by
  intro htaken
  have hperm := (perm_of_inOrder h).map fun element => element.work.2
  have hnodup := hperm.nodup_iff.mpr honce
  rw [List.map_append, List.nodup_append] at hnodup
  refine hnodup.2.2 call ?_ call (List.mem_map.mpr ⟨_, hqueued, rfl⟩) rfl
  have hwork : (work', call) ∈ (history.filterMap Event.taken?).map QueueElement.work := by
    rw [← taken_eq]
    exact List.mem_map.mpr ⟨_, htaken, rfl⟩
  obtain ⟨element, helement, heq⟩ := List.mem_map.mp hwork
  exact List.mem_map.mpr ⟨element, helement, by rw [heq]⟩

theorem Sound.idle_of_not_returned (h : Sound engineFlags handles finishes s) {call : Nat}
    (hnot : ∀ engine work, .returned engine (work, call) ∉ s.history) : (s.slots call).debt = .idle := by
  by_contra hne
  obtain ⟨engine, work, hreturned, -⟩ := h.unpaid call hne
  exact hnot engine work hreturned

theorem Sound.exists_place (h : Sound engineFlags handles finishes s) {flags : BitVec 32} {work : Work}
    {call : Nat} (hcall : s.calls call = .pushed flags work) : ∃ place, At s flags work call place := by
  have hpushed : QueueElement.mk flags (work, call) ∈ s.history.filterMap Event.pushed? :=
    List.mem_filterMap.mpr ⟨_, (h.pushed flags work call).mpr hcall, rfl⟩
  rcases List.mem_append.mp ((perm_of_inOrder h.order).mem_iff.mpr hpushed) with htaken | hqueued
  · have hwork : (work, call) ∈ (s.history.filterMap Event.taken?).map QueueElement.work :=
      List.mem_map.mpr ⟨_, htaken, rfl⟩
    rw [← taken_eq] at hwork
    obtain ⟨⟨engine, work'⟩, hpair, heq⟩ := List.mem_map.mp hwork
    cases heq
    have hmine : (work, call) ∈ s.history.filterMap (Event.takenBy? engine) := by
      rw [takenBy_eq]
      exact List.mem_map.mpr ⟨_, List.mem_filter.mpr ⟨hpair, decide_eq_true rfl⟩, rfl⟩
    rw [h.order.delivered engine] at hmine
    rcases List.mem_append.mp hmine with hreturned | hcarried
    · obtain ⟨event, hevent, hwork⟩ := List.mem_filterMap.mp hreturned
      cases event with
      | pushed element => cases hwork
      | taken other flags' element => cases hwork
      | returned other work' =>
        obtain ⟨rfl, rfl⟩ : other = engine ∧ work' = (work, call) := by
          simpa [Event.returnedTo?] using hwork
        by_cases hidle : (s.slots call).debt = .idle
        · refine ⟨.held other, ?_, hidle⟩
          exact (h.kept other work call hevent).resolve_right fun hne => hne hidle
        · exact ⟨.released, hidle⟩
    · have hcarried : (s.queue.consumers engine).carried = [(work, call)] := by
        cases hpc : s.queue.consumers engine with
        | searched search flags' ticket result =>
          cases result with
          | none => simp [hpc, Pc.carried] at hcarried
          | some work' => simpa [hpc, Pc.carried, eq_comm] using hcarried
        | _ => simp [hpc, Pc.carried] at hcarried
      exact ⟨.carried engine, hcarried, h.idle_of_not_returned fun other work' =>
        carried_not_returned h.order h.once hcarried⟩
  · exact ⟨.queue, hqueued, h.idle_of_not_returned fun engine work' hreturned =>
      not_taken_of_queued h.order h.once hqueued (takenPair_of_returned h.order hreturned)⟩

theorem Sound.taken_of_at (h : Sound engineFlags handles finishes s) {flags : BitVec 32} {work : Work}
    {call : Nat} {engine : Engine}
    (hat : At s flags work call (.carried engine) ∨ At s flags work call (.held engine)) :
    (engine, (work, call)) ∈ s.history.filterMap takenPair? := by
  rcases hat with hcarried | hheld
  · exact takenPair_of_carried h.order hcarried.1
  · exact takenPair_of_returned h.order (h.held engine work call hheld.1).1

theorem Sound.place_unique (h : Sound engineFlags handles finishes s) {flags : BitVec 32} {work : Work}
    {call : Nat} {place other : Place Engine} (hat : At s flags work call place)
    (hother : At s flags work call other) : place = other := by
  have htwice : ∀ engine engine', (engine, (work, call)) ∈ s.history.filterMap takenPair? →
      (engine', (work, call)) ∈ s.history.filterMap takenPair? → engine = engine' := by
    intro engine engine' hmine hits
    cases List.inj_on_of_nodup_map (taken_nodup h.order h.once) hmine hits rfl
    rfl
  have hcarried : ∀ engine engine', At s flags work call (.carried engine) →
      ¬ At s flags work call (.held engine') := fun engine engine' hat hheld =>
    carried_not_returned h.order h.once hat.1 (h.held engine' work call hheld.1).1
  cases place with
  | queue =>
    cases other with
    | queue => rfl
    | carried engine => exact absurd (h.taken_of_at (.inl hother)) (not_taken_of_queued h.order h.once hat.1)
    | held engine => exact absurd (h.taken_of_at (.inr hother)) (not_taken_of_queued h.order h.once hat.1)
    | released => exact absurd hat.2 hother
  | carried engine =>
    cases other with
    | queue => exact absurd (h.taken_of_at (.inl hat)) (not_taken_of_queued h.order h.once hother.1)
    | carried engine' => rw [htwice engine engine' (h.taken_of_at (.inl hat)) (h.taken_of_at (.inl hother))]
    | held engine' => exact absurd hother (hcarried engine engine' hat)
    | released => exact absurd hat.2 hother
  | held engine =>
    cases other with
    | queue => exact absurd (h.taken_of_at (.inr hat)) (not_taken_of_queued h.order h.once hother.1)
    | carried engine' => exact absurd hat (hcarried engine' engine hother)
    | held engine' => rw [htwice engine engine' (h.taken_of_at (.inr hat)) (h.taken_of_at (.inr hother))]
    | released => exact absurd hat.2 hother
  | released =>
    cases other with
    | released => rfl
    | queue => exact absurd hother.2 hat
    | carried engine => exact absurd hother.2 hat
    | held engine => exact absurd hother.2 hat

/-- The results of a call are those of one engine, which has the flags for it. -/
theorem Sound.result (h : Sound engineFlags handles finishes s) {call : Nat}
    {results : Except DandelionError Done} (hready : (s.slots call).ready.getLast? = some results) :
    ∃ engine flags work, s.calls call = .pushed flags work ∧
      matchesFlags (engineFlags engine) (QueueElement.mk flags (work, call)) = true ∧
      .returned engine (work, call) ∈ s.history ∧ Produces handles finishes engine work results := by
  have hagree := (h.slots call).agree
  have hfulfilled := hagree.contents.returned results hready
  have hpaid : (s.slots call).debt ≠ .idle := by
    intro hidle
    rw [not_fulfilled_of_idle h hidle] at hfulfilled
    cases hfulfilled
  obtain ⟨engine, work, hreturned, hproduces⟩ := h.unpaid call hpaid
  obtain ⟨event, htaken, hpair⟩ := List.mem_filterMap.mp (takenPair_of_returned h.order hreturned)
  cases event with
  | pushed element => cases hpair
  | returned other work' => cases hpair
  | taken other flags element =>
    obtain ⟨elementFlags, work', call'⟩ := element
    cases hpair
    have hpushed : QueueElement.mk elementFlags (work, call) ∈ s.history.filterMap Event.pushed? :=
      (perm_of_inOrder h.order).mem_iff.mp
        (List.mem_append_left _ (List.mem_filterMap.mpr ⟨_, htaken, rfl⟩))
    obtain ⟨event, hevent, heq⟩ := List.mem_filterMap.mp hpushed
    cases event with
    | taken other' flags' element' => cases heq
    | returned other' work' => cases heq
    | pushed other' =>
      cases heq
      refine ⟨engine, elementFlags, work, (h.pushed _ _ _).mp hevent, ?_, hreturned,
        hproduces results hfulfilled⟩
      rw [← h.taken _ _ _ htaken]
      exact h.order.allowed _ _ _ htaken

/-- In every reachable state, what the promise of a call has returned first was made of the call's work
by one engine with all its flags among those of the call, and to no other engine did the work go. -/
theorem result_of_call (hreach : Reaches (Step engineFlags handles finishes) init s) {call : Nat}
    {results : Except DandelionError Done} (hready : (s.slots call).ready.getLast? = some results) :
    ∃ engine flags work, s.calls call = .pushed flags work ∧
      flags &&& engineFlags engine = engineFlags engine ∧ Produces handles finishes engine work results ∧
      ∀ other work', .returned other (work', call) ∈ s.history → other = engine ∧ work' = work := by
  have h := sound_of_reaches hreach
  obtain ⟨engine, flags, work, hcall, hmatches, hreturned, hproduces⟩ := h.result hready
  refine ⟨engine, flags, work, hcall, eq_of_beq hmatches, hproduces, fun other work' hother => ?_⟩
  exact returned_unique h.order h.once hother hreturned

/-- In every reachable state, the debt of a call whose work was pushed is in one place: it waits in the
queue, or one consumer carries it, or one engine has it in its hands, or it is fulfilled or dropped. -/
theorem work_in_one_place (hreach : Reaches (Step engineFlags handles finishes) init s) {call : Nat}
    {flags : BitVec 32} {work : Work} (hcall : s.calls call = .pushed flags work) :
    ∃! place, At s flags work call place := by
  have h := sound_of_reaches hreach
  obtain ⟨place, hat⟩ := h.exists_place hcall
  exact ⟨place, hat, fun other hother => h.place_unique hother hat⟩

end Runs

/-! ## A call that is served -/

section Serving

open PromiseSlot (debtStep promiseStep)

variable [DecidableEq Engine] {engineFlags : Engine → BitVec 32}
  {handles : Engine → Work → Handling Done → Prop}
  {finishes : Engine → Work → Except DandelionError Done → Prop}

theorem reaches_of_run_allowed {s t : WorkService Engine Work Done W}
    {actions : List (Action Engine Work Done W)}
    (hallowed : ∀ s action, action ∈ actions → Allowed handles finishes s action)
    (hrun : run (act engineFlags) s actions = some t) :
    Reaches (Step engineFlags handles finishes) s t := by
  induction actions generalizing s with
  | nil =>
    cases hrun
    exact .refl _
  | cons action actions ih =>
    obtain ⟨u, hact, hrest⟩ := Option.bind_eq_some_iff.mp hrun
    refine Relation.ReflTransGen.head ⟨action, hallowed s action List.mem_cons_self, hact⟩ ?_
    exact ih (fun s action hmem => hallowed s action (List.mem_cons_of_mem _ hmem)) hrest

/-- The work of a call is pushed, and taken by an engine. -/
def takeActions (engine : Engine) (call : Nat) (flags : BitVec 32) (work : Work) :
    List (Action Engine Work Done W) :=
  [.getPromise call flags work, .push call, .getWork engine, .take engine, .take engine, .take engine]

/-- The content of the slot is set, and the client polls its promise. -/
def pollActions (call : Nat) (waker : W) : List (Action Engine Work Done W) :=
  [.debt call, .debt call, .promise call (.poll waker), .promise call .promise, .promise call .promise,
    .promise call .promise]

variable {engine : Engine} {call : Nat} {flags : BitVec 32} {work : Work}
  {results : Except DandelionError Done}

theorem run_takeActions
    (hmatches : matchesFlags (engineFlags engine) (QueueElement.mk flags (work, call)) = true) :
    ∃ s : WorkService Engine Work Done W,
      run (act engineFlags) init (takeActions engine call flags work) = some s ∧
      s.engines engine = .running work call ∧ s.slots call = PromiseSlot.initial ∧
      s.calls call = .pushed flags work := by
  simp [run, takeActions, act, setCall, onQueue, init, WorkQueue.step, WorkQueue.init, setEngine,
    WorkQueue.advance, takeTicket, setConsumer, hmatches, Call.leave, afterTake]

theorem run_pollActions (waker : W) {s : WorkService Engine Work Done W} {slot : PromiseSlot.Slot Done W}
    (hslot : PromiseSlot.step PromiseSlot.initial (.fulfill results) = some slot)
    (hs : s.slots call = slot) (hcall : s.calls call = .pushed flags work) :
    ∃ t : WorkService Engine Work Done W, run (act engineFlags) s (pollActions call waker) = some t ∧
      t.calls call = .pushed flags work ∧ (t.slots call).ready = [results] := by
  cases hslot
  simp [run, pollActions, act, onSlot, hs, hcall, PromiseSlot.step, debtStep, promiseStep,
    isPromiseAction, PromiseSlot.currentFlags, PromiseSlot.initial]

variable (engineFlags handles finishes engine) in
/-- An engine with the flags of the first call can reply to it with any of its results. -/
theorem exists_served (waker : W)
    (hmatches : matchesFlags (engineFlags engine) (QueueElement.mk flags (work, call)) = true)
    (hhandles : handles engine work (.reply results)) :
    ∃ s : WorkService Engine Work Done W, Reaches (Step engineFlags handles finishes) init s ∧
      s.calls call = .pushed flags work ∧ (s.slots call).ready.getLast? = some results := by
  obtain ⟨s, hs, hrunning, hinitial, hcall⟩ :
      ∃ s : WorkService Engine Work Done W, _ := run_takeActions hmatches
  obtain ⟨slot, hslot⟩ : ∃ slot, PromiseSlot.step (s.slots call) (.fulfill results) = some slot := by
    rw [hinitial]
    exact ⟨_, rfl⟩
  have hhandle : act engineFlags s (.handle engine (.reply results)) =
      some (({ s with slots := Function.update s.slots call slot } : WorkService Engine Work Done W).setEngine
        engine (.paying call false)) := by
    simp [act, hrunning, onSlot, hslot]
  obtain ⟨t, ht, hcall', hready⟩ := run_pollActions waker (hinitial ▸ hslot)
    (show ((({ s with slots := Function.update s.slots call slot } : WorkService Engine Work Done W).setEngine
      engine (.paying call false)).slots call) = slot from Function.update_self _ _ _) hcall
  refine ⟨t, ?_, hcall', by simp [hready]⟩
  have hallowed : ∀ (s : WorkService Engine Work Done W) action,
      action ∈ takeActions engine call flags work → Allowed handles finishes s action := by
    intro s action hmem
    simp only [takeActions, List.mem_cons, List.not_mem_nil, or_false] at hmem
    rcases hmem with rfl | rfl | rfl | rfl | rfl | rfl <;> trivial
  have hpolls : ∀ (s : WorkService Engine Work Done W) action,
      action ∈ pollActions call waker → Allowed handles finishes s action := by
    intro s action hmem
    simp only [pollActions, List.mem_cons, List.not_mem_nil, or_false] at hmem
    rcases hmem with rfl | rfl | rfl | rfl | rfl | rfl <;> trivial
  refine Relation.ReflTransGen.trans ((reaches_of_run_allowed hallowed hs).tail ⟨_, ?_, hhandle⟩)
    (reaches_of_run_allowed hpolls ht)
  intro work' call' heq
  cases hrunning.symm.trans heq
  exact hhandles

end Serving

section Example

/-- The one engine has one answer. -/
def Answers (_ : Unit) (_ : Nat) (handling : Handling Nat) : Prop :=
  handling = .reply (.ok 42)

def NoTask (_ : Unit) (_ : Nat) (_ : Except DandelionError Nat) : Prop := False

theorem answers_match : matchesFlags ((fun _ : Unit => 1) ()) (QueueElement.mk 1 (21, 0)) = true := rfl

/-- The client gets the answer, from the one engine that its work went to. -/
theorem answer_of_call : ∃ s : WorkService Unit Nat Nat Unit,
    (s.slots 0).ready.getLast? = some (.ok 42) ∧
      ∃ engine flags work, s.calls 0 = .pushed flags work ∧ flags &&& 1 = 1 ∧
        Produces Answers NoTask engine work (.ok 42) ∧
        ∀ other work', .returned other (work', 0) ∈ s.history → other = engine ∧ work' = work := by
  obtain ⟨s, hreach, -, hready⟩ := exists_served (fun _ => 1) Answers NoTask () () answers_match rfl
  exact ⟨s, hready, result_of_call hreach hready⟩

/-- The debt of the answer is in one place. -/
theorem answer_in_one_place : ∃ s : WorkService Unit Nat Nat Unit,
    s.calls 0 = .pushed 1 21 ∧ ∃! place, At s 1 21 0 place := by
  obtain ⟨s, hreach, hcall, -⟩ := exists_served (fun _ => 1) Answers NoTask () () answers_match rfl
  exact ⟨s, hcall, work_in_one_place hreach hcall⟩

end Example

end WorkService

end Dandelion
