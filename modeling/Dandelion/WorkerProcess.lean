import Dandelion.Transitions
import Mathlib.Data.BitVec

/-!
# The process of a function

A function of the process backend runs in a worker process that its engine traces: the worker stops
before and behind every system call and at every signal, and goes on only when the engine lets it.
The code of the worker is untrusted, so whatever it may do between two stops is a step here, and so
are signals and kills from outside. A stop before a call, one behind it and one for a trap all look
alike to the engine.

The kernel keeps a worker at its stop only for as long as the thread of its engine lives. When that
thread ends, by a panic in this run or a later one or because the engine is shut down, the worker is
detached and goes on with nobody watching.
-/

namespace Dandelion.Mmu

open Transitions

inductive SyscallType where
  | exit
  | authorized
  | unauthorized (syscallId : Int)
deriving DecidableEq, Repr

def sysExit : Int := 60

def sysExitGroup : Int := 231

def sysArchPrctl : Int := 158

def checkSyscall (origRax : BitVec 64) : SyscallType :=
  let syscallId := origRax.toInt
  if syscallId = sysExit ∨ syscallId = sysExitGroup then .exit
  else if syscallId = sysArchPrctl then .authorized
  else .unauthorized syscallId

inductive Signal where
  | sigstop
  | sigtrap
  | sigsegv
  | other (number : Nat)
deriving DecidableEq, Repr

inductive WorkerError where
  | mmuWorkerError
  | unauthorizedSyscall
  | segmentationFault
  | otherProctionError
deriving DecidableEq, Repr

inductive Worker where
  | running
  | calling (call : BitVec 64)
  | entering (call : BitVec 64)
  | leaving (call : BitVec 64)
  | signalled (signal : Signal) (origRax : BitVec 64)
  | exited (code : Option Int)
deriving DecidableEq, Repr

def Worker.stop? : Worker → Option (Signal × BitVec 64)
  | .entering call | .leaving call => some (.sigtrap, call)
  | .signalled signal origRax => some (signal, origRax)
  | _ => none

/-- The thread of the engine: before the first `waitpid`, in the loop, at the `wait` for the end of the
worker, or behind `mmu_run_static`. -/
inductive Tracer where
  | starting
  | waiting
  | ending
  | returned (result : Except WorkerError Unit)
  | panicked
  | gone
deriving DecidableEq

structure ProcessRun where
  worker : Worker
  tracer : Tracer
  calls : List (BitVec 64)
deriving DecidableEq

def started (signal : Signal) (origRax : BitVec 64) (calls : List (BitVec 64)) : ProcessRun :=
  ⟨.signalled signal origRax, .starting, calls⟩

inductive Action where
  | call (call : BitVec 64)
  | signal (signal : Signal) (origRax : BitVec 64)
  | leave
  | exit (code : Int)
  | killed
  /-- `waitpid` returns to the engine, whose `kill` may fail -/
  | wait (kills : Bool)
  | waitFails
  | threadEnds
  /-- a worker that nobody traces does not stay at a stop -/
  | goOn
deriving DecidableEq, Repr

variable (debugLog : Bool)

def goOn? (s : ProcessRun) (tracer : Tracer) : Option ProcessRun :=
  match s.worker with
  | .entering call => some ⟨.calling call, tracer, s.calls ++ [call]⟩
  | .leaving _ | .signalled _ _ => some ⟨.running, tracer, s.calls⟩
  | .running | .calling _ | .exited _ => none

/-- `ptrace_syscall`, whose result is asserted: it fails when there is nobody to let go on. -/
def ptraceSyscall (s : ProcessRun) (tracer : Tracer) : ProcessRun :=
  (goOn? s tracer).getD { s with tracer := .panicked }

def kill (s : ProcessRun) (kills : Bool) (tracer : Tracer) : ProcessRun :=
  if kills then ⟨.exited none, tracer, s.calls⟩
  else { s with tracer := .returned (.error .mmuWorkerError) }

def onStatus (s : ProcessRun) (kills : Bool) : ProcessRun :=
  match s.tracer, s.worker.stop? with
  | .starting, some (.sigstop, _) => ptraceSyscall s .waiting
  -- the worker is killed, and `ptrace_syscall` fails for it
  | .starting, _ => kill s kills .panicked
  | .waiting, some (.sigtrap, origRax) =>
    match checkSyscall origRax with
    | .exit => ptraceSyscall s .ending
    | .authorized => ptraceSyscall s .waiting
    | .unauthorized _ => kill s kills (.returned (.error .unauthorizedSyscall))
  | .waiting, some (.sigsegv, _) => { s with tracer := .returned (.error .segmentationFault) }
  | .waiting, some _ => { s with tracer := .returned (.error .otherProctionError) }
  | .waiting, none => { s with tracer := .panicked }
  | .ending, _ =>
    match s.worker with
    | .exited (some _) => { s with tracer := .returned (.ok ()) }
    -- the exit code is only unwrapped for the log
    | _ => { s with tracer := if debugLog then .panicked else .returned (.ok ()) }
  | .returned _, _ | .panicked, _ | .gone, _ => s

/-- One step. Outside of a call its register holds -1, or the number of an earlier call. -/
def act (s : ProcessRun) : Action → Option ProcessRun
  | .call call => if s.worker = .running then some { s with worker := .entering call } else none
  | .signal signal origRax =>
    if s.worker = .running ∧ (origRax = -1 ∨ origRax ∈ s.calls) then
      some { s with worker := .signalled signal origRax }
    else none
  | .leave =>
    match s.worker with
    -- with the number of an exit too: in the other calling convention it is that of another call
    | .calling call => some { s with worker := .leaving call }
    | _ => none
  | .exit code =>
    match s.worker with
    | .calling call =>
      if checkSyscall call = .exit then some { s with worker := .exited (some code) } else none
    | _ => none
  | .killed =>
    match s.worker with
    | .exited _ => none
    | _ => some { s with worker := .exited none }
  | .wait kills =>
    match s.worker with
    | .running | .calling _ => none
    | _ =>
      match s.tracer with
      | .returned _ | .panicked | .gone => none
      | _ => some (onStatus debugLog s kills)
  | .waitFails =>
    match s.tracer with
    | .returned _ | .panicked | .gone => none
    | _ => some { s with tracer := .returned (.error .mmuWorkerError) }
  -- neither the thread nor the worker asks the kernel to kill the worker with it
  | .threadEnds => if s.tracer = .gone then none else some { s with tracer := .gone }
  | .goOn => if s.tracer = .gone then goOn? s .gone else none

section Runs

variable {debugLog : Bool} {s t : ProcessRun} {before : List (BitVec 64)}

def Worker.Runs : Worker → Prop
  | .running | .calling _ => True
  | _ => False

/-- The calls since the start are authorized. An exit may be the last one: then the engine does not
let the worker go on any more, and only then it may report a success. -/
inductive Mediated (before : List (BitVec 64)) (tracer : Tracer) (calls : List (BitVec 64)) : Prop
  | authorized {new : List (BitVec 64)} (hcalls : calls = before ++ new)
      (hauthorized : ∀ call ∈ new, checkSyscall call = .authorized)
      (htracer : tracer ≠ .ending ∧ tracer ≠ .returned (.ok ()))
  | exit {new : List (BitVec 64)} {last : BitVec 64} (hcalls : calls = before ++ (new ++ [last]))
      (hauthorized : ∀ call ∈ new, checkSyscall call = .authorized)
      (hlast : checkSyscall last = .exit) (htracer : tracer ≠ .starting ∧ tracer ≠ .waiting)

def Worker.register? : Worker → Option (BitVec 64)
  | .calling call | .leaving call | .signalled _ call => some call
  | _ => none

/-- While the engine waits for the next stop, the register is from a call that was made. -/
def Registered (s : ProcessRun) : Prop :=
  s.tracer = .waiting → ∀ call, s.worker.register? = some call → call = -1 ∨ call ∈ s.calls

theorem Mediated.tracer {tracer tracer' : Tracer} {calls : List (BitVec 64)}
    (h : Mediated before tracer calls) (hend : tracer' ≠ .ending ∧ tracer' ≠ .returned (.ok ()))
    (hstart : tracer' ≠ .starting ∧ tracer' ≠ .waiting) : Mediated before tracer' calls := by
  cases h with
  | authorized hcalls hauthorized _ => exact .authorized hcalls hauthorized hend
  | exit hcalls hauthorized hlast _ => exact .exit hcalls hauthorized hlast hstart

theorem Mediated.not_exit {tracer : Tracer} {calls : List (BitVec 64)}
    (h : Mediated before tracer calls) (hbefore : ∀ call ∈ before, checkSyscall call ≠ .exit)
    (hwaiting : tracer = .waiting) {call : BitVec 64} (hcall : call = -1 ∨ call ∈ calls) :
    checkSyscall call ≠ .exit := by
  rcases hcall with rfl | hmem
  · decide
  · cases h with
    | authorized hcalls hauthorized _ =>
      rw [hcalls, List.mem_append] at hmem
      rcases hmem with hold | hnew
      · exact hbefore call hold
      · simp [hauthorized call hnew]
    | exit _ _ _ htracer => exact absurd hwaiting htracer.2

theorem Mediated.append {calls : List (BitVec 64)} (h : Mediated before .waiting calls)
    {call : BitVec 64} (hcall : checkSyscall call = .authorized) :
    Mediated before .waiting (calls ++ [call]) := by
  cases h with
  | authorized hcalls hauthorized htracer =>
    refine .authorized (by rw [hcalls, List.append_assoc]) (fun other hother => ?_) htracer
    rcases List.mem_append.mp hother with hold | hnew
    · exact hauthorized other hold
    · rw [List.mem_singleton.mp hnew, hcall]
  | exit _ _ _ htracer => exact absurd rfl htracer.2

theorem Mediated.ending {calls : List (BitVec 64)} (h : Mediated before .waiting calls)
    {call : BitVec 64} (hcall : checkSyscall call = .exit) : Mediated before .ending (calls ++ [call]) := by
  cases h with
  | authorized hcalls hauthorized _ =>
    exact .exit (by rw [hcalls, List.append_assoc]) hauthorized hcall (by simp)
  | exit _ _ _ htracer => exact absurd rfl htracer.2

structure Watched (before : List (BitVec 64)) (s : ProcessRun) : Prop where
  calls : Mediated before s.tracer s.calls
  registered : Registered s
  started : s.tracer = .starting → ¬ s.worker.Runs ∧ ∀ call, s.worker ≠ .entering call

theorem Watched.trap (h : Watched before s) (hbefore : ∀ call ∈ before, checkSyscall call ≠ .exit)
    (hwaiting : s.tracer = .waiting) {signal : Signal} {origRax : BitVec 64}
    (hstop : s.worker.stop? = some (signal, origRax)) :
    (checkSyscall origRax = .exit → Watched before (ptraceSyscall s .ending)) ∧
      (checkSyscall origRax = .authorized → Watched before (ptraceSyscall s .waiting)) := by
  have hcalls := h.calls
  rw [hwaiting] at hcalls
  cases hworker : s.worker with
  | entering call =>
    rw [hworker] at hstop
    cases hstop
    refine ⟨fun hexit => ⟨?_, ?_, ?_⟩, fun hauthorized => ⟨?_, ?_, ?_⟩⟩
    · simpa [ptraceSyscall, goOn?, hworker] using hcalls.ending hexit
    · simp [Registered, ptraceSyscall, goOn?, hworker, Worker.register?]
    · simp [ptraceSyscall, goOn?, hworker]
    · simpa [ptraceSyscall, goOn?, hworker] using hcalls.append hauthorized
    · simp [Registered, ptraceSyscall, goOn?, hworker, Worker.register?]
    · simp [ptraceSyscall, goOn?, hworker]
  | leaving call =>
    rw [hworker] at hstop
    cases hstop
    have hknown := h.registered hwaiting origRax (by rw [hworker]; rfl)
    refine ⟨fun hexit => absurd hexit (h.calls.not_exit hbefore hwaiting hknown),
      fun _ => ⟨?_, ?_, ?_⟩⟩
    · simpa [ptraceSyscall, goOn?, hworker] using hcalls
    · simp [Registered, ptraceSyscall, goOn?, hworker, Worker.register?]
    · simp [ptraceSyscall, goOn?, hworker]
  | signalled signal' call =>
    rw [hworker] at hstop
    cases hstop
    have hknown := h.registered hwaiting origRax (by rw [hworker]; rfl)
    refine ⟨fun hexit => absurd hexit (h.calls.not_exit hbefore hwaiting hknown),
      fun _ => ⟨?_, ?_, ?_⟩⟩
    · simpa [ptraceSyscall, goOn?, hworker] using hcalls
    · simp [Registered, ptraceSyscall, goOn?, hworker, Worker.register?]
    · simp [ptraceSyscall, goOn?, hworker]
  | running => simp [hworker, Worker.stop?] at hstop
  | calling call => simp [hworker, Worker.stop?] at hstop
  | exited code => simp [hworker, Worker.stop?] at hstop

theorem Watched.ended (h : Watched before s) {worker : Worker} {tracer : Tracer}
    (hend : tracer ≠ .ending ∧ tracer ≠ .returned (.ok ()))
    (hstart : tracer ≠ .starting ∧ tracer ≠ .waiting) :
    Watched before ⟨worker, tracer, s.calls⟩ where
  calls := h.calls.tracer hend hstart
  registered hwaiting := absurd hwaiting hstart.2
  started hstarting := absurd hstarting hstart.1

theorem Watched.kill (h : Watched before s) (kills : Bool) {tracer : Tracer}
    (hend : tracer ≠ .ending ∧ tracer ≠ .returned (.ok ()))
    (hstart : tracer ≠ .starting ∧ tracer ≠ .waiting) : Watched before (kill s kills tracer) := by
  rw [Mmu.kill]
  split
  · exact h.ended hend hstart
  · exact h.ended (by simp) (by simp)

theorem Watched.start (h : Watched before s) (hstarting : s.tracer = .starting) {origRax : BitVec 64}
    (hstop : s.worker.stop? = some (.sigstop, origRax)) : Watched before (ptraceSyscall s .waiting) := by
  have hcalls := h.calls
  rw [hstarting] at hcalls
  cases hworker : s.worker with
  | signalled signal call =>
    refine ⟨?_, by simp [Registered, ptraceSyscall, goOn?, hworker, Worker.register?],
      by simp [ptraceSyscall, goOn?, hworker]⟩
    cases hcalls with
    | authorized hnew hauthorized _ =>
      exact .authorized (by simpa [ptraceSyscall, goOn?, hworker] using hnew) hauthorized
        (by simp [ptraceSyscall, goOn?, hworker])
    | exit _ _ _ htracer => exact absurd rfl htracer.1
  | _ => simp [hworker, Worker.stop?] at hstop

theorem Watched.onStatus (h : Watched before s) (hbefore : ∀ call ∈ before, checkSyscall call ≠ .exit)
    (kills : Bool) : Watched before (onStatus debugLog s kills) := by
  cases htracer : s.tracer with
  | starting =>
    cases hstop : s.worker.stop? with
    | none =>
      simp only [Mmu.onStatus, htracer, hstop]
      exact h.kill kills (by simp) (by simp)
    | some stop =>
      obtain ⟨signal, origRax⟩ := stop
      cases signal with
      | sigstop =>
        simp only [Mmu.onStatus, htracer, hstop]
        exact h.start htracer hstop
      | _ =>
        simp only [Mmu.onStatus, htracer, hstop]
        exact h.kill kills (by simp) (by simp)
  | waiting =>
    cases hstop : s.worker.stop? with
    | none =>
      simp only [Mmu.onStatus, htracer, hstop]
      exact h.ended (by simp) (by simp)
    | some stop =>
      obtain ⟨signal, origRax⟩ := stop
      have htrap := h.trap hbefore htracer hstop
      cases signal with
      | sigtrap =>
        cases hcheck : checkSyscall origRax with
        | exit =>
          simp only [Mmu.onStatus, htracer, hstop, hcheck]
          exact htrap.1 hcheck
        | authorized =>
          simp only [Mmu.onStatus, htracer, hstop, hcheck]
          exact htrap.2 hcheck
        | unauthorized syscallId =>
          simp only [Mmu.onStatus, htracer, hstop, hcheck]
          exact h.kill kills (by simp) (by simp)
      | _ =>
        simp only [Mmu.onStatus, htracer, hstop]
        exact h.ended (by simp) (by simp)
  | ending =>
    have hcalls := h.calls
    rw [htracer] at hcalls
    cases hcalls with
    | authorized _ _ hending => exact absurd rfl hending.1
    | exit hcalls hauthorized hlast _ =>
      have hdone : ∀ tracer : Tracer, tracer = .panicked ∨ tracer = .returned (.ok ()) →
          Watched before { s with tracer } := by
        rintro tracer (rfl | rfl) <;>
          exact ⟨.exit hcalls hauthorized hlast (by simp), by simp [Registered], by simp⟩
      simp only [Mmu.onStatus, htracer]
      split
      · exact hdone _ (.inr rfl)
      · cases debugLog with
        | true => exact hdone _ (.inl rfl)
        | false => exact hdone _ (.inr rfl)
  | returned result => simpa only [Mmu.onStatus, htracer] using h
  | panicked => simpa only [Mmu.onStatus, htracer] using h
  | gone => simpa only [Mmu.onStatus, htracer] using h

/-- What a step does. A worker that runs comes to a stop or to its end, with the register of a call that
was made; and what the engine or the end of its thread does is done to a worker that does not run. -/
inductive Acts (debugLog : Bool) (s : ProcessRun) : ProcessRun → Prop
  | stops {worker : Worker} (hruns : s.worker.Runs) (hstops : ¬ worker.Runs)
      (hregister : ∀ call, worker.register? = some call →
        s.worker.register? = some call ∨ call = -1 ∨ call ∈ s.calls) : Acts debugLog s { s with worker }
  | killed : Acts debugLog s { s with worker := .exited none }
  | status (kills : Bool) (hstopped : ¬ s.worker.Runs) (hlives : s.tracer ≠ .gone)
      (hreturned : ∀ result, s.tracer ≠ .returned result) : Acts debugLog s (onStatus debugLog s kills)
  | waitFails (hlives : s.tracer ≠ .gone) (hreturned : ∀ result, s.tracer ≠ .returned result) :
      Acts debugLog s { s with tracer := .returned (.error .mmuWorkerError) }
  | threadEnds (hlives : s.tracer ≠ .gone) : Acts debugLog s { s with tracer := .gone }
  | goOn {t : ProcessRun} (hgone : s.tracer = .gone) (hgoOn : goOn? s .gone = some t) : Acts debugLog s t

theorem goOn?_eq_some {tracer : Tracer} (h : goOn? s tracer = some t) :
    t.tracer = tracer ∧ ∀ code, s.worker ≠ .exited code := by
  cases hworker : s.worker with
  | running | calling call | exited code => simp [goOn?, hworker] at h
  | entering call | leaving call | signalled signal call =>
    simp only [goOn?, hworker, Option.some.injEq] at h
    subst h
    exact ⟨rfl, by simp⟩

theorem acts_of_act {action : Action} (hact : act debugLog s action = some t) : Acts debugLog s t := by
  cases action with
  | call call =>
    simp only [act] at hact
    split at hact
    · next hworker =>
      cases hact
      exact .stops (hworker ▸ trivial) (by simp [Worker.Runs]) (by simp [Worker.register?])
    · cases hact
  | signal signal origRax =>
    simp only [act] at hact
    split at hact
    · next hworker =>
      cases hact
      refine .stops (hworker.1 ▸ trivial) (by simp [Worker.Runs]) fun call hcall => .inr ?_
      cases hcall
      exact hworker.2
    · cases hact
  | leave =>
    simp only [act] at hact
    split at hact
    · next hworker =>
      cases hact
      refine .stops (hworker ▸ trivial) (by simp [Worker.Runs]) fun call hcall => .inl ?_
      rw [hworker]
      exact hcall
    · cases hact
  | exit code =>
    simp only [act] at hact
    split at hact
    · next hworker =>
      split at hact
      · cases hact
        exact .stops (hworker ▸ trivial) (by simp [Worker.Runs]) (by simp [Worker.register?])
      · cases hact
    · cases hact
  | killed =>
    simp only [act] at hact
    split at hact
    · cases hact
    · cases hact
      exact .killed
  | wait kills =>
    simp only [act] at hact
    split at hact
    · cases hact
    · cases hact
    · next hrunning hcalling =>
      have hstopped : ¬ s.worker.Runs := by
        intro hruns
        cases hworker : s.worker with
        | running => exact hrunning hworker
        | calling call => exact hcalling call hworker
        | _ => simp [hworker, Worker.Runs] at hruns
      split at hact
      · cases hact
      · cases hact
      · cases hact
      · next hreturned _ hlives =>
        cases hact
        exact .status kills hstopped hlives hreturned
  | waitFails =>
    simp only [act] at hact
    split at hact
    · cases hact
    · cases hact
    · cases hact
    · next hreturned _ hlives =>
      cases hact
      exact .waitFails hlives hreturned
  | threadEnds =>
    simp only [act] at hact
    split at hact
    · cases hact
    · next hlives =>
      cases hact
      exact .threadEnds hlives
  | goOn =>
    simp only [act] at hact
    split at hact
    · next hgone => exact .goOn hgone hact
    · cases hact

theorem Acts.gone (hacts : Acts debugLog s t) (hgone : s.tracer = .gone) : t.tracer = .gone := by
  cases hacts with
  | stops | killed => exact hgone
  | status _ _ hlives | waitFails hlives => exact absurd hgone hlives
  | threadEnds => rfl
  | goOn _ hgoOn => exact (goOn?_eq_some hgoOn).1

theorem Watched.acts (h : Watched before s) (hbefore : ∀ call ∈ before, checkSyscall call ≠ .exit)
    (hacts : Acts debugLog s t) (hlives : t.tracer ≠ .gone) : Watched before t := by
  cases hacts with
  | stops hruns hstops hregister =>
    refine ⟨h.calls, fun hwaiting call hcall => ?_, fun hstarting => ?_⟩
    · rcases hregister call hcall with hsame | hmade
      · exact h.registered hwaiting call hsame
      · exact hmade
    · exact absurd hruns (h.started hstarting).1
  | killed => exact ⟨h.calls, by simp [Registered, Worker.register?], by simp [Worker.Runs]⟩
  | status kills => exact h.onStatus hbefore kills
  | waitFails => exact h.ended (by simp) (by simp)
  | threadEnds => exact absurd rfl hlives
  | goOn _ hgoOn => exact absurd (goOn?_eq_some hgoOn).1 hlives

/-- `mmu_run_static` has returned, other than for a `waitpid` or a kill that failed. -/
def Tracer.Ended (tracer : Tracer) : Prop :=
  ∃ result, tracer = .returned result ∧ result ≠ .error .mmuWorkerError

/-- When the run has ended, the worker is at a stop or gone; gone if its call was not allowed. -/
structure Quiet (s : ProcessRun) : Prop where
  stopped : s.tracer.Ended → ¬ s.worker.Runs
  killed : s.tracer = .returned (.error .unauthorizedSyscall) → ∃ code, s.worker = .exited code

theorem Quiet.of_not_ended (h : ¬ s.tracer.Ended) : Quiet s where
  stopped hended := absurd hended h
  killed htracer := absurd ⟨_, htracer, by simp⟩ h

theorem quiet_ptraceSyscall (hstopped : ¬ s.worker.Runs) {tracer : Tracer} (htracer : ¬ tracer.Ended) :
    Quiet (ptraceSyscall s tracer) := by
  refine .of_not_ended ?_
  cases hworker : s.worker with
  | running => exact absurd (hworker ▸ trivial) hstopped
  | calling call => exact absurd (hworker ▸ trivial) hstopped
  | exited code => simp [ptraceSyscall, goOn?, hworker, Tracer.Ended]
  | _ => simpa [ptraceSyscall, goOn?, hworker] using htracer

theorem quiet_kill (kills : Bool) (tracer : Tracer) : Quiet (kill s kills tracer) := by
  rw [Mmu.kill]
  split
  · exact ⟨fun _ => by simp [Worker.Runs], fun _ => ⟨none, rfl⟩⟩
  · exact .of_not_ended (by simp [Tracer.Ended])

theorem quiet_onStatus (hquiet : Quiet s) (hstopped : ¬ s.worker.Runs) (kills : Bool) :
    Quiet (onStatus debugLog s kills) := by
  rw [Mmu.onStatus]
  split
  · exact quiet_ptraceSyscall hstopped (by simp [Tracer.Ended])
  · exact quiet_kill kills _
  · split
    · exact quiet_ptraceSyscall hstopped (by simp [Tracer.Ended])
    · exact quiet_ptraceSyscall hstopped (by simp [Tracer.Ended])
    · exact quiet_kill kills _
  · exact ⟨fun _ => hstopped, by simp⟩
  · exact ⟨fun _ => hstopped, by simp⟩
  · exact .of_not_ended (by simp [Tracer.Ended])
  · split
    · exact ⟨fun _ => hstopped, by simp⟩
    · exact ⟨fun _ => hstopped, by cases debugLog <;> simp⟩
  · exact hquiet
  · exact hquiet
  · exact hquiet

/-- The thread does not touch a run that has ended, and ends at most itself. -/
theorem Quiet.acts (h : Quiet s) (hacts : Acts debugLog s t) :
    Quiet t ∧ (s.tracer.Ended → t.tracer = .gone ∨ t.tracer = s.tracer ∧ t.calls = s.calls) := by
  cases hacts with
  | stops hruns hstops _ =>
    refine ⟨⟨fun _ => hstops, fun htracer => ?_⟩, fun _ => .inr ⟨rfl, rfl⟩⟩
    obtain ⟨code, hexited⟩ := h.killed htracer
    rw [hexited] at hruns
    exact hruns.elim
  | killed => exact ⟨⟨fun _ => by simp [Worker.Runs], fun _ => ⟨none, rfl⟩⟩, fun _ => .inr ⟨rfl, rfl⟩⟩
  | status kills hstopped _ hreturned =>
    exact ⟨quiet_onStatus h hstopped kills, fun ⟨result, hresult, _⟩ => absurd hresult (hreturned result)⟩
  | waitFails _ hreturned =>
    exact ⟨.of_not_ended (by simp [Tracer.Ended]),
      fun ⟨result, hresult, _⟩ => absurd hresult (hreturned result)⟩
  | threadEnds => exact ⟨.of_not_ended (by simp [Tracer.Ended]), fun _ => .inl rfl⟩
  | goOn _ hgoOn =>
    have hgone := (goOn?_eq_some hgoOn).1
    exact ⟨.of_not_ended (by simp [hgone, Tracer.Ended]), fun _ => .inl hgone⟩

theorem gone_run {actions : List Action} (hgone : s.tracer = .gone)
    (hrun : Transitions.run (act debugLog) s actions = some t) : t.tracer = .gone := by
  induction actions generalizing s with
  | nil =>
    cases hrun
    exact hgone
  | cons action actions ih =>
    obtain ⟨u, hact, hrest⟩ := Option.bind_eq_some_iff.mp hrun
    exact ih ((acts_of_act hact).gone hgone) hrest

theorem Watched.run (h : Watched before s) (hbefore : ∀ call ∈ before, checkSyscall call ≠ .exit)
    {actions : List Action} (hrun : Transitions.run (Mmu.act debugLog) s actions = some t)
    (hlives : t.tracer ≠ .gone) : Watched before t := by
  induction actions generalizing s with
  | nil =>
    cases hrun
    exact h
  | cons action actions ih =>
    obtain ⟨u, hact, hrest⟩ := Option.bind_eq_some_iff.mp hrun
    have hu : u.tracer ≠ .gone := fun hgone => hlives (gone_run hgone hrest)
    exact ih (h.acts hbefore (acts_of_act hact) hu) hrest

theorem Quiet.run (h : Quiet s) {actions : List Action}
    (hrun : Transitions.run (Mmu.act debugLog) s actions = some t) :
    Quiet t ∧ (s.tracer.Ended → t.tracer ≠ .gone → t.tracer = s.tracer ∧ t.calls = s.calls) := by
  induction actions generalizing s with
  | nil =>
    cases hrun
    exact ⟨h, fun _ _ => ⟨rfl, rfl⟩⟩
  | cons action actions ih =>
    obtain ⟨u, hact, hrest⟩ := Option.bind_eq_some_iff.mp hrun
    obtain ⟨hquiet, hkeeps⟩ := h.acts (acts_of_act hact)
    obtain ⟨ht, hlater⟩ := ih hquiet hrest
    refine ⟨ht, fun hended hlives => ?_⟩
    rcases hkeeps hended with hgone | ⟨htracer, hcalls⟩
    · exact absurd (gone_run hgone hrest) hlives
    · obtain ⟨htracer', hcalls'⟩ := hlater (htracer ▸ hended) hlives
      exact ⟨htracer'.trans htracer, hcalls'.trans hcalls⟩

theorem exited_onStatus {code : Option Int} (hexited : s.worker = .exited code) (kills : Bool) :
    ∃ code, (onStatus debugLog s kills).worker = .exited code := by
  have hstop : s.worker.stop? = none := by
    rw [hexited]
    rfl
  cases htracer : s.tracer with
  | starting =>
    simp only [onStatus, htracer, hstop, kill]
    split
    · exact ⟨none, rfl⟩
    · exact ⟨code, hexited⟩
  | ending =>
    simp only [onStatus, htracer]
    split <;> exact ⟨code, hexited⟩
  | waiting | returned result | panicked | gone =>
    simp only [onStatus, htracer, hstop]
    exact ⟨code, hexited⟩

theorem Acts.exited {code : Option Int} (hacts : Acts debugLog s t) (hexited : s.worker = .exited code) :
    ∃ code, t.worker = .exited code := by
  cases hacts with
  | stops hruns =>
    rw [hexited] at hruns
    exact hruns.elim
  | killed => exact ⟨none, rfl⟩
  | status kills => exact exited_onStatus hexited kills
  | waitFails | threadEnds => exact ⟨code, hexited⟩
  | goOn _ hgoOn => exact absurd hexited ((goOn?_eq_some hgoOn).2 code)

/-- A worker that nobody traces any more runs again unless it is gone. -/
theorem runs_again_iff (hstopped : ¬ s.worker.Runs) (hlives : s.tracer ≠ .gone) :
    (∃ later t, Transitions.run (act debugLog) s later = some t ∧ t.worker.Runs) ↔
      ∀ code, s.worker ≠ .exited code := by
  constructor
  · rintro ⟨later, t, hrun, hruns⟩ code hexited
    have hlater : ∃ code, t.worker = .exited code := by
      clear hstopped hlives
      induction later generalizing s code with
      | nil =>
        cases hrun
        exact ⟨code, hexited⟩
      | cons action later ih =>
        obtain ⟨u, hact, hrest⟩ := Option.bind_eq_some_iff.mp hrun
        obtain ⟨code', hexited'⟩ := (acts_of_act hact).exited hexited
        exact ih hrest code' hexited'
    obtain ⟨code', hexited'⟩ := hlater
    rw [hexited'] at hruns
    exact hruns
  · intro hthere
    have hgoOn : ∀ u, goOn? { s with tracer := .gone } .gone = some u →
        Transitions.run (act debugLog) s [.threadEnds, .goOn] = some u := by
      intro u hu
      simp [Transitions.run, Mmu.act, hlives, hu]
    cases hworker : s.worker with
    | running => exact absurd (hworker ▸ trivial) hstopped
    | calling call => exact absurd (hworker ▸ trivial) hstopped
    | exited code => exact absurd hworker (hthere code)
    | entering call =>
      exact ⟨_, ⟨.calling call, .gone, s.calls ++ [call]⟩, hgoOn _ (by simp [goOn?, hworker]), trivial⟩
    | leaving call | signalled signal call =>
      exact ⟨_, ⟨.running, .gone, s.calls⟩, hgoOn _ (by simp [goOn?, hworker]), trivial⟩

/-- Whatever the function and the outside do while the thread of the engine lives, the kernel does no
call for the function but authorized ones and at most one exit, which is the last call; a success is
only reported after that exit, and the function does not run once the run has ended. Behind the end of
the thread it may run again just if its worker is not gone, as it is if its call was not allowed. -/
theorem function_confined {signal : Signal} {origRax : BitVec 64} {actions : List Action}
    (hbefore : ∀ call ∈ before, checkSyscall call ≠ .exit)
    (hrun : Transitions.run (act debugLog) (started signal origRax before) actions = some s) :
    (s.tracer ≠ .gone → ∃ calls, s.calls = before ++ calls ∧
      ((∀ call ∈ calls, checkSyscall call = .authorized) ∧ s.tracer ≠ .returned (.ok ()) ∨
        ∃ new last, calls = new ++ [last] ∧ (∀ call ∈ new, checkSyscall call = .authorized) ∧
          checkSyscall last = .exit)) ∧
      (s.tracer.Ended →
        (∀ later t, Transitions.run (act debugLog) s later = some t → t.tracer ≠ .gone →
          ¬ t.worker.Runs ∧ t.tracer = s.tracer ∧ t.calls = s.calls) ∧
        ((∃ later t, Transitions.run (act debugLog) s later = some t ∧ t.worker.Runs) ↔
          ∀ code, s.worker ≠ .exited code)) ∧
      (s.tracer = .returned (.error .unauthorizedSyscall) → ∃ code, s.worker = .exited code) := by
  have hstart : Watched before (started signal origRax before) := by
    constructor
    · exact .authorized (List.append_nil before).symm (by simp) (by simp [started])
    · simp [Registered, started]
    · simp [started, Worker.Runs]
  have hquiet : Quiet (started signal origRax before) := .of_not_ended (by simp [started, Tracer.Ended])
  obtain ⟨hs, -⟩ := hquiet.run hrun
  refine ⟨fun hlives => ?_, fun hended => ⟨fun later t hlater hlives => ?_, ?_⟩, hs.killed⟩
  · cases (hstart.run hbefore hrun hlives).calls with
    | authorized hcalls hauthorized htracer => exact ⟨_, hcalls, .inl ⟨hauthorized, htracer.2⟩⟩
    | exit hcalls hauthorized hlast _ => exact ⟨_, hcalls, .inr ⟨_, _, rfl, hauthorized, hlast⟩⟩
  · obtain ⟨ht, hkeeps⟩ := hs.run hlater
    obtain ⟨htracer, hcalls⟩ := hkeeps hended hlives
    exact ⟨ht.stopped (htracer ▸ hended), htracer, hcalls⟩
  · refine runs_again_iff (hs.stopped hended) ?_
    obtain ⟨result, hresult, -⟩ := hended
    simp [hresult]

def exitActions : List Action :=
  [.wait true, .call 158, .wait true, .leave, .wait true, .call 60, .wait true, .exit 0, .wait true]

theorem exiting_confined : ∃ s,
    Transitions.run (act true) (started .sigstop 62 [62]) exitActions = some s ∧
      s.tracer = .returned (.ok ()) ∧
      ¬ ∃ later t, Transitions.run (act true) s later = some t ∧ t.worker.Runs := by
  have hrun : Transitions.run (act true) (started .sigstop 62 [62]) exitActions =
      some ⟨.exited (some 0), .returned (.ok ()), [62, 158, 60]⟩ := rfl
  have hbefore : ∀ call ∈ [(62 : BitVec 64)], checkSyscall call ≠ .exit := by
    intro call hcall
    rw [List.mem_singleton.mp hcall]
    decide
  obtain ⟨-, hended, -⟩ := function_confined hbefore hrun
  obtain ⟨-, hagain⟩ := hended ⟨.ok (), rfl, by simp⟩
  exact ⟨_, hrun, rfl, fun hruns => hagain.mp hruns (some 0) rfl⟩

end Runs

end Dandelion.Mmu
