import Dandelion.FunctionImages
import Dandelion.SystemFunctions
import Dandelion.WorkService

/-!
# Engines

What the engines do with the work that they take from the queue. A compute engine loads the function
and its inputs and runs it; the engine of the system functions leaves the requests to tasks; both
parse functions, and return their core when they are shut down. The dispatcher waits for the result
of a run or of parsing a function, and takes it to be of the kind that it has asked for.
-/

namespace Dandelion.Engines

open Outcome Stateful WorkService WorkQueue Transitions
open Registry (EngineType SystemFunction)

/-! ## Flags -/

/-- The flags of `QueueFlag`. -/
def getEngineFlag : EngineType → BitVec 32
  | .reqwest => 0b1
  | .cheri => 0b10
  | .process => 0b100
  | .kvm => 0b1000

/-- The flags of `do_work`. -/
def workFlags (engines : List EngineType) : BitVec 32 :=
  engines.foldl (fun flags e => flags ||| getEngineFlag e) 0

/-! ## Work -/

inductive ComputeResource where
  | cpu (core : Nat)
  | gpu (index : Nat)
deriving DecidableEq, Repr

variable {ElfConfig Domain Driver : Type} {types : HeaderTypes}

inductive FunctionConfig (ElfConfig : Type) where
  | elfConfig (config : ElfConfig)
  | sysConfig (function : SystemFunction)

/-- A function with its configuration. -/
structure ConfiguredFunction (ElfConfig : Type) extends Function where
  config : FunctionConfig ElfConfig

inductive WorkToDo (ElfConfig Domain Driver : Type) where
  | functionArguments (function : ConfiguredFunction ElfConfig) (domain : Domain) (contextSize : Nat)
    (inputSets : List (Option (CompositionSet Context))) (metadata : Registry.Metadata Context)
  | parsingArguments (driver : Driver) (path : String) (staticDomain : Domain)
  | shutdown

inductive WorkDone (ElfConfig : Type) where
  | context (context : Context)
  | function (function : ConfiguredFunction ElfConfig)
  | resources (resources : List ComputeResource)

/-- What the engines use: domains, drivers, the loop of a compute engine on its core, and what
answers requests. -/
structure Machine (ElfConfig Domain Driver : Type) (types : HeaderTypes) where
  acquires : Domain → Nat → DandelionResult Context → Prop
  parses : Driver → String → Domain → DandelionResult (ConfiguredFunction ElfConfig) → Prop
  runs : Nat → FunctionConfig ElfConfig → Context → List String → DandelionResult Context → Prop
  remote : Remote types

section Running

variable (machine : Machine ElfConfig Domain Driver types)

/-- `Function::load` -/
def Loads (function : ConfiguredFunction ElfConfig) (domain : Domain) (ctxSize : Nat)
    (result : DandelionResult Context) : Prop :=
  match function.config with
  | .elfConfig _ => ∃ acquired, machine.acquires domain ctxSize acquired ∧
      result = acquired >>= fun functionContext =>
        loadStatic functionContext function.context function.staticRequirements
  | .sysConfig _ => machine.acquires domain ctxSize result

/-- A compute engine on a core runs a function. -/
inductive RunsFunction (core : Nat) (function : ConfiguredFunction ElfConfig) (domain : Domain)
    (contextSize : Nat) (inputSets : List (Option (CompositionSet Context)))
    (metadata : Registry.Metadata Context) :
    DandelionResult Context → Prop
  | notLoaded (stop : Stop DandelionError) (hload : Loads machine function domain contextSize (.error stop)) :
      RunsFunction core function domain contextSize inputSets metadata (.error stop)
  | notTransferred (loaded after : Context) (stop : Stop DandelionError)
      (hload : Loads machine function domain contextSize (.ok loaded))
      (htransfer : exec (transferInputs inputSets metadata.inputSets 0) loaded = (.error stop, after)) :
      RunsFunction core function domain contextSize inputSets metadata (.error stop)
  | run (loaded functionContext : Context) (result : DandelionResult Context)
      (hload : Loads machine function domain contextSize (.ok loaded))
      (htransfer : exec (transferInputs inputSets metadata.inputSets 0) loaded = (.ok (), functionContext))
      (hrun : machine.runs core function.config functionContext metadata.outputSets result) :
      RunsFunction core function domain contextSize inputSets metadata result

/-- The set with the requests: the static set of the first input, or the first set that was passed.
There has to be one of either kind, or the engine panics. -/
def requestSet (inputSets : List (Option (CompositionSet Context))) (metadata : Registry.Metadata Context) :
    DandelionResult (Option (CompositionSet Context)) :=
  match metadata.inputSets[0]? with
  | none => crash
  | some (_, some staticSet) => pure (some staticSet)
  | some (_, none) =>
    match inputSets[0]? with
    | none => crash
    | some set => pure set

/-- The engine of the system functions runs a function, or has a task run it. -/
inductive RunsRequests (function : ConfiguredFunction ElfConfig) (contextSize : Nat)
    (inputSets : List (Option (CompositionSet Context))) (metadata : Registry.Metadata Context) :
    DandelionResult Context → Prop
  | mismatch (config : ElfConfig) (hconfig : function.config = .elfConfig config) :
      RunsRequests function contextSize inputSets metadata (fail .configMissmatch)
  | noInputs (systemFunction : SystemFunction) (stop : Stop DandelionError)
      (hconfig : function.config = .sysConfig systemFunction)
      (hset : requestSet inputSets metadata = .error stop) :
      RunsRequests function contextSize inputSets metadata (.error stop)
  | noRequests (systemFunction : SystemFunction) (hconfig : function.config = .sysConfig systemFunction)
      (hset : requestSet inputSets metadata = .ok none) :
      RunsRequests function contextSize inputSets metadata (fail (.malformedSystemFuncArg "No request set"))
  | task (systemFunction : SystemFunction) (compositionSet : CompositionSet Context)
      (result : DandelionResult Context) (hconfig : function.config = .sysConfig systemFunction)
      (hset : requestSet inputSets metadata = .ok (some compositionSet))
      (hrun : RunSystemFunction machine.remote systemFunction contextSize metadata.outputSets
        compositionSet result) :
      RunsRequests function contextSize inputSets metadata result

/-! ## Handling work -/

/-- An engine fulfills a debt with a result, or drops it in a panic. -/
inductive Concludes {α : Type} (done : α → WorkDone ElfConfig) :
    DandelionResult α → Handling (WorkDone ElfConfig) → Prop
  | ok (a : α) : Concludes done (.ok a) (.reply (.ok (done a)))
  | error (e : DandelionError) : Concludes done (fail e) (.reply (.error e))
  | panic : Concludes done crash .die

/-- A round of the loop of `run_thread`. -/
inductive ThreadHandles (core : Nat) :
    WorkToDo ElfConfig Domain Driver → Handling (WorkDone ElfConfig) → Prop
  | function {function : ConfiguredFunction ElfConfig} {domain : Domain} {contextSize : Nat}
      {inputSets : List (Option (CompositionSet Context))} {metadata : Registry.Metadata Context}
      {result : DandelionResult Context} {handling : Handling (WorkDone ElfConfig)}
      (hrun : RunsFunction machine core function domain contextSize inputSets metadata result)
      (hconcludes : Concludes .context result handling) :
      ThreadHandles core (.functionArguments function domain contextSize inputSets metadata) handling
  | parsing {driver : Driver} {path : String} {staticDomain : Domain}
      {result : DandelionResult (ConfiguredFunction ElfConfig)} {handling : Handling (WorkDone ElfConfig)}
      (hparse : machine.parses driver path staticDomain result)
      (hconcludes : Concludes .function result handling) :
      ThreadHandles core (.parsingArguments driver path staticDomain) handling
  | shutdown : ThreadHandles core .shutdown (.last (.ok (.resources [.cpu core])))

/-- A round of the loop of the engine of the system functions. -/
inductive ReqwestHandles (core : Nat) :
    WorkToDo ElfConfig Domain Driver → Handling (WorkDone ElfConfig) → Prop
  | mismatch {function : ConfiguredFunction ElfConfig} {domain : Domain} {contextSize : Nat}
      {inputSets : List (Option (CompositionSet Context))} {metadata : Registry.Metadata Context}
      {config : ElfConfig}
      (hconfig : function.config = .elfConfig config) :
      ReqwestHandles core (.functionArguments function domain contextSize inputSets metadata)
        (.reply (.error .configMissmatch))
  | noInputs {function : ConfiguredFunction ElfConfig} {domain : Domain} {contextSize : Nat}
      {inputSets : List (Option (CompositionSet Context))} {metadata : Registry.Metadata Context}
      {systemFunction : SystemFunction} (hconfig : function.config = .sysConfig systemFunction)
      (hset : requestSet inputSets metadata = crash) :
      ReqwestHandles core (.functionArguments function domain contextSize inputSets metadata) .die
  | noRequests {function : ConfiguredFunction ElfConfig} {domain : Domain} {contextSize : Nat}
      {inputSets : List (Option (CompositionSet Context))} {metadata : Registry.Metadata Context}
      {systemFunction : SystemFunction} (hconfig : function.config = .sysConfig systemFunction)
      (hset : requestSet inputSets metadata = .ok none) :
      ReqwestHandles core (.functionArguments function domain contextSize inputSets metadata)
        (.reply (.error (.malformedSystemFuncArg "No request set")))
  | task {function : ConfiguredFunction ElfConfig} {domain : Domain} {contextSize : Nat}
      {inputSets : List (Option (CompositionSet Context))} {metadata : Registry.Metadata Context}
      {systemFunction : SystemFunction} {compositionSet : CompositionSet Context}
      (hconfig : function.config = .sysConfig systemFunction)
      (hset : requestSet inputSets metadata = .ok (some compositionSet)) :
      ReqwestHandles core (.functionArguments function domain contextSize inputSets metadata) .spawn
  | parsing {driver : Driver} {path : String} {staticDomain : Domain}
      {result : DandelionResult (ConfiguredFunction ElfConfig)} {handling : Handling (WorkDone ElfConfig)}
      (hparse : machine.parses driver path staticDomain result)
      (hconcludes : Concludes .function result handling) :
      ReqwestHandles core (.parsingArguments driver path staticDomain) handling
  | shutdown : ReqwestHandles core .shutdown (.last (.ok (.resources [.cpu core])))

/-- What a task that does not panic fulfills its debt with. -/
inductive ReqwestFinishes : WorkToDo ElfConfig Domain Driver →
    Except DandelionError (WorkDone ElfConfig) → Prop
  | task {function : ConfiguredFunction ElfConfig} {domain : Domain} {contextSize : Nat}
      {inputSets : List (Option (CompositionSet Context))} {metadata : Registry.Metadata Context}
      {systemFunction : SystemFunction} {compositionSet : CompositionSet Context}
      {result : DandelionResult Context} {results : Except DandelionError (WorkDone ElfConfig)}
      (hconfig : function.config = .sysConfig systemFunction)
      (hset : requestSet inputSets metadata = .ok (some compositionSet))
      (hrun : RunSystemFunction machine.remote systemFunction contextSize metadata.outputSets
        compositionSet result)
      (hconcludes : Concludes .context result (.reply results)) :
      ReqwestFinishes (.functionArguments function domain contextSize inputSets metadata) results

/-- The engines are told apart by their threads. -/
structure Engine where
  engineType : EngineType
  core : Nat
  thread : Nat
deriving DecidableEq, Repr

def handles (engine : Engine) : WorkToDo ElfConfig Domain Driver →
    Handling (WorkDone ElfConfig) → Prop :=
  match engine.engineType with
  | .reqwest => ReqwestHandles machine engine.core
  | _ => ThreadHandles machine engine.core

/-- Only the engine of the system functions has tasks. -/
def finishes (engine : Engine) (work : WorkToDo ElfConfig Domain Driver)
    (results : Except DandelionError (WorkDone ElfConfig)) : Prop :=
  engine.engineType = .reqwest ∧ ReqwestFinishes machine work results

/-- A run of a function on an engine. -/
def Executes (engine : Engine) (function : ConfiguredFunction ElfConfig) (domain : Domain) (contextSize : Nat)
    (inputSets : List (Option (CompositionSet Context))) (metadata : Registry.Metadata Context) :
    DandelionResult Context → Prop :=
  match engine.engineType with
  | .reqwest => RunsRequests machine function contextSize inputSets metadata
  | _ => RunsFunction machine engine.core function domain contextSize inputSets metadata

end Running

/-! ## Selecting an engine -/

def engineBit : EngineType → Nat
  | .reqwest => 0
  | .cheri => 1
  | .process => 2
  | .kvm => 3

theorem getEngineFlag_eq (t : EngineType) : getEngineFlag t = BitVec.twoPow 32 (engineBit t) := by
  cases t <;> rfl

theorem and_engineFlag_eq_iff (flags : BitVec 32) (t : EngineType) :
    flags &&& getEngineFlag t = getEngineFlag t ↔ flags.getLsbD (engineBit t) = true := by
  have hbit : (getEngineFlag t).getLsbD (engineBit t) = true := by
    cases t <;> rfl
  rw [getEngineFlag_eq, BitVec.and_twoPow, ← getEngineFlag_eq]
  cases hflags : flags.getLsbD (engineBit t) with
  | true => simp
  | false =>
    simp only [Bool.false_eq_true, if_false, iff_false]
    intro hzero
    rw [← hzero] at hbit
    simp at hbit

theorem getLsbD_foldl (engines : List EngineType) (flags : BitVec 32) (t : EngineType) :
    (engines.foldl (fun flags e => flags ||| getEngineFlag e) flags).getLsbD (engineBit t) = true ↔
      flags.getLsbD (engineBit t) = true ∨ t ∈ engines := by
  induction engines generalizing flags with
  | nil => simp
  | cons e engines ih =>
    have hflag : (getEngineFlag e).getLsbD (engineBit t) = true ↔ t = e := by
      cases t <;> cases e <;> decide
    simp [ih, hflag, or_assoc]

/-- The work of a call goes to the engines of the types that it was called with. -/
theorem selects_iff (engines : List EngineType) (t : EngineType) :
    workFlags engines &&& getEngineFlag t = getEngineFlag t ↔ t ∈ engines := by
  rw [and_engineFlag_eq_iff, workFlags, getLsbD_foldl]
  simp

section Results

variable {machine : Machine ElfConfig Domain Driver types} {engine : Engine}
  {results : Except DandelionError (WorkDone ElfConfig)}

/-- What `do_work` returns for a fulfilled promise. -/
def awaited (results : Except DandelionError (WorkDone ElfConfig)) : DandelionResult (WorkDone ElfConfig) :=
  results.mapError .error

section Run

variable {function : ConfiguredFunction ElfConfig} {domain : Domain} {contextSize core : Nat}
  {inputSets : List (Option (CompositionSet Context))} {metadata : Registry.Metadata Context}

theorem ThreadHandles.run {handling : Handling (WorkDone ElfConfig)}
    (h : ThreadHandles machine core (.functionArguments function domain contextSize inputSets metadata)
      handling) :
    ∃ result, RunsFunction machine core function domain contextSize inputSets metadata result ∧
      Concludes .context result handling := by
  cases h with
  | function hrun hconcludes => exact ⟨_, hrun, hconcludes⟩

theorem ReqwestHandles.run
    (h : ReqwestHandles machine core (.functionArguments function domain contextSize inputSets metadata)
      (.reply results)) :
    ∃ result, RunsRequests machine function contextSize inputSets metadata result ∧
      Concludes .context result (.reply results) := by
  cases h with
  | mismatch hconfig => exact ⟨_, .mismatch _ hconfig, .error _⟩
  | noRequests hconfig hset => exact ⟨_, .noRequests _ hconfig hset, .error _⟩

theorem ReqwestFinishes.run
    (h : ReqwestFinishes machine (.functionArguments function domain contextSize inputSets metadata)
      results) :
    ∃ result, RunsRequests machine function contextSize inputSets metadata result ∧
      Concludes .context result (.reply results) := by
  cases h with
  | task hconfig hset hrun hconcludes => exact ⟨_, .task _ _ _ hconfig hset hrun, hconcludes⟩

theorem produces_run
    (h : Produces (handles machine) (finishes machine) engine
      (.functionArguments function domain contextSize inputSets metadata) results) :
    ∃ result, Executes machine engine function domain contextSize inputSets metadata result ∧
      Concludes .context result (.reply results) := by
  obtain ⟨engineType, core, thread⟩ := engine
  rcases h with hreply | hlast | ⟨hspawn, htype, hfinishes⟩
  · cases engineType with
    | reqwest => exact ReqwestHandles.run hreply
    | cheri => exact ThreadHandles.run hreply
    | process => exact ThreadHandles.run hreply
    | kvm => exact ThreadHandles.run hreply
  · -- only a shutdown ends an engine with a result
    cases engineType with
    | reqwest => cases hlast
    | cheri =>
      obtain ⟨result, -, hconcludes⟩ := ThreadHandles.run hlast
      cases hconcludes
    | process =>
      obtain ⟨result, -, hconcludes⟩ := ThreadHandles.run hlast
      cases hconcludes
    | kvm =>
      obtain ⟨result, -, hconcludes⟩ := ThreadHandles.run hlast
      cases hconcludes
  · cases htype
    exact hfinishes.run

end Run

section Parse

variable {driver : Driver} {path : String} {staticDomain : Domain} {core : Nat}
  {handling : Handling (WorkDone ElfConfig)}

theorem ThreadHandles.parse
    (h : ThreadHandles machine core (.parsingArguments driver path staticDomain) handling) :
    ∃ result, machine.parses driver path staticDomain result ∧ Concludes .function result handling := by
  cases h with
  | parsing hparse hconcludes => exact ⟨_, hparse, hconcludes⟩

theorem ReqwestHandles.parse
    (h : ReqwestHandles machine core (.parsingArguments driver path staticDomain) handling) :
    ∃ result, machine.parses driver path staticDomain result ∧ Concludes .function result handling := by
  cases h with
  | parsing hparse hconcludes => exact ⟨_, hparse, hconcludes⟩

end Parse

/-! ## What the dispatcher gets -/

section Calls

variable {W : Type} {call : Nat} {engines : List EngineType}
  {s : WorkService Engine (WorkToDo ElfConfig Domain Driver) (WorkDone ElfConfig) W}
  (hreach : Reaches (Step (fun engine => getEngineFlag engine.engineType) (handles machine)
    (finishes machine)) init s)
  (hready : (s.slots call).ready.getLast? = some results)
include hreach hready

/-- The work of a call is done by an engine of one of the types that it was called with. -/
theorem done_by_selected {work : WorkToDo ElfConfig Domain Driver}
    (hcall : s.calls call = .pushed (workFlags engines) work) :
    ∃ engine : Engine, engine.engineType ∈ engines ∧
      Produces (handles machine) (finishes machine) engine work results := by
  have hsound := sound_of_reaches hreach
  obtain ⟨engine, flags, work', hpushed, hmatches, -, hproduces⟩ := hsound.result hready
  cases hcall.symm.trans hpushed
  exact ⟨engine, (selects_iff engines engine.engineType).mp (eq_of_beq hmatches), hproduces⟩

end Calls

/-- Without a static set, the engine of the system functions panics on a call that was made without
any set. -/
theorem requestSet_nil {metadata : Registry.Metadata Context}
    (hstatic : ∀ name staticSet, metadata.inputSets[0]? ≠ some (name, some staticSet)) :
    requestSet [] metadata = crash := by
  rw [requestSet]
  cases hfirst : metadata.inputSets[0]? with
  | none => rfl
  | some input =>
    obtain ⟨name, staticSet⟩ := input
    cases staticSet with
    | none => rfl
    | some staticSet => exact absurd hfirst (hstatic name staticSet)

/-- In every reachable state of the service, a call of a system function without a static set that was
made without any set has no result: whoever waits for it goes on waiting. -/
theorem unanswered_without_inputs {W : Type} {call : Nat}
    {s : WorkService Engine (WorkToDo ElfConfig Domain Driver) (WorkDone ElfConfig) W}
    (hreach : Reaches (Step (fun engine => getEngineFlag engine.engineType) (handles machine)
      (finishes machine)) init s)
    {function : ConfiguredFunction ElfConfig} {domain : Domain} {contextSize : Nat}
    {metadata : Registry.Metadata Context} {systemFunction : SystemFunction}
    (hcall : s.calls call = .pushed (workFlags [.reqwest])
      (.functionArguments function domain contextSize [] metadata))
    (hconfig : function.config = .sysConfig systemFunction)
    (hstatic : ∀ name staticSet, metadata.inputSets[0]? ≠ some (name, some staticSet)) :
    (s.slots call).ready = [] := by
  by_contra hne
  obtain ⟨results, hready⟩ := Option.ne_none_iff_exists'.mp (mt List.getLast?_eq_none_iff.mp hne)
  obtain ⟨engine, hmem, hproduces⟩ := done_by_selected hreach hready hcall
  obtain ⟨result, hexecutes, hconcludes⟩ := produces_run hproduces
  have htype : engine.engineType = .reqwest := List.mem_singleton.mp hmem
  have hset := requestSet_nil hstatic
  rw [Executes, htype] at hexecutes
  cases hexecutes with
  | mismatch config hconfig' => cases hconfig.symm.trans hconfig'
  | noInputs other stop hconfig' hset' =>
    cases hset.symm.trans hset'
    cases hconcludes
  | noRequests other hconfig' hset' => cases hset.symm.trans hset'
  | task other compositionSet result hconfig' hset' hrun => cases hset.symm.trans hset'

end Results

/-! ## A call -/

section Example

/-- An engine for functions without inputs, which returns their contexts as they are. -/
def plainMachine : Machine Unit Unit Unit .ascii where
  acquires _ ctxSize result := result = .ok (Context.new (.stored (.malloc [])) ctxSize)
  parses _ _ _ result := result = fail .malformedConfig
  runs _ _ functionContext _ result := result = .ok functionContext
  remote := ⟨fun _ _ => False, fun _ _ => False⟩

def plainFunction : ConfiguredFunction Unit where
  staticRequirements := []
  context := Context.new (.stored (.malloc [])) 0
  config := .sysConfig .http

/-- The HTTP function without any set. -/
def emptyRequest : WorkToDo Unit Unit Unit :=
  .functionArguments plainFunction () 8 [] ⟨[("request", none)], ["response", "body"]⟩

def reqwestEngine : Engine := ⟨.reqwest, 0, 0⟩

theorem emptyRequest_handled : handles plainMachine reqwestEngine emptyRequest .die :=
  .noInputs rfl rfl

/-- The debt is dropped and the engine ends, and the client polls its promise. -/
def dropActions (engine : Engine) :
    List (Action Engine (WorkToDo Unit Unit Unit) (WorkDone Unit) Unit) :=
  [.debt 0, .debt 0, .debt 0, .paid engine,
    .promise 0 (.poll ()), .promise 0 .promise, .promise 0 .promise, .promise 0 .promise]

/-- Its engine takes the work, panics on it and drops the debt; the client is told to wait. -/
theorem emptyRequest_unanswered :
    ∃ s : WorkService Engine (WorkToDo Unit Unit Unit) (WorkDone Unit) Unit,
      Reaches (Step (fun engine => getEngineFlag engine.engineType) (handles plainMachine)
        (finishes plainMachine)) init s ∧
      s.calls 0 = .pushed (workFlags [.reqwest]) emptyRequest ∧ s.engines reqwestEngine = .stopped ∧
      (s.slots 0).debt = .dropped ∧ (s.slots 0).lastPoll = .pending ⟨0, ()⟩ ∧ (s.slots 0).ready = [] := by
  obtain ⟨taken, htaken, hrunning, panicked, hpanicked, s, hs, hcall, hstopped, hdropped, hpending⟩ :
      ∃ taken : WorkService Engine (WorkToDo Unit Unit Unit) (WorkDone Unit) Unit,
        run (act fun engine => getEngineFlag engine.engineType) init
          (takeActions reqwestEngine 0 (workFlags [.reqwest]) emptyRequest) = some taken ∧
        taken.engines reqwestEngine = .running emptyRequest 0 ∧
        ∃ panicked, act (fun engine => getEngineFlag engine.engineType) taken
            (.handle reqwestEngine .die) = some panicked ∧
          ∃ s, run (act fun engine => getEngineFlag engine.engineType) panicked
              (dropActions reqwestEngine) = some s ∧
            s.calls 0 = .pushed (workFlags [.reqwest]) emptyRequest ∧
            s.engines reqwestEngine = .stopped ∧ (s.slots 0).debt = .dropped ∧
            (s.slots 0).lastPoll = .pending ⟨0, ()⟩ :=
    ⟨_, rfl, rfl, _, rfl, _, rfl, rfl, rfl, rfl, rfl⟩
  have hreach : Reaches (Step (fun engine => getEngineFlag engine.engineType) (handles plainMachine)
      (finishes plainMachine)) init s := by
    refine Relation.ReflTransGen.trans
      ((reaches_of_run_allowed (fun s action hmem => ?_) htaken).tail ⟨_, ?_, hpanicked⟩)
      (reaches_of_run_allowed (fun s action hmem => ?_) hs)
    · simp only [takeActions, List.mem_cons, List.not_mem_nil, or_false] at hmem
      rcases hmem with rfl | rfl | rfl | rfl | rfl | rfl <;> trivial
    · intro work call heq
      cases hrunning.symm.trans heq
      exact emptyRequest_handled
    · simp only [dropActions, List.mem_cons, List.not_mem_nil, or_false] at hmem
      rcases hmem with rfl | rfl | rfl | rfl | rfl | rfl | rfl | rfl <;> trivial
  exact ⟨s, hreach, hcall, hstopped, hdropped, hpending,
    unanswered_without_inputs hreach hcall rfl (by simp)⟩

end Example

end Dandelion.Engines
