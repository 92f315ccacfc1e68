import Dandelion.ReportedSets
import Dandelion.ShardResults
import Dandelion.SurplusSets

/-!
# What the sets of a run carry

A rule for properties of the sets that a run of a composition handles, by composition id. If the
inputs that are used have the property, and the calls of the applications pass it on from their input
sets to the sets they report, then every output set has it, under an id that is mapped to its slot.
The rule needs no assumption on how often a set is assigned.
-/

namespace Dandelion

open Outcome

section Carried

variable {Ctx : Type} {call : ShardedCall Ctx} {dependencies : List FunctionDependencies}
  {inputs : List (Option (CompositionSet Ctx))} {Q : Nat → CompositionSet Ctx → Prop}

/-- The input sets of an application are those of its descriptors, as far as they are there. -/
def InputsCarry (Q : Nat → CompositionSet Ctx → Prop) (deps : FunctionDependencies)
    (inputSets : FunctionInputs Ctx) : Prop :=
  inputSets.length = deps.inputSetIds.length ∧
    ∀ (position : Nat) (mode set), inputSets[position]? = some (some (mode, set)) →
      ∃ descriptor : InputSetDescriptor, deps.inputSetIds[position]? = some (some descriptor) ∧
        Q descriptor.compositionId set

def ReportCarries (Q : Nat → CompositionSet Ctx → Prop) (report : NewCompositions Ctx) : Prop :=
  ∀ id set, (id, some set) ∈ report → Q id set

/-- The calls of the applications pass the property on. -/
def CallsCarry (call : ShardedCall Ctx) (dependencies : List FunctionDependencies)
    (Q : Nat → CompositionSet Ctx → Prop) : Prop :=
  ∀ deps ∈ dependencies, ∀ inputSets report, InputsCarry Q deps inputSets →
    call deps.function inputSets deps.joinInfo deps.outputSetIds = .ok report →
      ReportCarries Q report

/-- A waiting application, with the sets that have arrived for it. -/
structure ArgsCarry (Q : Nat → CompositionSet Ctx → Prop) (deps : FunctionDependencies)
    (args : FunctionArgs Ctx) : Prop where
  functionId : args.functionId = deps.function
  joinInfo : args.joinInfo = deps.joinInfo
  outputMapping : args.outputMapping = deps.outputSetIds
  inputSets : InputsCarry Q deps args.inputSets
  missing : ∀ key entry, args.missingSets.get? key = some entry →
    ∃ descriptor, deps.inputSetIds[(ofLex key).2]? = some (some descriptor) ∧
      descriptor.compositionId = (ofLex key).1

def AwaitedCarry (Q : Nat → CompositionSet Ctx → Prop)
    (awaited : List (DandelionResult (NewCompositions Ctx))) : Prop :=
  ∀ report, .ok report ∈ awaited → ReportCarries Q report

/-- Every output set is the set of an id that is mapped to its slot. -/
def OutputsCarry (outputMap : OrderedMap Nat Nat) (Q : Nat → CompositionSet Ctx → Prop)
    (outputSets : List (Option (CompositionSet Ctx))) : Prop :=
  ∀ slot set, slotSet outputSets slot = some set → ∃ id, outputMap.get? id = some slot ∧ Q id set

structure StateCarries (dependencies : List FunctionDependencies) (outputMap : OrderedMap Nat Nat)
    (Q : Nat → CompositionSet Ctx → Prop) (state : DispatchState Ctx) : Prop where
  outputs : OutputsCarry outputMap Q state.outputSets
  waiting : ∀ args ∈ state.nonReadyFunctions, ∃ deps ∈ dependencies, ArgsCarry Q deps args
  awaited : AwaitedCarry Q state.awaitedSets

theorem reportCarries_skipped (outputMapping : List (Option Nat)) :
    ReportCarries Q (skippedSets outputMapping) := by
  intro id set hmem
  obtain ⟨idOption, -, hid⟩ := List.mem_filterMap.mp hmem
  obtain ⟨id', -, heq⟩ := Option.map_eq_some_iff.mp hid
  cases heq

theorem AwaitedCarry.append {awaited awaited' : List (DandelionResult (NewCompositions Ctx))}
    (h : AwaitedCarry Q awaited) (h' : AwaitedCarry Q awaited') :
    AwaitedCarry Q (awaited ++ awaited') := by
  intro report hreport
  rcases List.mem_append.mp hreport with hreport | hreport
  · exact h report hreport
  · exact h' report hreport

theorem InputsCarry.set {deps : FunctionDependencies} {inputSets : FunctionInputs Ctx}
    (h : InputsCarry Q deps inputSets) {position : Nat} {descriptor : InputSetDescriptor}
    (hdescriptor : deps.inputSetIds[position]? = some (some descriptor)) (mode : ShardingMode)
    (setOption : Option (CompositionSet Ctx))
    (hset : ∀ set, setOption = some set → Q descriptor.compositionId set) :
    InputsCarry Q deps (inputSets.set position (setOption.map fun set => (mode, set))) := by
  refine ⟨by rw [List.length_set, h.1], fun position' mode' set hget => ?_⟩
  rw [List.getElem?_set] at hget
  split at hget
  · next heq =>
    subst heq
    split at hget
    · obtain ⟨set', hset', heq⟩ := Option.map_eq_some_iff.mp (Option.some.inj hget)
      cases heq
      exact ⟨descriptor, hdescriptor, hset set hset'⟩
    · cases hget
  · exact h.2 position' mode' set hget

theorem ArgsCarry.start (hcall : CallsCarry call dependencies Q) {deps : FunctionDependencies}
    (hdeps : deps ∈ dependencies) {args : FunctionArgs Ctx} (h : ArgsCarry Q deps args) :
    AwaitedCarry Q [args.start call] := by
  intro report hreport
  have hok := List.mem_singleton.mp hreport
  rw [FunctionArgs.start, h.functionId, h.joinInfo, h.outputMapping] at hok
  exact hcall deps hdeps _ report h.inputSets hok.symm

theorem fillMissing_carries {deps : FunctionDependencies} {id : Nat}
    {setOption : Option (CompositionSet Ctx)} (hset : ∀ set, setOption = some set → Q id set)
    {entries : List ((Nat ×ₗ Nat) × (ShardingMode × Bool))}
    (hentries : ∀ entry ∈ entries, ∃ descriptor,
      deps.inputSetIds[(ofLex entry.1).2]? = some (some descriptor) ∧ descriptor.compositionId = id)
    {inputSets filled : FunctionInputs Ctx} {keys : List (Option (Nat ×ₗ Nat))}
    (h : InputsCarry Q deps inputSets)
    (hfill : fillMissing setOption entries inputSets = .ok (filled, keys)) :
    InputsCarry Q deps filled := by
  induction entries generalizing inputSets keys with
  | nil =>
    cases hfill
    exact h
  | cons entry entries ih =>
    obtain ⟨key, mode, optional⟩ := entry
    obtain ⟨⟨descriptor, hdescriptor, hid⟩, hentries⟩ := List.forall_mem_cons.mp hentries
    rw [fillMissing] at hfill
    split at hfill
    · obtain ⟨⟨filled', keys'⟩, hrest, hfill⟩ := (bind_eq_ok_iff _ _ _).mp hfill
      cases hfill
      exact ih hentries h hrest
    · obtain ⟨next, hnext, hfill⟩ := (bind_eq_ok_iff _ _ _).mp hfill
      obtain ⟨⟨filled', keys'⟩, hrest, hfill⟩ := (bind_eq_ok_iff _ _ _).mp hfill
      cases hfill
      refine ih hentries ?_ hrest
      rw [setAt] at hnext
      split at hnext
      · cases hnext
        exact h.set hdescriptor mode setOption fun set heq => hid ▸ hset set heq
      · cases hnext

theorem receiveSet_carries (hcall : CallsCarry call dependencies Q) {deps : FunctionDependencies}
    (hdeps : deps ∈ dependencies) {args : FunctionArgs Ctx} (h : ArgsCarry Q deps args) {id : Nat}
    {setOption : Option (CompositionSet Ctx)} (hset : ∀ set, setOption = some set → Q id set)
    {kept : Option (FunctionArgs Ctx)} {awaited : List (DandelionResult (NewCompositions Ctx))}
    {started : List (Nat × FunctionInputs Ctx)}
    (hok : receiveSet call id setOption args = .ok (kept, awaited, started)) :
    (∀ args', kept = some args' → ArgsCarry Q deps args') ∧ AwaitedCarry Q awaited := by
  rw [receiveSet] at hok
  obtain ⟨⟨filled, keys⟩, hfill, hok⟩ := (bind_eq_ok_iff _ _ _).mp hok
  have hfilled : InputsCarry Q deps filled := by
    refine fillMissing_carries hset (fun entry hentry => ?_) h.inputSets hfill
    obtain ⟨hget, hid⟩ := (mem_missing_iff _ _ _).mp hentry
    obtain ⟨descriptor, hdescriptor, hkey⟩ := h.missing entry.1 entry.2 hget
    exact ⟨descriptor, hdescriptor, hkey.trans hid⟩
  have hskipped : AwaitedCarry Q ((keys.filter Option.isNone).map fun _ =>
      (pure (skippedSets args.outputMapping) : DandelionResult (NewCompositions Ctx))) := by
    intro report hreport
    obtain ⟨key, -, hreport⟩ := List.mem_map.mp hreport
    cases hreport
    exact reportCarries_skipped _
  cases hremove : removeKeys keys args.missingSets with
  | none =>
    simp only [hremove] at hok
    cases hok
    exact ⟨by rintro _ ⟨⟩, hskipped⟩
  | some missingSets =>
    simp only [hremove] at hok
    have hargs : ArgsCarry Q deps { args with inputSets := filled, missingSets } :=
      ⟨h.functionId, h.joinInfo, h.outputMapping, hfilled, fun key entry hkey =>
        h.missing key entry ((removeKeys_eq_some hremove).2 key entry hkey).2⟩
    split at hok
    · cases hok
      exact ⟨by rintro _ ⟨⟩, hskipped.append (hargs.start hcall hdeps)⟩
    · cases hok
      refine ⟨fun args' heq => ?_, hskipped⟩
      cases heq
      exact hargs

theorem receiveAll_carries (hcall : CallsCarry call dependencies Q) {id : Nat}
    {setOption : Option (CompositionSet Ctx)} (hset : ∀ set, setOption = some set → Q id set)
    {functions nonReady : List (FunctionArgs Ctx)}
    {awaited : List (DandelionResult (NewCompositions Ctx))}
    {started : List (Nat × FunctionInputs Ctx)}
    (h : ∀ args ∈ functions, ∃ deps ∈ dependencies, ArgsCarry Q deps args)
    (hok : receiveAll call id setOption functions = .ok (nonReady, awaited, started)) :
    (∀ args ∈ nonReady, ∃ deps ∈ dependencies, ArgsCarry Q deps args) ∧ AwaitedCarry Q awaited := by
  induction functions generalizing nonReady awaited started with
  | nil =>
    cases hok
    exact ⟨fun args hargs => absurd hargs List.not_mem_nil,
      fun report hreport => absurd hreport List.not_mem_nil⟩
  | cons args functions ih =>
    rw [receiveAll] at hok
    obtain ⟨⟨kept, awaitedFirst, startedFirst⟩, hfirst, hok⟩ := (bind_eq_ok_iff _ _ _).mp hok
    obtain ⟨⟨nonReadyRest, awaitedRest, startedRest⟩, hrest, hok⟩ := (bind_eq_ok_iff _ _ _).mp hok
    cases hok
    obtain ⟨⟨deps, hdeps, hargs⟩, hfunctions⟩ := List.forall_mem_cons.mp h
    obtain ⟨hkept, hawaited⟩ := receiveSet_carries hcall hdeps hargs hset hfirst
    obtain ⟨hnonReady, hawaitedRest⟩ := ih hfunctions hrest
    refine ⟨fun args' hargs' => ?_, hawaited.append hawaitedRest⟩
    rcases List.mem_append.mp hargs' with hargs' | hargs'
    · exact ⟨deps, hdeps, hkept args' (Option.mem_toList.mp hargs')⟩
    · exact hnonReady args' hargs'

variable {outputMap : OrderedMap Nat Nat}

theorem writeOutput_carries {outputSets written : List (Option (CompositionSet Ctx))}
    (h : OutputsCarry outputMap Q outputSets) {id : Nat} {setOption : Option (CompositionSet Ctx)}
    (hset : ∀ slot set, outputMap.get? id = some slot → setOption = some set → Q id set)
    (hok : writeOutput outputMap outputSets id setOption = .ok written) :
    OutputsCarry outputMap Q written := by
  rw [writeOutput] at hok
  cases hget : outputMap.get? id with
  | none =>
    simp only [hget] at hok
    cases hok
    exact h
  | some index =>
    simp only [hget, setAt] at hok
    split at hok
    · next hlt =>
      cases hok
      intro slot set hslot
      by_cases heq : index = slot
      · subst heq
        rw [slotSet, List.getElem?_set_self hlt] at hslot
        exact ⟨id, hget, hset index set hget hslot⟩
      · rw [slotSet, List.getElem?_set_ne heq] at hslot
        exact h slot set hslot
    · cases hok

theorem deliver_carries (hcall : CallsCarry call dependencies Q) {state next : DispatchState Ctx}
    (h : StateCarries dependencies outputMap Q state) {new : Nat × Option (CompositionSet Ctx)}
    (hset : ∀ set, new.2 = some set → Q new.1 set)
    (hok : deliver call outputMap state new = .ok next) :
    StateCarries dependencies outputMap Q next := by
  rw [deliver] at hok
  obtain ⟨written, hwrite, hok⟩ := (bind_eq_ok_iff _ _ _).mp hok
  obtain ⟨⟨nonReady, awaited, started⟩, hreceive, hok⟩ := (bind_eq_ok_iff _ _ _).mp hok
  cases hok
  obtain ⟨hwaiting, hawaited⟩ := receiveAll_carries hcall hset h.waiting hreceive
  exact ⟨writeOutput_carries h.outputs (fun _ set _ => hset set) hwrite, hwaiting,
    h.awaited.append hawaited⟩

theorem deliverAll_carries (hcall : CallsCarry call dependencies Q) {report : NewCompositions Ctx}
    (hreport : ReportCarries Q report) {state next : DispatchState Ctx}
    (h : StateCarries dependencies outputMap Q state)
    (hok : deliverAll call outputMap report state = .ok next) :
    StateCarries dependencies outputMap Q next := by
  induction report generalizing state with
  | nil =>
    cases hok
    exact h
  | cons new report ih =>
    rw [deliverAll] at hok
    obtain ⟨state', hdeliver, hok⟩ := (bind_eq_ok_iff _ _ _).mp hok
    refine ih (fun id set hmem => hreport id set (List.mem_cons_of_mem _ hmem)) ?_ hok
    refine deliver_carries hcall h (fun set heq => hreport new.1 set ?_) hdeliver
    rw [← heq]
    exact List.mem_cons_self

theorem awaitNext_carries (hcall : CallsCarry call dependencies Q) {state : DispatchState Ctx}
    (h : StateCarries dependencies outputMap Q state) (order : Nat → Nat) :
    Meets (awaitNext call outputMap (state, order))
      (Sum.elim (fun next => StateCarries dependencies outputMap Q next.1)
        (StateCarries dependencies outputMap Q)) (fun _ => True) := by
  rw [awaitNext]
  cases hget : state.awaitedSets[order 0 % state.awaitedSets.length]? with
  | none => exact h
  | some result =>
    cases result with
    | error stop => trivial
    | ok report =>
      have hreport := h.awaited report (List.mem_of_getElem? hget)
      have hstate : StateCarries dependencies outputMap Q
          ⟨state.outputSets, state.nonReadyFunctions,
            state.awaitedSets.eraseIdx (order 0 % state.awaitedSets.length), state.started⟩ :=
        ⟨h.outputs, h.waiting, fun report' hmem =>
          h.awaited report' (List.mem_of_mem_eraseIdx hmem)⟩
      have hdeliver : Meets (deliverAll call outputMap report _)
          (StateCarries dependencies outputMap Q) (fun _ => True) :=
        meets_of_ok fun next hok => deliverAll_carries hcall hreport hstate hok
      exact hdeliver.bind fun next hnext => hnext

end Carried

section Start

variable {Ctx : Type} {call : ShardedCall Ctx} {inputs : List (Option (CompositionSet Ctx))}
  {Q : Nat → CompositionSet Ctx → Prop}

/-- The composition returns the set of the inputs, or one of its applications takes it. -/
def Composition.Uses (composition : Composition) (inputs : List (Option (CompositionSet Ctx))) (id : Nat) :
    Prop :=
  (∃ slot, composition.outputMap.get? id = some slot) ∨
    ∃ deps ∈ composition.dependencies, TakesInput inputs deps id

/-- The inputs that are there go to the positions of their ids, and the other ids are missing. -/
theorem readyInputs_carries {deps : FunctionDependencies} {descriptors : List (Option InputSetDescriptor)}
    (hinputs : ∀ descriptor, some descriptor ∈ descriptors → ∀ set,
      slotSet inputs descriptor.compositionId = some set → Q descriptor.compositionId set)
    {functionIndex : Nat} (hdescriptors : deps.inputSetIds.drop functionIndex = descriptors)
    {missingMap missingSets : OrderedMap (Nat ×ₗ Nat) (ShardingMode × Bool)}
    {ready inputSets : FunctionInputs Ctx} (hready : InputsCarry Q deps ready)
    (hmissing : ∀ key entry, missingMap.get? key = some entry →
      ∃ descriptor, deps.inputSetIds[(ofLex key).2]? = some (some descriptor) ∧
        descriptor.compositionId = (ofLex key).1)
    (hok : readyInputs inputs descriptors functionIndex missingMap ready =
      .ok (some (missingSets, inputSets))) :
    InputsCarry Q deps inputSets ∧ ∀ key entry, missingSets.get? key = some entry →
      ∃ descriptor, deps.inputSetIds[(ofLex key).2]? = some (some descriptor) ∧
        descriptor.compositionId = (ofLex key).1 := by
  induction descriptors generalizing functionIndex missingMap ready with
  | nil =>
    cases hok
    exact ⟨hready, hmissing⟩
  | cons descriptorOption descriptors ih =>
    obtain ⟨hget, hdrop⟩ := drop_eq_cons hdescriptors
    have hrest := fun descriptor hin => hinputs descriptor (List.mem_cons_of_mem _ hin)
    cases descriptorOption with
    | none => exact ih hrest hdrop hready hmissing hok
    | some descriptor =>
      rw [readyInputs] at hok
      cases hinput : inputs[descriptor.compositionId]? with
      | none =>
        simp only [hinput] at hok
        refine ih hrest hdrop hready (fun key entry hkey => ?_) hok
        rcases (OrderedMap.get?_insert_eq_some_iff _ _ _ _ _).mp hkey with ⟨rfl, -⟩ | ⟨-, hold⟩
        · exact ⟨descriptor, hget, rfl⟩
        · exact hmissing key entry hold
      | some compSet =>
        simp only [hinput] at hok
        split at hok
        · cases hok
        · cases compSet with
          | none => exact ih hrest hdrop hready hmissing hok
          | some set =>
            obtain ⟨next, hnext, hok⟩ := (bind_eq_ok_iff _ _ _).mp hok
            refine ih hrest hdrop ?_ hmissing hok
            rw [setAt] at hnext
            split at hnext
            · cases hnext
              refine hready.set hget descriptor.sharding (some set) ?_
              intro set' heq
              cases heq
              exact hinputs descriptor List.mem_cons_self set (by rw [slotSet, hinput]; rfl)
            · cases hnext

theorem prepareFunctions_carries {rest : List FunctionDependencies}
    (hinputs : ∀ deps ∈ rest, ∀ id, TakesInput inputs deps id →
      ∀ set, slotSet inputs id = some set → Q id set)
    {application : Nat} {functions : List (FunctionArgs Ctx)}
    {skipped : List (NewCompositions Ctx)}
    (hok : prepareFunctions inputs rest application = .ok (functions, skipped)) :
    (∀ args ∈ functions, ∃ deps ∈ rest, ArgsCarry Q deps args) ∧
      ∀ report ∈ skipped, ReportCarries Q report := by
  induction rest generalizing application functions skipped with
  | nil =>
    cases hok
    exact ⟨fun args hargs => absurd hargs List.not_mem_nil,
      fun report hreport => absurd hreport List.not_mem_nil⟩
  | cons deps rest ih =>
    rw [prepareFunctions] at hok
    obtain ⟨prepared, hprepared, hok⟩ := (bind_eq_ok_iff _ _ _).mp hok
    obtain ⟨⟨functions', skipped'⟩, hrest, hok⟩ := (bind_eq_ok_iff _ _ _).mp hok
    obtain ⟨hfirst, hinputs⟩ := List.forall_mem_cons.mp hinputs
    obtain ⟨hfunctions, hskipped⟩ := ih hinputs hrest
    have hlater : ∀ args ∈ functions', ∃ deps' ∈ deps :: rest, ArgsCarry Q deps' args := by
      intro args hargs
      obtain ⟨deps', hdeps', hcarry⟩ := hfunctions args hargs
      exact ⟨deps', List.mem_cons_of_mem _ hdeps', hcarry⟩
    cases prepared with
    | none =>
      cases hok
      exact ⟨hlater, List.forall_mem_cons.mpr ⟨reportCarries_skipped _, hskipped⟩⟩
    | some prepared =>
      obtain ⟨missingSets, inputSets⟩ := prepared
      cases hok
      have hempty : InputsCarry Q deps (List.replicate deps.inputSetIds.length none) := by
        refine ⟨List.length_replicate, fun position mode set hget => ?_⟩
        cases List.eq_of_mem_replicate (List.mem_of_getElem? hget)
      have hitems : ¬ LacksItems (List.range inputs.length) (fun id => (inputs[id]?).join) deps := by
        intro hlacks
        rw [readyInputs_lacking hlacks] at hprepared
        cases hprepared
      obtain ⟨hinputSets, hmissing⟩ := readyInputs_carries (fun descriptor hdescriptor =>
          hfirst _ ⟨hitems, descriptor, hdescriptor, rfl⟩) List.drop_zero hempty
        (fun key entry hkey => by cases hkey) hprepared
      refine ⟨List.forall_mem_cons.mpr ⟨⟨deps, List.mem_cons_self, ?_⟩, hlater⟩, hskipped⟩
      exact ⟨rfl, rfl, rfl, hinputSets, hmissing⟩

theorem presetOutputs_carries {outputMap : OrderedMap Nat Nat}
    {rest : List (Option (CompositionSet Ctx))} {first : Nat}
    (hinputs : ∀ j slot set, outputMap.get? (first + j) = some slot → slotSet rest j = some set →
      Q (first + j) set)
    {outputSets written : List (Option (CompositionSet Ctx))}
    (h : OutputsCarry outputMap Q outputSets)
    (hok : presetOutputs outputMap rest first outputSets = .ok written) :
    OutputsCarry outputMap Q written := by
  induction rest generalizing first outputSets with
  | nil =>
    cases hok
    exact h
  | cons input rest ih =>
    rw [presetOutputs] at hok
    obtain ⟨next, hwrite, hok⟩ := (bind_eq_ok_iff _ _ _).mp hok
    refine ih (fun j slot set hslot hj => ?_) (writeOutput_carries h (hinputs 0) hwrite) hok
    rw [Nat.add_assoc, Nat.add_comm 1 j] at hslot ⊢
    exact hinputs (j + 1) slot set hslot hj

theorem initialState_carries {composition : Composition}
    (hinputs : ∀ id set, slotSet inputs id = some set → composition.Uses inputs id → Q id set)
    (hcall : CallsCarry call composition.dependencies Q) {state : DispatchState Ctx}
    (hok : initialState call composition inputs = .ok state) :
    StateCarries composition.dependencies composition.outputMap Q state := by
  have hstart := hok
  rw [initialState] at hstart
  obtain ⟨outputSets, hpreset, hstart⟩ := (bind_eq_ok_iff _ _ _).mp hstart
  obtain ⟨⟨functions, skipped⟩, hprepare, -⟩ := (bind_eq_ok_iff _ _ _).mp hstart
  rw [initialState_eq call hpreset hprepare] at hok
  cases hok
  obtain ⟨hfunctions, hskipped⟩ := prepareFunctions_carries
    (fun deps hdeps id htakes set hset => hinputs id set hset (.inr ⟨deps, hdeps, htakes⟩)) hprepare
  refine ⟨?_, fun args hargs => ?_, fun report hreport => ?_⟩
  · refine presetOutputs_carries (fun j slot set hslot hj => ?_) (fun slot set hslot => ?_) hpreset
    · rw [Nat.zero_add] at hslot ⊢
      exact hinputs j set hj (.inl ⟨slot, hslot⟩)
    · cases List.eq_of_mem_replicate (List.mem_of_getElem? (getElem?_of_slotSet hslot))
  · exact hfunctions args (List.mem_of_mem_filter hargs)
  · rcases List.mem_append.mp hreport with hreport | hreport
    · obtain ⟨report', hmem, heq⟩ := List.mem_map.mp hreport
      cases heq
      exact hskipped report hmem
    · obtain ⟨args, hargs, heq⟩ := List.mem_map.mp hreport
      obtain ⟨deps, hdeps, hcarry⟩ := hfunctions args (List.mem_of_mem_filter hargs)
      exact hcarry.start hcall hdeps report (heq ▸ List.mem_singleton_self _)

/-- The rule for runs: the outputs are sets of the ids that are mapped to their slots. -/
theorem queueComposition_carries {composition : Composition}
    (hinputs : ∀ id set, slotSet inputs id = some set → composition.Uses inputs id → Q id set)
    (hcall : CallsCarry call composition.dependencies Q) {order : Nat → Nat} {fuel : Nat}
    {state : DispatchState Ctx} (hok : queueComposition call composition inputs order fuel = .ok state) :
    OutputsCarry composition.outputMap Q state.outputSets := by
  rw [queueComposition] at hok
  obtain ⟨first, hfirst, hloop⟩ := (bind_eq_ok_iff _ _ _).mp hok
  have hrun : Meets (loop (awaitNext call composition.outputMap) fuel (first, order))
      (StateCarries composition.dependencies composition.outputMap Q) (fun _ => True) := by
    apply loop_meets_partial (fun s : DispatchState Ctx × (Nat → Nat) =>
      StateCarries composition.dependencies composition.outputMap Q s.1) trivial
    · rintro ⟨state, order⟩ hstate
      exact awaitNext_carries hcall hstate order
    · exact initialState_carries hinputs hcall hfirst
  rw [hloop] at hrun
  exact StateCarries.outputs hrun

end Start
end Dandelion
