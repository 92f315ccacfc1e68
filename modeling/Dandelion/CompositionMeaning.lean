import Dandelion.DispatchRuns

/-!
# What running a composition computes

Whatever the order in which the awaited functions finish, the run ends, starts exactly
the applications whose inputs are there, each once, and returns the assigned values.
The one condition is on the output map: its indices must lie inside the returned vector,
and sets that share an index must agree.
-/

namespace Dandelion

open Outcome

section Outputs

variable {Ctx : Type}

/-- Every index is inside the output vector, and sets with the same index agree. -/
def OutputMapFits (outputMap : OrderedMap Nat Nat) (value : Nat → Option (CompositionSet Ctx)) :
    Prop :=
  ∀ id index, outputMap.get? id = some index → index < outputMap.len ∧
    ∀ id', outputMap.get? id' = some index → value id' = value id

theorem outputMapFits_of_distinct {outputMap : OrderedMap Nat Nat}
    (hlt : ∀ entry ∈ outputMap.entries, entry.2 < outputMap.len)
    (hnodup : (outputMap.entries.map Prod.snd).Nodup)
    (value : Nat → Option (CompositionSet Ctx)) : OutputMapFits outputMap value := by
  intro id index hindex
  have hid := (OrderedMap.get?_eq_some_iff _ _ _).mp hindex
  refine ⟨hlt _ hid, fun id' hindex' => ?_⟩
  have hid' := (OrderedMap.get?_eq_some_iff _ _ _).mp hindex'
  have heq := List.inj_on_of_nodup_map hnodup hid' hid rfl
  exact congrArg (fun entry : Nat × Nat => value entry.1) heq

/-- The outputs hold the values of the ids that have arrived, and nothing else. -/
structure OutputsHold (outputMap : OrderedMap Nat Nat) (value : Nat → Option (CompositionSet Ctx))
    (arrived : List Nat) (outputSets : List (Option (CompositionSet Ctx))) : Prop where
  length : outputSets.length = outputMap.len
  written : ∀ id ∈ arrived, ∀ index, outputMap.get? id = some index →
    outputSets[index]? = some (value id)
  blank : ∀ index, index < outputMap.len → (∀ id ∈ arrived, outputMap.get? id ≠ some index) →
    outputSets[index]? = some none

variable {outputMap : OrderedMap Nat Nat} {value : Nat → Option (CompositionSet Ctx)}

theorem outputsHold_nil :
    OutputsHold outputMap value [] (List.replicate outputMap.len none) where
  length := List.length_replicate
  written := fun _ h => absurd h List.not_mem_nil
  blank := fun index hlt _ => by simp [hlt]

theorem writeOutput_spec (hfits : OutputMapFits outputMap value) {arrived : List Nat}
    {outputSets : List (Option (CompositionSet Ctx))}
    (h : OutputsHold outputMap value arrived outputSets) (id : Nat) :
    ∃ written, writeOutput outputMap outputSets id (value id) = .ok written ∧
      OutputsHold outputMap value (id :: arrived) written := by
  unfold writeOutput
  cases hget : outputMap.get? id with
  | none =>
    refine ⟨outputSets, rfl, h.length, ?_, fun index hlt hall =>
      h.blank index hlt fun i hi => hall i (List.mem_cons_of_mem _ hi)⟩
    intro i hi index hindex
    rcases List.mem_cons.mp hi with rfl | hi
    · rw [hget] at hindex
      cases hindex
    · exact h.written i hi index hindex
  | some index =>
    obtain ⟨hlt, hagree⟩ := hfits id index hget
    rw [← h.length] at hlt
    refine ⟨outputSets.set index (value id), setAt_of_lt hlt _, ?_, ?_, ?_⟩
    · rw [List.length_set, h.length]
    · intro i hi index' hindex'
      by_cases heq : index' = index
      · subst heq
        rw [List.getElem?_set_self hlt, hagree i hindex']
      · rw [List.getElem?_set_ne (Ne.symm heq)]
        rcases List.mem_cons.mp hi with rfl | hi
        · rw [hget] at hindex'
          exact absurd (Option.some.inj hindex').symm heq
        · exact h.written i hi index' hindex'
    · intro index' hlt' hall
      by_cases heq : index' = index
      · subst heq
        exact absurd hget (hall id List.mem_cons_self)
      · rw [List.getElem?_set_ne (Ne.symm heq)]
        exact h.blank index' hlt' fun i hi => hall i (List.mem_cons_of_mem _ hi)

theorem presetOutputs_spec (hfits : OutputMapFits outputMap value)
    (inputs : List (Option (CompositionSet Ctx))) {first : Nat}
    (hvalue : ∀ j v, inputs[j]? = some v → value (first + j) = v) {arrived : List Nat}
    (harrived : ∀ id, id ∈ arrived ↔ id < first) {outputSets : List (Option (CompositionSet Ctx))}
    (h : OutputsHold outputMap value arrived outputSets) :
    ∃ written arrived', presetOutputs outputMap inputs first outputSets = .ok written ∧
      (∀ id, id ∈ arrived' ↔ id < first + inputs.length) ∧
      OutputsHold outputMap value arrived' written := by
  induction inputs generalizing first arrived outputSets with
  | nil => exact ⟨outputSets, arrived, rfl, harrived, h⟩
  | cons inputSet inputs ih =>
    have hhead : value first = inputSet := hvalue 0 inputSet rfl
    obtain ⟨written, hok, hwritten⟩ := writeOutput_spec hfits h first
    rw [hhead] at hok
    have htail : ∀ j v, inputs[j]? = some v → value (first + 1 + j) = v := by
      intro j v hj
      rw [Nat.add_assoc, Nat.add_comm 1 j]
      exact hvalue (j + 1) v hj
    have hnext : ∀ id, id ∈ first :: arrived ↔ id < first + 1 := by
      intro id
      rw [List.mem_cons, harrived]
      omega
    obtain ⟨final, arrived', hfinal, hmem, hhold⟩ := ih htail hnext hwritten
    refine ⟨final, arrived', ?_, fun id => ?_, hhold⟩
    · rw [presetOutputs, hok]
      exact hfinal
    · rw [hmem, List.length_cons]
      omega

end Outputs

section Meaning

variable {Ctx : Type} {call : ShardedCall Ctx} {dependencies : List FunctionDependencies}
  {inputs : List (Option (CompositionSet Ctx))} {outputMap : OrderedMap Nat Nat}
  {value : Nat → Option (CompositionSet Ctx)}

/-- The invariant of the loop; `pending` are the sets of a future that are not handed out yet. -/
structure Progress (call : ShardedCall Ctx) (dependencies : List FunctionDependencies)
    (inputs : List (Option (CompositionSet Ctx))) (outputMap : OrderedMap Nat Nat)
    (value : Nat → Option (CompositionSet Ctx)) (arrived : List Nat)
    (pending : NewCompositions Ctx) (state : DispatchState Ctx) : Prop where
  inputsArrived : ∀ id < inputs.length, id ∈ arrived
  assigned : ∀ id ∈ arrived, Assigned call dependencies inputs id (value id)
  pendingAssigned : ∀ new ∈ pending, Assigned call dependencies inputs new.1 new.2
  group : Group call dependencies inputs value arrived pending (List.range dependencies.length)
    state.nonReadyFunctions state.awaitedSets state.started
  outputs : OutputsHold outputMap value arrived state.outputSets

def DispatchState.rounds (state : DispatchState Ctx) : Nat :=
  Dandelion.rounds state.nonReadyFunctions state.awaitedSets

section Loop

variable (hcalls : CallsReport call dependencies inputs)
  (hvalue : ∀ id v, Assigned call dependencies inputs id v → value id = v)
  (hfits : OutputMapFits outputMap value)
include hcalls hvalue hfits

theorem deliver_spec {arrived : List Nat} {new : Nat × Option (CompositionSet Ctx)}
    {pending : NewCompositions Ctx} {state : DispatchState Ctx}
    (h : Progress call dependencies inputs outputMap value arrived (new :: pending) state) :
    ∃ state', deliver call outputMap state new = .ok state' ∧
      Progress call dependencies inputs outputMap value (new.1 :: arrived) pending state' ∧
      state'.rounds ≤ state.rounds := by
  obtain ⟨hnew, hpending⟩ := List.forall_mem_cons.mp h.pendingAssigned
  have hval : value new.1 = new.2 := hvalue _ _ hnew
  have hassigned : ∀ id ∈ new.1 :: arrived, Assigned call dependencies inputs id (value id) :=
    List.forall_mem_cons.mpr ⟨hval ▸ hnew, h.assigned⟩
  obtain ⟨written, hwrite, houtputs⟩ := writeOutput_spec hfits h.outputs new.1
  obtain ⟨nonReady, awaited, started, hreceive, hgroup, hle⟩ :=
    receiveAll_spec hcalls hassigned state.nonReadyFunctions h.group.waiting
  rw [hval] at hwrite hreceive
  refine ⟨⟨written, nonReady, state.awaitedSets ++ awaited, state.started ++ started⟩,
    deliver_eq hwrite hreceive,
    ⟨fun id hid => List.mem_cons_of_mem _ (h.inputsArrived id hid), hassigned, hpending,
      h.group.arrive hgroup, houtputs⟩, ?_⟩
  simp only [DispatchState.rounds, rounds, List.length_append, List.length_nil] at hle ⊢
  omega

theorem deliverAll_spec (pending : NewCompositions Ctx) {arrived : List Nat}
    {state : DispatchState Ctx}
    (h : Progress call dependencies inputs outputMap value arrived pending state) :
    ∃ state' arrived', deliverAll call outputMap pending state = .ok state' ∧
      Progress call dependencies inputs outputMap value arrived' [] state' ∧
      state'.rounds ≤ state.rounds := by
  induction pending generalizing arrived state with
  | nil => exact ⟨state, arrived, rfl, h, Nat.le_refl _⟩
  | cons new pending ih =>
    obtain ⟨next, hok, hnext, hle⟩ := deliver_spec hcalls hvalue hfits h
    obtain ⟨final, arrived', hfinal, hprogress, hle'⟩ := ih hnext
    refine ⟨final, arrived', ?_, hprogress, hle'.trans hle⟩
    rw [deliverAll, hok]
    exact hfinal

/-- One round hands out the sets of one future and leaves fewer rounds. -/
theorem awaitNext_round :
    Round (awaitNext call outputMap)
      (fun s => ∃ arrived, Progress call dependencies inputs outputMap value arrived [] s.1)
      (fun s => s.1.rounds)
      (fun state => state.awaitedSets = [] ∧
        ∃ arrived, Progress call dependencies inputs outputMap value arrived [] state)
      (fun _ => False) := by
  intro s hs
  obtain ⟨state, order⟩ := s
  obtain ⟨arrived, hprogress⟩ := hs
  rw [awaitNext]
  cases hget : state.awaitedSets[order 0 % state.awaitedSets.length]? with
  | none =>
    exact ⟨awaited_nil_of_getElem? hget, arrived, hprogress⟩
  | some result =>
    obtain ⟨deps, -, report, rfl, -, hassigned⟩ :=
      hprogress.group.reports result (List.mem_of_getElem? hget)
    obtain ⟨hlt, -⟩ := List.getElem?_eq_some_iff.mp hget
    have htaken : Progress call dependencies inputs outputMap value arrived report
        { state with awaitedSets :=
          state.awaitedSets.eraseIdx (order 0 % state.awaitedSets.length) } :=
      ⟨hprogress.inputsArrived, hprogress.assigned, hassigned, hprogress.group.finish hget,
        hprogress.outputs⟩
    obtain ⟨next, arrived', hok, hnext, hle⟩ := deliverAll_spec hcalls hvalue hfits report htaken
    change Meets (deliverAll call outputMap report _ >>= _) _ _
    rw [hok]
    refine ⟨⟨arrived', hnext⟩, hle.trans_lt ?_⟩
    simp only [DispatchState.rounds, rounds, List.length_eraseIdx_of_lt hlt]
    omega

end Loop

/-- When nothing is awaited any more, an application still waits or its outputs are there. -/
theorem Progress.application_cases {arrived : List Nat} {state : DispatchState Ctx}
    (h : Progress call dependencies inputs outputMap value arrived [] state)
    (hdone : state.awaitedSets = []) {k : Nat} {deps : FunctionDependencies}
    (hdeps : dependencies[k]? = some deps) :
    (∃ args, Waiting arrived value deps args ∧ args.missingSets.entries ≠ []) ∨
      (k ∈ state.started.map Prod.fst ∨ LacksItems arrived value deps) ∧
        ∀ id, some id ∈ deps.outputSetIds → id ∈ arrived := by
  have hlt := (List.getElem?_eq_some_iff.mp hdeps).1
  rcases h.group.tracked k (List.mem_range.mpr hlt) with ⟨args, hargs, rfl⟩ | ⟨deps', hdeps', hsettled⟩
  · obtain ⟨deps', hdeps', hwaiting, hmissing⟩ := h.group.waiting args hargs
    rw [hdeps] at hdeps'
    cases hdeps'
    exact .inl ⟨args, hwaiting, hmissing⟩
  · rw [hdeps] at hdeps'
    cases hdeps'
    refine .inr ⟨hsettled.1, fun id hid => ?_⟩
    rcases hsettled.2 id hid with hin | hin | ⟨report, hreport, -⟩
    · exact hin
    · exact absurd hin List.not_mem_nil
    · rw [hdone] at hreport
      exact absurd hreport List.not_mem_nil

/-- When nothing is awaited any more, every set that has a value has arrived. -/
theorem Progress.complete (hcalls : CallsReport call dependencies inputs)
    (hvalue : ∀ id v, Assigned call dependencies inputs id v → value id = v) {arrived : List Nat}
    {state : DispatchState Ctx}
    (h : Progress call dependencies inputs outputMap value arrived [] state)
    (hdone : state.awaitedSets = []) {id : Nat} {v : Option (CompositionSet Ctx)}
    (hassigned : Assigned call dependencies inputs id v) : id ∈ arrived := by
  induction hassigned with
  | input hin => exact h.inputsArrived _ (List.getElem?_eq_some_iff.mp hin).1
  | @skipped deps descriptor v id hdeps hdescriptor hoptional hv hempty hid ih =>
    obtain ⟨k, hk⟩ := List.mem_iff_getElem?.mp hdeps
    rcases h.application_cases hdone hk with ⟨args, hwaiting, -⟩ | ⟨-, hall⟩
    · have hitems := hwaiting.supplied descriptor hdescriptor ih hoptional
      rw [hvalue _ _ hv, hempty] at hitems
      cases hitems
    · exact hall id hid
  | @reported deps values report id v hdeps hvalues hsupplied hcall hmem ih =>
    obtain ⟨k, hk⟩ := List.mem_iff_getElem?.mp hdeps
    rcases h.application_cases hdone hk with ⟨args, hwaiting, hmissing⟩ | ⟨-, hall⟩
    · obtain ⟨descriptor, hdescriptor, hnew⟩ := hwaiting.exists_missing hmissing
      exact absurd (ih descriptor hdescriptor) hnew
    · obtain ⟨report', hcall', hids⟩ := hcalls deps hdeps values hvalues hsupplied
      rw [hcall] at hcall'
      cases hcall'
      exact hall id (mem_of_reported hids hmem)

/-- The rounds that a list of applications can cause. -/
def maxRounds (dependencies : List FunctionDependencies) : Nat :=
  (dependencies.map fun deps => deps.inputSetIds.length + 1).sum

/-- The functions that wait, and the futures and starts of those that are ready. -/
def notReady (functions : List (FunctionArgs Ctx)) : List (FunctionArgs Ctx) :=
  functions.filter fun args => !args.missingSets.entries.isEmpty

def readyFunctions (functions : List (FunctionArgs Ctx)) : List (FunctionArgs Ctx) :=
  functions.filter fun args => args.missingSets.entries.isEmpty

section Start

variable (hcalls : CallsReport call dependencies inputs) {arrived : List Nat}
include hcalls

/-- A group for the functions of the composition, with one more function. -/
theorem Group.cons_function
    (harrived : ∀ id ∈ arrived, Assigned call dependencies inputs id (value id))
    {apps : List Nat} {functions : List (FunctionArgs Ctx)} {skipped : List (NewCompositions Ctx)}
    (h : Group call dependencies inputs value arrived [] apps (notReady functions)
      (skipped.map pure ++ (readyFunctions functions).map (FunctionArgs.start call))
      ((readyFunctions functions).map fun args => (args.application, args.inputSets)))
    {args : FunctionArgs Ctx} {deps : FunctionDependencies}
    (hdeps : dependencies[args.application]? = some deps)
    (hwaiting : Waiting arrived value deps args) :
    Group call dependencies inputs value arrived [] (args.application :: apps)
      (notReady (args :: functions))
      (skipped.map pure ++ (readyFunctions (args :: functions)).map (FunctionArgs.start call))
      ((readyFunctions (args :: functions)).map fun args => (args.application, args.inputSets)) := by
  by_cases hempty : args.missingSets.entries = []
  · obtain ⟨hstart, hinputSets, hsupplied⟩ := hwaiting.start_eq call hempty
    have hready : Ready call dependencies inputs value deps :=
      ⟨fun d hd => harrived _ (hwaiting.arrived_of_empty hempty d hd), hsupplied⟩
    have hwait : notReady (args :: functions) = notReady functions := by simp [notReady, hempty]
    have hrun : readyFunctions (args :: functions) = args :: readyFunctions functions := by
      simp [readyFunctions, hempty]
    rw [hwait, hrun, List.map_cons, List.map_cons, hstart, hinputSets]
    refine ((group_started hcalls hdeps hready).append h).awaited_congr fun result => ?_
    simp only [List.mem_append, List.mem_cons, List.not_mem_nil, or_false]
    rw [or_left_comm]
  · have hwait : notReady (args :: functions) = args :: notReady functions := by
      simp [notReady, hempty]
    have hrun : readyFunctions (args :: functions) = readyFunctions functions := by
      simp [readyFunctions, hempty]
    rw [hwait, hrun]
    exact (group_waiting hdeps hwaiting hempty).append h

omit hcalls in
theorem rounds_cons_function (args : FunctionArgs Ctx) (functions : List (FunctionArgs Ctx))
    (skipped : List (NewCompositions Ctx)) :
    rounds (notReady (args :: functions))
        (skipped.map pure ++ (readyFunctions (args :: functions)).map (FunctionArgs.start call)) ≤
      args.missingSets.len + 1 + rounds (notReady functions)
        (skipped.map pure ++ (readyFunctions functions).map (FunctionArgs.start call)) := by
  by_cases hempty : args.missingSets.entries = []
  · simp only [rounds, notReady, readyFunctions, List.filter_cons, hempty]
    simp
    omega
  · have hisEmpty : args.missingSets.entries.isEmpty = false := by simpa using hempty
    simp only [rounds, notReady, readyFunctions, List.filter_cons, hisEmpty]
    simp
    omega

variable (hinputs : ∀ id, id ∈ arrived ↔ id < inputs.length)
  (hvalue : ∀ id v, inputs[id]? = some v → value id = v)
include hinputs hvalue

theorem prepareFunctions_spec (rest : List FunctionDependencies) {first : Nat}
    (hrest : dependencies.drop first = rest) :
    ∃ functions skipped, prepareFunctions inputs rest first = .ok (functions, skipped) ∧
      Group call dependencies inputs value arrived [] (List.range' first rest.length)
        (notReady functions)
        (skipped.map pure ++ (readyFunctions functions).map (FunctionArgs.start call))
        ((readyFunctions functions).map fun args => (args.application, args.inputSets)) ∧
      rounds (notReady functions)
        (skipped.map pure ++ (readyFunctions functions).map (FunctionArgs.start call)) ≤
          maxRounds rest := by
  have harrived : ∀ id ∈ arrived, Assigned call dependencies inputs id (value id) := by
    intro id hid
    have hlt := (hinputs id).mp hid
    rw [hvalue id _ (List.getElem?_eq_getElem hlt)]
    exact .input (List.getElem?_eq_getElem hlt)
  induction rest generalizing first with
  | nil =>
    refine ⟨[], [], rfl, ⟨?_, ?_, ?_, ?_, ?_⟩, Nat.zero_le _⟩
    all_goals simp [notReady, readyFunctions]
  | cons deps rest ih =>
    obtain ⟨hhead, htail⟩ := drop_eq_cons hrest
    obtain ⟨functions, skipped, hok, hgroup, hle⟩ := ih htail
    have hmax : maxRounds (deps :: rest) = deps.inputSetIds.length + 1 + maxRounds rest := by
      simp [maxRounds]
    rw [hmax, List.length_cons, List.range'_succ]
    rcases readyInputs_spec hinputs hvalue deps.inputSetIds (Nat.zero_le _) rfl
      (prepared_zero arrived deps) with ⟨hready, hlacks⟩ | ⟨missingMap, ready, hready, hprepared⟩
    · refine ⟨functions, skippedSets deps.outputSetIds :: skipped, prepareFunctions_skip hok hready,
        (group_skipped harrived hhead hlacks Nat.one_pos).append hgroup, ?_⟩
      simp only [rounds, List.map_cons, List.cons_append, List.length_cons] at hle ⊢
      omega
    · refine ⟨_ :: functions, skipped, prepareFunctions_wait hok hready,
        Group.cons_function hcalls harrived hgroup hhead (hprepared.waiting first), ?_⟩
      refine (rounds_cons_function _ _ _).trans (Nat.add_le_add ?_ hle)
      exact Nat.succ_le_succ hprepared.len_le

end Start

variable (call) in
theorem initialState_eq {composition : Composition} {outputSets : List (Option (CompositionSet Ctx))}
    {functions : List (FunctionArgs Ctx)} {skipped : List (NewCompositions Ctx)}
    (hpreset : presetOutputs composition.outputMap inputs 0
      (List.replicate composition.outputMap.len none) = .ok outputSets)
    (hprepare : prepareFunctions inputs composition.dependencies 0 = .ok (functions, skipped)) :
    initialState call composition inputs = .ok
      { outputSets, nonReadyFunctions := notReady functions
        awaitedSets := skipped.map pure ++ (readyFunctions functions).map (FunctionArgs.start call)
        started := (readyFunctions functions).map fun args => (args.application, args.inputSets) } := by
  rw [initialState, hpreset]
  change (prepareFunctions _ _ _ >>= _) = _
  rw [hprepare]
  simp only [List.partition_eq_filter_filter]
  rfl

theorem initialState_spec {composition : Composition}
    (hcalls : CallsReport call composition.dependencies inputs)
    (hvalue : ∀ id v, Assigned call composition.dependencies inputs id v → value id = v)
    (hfits : OutputMapFits composition.outputMap value) :
    ∃ state arrived, initialState call composition inputs = .ok state ∧
      Progress call composition.dependencies inputs composition.outputMap value arrived [] state ∧
      state.rounds ≤ maxRounds composition.dependencies := by
  have hinput : ∀ id v, inputs[id]? = some v → value id = v := fun id v h => hvalue id v (.input h)
  have hpreset : ∀ j v, inputs[j]? = some v → value (0 + j) = v := by
    intro j v h
    rw [Nat.zero_add]
    exact hinput j v h
  obtain ⟨outputSets, arrived, houtputs, harrived, hhold⟩ :=
    presetOutputs_spec hfits inputs hpreset (fun id => by simp) outputsHold_nil
  rw [Nat.zero_add] at harrived
  obtain ⟨functions, skipped, hok, hgroup, hle⟩ :=
    prepareFunctions_spec hcalls harrived hinput composition.dependencies List.drop_zero
  refine ⟨_, arrived, initialState_eq call houtputs hok,
    ⟨fun id => (harrived id).mpr, fun id hid => ?_, fun _ h => absurd h List.not_mem_nil, ?_, hhold⟩,
    hle⟩
  · have hlt := (harrived id).mp hid
    rw [hinput id _ (List.getElem?_eq_getElem hlt)]
    exact .input (List.getElem?_eq_getElem hlt)
  · rw [List.range_eq_range']
    exact hgroup

section Compute

variable (call) (inputs) (composition : Composition)

/-- The returned state holds the meaning of the composition: the assigned values at the
indices of the output map, and one start for each application whose inputs are there. -/
structure Computes (state : DispatchState Ctx) : Prop where
  length : state.outputSets.length = composition.outputMap.len
  outputs : ∀ id index, composition.outputMap.get? id = some index →
    state.outputSets[index]? = some (assignedValue call composition.dependencies inputs id)
  once : (state.started.map Prod.fst).Nodup
  started : ∀ application inputSets, (application, inputSets) ∈ state.started ↔
    ∃ deps, composition.dependencies[application]? = some deps ∧
      Ready call composition.dependencies inputs
        (assignedValue call composition.dependencies inputs) deps ∧
      inputSets = suppliedInputs deps (assignedValue call composition.dependencies inputs)

variable {call inputs composition}

theorem Progress.computes (hcalls : CallsReport call composition.dependencies inputs)
    (hvalue : ∀ id v, Assigned call composition.dependencies inputs id v →
      assignedValue call composition.dependencies inputs id = v)
    (hfits : OutputMapFits composition.outputMap
      (assignedValue call composition.dependencies inputs))
    {arrived : List Nat} {state : DispatchState Ctx}
    (h : Progress call composition.dependencies inputs composition.outputMap
      (assignedValue call composition.dependencies inputs) arrived [] state)
    (hdone : state.awaitedSets = []) : Computes call inputs composition state where
  length := h.outputs.length
  outputs := by
    intro id index hindex
    by_cases hshared : ∃ id' ∈ arrived, composition.outputMap.get? id' = some index
    · obtain ⟨id', hid', hindex'⟩ := hshared
      rw [h.outputs.written id' hid' index hindex', (hfits id index hindex).2 id' hindex']
    · have hnone : ¬ ∃ v, Assigned call composition.dependencies inputs id v := by
        rintro ⟨v, hv⟩
        exact hshared ⟨id, h.complete hcalls hvalue hdone hv, hindex⟩
      rw [assignedValue_of_not hnone]
      refine h.outputs.blank index (hfits id index hindex).1 fun id' hid' hindex' => ?_
      exact hshared ⟨id', hid', hindex'⟩
  once := by
    rw [List.nodup_iff_count_le_one]
    intro k
    have hk := h.group.once k
    have hrange := List.nodup_iff_count_le_one.mp
      (List.nodup_range (n := composition.dependencies.length)) k
    omega
  started := by
    intro k inputSets
    constructor
    · intro hmem
      exact h.group.ready (k, inputSets) hmem
    · rintro ⟨deps, hdeps, hready, rfl⟩
      rcases h.application_cases hdone hdeps with ⟨args, hwaiting, hmissing⟩ | ⟨hstarted, -⟩
      · obtain ⟨descriptor, hdescriptor, hnew⟩ := hwaiting.exists_missing hmissing
        exact absurd (h.complete hcalls hvalue hdone (hready.1 descriptor hdescriptor)) hnew
      · rcases hstarted with hstarted | ⟨descriptor, hdescriptor, -, hoptional, hempty⟩
        · obtain ⟨start, hstart, rfl⟩ := List.mem_map.mp hstarted
          obtain ⟨deps', hdeps', -, heq⟩ := h.group.ready start hstart
          rw [hdeps] at hdeps'
          cases hdeps'
          rw [← heq]
          exact hstart
        · have hitems := hready.2 descriptor hdescriptor hoptional
          rw [hempty] at hitems
          cases hitems

/-- Whatever the order in which the awaited functions finish, the run computes the meaning
of the composition, exactly when the output map fits. -/
theorem queueComposition_computes_iff
    (hsingle : SingleAssignment composition.dependencies inputs)
    (hcalls : CallsReport call composition.dependencies inputs) :
    (∀ order fuel, maxRounds composition.dependencies < fuel →
      ∃ state, queueComposition call composition inputs order fuel = .ok state ∧
        Computes call inputs composition state) ↔
    OutputMapFits composition.outputMap
      (assignedValue call composition.dependencies inputs) := by
  have hvalue : ∀ id v, Assigned call composition.dependencies inputs id v →
      assignedValue call composition.dependencies inputs id = v :=
    fun id v h => h.value_eq hsingle hcalls
  constructor
  · intro h id index hindex
    obtain ⟨state, -, hcomputes⟩ := h (fun _ => 0) _ (Nat.lt_succ_self _)
    have hid := hcomputes.outputs id index hindex
    refine ⟨?_, fun id' hindex' => ?_⟩
    · rw [← hcomputes.length]
      exact (List.getElem?_eq_some_iff.mp hid).1
    · rw [hcomputes.outputs id' index hindex'] at hid
      exact Option.some.inj hid
  · intro hfits order fuel hfuel
    obtain ⟨state, arrived, hinit, hprogress, hrounds⟩ := initialState_spec hcalls hvalue hfits
    have hloop := loop_meets _ _ (awaitNext_round hcalls hvalue hfits) fuel (state, order)
      ⟨arrived, hprogress⟩ (hrounds.trans_lt hfuel)
    obtain ⟨final, hfinal, hdone, arrived', hprogress'⟩ := (meets_total_iff _ _).mp hloop
    refine ⟨final, ?_, hprogress'.computes hcalls hvalue hfits hdone⟩
    rw [queueComposition, hinit]
    exact hfinal

end Compute

end Meaning

/-- A function that reports its first input set at each of its outputs. -/
def forwardFirst : ShardedCall Unit := fun _ inputSets _ outputMapping =>
  pure (outputMapping.reduceOption.map fun id => (id, (inputSets.head?.join).map Prod.snd))

/-- Two applications, the second of which takes the output of the first. -/
def forwardTwice : Composition where
  dependencies := [⟨"F", [some ⟨1, .all, true⟩], ([], []), [some 2]⟩,
    ⟨"F", [some ⟨0, .all, false⟩], ([], []), [some 1]⟩]
  outputMap := ⟨[(0, 2), (1, 0), (2, 1)], by decide⟩

theorem forwardFirst_reports (dependencies : List FunctionDependencies)
    (inputs : List (Option (CompositionSet Unit))) :
    CallsReport forwardFirst dependencies inputs := by
  intro deps _ values _ _
  refine ⟨_, rfl, ?_⟩
  rw [List.map_map]
  exact List.map_id _

theorem forwardTwice_computes :
    SingleAssignment forwardTwice.dependencies
      [some (CompositionSet.ofKeys [1, 2] (by decide))] ∧
    ∀ order fuel, 4 < fuel →
      ∃ state, queueComposition forwardFirst forwardTwice
          [some (CompositionSet.ofKeys [1, 2] (by decide))] order fuel = .ok state ∧
        Computes forwardFirst [some (CompositionSet.ofKeys [1, 2] (by decide))] forwardTwice state := by
  have hsingle : SingleAssignment forwardTwice.dependencies
      [some (CompositionSet.ofKeys [1, 2] (by decide))] :=
    ⟨by simp [forwardTwice], by decide⟩
  exact ⟨hsingle, (queueComposition_computes_iff hsingle (forwardFirst_reports _ _)).mpr
    (outputMapFits_of_distinct (by decide) (by decide) _)⟩

/-- `composition C(x) => (x, x) { }` -/
def duplicateReturns : Dparser.Composition := ⟨"C", ["x"], ["x", "x"], []⟩

/-- The composition is registered with one output index for its set, the second. -/
def duplicateComposition : Composition := ⟨[], ⟨[(0, 1)], List.pairwise_singleton _ _⟩⟩

/-- A composition that returns a set twice is registered, and running it panics. -/
theorem duplicate_returns_panic :
    FunctionRegistry.compositionFromModule ⟨fun _ => false, fun _ => true⟩
        [.composition duplicateReturns] =
      .ok [("C", duplicateComposition, ⟨["x"], ["x", "x"]⟩)] ∧
    SingleAssignment duplicateComposition.dependencies
      [some (CompositionSet.ofKeys [1] (by decide))] ∧
    CallsReport forwardFirst duplicateComposition.dependencies
      [some (CompositionSet.ofKeys [1] (by decide))] ∧
    ∀ order fuel, queueComposition forwardFirst duplicateComposition
      [some (CompositionSet.ofKeys [1] (by decide))] order fuel = crash :=
  ⟨by decide, ⟨by simp [duplicateComposition], by decide⟩, forwardFirst_reports _ _,
    fun _ _ => rfl⟩

end Dandelion
