import Dandelion.CallTrees
import Dandelion.CarriedSets
import Dandelion.OutputSlots
import Dandelion.ShardOrigins

/-!
# Combining the results of shards

Which set of its contexts a result is for is decided where its items were made, possibly several
compositions deep, or by the caller when an input is passed through. For every slot of a function
there is one such origin: the position of the slot for a function that runs on an engine, and for
a composition what its dependencies lead back to, as every set is assigned in one place. The
shards of a call therefore agree at every slot, and their results can be combined.

The numbers of a composition's own sets follow those of its parameters, and a call may pass more
sets than there are parameters: only its own module's declaration of the called function limits
their number. Such a set is assigned in two places, by the caller and inside, and shards may
disagree about it.
-/

namespace Dandelion

open CallTrees Outcome

section Results

variable {Ctx : Type}

/-- The input sets of the runs of a sharded call; a function without items runs once. -/
def shardInputs (inputSets : FunctionInputs Ctx) (joinInfo : List Nat × List JoinStrategy) :
    DandelionResult (List (Entry Ctx)) :=
  if isSharded inputSets then
    match getSharding inputSets joinInfo.1 joinInfo.2 with
    | .ok sharded => pure sharded
    | .error .diverge => .error .diverge
    | .error _ => crash
  else pure [[]]

/-- What a sharded call can report when each of its runs can return what `returns` says. -/
def ShardedReturns (returns : String → Entry Ctx → List (Option (CompositionSet Ctx)) → Prop)
    (functionId : String) (inputSets : FunctionInputs Ctx)
    (joinInfo : List Nat × List JoinStrategy) (outputMapping : List (Option Nat))
    (report : NewCompositions Ctx) : Prop :=
  ∃ shards results sets, shardInputs inputSets joinInfo = .ok shards ∧
    List.Forall₂ (returns functionId) shards results ∧
    compositionSetVecs outputMapping.length results = .ok sets ∧
    associate outputMapping sets = report

/-- What `queue_function` can return, for compositions nested up to a depth, when it and every call
that it leads to are `allowed`. A function can return with any context; a composition depends on the
order in which its calls finish, and on what these return. -/
def CallReturns (functions : String → Option FunctionType) (content : Ctx → List (Option DataSet))
    (allowed : String → Entry Ctx → Prop) :
    Nat → String → Entry Ctx → List (Option (CompositionSet Ctx)) → Prop
  | 0, _, _, _ => False
  | depth + 1, name, inputs, result =>
    allowed name inputs ∧
    match functions name with
    | none => False
    | some .function => ∃ context, result = functionSets content context
    | some (.composition composition) => ∃ (call : ShardedCall Ctx) (order : Nat → Nat) (fuel : Nat)
        (state : DispatchState Ctx),
        (∀ functionId inputSets joinInfo outputMapping report,
          call functionId inputSets joinInfo outputMapping = .ok report →
            ShardedReturns (CallReturns functions content allowed depth) functionId inputSets joinInfo
              outputMapping report) ∧
        queueComposition call composition inputs order fuel = .ok state ∧
        result = state.outputSets

theorem compositionResults_shards {queueFunction : FunctionCall Ctx} {functionId : String}
    {inputSets : FunctionInputs Ctx} {joinInfo : List Nat × List JoinStrategy}
    {results : List (List (Option (CompositionSet Ctx)))}
    (h : compositionResults queueFunction functionId inputSets joinInfo = .ok results) :
    ∃ shards, shardInputs inputSets joinInfo = .ok shards ∧
      List.Forall₂ (fun shard result => queueFunction functionId shard = .ok result) shards
        results := by
  rw [compositionResults] at h
  rw [shardInputs]
  split at h
  · next hsharded =>
    rw [if_pos hsharded]
    cases hsharding : getSharding inputSets joinInfo.1 joinInfo.2 with
    | error stop =>
      rw [hsharding] at h
      cases stop <;> cases h
    | ok shards =>
      rw [hsharding] at h
      refine ⟨shards, rfl, ?_⟩
      have hall : (shards.map (queueFunction functionId)).mapM id = .ok results := by
        simp only [joinAllResults] at h
        split at h
        · cases h
        · exact h
      clear hsharding h
      induction shards generalizing results with
      | nil =>
        cases hall
        exact .nil
      | cons shard shards ih =>
        rw [List.map_cons, List.mapM_cons] at hall
        obtain ⟨result, hresult, hall⟩ := (bind_eq_ok_iff _ _ _).mp hall
        obtain ⟨rest, hrest, hall⟩ := (bind_eq_ok_iff _ _ _).mp hall
        cases hall
        exact .cons hresult (ih hrest)
  · next hsharded =>
    rw [if_neg hsharded]
    obtain ⟨result, hresult, h⟩ := (bind_eq_ok_iff _ _ _).mp h
    cases h
    exact ⟨_, rfl, .cons hresult .nil⟩

variable {functions : String → Option FunctionType} {content : Ctx → List (Option DataSet)}

theorem shardedReturns_of_queueFunctionSharded {queueFunction : FunctionCall Ctx}
    {returns : String → Entry Ctx → List (Option (CompositionSet Ctx)) → Prop}
    (hqueue : ∀ name inputs result, queueFunction name inputs = .ok result →
      returns name inputs result)
    {functionId : String} {inputSets : FunctionInputs Ctx}
    {joinInfo : List Nat × List JoinStrategy} {outputMapping : List (Option Nat)}
    {report : NewCompositions Ctx}
    (h : queueFunctionSharded queueFunction functionId inputSets joinInfo outputMapping =
      .ok report) :
    ShardedReturns returns functionId inputSets joinInfo outputMapping report := by
  rw [queueFunctionSharded] at h
  obtain ⟨results, hresults, h⟩ := (bind_eq_ok_iff _ _ _).mp h
  obtain ⟨sets, hsets, h⟩ := (bind_eq_ok_iff _ _ _).mp h
  cases h
  obtain ⟨shards, hshards, hruns⟩ := compositionResults_shards hresults
  exact ⟨shards, results, sets, hshards, hruns.imp fun shard result => hqueue _ _ _, hsets, rfl⟩

theorem returns_of_queueFunction {runOnEngine : FunctionCall Ctx} {call : ShardedCall Ctx}
    (hrun : ∀ name inputs result, runOnEngine name inputs = .ok result →
      ∃ context, result = functionSets content context)
    {depth : Nat} (hcall : ∀ functionId inputSets joinInfo outputMapping report,
      call functionId inputSets joinInfo outputMapping = .ok report →
        ShardedReturns (CallReturns functions content (fun _ _ => True) depth) functionId inputSets
          joinInfo outputMapping report)
    {order : Nat → Nat} {fuel : Nat} {name : String} {inputs : Entry Ctx}
    {result : List (Option (CompositionSet Ctx))}
    (h : queueFunction functions runOnEngine call order fuel name inputs = .ok result) :
    CallReturns functions content (fun _ _ => True) (depth + 1) name inputs result := by
  rw [queueFunction] at h
  rw [CallReturns]
  refine ⟨trivial, ?_⟩
  cases hname : functions name with
  | none =>
    simp only [hname] at h
    cases h
  | some functionType =>
    simp only [hname] at h
    cases functionType with
    | function => exact hrun _ _ _ h
    | composition composition =>
      obtain ⟨state, hstate, h⟩ := (bind_eq_ok_iff _ _ _).mp h
      cases h
      exact ⟨call, order, fuel, state, hcall, hstate, rfl⟩

/-- Calls nested up to a depth, with one order of finishing for all of them. -/
def nestedCall (functions : String → Option FunctionType) (runOnEngine : FunctionCall Ctx)
    (order : Nat → Nat) (fuel : Nat) : Nat → FunctionCall Ctx :=
  callAt (fun _ call => queueFunction functions runOnEngine (queueFunctionSharded call) order fuel)
    fun _ _ => crash

theorem callReturns_of_nestedCall {runOnEngine : FunctionCall Ctx}
    (hrun : ∀ name inputs result, runOnEngine name inputs = .ok result →
      ∃ context, result = functionSets content context)
    {order : Nat → Nat} {fuel depth : Nat} {name : String} {inputs : Entry Ctx}
    {result : List (Option (CompositionSet Ctx))}
    (h : nestedCall functions runOnEngine order fuel depth name inputs = .ok result) :
    CallReturns functions content (fun _ _ => True) depth name inputs result := by
  induction depth generalizing name inputs result with
  | zero => cases h
  | succ depth ih =>
    exact returns_of_queueFunction hrun (fun functionId inputSets joinInfo outputMapping report h =>
      shardedReturns_of_queueFunctionSharded (fun name inputs result => ih) h) h

end Results

section Origins

variable {Ctx : Type}

/-- What decides the set of the contexts that a returned set is for. -/
inductive SetOrigin where
  | fixed (index : Nat)
  | input (position : Nat)
deriving DecidableEq, Repr

def SetOrigin.Describes (inputs : Entry Ctx) (set : CompositionSet Ctx) : SetOrigin → Prop
  | .fixed index => set.setIndex = index
  | .input position => ∃ source, slotSet inputs position = some source ∧
      set.setIndex = source.setIndex

/-- Every set of a result is as the origin of its slot says. -/
def Described (origin : Nat → SetOrigin) (inputs : Entry Ctx)
    (result : List (Option (CompositionSet Ctx))) : Prop :=
  ∀ slot set, slotSet result slot = some set → (origin slot).Describes inputs set

theorem SetOrigin.Describes.congr {inputs : Entry Ctx} {set set' : CompositionSet Ctx}
    {origin : SetOrigin} (h : origin.Describes inputs set) (heq : set'.setIndex = set.setIndex) :
    origin.Describes inputs set' := by
  cases origin with
  | fixed index => exact heq.trans h
  | input position =>
    obtain ⟨source, hsource, hindex⟩ := h
    exact ⟨source, hsource, heq.trans hindex⟩

theorem SetOrigin.Describes.setIndex_eq {inputs : Entry Ctx} {set set' : CompositionSet Ctx}
    {origin : SetOrigin} (h : origin.Describes inputs set) (h' : origin.Describes inputs set') :
    set.setIndex = set'.setIndex := by
  cases origin with
  | fixed index => exact h.trans h'.symm
  | input position =>
    obtain ⟨source, hsource, hindex⟩ := h
    obtain ⟨source', hsource', hindex'⟩ := h'
    rw [hsource] at hsource'
    cases hsource'
    exact hindex.trans hindex'.symm

theorem DrawnFrom.describes {inputSets : FunctionInputs Ctx} {shard : Entry Ctx}
    (h : DrawnFrom inputSets shard) {origin : SetOrigin} {set : CompositionSet Ctx}
    (hdescribes : origin.Describes shard set) :
    origin.Describes (inputSets.map (Option.map Prod.snd)) set := by
  cases origin with
  | fixed index => exact hdescribes
  | input position =>
    obtain ⟨source, hsource, hsame⟩ := hdescribes
    obtain ⟨mode, whole, hwhole, hcut⟩ := h position source hsource
    refine ⟨whole, ?_, hsame.trans hcut⟩
    rw [slotSet, List.getElem?_map, hwhole]
    rfl

/-- The sets of a context are at the positions of their own indices. -/
theorem functionSets_described (content : Ctx → List (Option DataSet)) (context : Ctx)
    (inputs : Entry Ctx) : Described .fixed inputs (functionSets content context) := by
  intro slot set hset
  have hget := getElem?_of_slotSet hset
  rw [functionSets, List.getElem?_mapIdx] at hget
  obtain ⟨dataOption, -, hdata⟩ := Option.map_eq_some_iff.mp hget
  obtain ⟨data, -, rfl⟩ := Option.map_eq_some_iff.mp hdata
  rfl

theorem drawnFrom_of_shardInputs {inputSets : FunctionInputs Ctx}
    {joinInfo : List Nat × List JoinStrategy} {shards : List (Entry Ctx)}
    (h : shardInputs inputSets joinInfo = .ok shards) {shard : Entry Ctx} (hshard : shard ∈ shards) :
    DrawnFrom inputSets shard := by
  rw [shardInputs] at h
  split at h
  · have hsharding := getSharding_shardOf inputSets joinInfo.1 joinInfo.2
    cases hok : getSharding inputSets joinInfo.1 joinInfo.2 with
    | error stop =>
      rw [hok] at h
      cases stop <;> cases h
    | ok es =>
      rw [hok] at h hsharding
      cases h
      exact (hsharding shard hshard).2
  · cases h
    rw [List.mem_singleton.mp hshard]
    exact drawnFrom_replicate inputSets 0

/-- The sets that all runs return together are as the runs' sets are. -/
theorem Accumulated.exists_result {length : Nat} {results : List (List (Option (CompositionSet Ctx)))}
    {sets : List (Option (CompositionSet Ctx))} (h : Accumulated length results sets) {slot : Nat}
    {set : CompositionSet Ctx} (hset : slotSet sets slot = some set) :
    ∃ result ∈ results, ∃ part, slotSet result slot = some part ∧
      set.setIndex = part.setIndex := by
  have hslot := h.length_eq ▸ lt_of_slotSet hset
  by_contra hnone
  refine Option.some_ne_none set (hset.symm.trans (h.absent slot hslot fun result hresult => ?_))
  cases hpart : slotSet result slot with
  | none => rfl
  | some part =>
    obtain ⟨joined, hjoined, hindex⟩ := h.index slot hslot result hresult part hpart
    rw [hset] at hjoined
    cases hjoined
    exact absurd ⟨result, hresult, part, hpart, hindex⟩ hnone

/-- A set that a sharded call reports: an origin of the function, read at the call's inputs. -/
theorem ShardedReturns.described
    {returns : String → Entry Ctx → List (Option (CompositionSet Ctx)) → Prop} {functionId : String}
    {inputSets : FunctionInputs Ctx} {joinInfo : List Nat × List JoinStrategy}
    {outputMapping : List (Option Nat)} {report : NewCompositions Ctx}
    (h : ShardedReturns returns functionId inputSets joinInfo outputMapping report)
    {origin : Nat → SetOrigin} (hreturns : ∀ inputs result, returns functionId inputs result →
      Described origin inputs result)
    {id : Nat} {set : CompositionSet Ctx} (hmem : (id, some set) ∈ report) :
    ∃ slot, outputMapping[slot]? = some (some id) ∧
      (origin slot).Describes (inputSets.map (Option.map Prod.snd)) set := by
  obtain ⟨shards, results, sets, hshards, hruns, hsets, rfl⟩ := h
  rw [associate_eq, List.mem_filterMap] at hmem
  obtain ⟨⟨slot, id'⟩, hslot, hset⟩ := hmem
  obtain ⟨setOption, hget, heq⟩ := Option.map_eq_some_iff.mp hset
  cases heq
  refine ⟨slot, (mem_mappedSlots _ _ _).mp hslot, ?_⟩
  have hslotSet : slotSet sets slot = some set := by rw [slotSet, hget]; rfl
  cases results with
  | nil =>
    cases hsets
    cases List.eq_of_mem_replicate (List.mem_of_getElem? (getElem?_of_slotSet hslotSet))
  | cons first rest =>
    obtain ⟨result, hresult, part, hpart, hindex⟩ :=
      (compositionSetVecs_accumulated hsets).exists_result hslotSet
    obtain ⟨i, hi⟩ := List.mem_iff_getElem?.mp hresult
    rcases forall₂_getElem? hruns i with ⟨-, hnone⟩ | ⟨shard, result', hshard, hresult', hrun⟩
    · rw [hi] at hnone
      cases hnone
    · rw [hi] at hresult'
      cases hresult'
      have hdrawn := drawnFrom_of_shardInputs hshards (List.mem_of_getElem? hshard)
      exact hdrawn.describes ((hreturns shard result hrun slot part hpart).congr hindex)

end Origins

section Traces

variable {dependencies : List FunctionDependencies} {origins : String → Nat → SetOrigin}

/-- Where the sets of an id come from, given the origins of the functions that are applied. -/
inductive Traces (dependencies : List FunctionDependencies) (origins : String → Nat → SetOrigin) :
    Nat → SetOrigin → Prop
  | param {id : Nat} (hid : ∀ deps ∈ dependencies, some id ∉ deps.outputSetIds) :
      Traces dependencies origins id (.input id)
  | made {deps : FunctionDependencies} {slot id index : Nat} (hdeps : deps ∈ dependencies)
      (hid : deps.outputSetIds[slot]? = some (some id))
      (horigin : origins deps.function slot = .fixed index) :
      Traces dependencies origins id (.fixed index)
  | passed {deps : FunctionDependencies} {slot id position : Nat} {descriptor : InputSetDescriptor}
      {origin : SetOrigin} (hdeps : deps ∈ dependencies)
      (hid : deps.outputSetIds[slot]? = some (some id))
      (horigin : origins deps.function slot = .input position)
      (hinput : deps.inputSetIds[position]? = some (some descriptor))
      (htrace : Traces dependencies origins descriptor.compositionId origin) :
      Traces dependencies origins id origin

theorem output_place_unique
    (hnodup : (dependencies.flatMap fun deps => deps.outputSetIds.reduceOption).Nodup)
    {deps deps' : FunctionDependencies} (hdeps : deps ∈ dependencies)
    (hdeps' : deps' ∈ dependencies) {slot slot' id : Nat}
    (hid : deps.outputSetIds[slot]? = some (some id))
    (hid' : deps'.outputSetIds[slot']? = some (some id)) : deps = deps' ∧ slot = slot' := by
  have hsingle : SingleAssignment dependencies ([] : List (Option (CompositionSet Unit))) :=
    ⟨fun _ _ _ _ => Nat.zero_le _, hnodup⟩
  obtain rfl := hsingle.unique_producer hdeps hdeps' (List.mem_of_getElem? hid)
    (List.mem_of_getElem? hid')
  refine ⟨rfl, index_unique (g := Option.toList) (b := id) ?_ hid hid' (by simp) (by simp)⟩
  have hflat : deps.outputSetIds.flatMap Option.toList = deps.outputSetIds.reduceOption := by
    rw [List.reduceOption, List.filterMap_eq_flatMap_toList]
    rfl
  rw [hflat]
  exact List.nodup_iff_count_le_one.mp (hsingle.nodup_outputs hdeps) id

theorem Traces.unique
    (hnodup : (dependencies.flatMap fun deps => deps.outputSetIds.reduceOption).Nodup) {id : Nat}
    {origin origin' : SetOrigin} (h : Traces dependencies origins id origin)
    (h' : Traces dependencies origins id origin') : origin = origin' := by
  induction h generalizing origin' with
  | param hid =>
    cases h' with
    | param => rfl
    | made hdeps hid' => exact absurd (List.mem_of_getElem? hid') (hid _ hdeps)
    | passed hdeps hid' => exact absurd (List.mem_of_getElem? hid') (hid _ hdeps)
  | made hdeps hid horigin =>
    cases h' with
    | param hid' => exact absurd (List.mem_of_getElem? hid) (hid' _ hdeps)
    | made hdeps' hid' horigin' =>
      obtain ⟨rfl, rfl⟩ := output_place_unique hnodup hdeps hdeps' hid hid'
      exact horigin.symm.trans horigin'
    | passed hdeps' hid' horigin' =>
      obtain ⟨rfl, rfl⟩ := output_place_unique hnodup hdeps hdeps' hid hid'
      rw [horigin] at horigin'
      cases horigin'
  | passed hdeps hid horigin hinput _ ih =>
    cases h' with
    | param hid' => exact absurd (List.mem_of_getElem? hid) (hid' _ hdeps)
    | made hdeps' hid' horigin' =>
      obtain ⟨rfl, rfl⟩ := output_place_unique hnodup hdeps hdeps' hid hid'
      rw [horigin] at horigin'
      cases horigin'
    | passed hdeps' hid' horigin' hinput' htrace' =>
      obtain ⟨rfl, rfl⟩ := output_place_unique hnodup hdeps hdeps' hid hid'
      rw [horigin] at horigin'
      cases horigin'
      rw [hinput] at hinput'
      cases hinput'
      exact ih htrace'

/-- Every set of a composition is assigned in one place, and every output slot has one set. -/
structure Composition.SingleAssigned (composition : Composition) (params : Nat) : Prop where
  fresh : ∀ deps ∈ composition.dependencies, ∀ id, some id ∈ deps.outputSetIds → params ≤ id
  nodup : (composition.dependencies.flatMap fun deps => deps.outputSetIds.reduceOption).Nodup
  slots : ∀ id id' slot, composition.outputMap.get? id = some slot →
    composition.outputMap.get? id' = some slot → id = id'

open Classical in
/-- The origin of an output slot; slots without one never have a set. -/
noncomputable def outputOrigin (composition : Composition) (origins : String → Nat → SetOrigin)
    (slot : Nat) : SetOrigin :=
  if h : ∃ origin id, composition.outputMap.get? id = some slot ∧
      Traces composition.dependencies origins id origin then h.choose
  else .fixed 0

theorem outputOrigin_eq {composition : Composition} {params : Nat}
    (h : composition.SingleAssigned params) {slot id : Nat} {origin : SetOrigin}
    (hslot : composition.outputMap.get? id = some slot)
    (htrace : Traces composition.dependencies origins id origin) :
    outputOrigin composition origins slot = origin := by
  have hexists : ∃ origin id, composition.outputMap.get? id = some slot ∧
      Traces composition.dependencies origins id origin := ⟨origin, id, hslot, htrace⟩
  rw [outputOrigin, dif_pos hexists]
  obtain ⟨id', hslot', htrace'⟩ := hexists.choose_spec
  rw [h.slots id' id slot hslot' hslot] at htrace'
  exact htrace'.unique h.nodup htrace

end Traces

section Registered

variable {Ctx : Type} {functions : String → Option FunctionType}
  {content : Ctx → List (Option DataSet)} {params : String → Nat} {names : Set String}

/-- Behind the parameters of a composition, a call has no set that is used for one that the composition
makes itself. -/
def Fits (functions : String → Option FunctionType) (params : String → Nat) (name : String)
    (inputs : Entry Ctx) : Prop :=
  ∀ composition, functions name = some (.composition composition) → ∀ id set,
    slotSet inputs id = some set → params name ≤ id → composition.Uses inputs id →
      ∀ deps ∈ composition.dependencies, some id ∉ deps.outputSetIds

/-- Every composition of the given names is single assigned, and calls one of the names. -/
structure AllSingleAssigned (functions : String → Option FunctionType) (params : String → Nat)
    (names : Set String) : Prop where
  single : ∀ name ∈ names, ∀ composition, functions name = some (.composition composition) →
    composition.SingleAssigned (params name)
  closed : ∀ name ∈ names, ∀ composition, functions name = some (.composition composition) →
    ∀ deps ∈ composition.dependencies, deps.function ∈ names

/-- A set that is passed and used has no other origin than the caller. -/
theorem Composition.SingleAssigned.not_made {composition : Composition} {name : String}
    (hsingle : composition.SingleAssigned (params name))
    (hname : functions name = some (.composition composition)) {inputs : Entry Ctx}
    (hfits : Fits functions params name inputs) {id : Nat} {set : CompositionSet Ctx}
    (hset : slotSet inputs id = some set) (huses : composition.Uses inputs id) :
    ∀ deps ∈ composition.dependencies, some id ∉ deps.outputSetIds := by
  intro deps hdeps hid
  exact hfits composition hname id set hset (hsingle.fresh deps hdeps id hid) huses deps hdeps hid

/-- The outputs of a composition, if the functions that it applies have origins. -/
theorem composition_described {composition : Composition} {count : Nat}
    (hsingle : composition.SingleAssigned count) {origins : String → Nat → SetOrigin}
    {returns : String → Entry Ctx → List (Option (CompositionSet Ctx)) → Prop}
    (hreturns : ∀ deps ∈ composition.dependencies, ∀ inputs result,
      returns deps.function inputs result → Described (origins deps.function) inputs result)
    {inputs : Entry Ctx} (hinputs : ∀ id set, slotSet inputs id = some set →
      composition.Uses inputs id → ∀ deps ∈ composition.dependencies, some id ∉ deps.outputSetIds)
    {call : ShardedCall Ctx}
    (hcall : ∀ functionId inputSets joinInfo outputMapping report,
      call functionId inputSets joinInfo outputMapping = .ok report →
        ShardedReturns returns functionId inputSets joinInfo outputMapping report)
    {order : Nat → Nat} {fuel : Nat} {state : DispatchState Ctx}
    (hrun : queueComposition call composition inputs order fuel = .ok state) :
    Described (outputOrigin composition origins) inputs state.outputSets := by
  have hcarries := @queueComposition_carries _ call inputs (fun id set => ∃ origin,
    Traces composition.dependencies origins id origin ∧ origin.Describes inputs set)
    composition ?_ ?_ order fuel state hrun
  · intro slot set hset
    obtain ⟨id, hslot, origin, htrace, hdescribes⟩ := hcarries slot set hset
    rw [outputOrigin_eq hsingle hslot htrace]
    exact hdescribes
  · -- an input is the set of its own position
    intro id set hset huses
    exact ⟨.input id, .param (hinputs id set hset huses), set, hset, rfl⟩
  · intro deps hdeps inputSets report hcarry hok id set hmem
    obtain ⟨slot, hid, hdescribes⟩ := (hcall _ _ _ _ _ hok).described (hreturns deps hdeps) hmem
    cases horigin : origins deps.function slot with
    | fixed index =>
      rw [horigin] at hdescribes
      exact ⟨_, .made hdeps hid horigin, hdescribes⟩
    | input position =>
      rw [horigin] at hdescribes
      obtain ⟨source, hsource, hindex⟩ := hdescribes
      have hget := getElem?_of_slotSet hsource
      rw [List.getElem?_map] at hget
      obtain ⟨inputOption, hinput, hsome⟩ := Option.map_eq_some_iff.mp hget
      obtain ⟨⟨mode, source'⟩, rfl, rfl⟩ := Option.map_eq_some_iff.mp hsome
      obtain ⟨descriptor, hdescriptor, origin, htrace, hsourceDescribes⟩ :=
        hcarry.2 position mode source' hinput
      exact ⟨origin, .passed hdeps hid horigin hdescriptor htrace, hsourceDescribes.congr hindex⟩

/-- Every function has origins for its slots, by induction on how deep compositions are nested. -/
theorem exists_origins (hall : AllSingleAssigned functions params names) (depth : Nat) (name : String) :
    ∃ origin : Nat → SetOrigin, name ∈ names → ∀ inputs result,
      CallReturns functions content (Fits functions params) depth name inputs result →
        Described origin inputs result := by
  induction depth generalizing name with
  | zero => exact ⟨.fixed, fun _ inputs result h => h.elim⟩
  | succ depth ih =>
    choose origins horigins using ih
    cases hname : functions name with
    | none =>
      refine ⟨.fixed, fun _ inputs result h => ?_⟩
      rw [CallReturns, hname] at h
      exact h.2.elim
    | some functionType =>
      cases functionType with
      | function =>
        refine ⟨.fixed, fun _ inputs result h => ?_⟩
        rw [CallReturns, hname] at h
        obtain ⟨-, context, rfl⟩ := h
        exact functionSets_described content context inputs
      | composition composition =>
        refine ⟨outputOrigin composition origins, fun hmem inputs result h => ?_⟩
        rw [CallReturns, hname] at h
        obtain ⟨hfits, call, order, fuel, state, hcall, hrun, rfl⟩ := h
        have hsingle := hall.single name hmem composition hname
        refine composition_described hsingle (fun deps hdeps => ?_)
          (fun id set hset => hsingle.not_made hname hfits hset) hcall hrun
        exact horigins deps.function (hall.closed name hmem composition hname deps hdeps)

theorem shards_agree (hall : AllSingleAssigned functions params names) {depth : Nat} {name : String}
    (hname : name ∈ names) {inputSets : FunctionInputs Ctx}
    {joinInfo : List Nat × List JoinStrategy} {shards : List (Entry Ctx)}
    {results : List (List (Option (CompositionSet Ctx)))}
    (hshards : shardInputs inputSets joinInfo = .ok shards)
    (hresults : List.Forall₂ (CallReturns functions content (Fits functions params) depth name) shards
      results) (slot : Nat) :
    AgreeAt results slot := by
  obtain ⟨origin, horigin⟩ := @exists_origins _ functions content params names hall depth name
  -- the index that the origin of the slot gives to every set there
  have hindex : ∀ result ∈ results, ∀ set, slotSet result slot = some set →
      (origin slot).Describes (inputSets.map (Option.map Prod.snd)) set := by
    intro result hresult set hset
    obtain ⟨i, hi⟩ := List.mem_iff_getElem?.mp hresult
    rcases forall₂_getElem? hresults i with ⟨-, hnone⟩ | ⟨shard, result', hshard, hresult', hrun⟩
    · rw [hi] at hnone
      cases hnone
    · rw [hi] at hresult'
      cases hresult'
      have hdrawn := drawnFrom_of_shardInputs hshards (List.mem_of_getElem? hshard)
      exact hdrawn.describes (horigin hname shard result hrun slot set hset)
  intro result hresult result' hresult' oldSet newSet hold hnew
  exact (hindex result hresult oldSet hold).setIndex_eq (hindex result' hresult' newSet hnew)

/-- What runs of equal lengths return together: at every slot the items of all of them. -/
theorem compositionSetVecs_items {outputLength length : Nat}
    {results : List (List (Option (CompositionSet Ctx)))} {sets : List (Option (CompositionSet Ctx))}
    (hlength : ∀ result ∈ results, result.length = length)
    (h : compositionSetVecs outputLength results = .ok sets) (slot : Nat) :
    (itemsOf (slotSet sets slot)).Perm (returnedItems results slot) := by
  cases results with
  | nil =>
    cases h
    cases hslot : slotSet (List.replicate outputLength (none : Option (CompositionSet Ctx))) slot with
    | none => rfl
    | some set => cases List.eq_of_mem_replicate (List.mem_of_getElem? (getElem?_of_slotSet hslot))
  | cons first rest =>
    have haccumulated := compositionSetVecs_accumulated h
    by_cases hslot : slot < first.length
    · exact haccumulated.items slot hslot
    · -- no run has this slot
      have hnone : ∀ result ∈ first :: rest, slotSet result slot = none := by
        intro result hresult
        rw [slotSet, List.getElem?_eq_none]
        · rfl
        · rw [hlength result hresult, ← hlength first List.mem_cons_self]
          exact Nat.le_of_not_lt hslot
      have hsets : slotSet sets slot = none := by
        rw [slotSet, List.getElem?_eq_none]
        · rfl
        · rw [haccumulated.length_eq]
          exact Nat.le_of_not_lt hslot
      have hitems : returnedItems (first :: rest) slot = [] := by
        rw [returnedItems, List.flatMap_eq_nil_iff]
        intro result hresult
        rw [hnone result hresult]
        rfl
      rw [hsets, hitems]
      rfl

theorem itemsOf_sorted (setOption : Option (CompositionSet Ctx)) :
    (itemsOf setOption).Pairwise fun a b => a.1 ≤ b.1 := by
  cases setOption with
  | none => exact .nil
  | some set => exact set.sorted

/-- The shards of a call can be combined, in whatever order: their sets agree at every slot, and
the combined set has the items of all shards, sorted by key. This when neither the shards nor the calls
that they lead to give a composition a set that is used for one of its own. -/
theorem shard_results_combine (hall : AllSingleAssigned functions params names) {depth : Nat}
    {name : String} (hname : name ∈ names) {inputSets : FunctionInputs Ctx}
    {joinInfo : List Nat × List JoinStrategy} {shards : List (Entry Ctx)}
    {results : List (List (Option (CompositionSet Ctx)))}
    (hshards : shardInputs inputSets joinInfo = .ok shards)
    (hresults : List.Forall₂ (CallReturns functions content (Fits functions params) depth name) shards
      results) {length : Nat}
    (hlength : ∀ result ∈ results, result.length = length) (outputLength : Nat) :
    (∀ slot, AgreeAt results slot) ∧
      ∀ ordered : List (List (Option (CompositionSet Ctx))), ordered.Perm results →
        ∃ sets, compositionSetVecs outputLength ordered = .ok sets ∧
          ∀ slot, (itemsOf (slotSet sets slot)).Perm (returnedItems results slot) ∧
            (itemsOf (slotSet sets slot)).Pairwise fun a b => a.1 ≤ b.1 := by
  have hagree := shards_agree hall hname hshards hresults
  refine ⟨hagree, fun ordered hordered => ?_⟩
  have hok : ∃ sets, compositionSetVecs outputLength ordered = .ok sets := by
    cases ordered with
    | nil => exact ⟨_, rfl⟩
    | cons first rest =>
      refine (compositionSetVecs_ok_iff outputLength first rest).mpr fun slot _ => ?_
      intro result hresult result' hresult'
      exact hagree slot result (hordered.subset hresult) result' (hordered.subset hresult')
  obtain ⟨sets, hsets⟩ := hok
  refine ⟨sets, hsets, fun slot => ⟨?_, itemsOf_sorted _⟩⟩
  have hitems := compositionSetVecs_items
    (fun result hresult => hlength result (hordered.subset hresult)) hsets slot
  exact hitems.trans (hordered.flatMap_right _)

end Registered

/-- The output slots of a registered composition belong to one set each. -/
theorem registered_slots_distinct {registry : FunctionRegistry}
    {knownFunctions : OrderedMap String Dparser.FunctionDecl} {comp : Dparser.Composition}
    {entry : String × Composition × Metadata}
    (h : FunctionRegistry.composition registry knownFunctions comp = .ok entry) {id id' slot : Nat}
    (hid : entry.2.1.outputMap.get? id = some slot)
    (hid' : entry.2.1.outputMap.get? id' = some slot) : id = id' := by
  rw [FunctionRegistry.composition] at h
  obtain ⟨⟨start, numbers⟩, hparams, h⟩ := (bind_eq_ok_iff _ _ _).mp h
  obtain ⟨⟨counter, numbers'⟩, -, h⟩ := (bind_eq_ok_iff _ _ _).mp h
  obtain ⟨deps, -, h⟩ := (bind_eq_ok_iff _ _ _).mp h
  cases h
  have hnumbered := (numberParams_extends hparams numbered_empty).numbered
  exact numberOutputs_slots_distinct rfl hnumbered hid hid'

/-- `composition C(A) => (A) { }` -/
def returnParameter : Composition := ⟨[], ⟨[(0, 0)], by decide⟩⟩

def returnRegistry (name : String) : Option FunctionType :=
  if name = "C" then some (.composition returnParameter) else none

theorem returned_parameter_combines :
    ∃ shards results, shardInputs [some (.key, CompositionSet.ofKeys [1, 2] (by decide))] ([], []) =
        .ok shards ∧ shards.length = 2 ∧
      List.Forall₂ (CallReturns returnRegistry (fun _ => []) (Fits returnRegistry fun _ => 1) 1 "C")
        shards results ∧
      ∃ sets, compositionSetVecs 1 results = .ok sets ∧
        (itemsOf (slotSet sets 0)).Perm (returnedItems results 0) := by
  have hcomposition : ∀ name composition, returnRegistry name = some (.composition composition) →
      composition = returnParameter := by
    intro name composition h
    rw [returnRegistry] at h
    split at h <;> cases h
    rfl
  have hfits : ∀ inputs : Entry Unit, Fits returnRegistry (fun _ => 1) "C" inputs := by
    intro inputs composition h _ _ _ _ _ deps hdeps
    rw [hcomposition _ composition h] at hdeps
    exact absurd hdeps List.not_mem_nil
  have hreturns : ∀ set : CompositionSet Unit,
      CallReturns returnRegistry (fun _ => []) (Fits returnRegistry fun _ => 1) 1 "C" [some set]
        [some set] := by
    intro set
    refine ⟨hfits _, fun _ _ _ _ => crash, fun _ => 0, 1, _, ?_, rfl, rfl⟩
    intro functionId inputSets joinInfo outputMapping report h
    cases h
  have hall : AllSingleAssigned returnRegistry (fun _ => 1) {"C"} := by
    refine ⟨fun name _ composition h => ?_, fun name _ composition h deps hdeps => ?_⟩
    · rw [hcomposition name composition h]
      refine ⟨nofun, List.nodup_nil, fun id id' slot hid hid' => ?_⟩
      cases List.mem_singleton.mp ((OrderedMap.get?_eq_some_iff _ _ _).mp hid)
      cases List.mem_singleton.mp ((OrderedMap.get?_eq_some_iff _ _ _).mp hid')
      rfl
    · rw [hcomposition name composition h] at hdeps
      exact absurd hdeps List.not_mem_nil
  have hresults := List.Forall₂.cons (hreturns (CompositionSet.ofKeys [2] (by decide)))
    (.cons (hreturns (CompositionSet.ofKeys [1] (by decide))) .nil)
  have hshards : shardInputs [some (.key, CompositionSet.ofKeys [1, 2] (by decide))] ([], []) =
      .ok [[some (CompositionSet.ofKeys [2] (by decide))],
        [some (CompositionSet.ofKeys [1] (by decide))]] := rfl
  obtain ⟨-, hcombine⟩ := shard_results_combine hall rfl hshards hresults
    (fun result hresult => show result.length = 1 by
      rcases List.mem_pair.mp hresult with rfl | rfl <;> rfl) 1
  obtain ⟨sets, hsets, hitems⟩ := hcombine _ (List.Perm.refl _)
  exact ⟨_, _, hshards, rfl, hresults, sets, hsets, (hitems 0).1⟩

theorem singleAssigned_single {deps : FunctionDependencies} {params id : Nat}
    (houtput : deps.outputSetIds = [some id]) (hid : params ≤ id) :
    (⟨[deps], .single id 0⟩ : Composition).SingleAssigned params := by
  refine ⟨fun deps' hdeps' id' hid' => ?_, ?_, fun id id' slot hslot hslot' => ?_⟩
  · rw [List.mem_singleton.mp hdeps', houtput] at hid'
    cases List.mem_singleton.mp hid'
    exact hid
  · rw [List.flatMap_singleton, houtput]
    exact List.nodup_singleton id
  · cases List.mem_singleton.mp ((OrderedMap.get?_eq_some_iff _ _ _).mp hslot)
    cases List.mem_singleton.mp ((OrderedMap.get?_eq_some_iff _ _ _).mp hslot')
    rfl

/-- What is registered for `composition E(P, Q) => (R) { C(A = each P, S = all Q) => (R = B); }`. -/
def passBeyond : Composition where
  dependencies := [⟨"C", [some ⟨0, .each, false⟩, some ⟨1, .all, false⟩], ([], []), [some 2]⟩]
  outputMap := .single 2 0

def beyondRegistry (name : String) : Option FunctionType :=
  if name = "F" then some .function
  else if name = "C" then some (.composition forwardOnce)
  else if name = "E" then some (.composition passBeyond) else none

/-- A context that stands for the flag its function was given; a set is made for a raised one. -/
def flagContent (flag : Bool) : List (Option DataSet) :=
  if flag then [some ⟨"y", [⟨"", ⟨0, 1⟩, 0⟩]⟩] else []

def flagEngine : FunctionCall Bool := fun _ inputs =>
  pure (functionSets flagContent ((itemsOf (slotSet inputs 0)).any fun item => item.2.2))

def beyondInputs : FunctionInputs Bool :=
  [some (.each, ⟨[(1, 0, true), (2, 0, false)], 0, by decide⟩), some (.all, ⟨[(3, 0, true)], 1, by decide⟩)]

/-- A module that declares `function C(A, S) => (B)` passes a set to `composition C(A) => (B)` that has
the number of its returned set. The shard in which the function returns nothing reports that set. -/
theorem beyond_parameter_disagrees :
    FunctionRegistry.compositionFromModule ⟨fun name => name = "F", fun _ => true⟩
        [.functionDecl forwardDecl,
          .composition ⟨"C", ["A"], ["B"], [forwardApplication "A" "B"]⟩] =
      .ok [("C", forwardOnce, ⟨["A"], ["B"]⟩)] ∧
    FunctionRegistry.compositionFromModule ⟨fun name => name = "C", fun _ => true⟩
        [.functionDecl ⟨"C", ["A", "S"], ["B"]⟩,
          .composition ⟨"E", ["P", "Q"], ["R"], [.functionApplication
            ⟨"C", [⟨"A", "P", .each, false⟩, ⟨"S", "Q", .all, false⟩], [⟨"R", "B"⟩], none⟩]⟩] =
      .ok [("E", passBeyond, ⟨["P", "Q"], ["R"]⟩)] ∧
    AllSingleAssigned beyondRegistry (fun name => if name = "E" then 2 else 1) Set.univ ∧
    (∃ shards results, shardInputs beyondInputs ([], []) = .ok shards ∧
      List.Forall₂ (CallReturns beyondRegistry flagContent (fun _ _ => True) 2 "C") shards results ∧
      (∀ result ∈ results, result.length = 1) ∧ ¬ AgreeAt results 0 ∧
      compositionSetVecs 1 results = crash) ∧
    queueFunctionSharded (nestedCall beyondRegistry flagEngine (fun _ => 0) 3 2) "C" beyondInputs
      ([], []) [some 2] = crash := by
  have hcompositions : ∀ name composition, beyondRegistry name = some (.composition composition) →
      (name = "C" ∧ composition = forwardOnce) ∨ name = "E" ∧ composition = passBeyond := by
    intro name composition h
    rw [beyondRegistry] at h
    split at h
    · cases h
    split at h
    · next hname =>
      cases h
      exact .inl ⟨hname, rfl⟩
    split at h <;> cases h
    next hname => exact .inr ⟨hname, rfl⟩
  have hreturns : ∀ shard result,
      nestedCall beyondRegistry flagEngine (fun _ => 0) 3 2 "C" shard = .ok result →
        CallReturns beyondRegistry flagContent (fun _ _ => True) 2 "C" shard result := by
    refine fun shard result => callReturns_of_nestedCall fun name inputs result h => ?_
    cases h
    exact ⟨_, rfl⟩
  refine ⟨by decide, by decide, ⟨?_, fun _ _ _ _ _ _ => Set.mem_univ _⟩, ?_, rfl⟩
  · intro name _ composition h
    rcases hcompositions name composition h with ⟨rfl, rfl⟩ | ⟨rfl, rfl⟩
    · exact singleAssigned_single rfl (Nat.le_refl 1)
    · exact singleAssigned_single rfl (Nat.le_refl 2)
  · refine ⟨_, _, rfl, .cons (hreturns _ _ rfl) (.cons (hreturns _ _ rfl) .nil), ?_, ?_, rfl⟩
    · intro result hresult
      rcases List.mem_pair.mp hresult with rfl | rfl <;> rfl
    · intro hagree
      exact absurd (hagree _ List.mem_cons_self _ (List.mem_cons_of_mem _ List.mem_cons_self) _ _ rfl rfl)
        (by decide)

end Dandelion
