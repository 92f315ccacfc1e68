import Dandelion.Composition
import Mathlib.Algebra.GroupWithZero.Nat

/-!
# Running a composition

`queue_composition` starts every application whose input sets are there, awaits the
started ones in whatever order they finish, and hands the sets they report to the
applications still waiting. Awaited futures are kept as their results, as a started
function depends on its arguments only; the order in which they finish is an
argument. Which applications were started, with which input sets, is recorded next
to the state of the source.
-/

namespace Dandelion

open Outcome

section Dispatch

variable {Ctx : Type}

/-- The input sets of a function, as `queue_function_sharded` takes them. -/
abbrev FunctionInputs (Ctx : Type) := List (Option (ShardingMode × CompositionSet Ctx))

/-- The composition sets a future reports, with their ids. -/
abbrev NewCompositions (Ctx : Type) := List (Nat × Option (CompositionSet Ctx))

/-- `queue_function_sharded`, by function, input sets, join info and output mapping. -/
abbrev ShardedCall (Ctx : Type) :=
  String → FunctionInputs Ctx → List Nat × List JoinStrategy → List (Option Nat) →
    DandelionResult (NewCompositions Ctx)

/-- A function that waits for input sets; `application` is its position in the composition. -/
structure FunctionArgs (Ctx : Type) where
  application : Nat
  functionId : String
  inputSets : FunctionInputs Ctx
  joinInfo : List Nat × List JoinStrategy
  outputMapping : List (Option Nat)
  missingSets : OrderedMap (Nat ×ₗ Nat) (ShardingMode × Bool)

structure DispatchState (Ctx : Type) where
  outputSets : List (Option (CompositionSet Ctx))
  nonReadyFunctions : List (FunctionArgs Ctx)
  awaitedSets : List (DandelionResult (NewCompositions Ctx))
  started : List (Nat × FunctionInputs Ctx)

/-- `is_none() || unwrap().is_empty()` -/
def noItems : Option (CompositionSet Ctx) → Bool
  | none => true
  | some set => set.isEmpty

/-- `xs[index] = x` -/
def setAt {α : Type} (xs : List α) (index : Nat) (x : α) : DandelionResult (List α) :=
  if index < xs.length then pure (xs.set index x) else crash

/-- What is reported for a function that is skipped. -/
def skippedSets (outputMapping : List (Option Nat)) : NewCompositions Ctx :=
  outputMapping.filterMap fun indexOption => indexOption.map fun index => (index, none)

/-- Write a composition set to the output, if it is an output set. -/
def writeOutput (outputMap : OrderedMap Nat Nat) (outputSets : List (Option (CompositionSet Ctx)))
    (setIndex : Nat) (setOption : Option (CompositionSet Ctx)) :
    DandelionResult (List (Option (CompositionSet Ctx))) :=
  match outputMap.get? setIndex with
  | some outputIndex => setAt outputSets outputIndex setOption
  | none => pure outputSets

/-- Write the output sets that are also input sets, from input `inputIndex` on. -/
def presetOutputs (outputMap : OrderedMap Nat Nat) :
    List (Option (CompositionSet Ctx)) → Nat → List (Option (CompositionSet Ctx)) →
      DandelionResult (List (Option (CompositionSet Ctx)))
  | [], _, outputSets => pure outputSets
  | inputSet :: inputs, inputIndex, outputSets => do
    let outputSets ← writeOutput outputMap outputSets inputIndex inputSet
    presetOutputs outputMap inputs (inputIndex + 1) outputSets

/-- The missing sets and the ready inputs of a function, from position `functionIndex` on;
`none` when a set that is not optional has no items. -/
def readyInputs (inputs : List (Option (CompositionSet Ctx))) :
    List (Option InputSetDescriptor) → Nat → OrderedMap (Nat ×ₗ Nat) (ShardingMode × Bool) →
      FunctionInputs Ctx →
      DandelionResult (Option (OrderedMap (Nat ×ₗ Nat) (ShardingMode × Bool) × FunctionInputs Ctx))
  | [], _, missingMap, ready => pure (some (missingMap, ready))
  | none :: descriptors, functionIndex, missingMap, ready =>
    readyInputs inputs descriptors (functionIndex + 1) missingMap ready
  | some descriptor :: descriptors, functionIndex, missingMap, ready =>
    match inputs[descriptor.compositionId]? with
    | some compSet =>
      if !descriptor.optional && noItems compSet then pure none
      else
        match compSet with
        | some set => do
          let ready ← setAt ready functionIndex (some (descriptor.sharding, set))
          readyInputs inputs descriptors (functionIndex + 1) missingMap ready
        | none => readyInputs inputs descriptors (functionIndex + 1) missingMap ready
    | none =>
      readyInputs inputs descriptors (functionIndex + 1)
        (missingMap.insert (toLex (descriptor.compositionId, functionIndex))
          (descriptor.sharding, descriptor.optional)) ready

/-- The functions of a composition that are not skipped, and the reports for those that are. -/
def prepareFunctions (inputs : List (Option (CompositionSet Ctx))) :
    List FunctionDependencies → Nat →
      DandelionResult (List (FunctionArgs Ctx) × List (NewCompositions Ctx))
  | [], _ => pure ([], [])
  | deps :: dependencies, application => do
    let prepared ← readyInputs inputs deps.inputSetIds 0 .empty
      (List.replicate deps.inputSetIds.length none)
    let (functions, skipped) ← prepareFunctions inputs dependencies (application + 1)
    match prepared with
    | none => pure (functions, skippedSets deps.outputSetIds :: skipped)
    | some (missingSets, inputSets) =>
      pure ({ application, functionId := deps.function, inputSets, joinInfo := deps.joinInfo,
              outputMapping := deps.outputSetIds, missingSets } :: functions, skipped)

variable (call : ShardedCall Ctx) (outputMap : OrderedMap Nat Nat)

def FunctionArgs.start (args : FunctionArgs Ctx) : DandelionResult (NewCompositions Ctx) :=
  call args.functionId args.inputSets args.joinInfo args.outputMapping

def initialState (composition : Composition) (inputs : List (Option (CompositionSet Ctx))) :
    DandelionResult (DispatchState Ctx) := do
  let outputSets ← presetOutputs composition.outputMap inputs 0
    (List.replicate composition.outputMap.len none)
  let (functions, skipped) ← prepareFunctions inputs composition.dependencies 0
  let (ready, nonReadyFunctions) := functions.partition fun args => args.missingSets.entries.isEmpty
  pure { outputSets, nonReadyFunctions,
         awaitedSets := skipped.map pure ++ ready.map (FunctionArgs.start call),
         started := ready.map fun args => (args.application, args.inputSets) }

/-- The entries of `missing_sets` for one composition set. The upper bound of the source,
position `usize::MAX`, is above every position of a vector. -/
def FunctionArgs.missing (args : FunctionArgs Ctx) (compositionSetIndex : Nat) :
    List ((Nat ×ₗ Nat) × (ShardingMode × Bool)) :=
  args.missingSets.entries.filter fun entry => (ofLex entry.1).1 = compositionSetIndex

/-- Put a set in the missing positions; a position stays `none` in the returned keys when
its set is not optional and has no items. -/
def fillMissing (setOption : Option (CompositionSet Ctx)) :
    List ((Nat ×ₗ Nat) × (ShardingMode × Bool)) → FunctionInputs Ctx →
      DandelionResult (FunctionInputs Ctx × List (Option (Nat ×ₗ Nat)))
  | [], inputSets => pure (inputSets, [])
  | (key, mode, optional) :: missing, inputSets =>
    if !optional && noItems setOption then do
      let (inputSets, keys) ← fillMissing setOption missing inputSets
      pure (inputSets, none :: keys)
    else do
      let inputSets ← setAt inputSets (ofLex key).2 (setOption.map fun set => (mode, set))
      let (inputSets, keys) ← fillMissing setOption missing inputSets
      pure (inputSets, some key :: keys)

/-- Remove the keys up to the first `none`, which cancels the function. -/
def removeKeys : List (Option (Nat ×ₗ Nat)) → OrderedMap (Nat ×ₗ Nat) (ShardingMode × Bool) →
    Option (OrderedMap (Nat ×ₗ Nat) (ShardingMode × Bool))
  | [], missingSets => some missingSets
  | some key :: keys, missingSets => removeKeys keys (missingSets.remove key)
  | none :: _, _ => none

/-- Hand a set to a waiting function: what is left of the function, the futures to await
and the starts. -/
def receiveSet (compositionSetIndex : Nat) (setOption : Option (CompositionSet Ctx))
    (args : FunctionArgs Ctx) :
    DandelionResult (Option (FunctionArgs Ctx) × List (DandelionResult (NewCompositions Ctx)) ×
      List (Nat × FunctionInputs Ctx)) := do
  let (inputSets, keys) ← fillMissing setOption (args.missing compositionSetIndex) args.inputSets
  -- one future for each position that lacks its items, also when they are several
  let skipped := (keys.filter Option.isNone).map fun _ => pure (skippedSets args.outputMapping)
  match removeKeys keys args.missingSets with
  | none => pure (none, skipped, [])
  | some missingSets =>
    let args := { args with inputSets, missingSets }
    if missingSets.entries.isEmpty then
      pure (none, skipped ++ [args.start call], [(args.application, args.inputSets)])
    else pure (some args, skipped, [])

def receiveAll (compositionSetIndex : Nat) (setOption : Option (CompositionSet Ctx)) :
    List (FunctionArgs Ctx) →
      DandelionResult (List (FunctionArgs Ctx) × List (DandelionResult (NewCompositions Ctx)) ×
        List (Nat × FunctionInputs Ctx))
  | [] => pure ([], [], [])
  | args :: functions => do
    let (kept, awaited, started) ← receiveSet call compositionSetIndex setOption args
    let (nonReady, awaited', started') ← receiveAll compositionSetIndex setOption functions
    pure (kept.toList ++ nonReady, awaited ++ awaited', started ++ started')

/-- One reported set: write it to the output and hand it to the waiting functions. -/
def deliver (state : DispatchState Ctx) (new : Nat × Option (CompositionSet Ctx)) :
    DandelionResult (DispatchState Ctx) := do
  let outputSets ← writeOutput outputMap state.outputSets new.1 new.2
  let (nonReady, awaited, started) ← receiveAll call new.1 new.2 state.nonReadyFunctions
  pure { outputSets, nonReadyFunctions := nonReady, awaitedSets := state.awaitedSets ++ awaited,
         started := state.started ++ started }

def deliverAll : NewCompositions Ctx → DispatchState Ctx → DandelionResult (DispatchState Ctx)
  | [], state => pure state
  | new :: newCompositions, state => do
    let state ← deliver call outputMap state new
    deliverAll newCompositions state

/-- One round of the loop: the future that `order` picks finishes. -/
def awaitNext : DispatchState Ctx × (Nat → Nat) →
    DandelionResult (DispatchState Ctx × (Nat → Nat) ⊕ DispatchState Ctx)
  | (state, order) =>
    match state.awaitedSets[order 0 % state.awaitedSets.length]? with
    | none => pure (.inr state)
    | some result => do
      let newCompositions ← result
      let state ← deliverAll call outputMap newCompositions
        { state with awaitedSets :=
            state.awaitedSets.eraseIdx (order 0 % state.awaitedSets.length) }
      pure (.inl (state, fun round => order (round + 1)))

/-- The output sets are those of the state that is returned. -/
def queueComposition (composition : Composition) (inputs : List (Option (CompositionSet Ctx)))
    (order : Nat → Nat) (fuel : Nat) : DandelionResult (DispatchState Ctx) := do
  let state ← initialState call composition inputs
  loop (awaitNext call composition.outputMap) fuel (state, order)

end Dispatch
end Dandelion
