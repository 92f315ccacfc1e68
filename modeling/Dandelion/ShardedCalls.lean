import Dandelion.Dispatcher
import Mathlib.Data.List.Sort

/-!
# Calling a function with sharded inputs

`queue_function_sharded`, which runs a function once for each shard of its input sets and
combines what the runs return, and `queue_function` for compositions. A function is given by
what `queue_function` returns for it. Recorders are left out.
-/

namespace Dandelion

open Outcome

section Calls

variable {Ctx : Type}

theorem pairwise_mergeSort_key (items : List (SetItem Ctx)) :
    (items.mergeSort fun a b => a.1 ≤ b.1).Pairwise fun a b => a.1 ≤ b.1 := by
  refine (List.pairwise_mergeSort ?_ ?_ _).imp fun h => of_decide_eq_true h
  · intro a b c hab hbc
    exact decide_eq_true (Nat.le_trans (of_decide_eq_true hab) (of_decide_eq_true hbc))
  · intro a b
    rw [Bool.or_eq_true, decide_eq_true_eq, decide_eq_true_eq]
    exact Nat.le_total a.1 b.1

/-- The items of both sets in the order of their keys. The sort of the source leaves the order
of equal keys open; here it is the order of the lists. -/
def CompositionSet.combine (s additional : CompositionSet Ctx) :
    DandelionResult (CompositionSet Ctx) :=
  if s.setIndex ≠ additional.setIndex then fail (.dispatcher .compositionCombine)
  else pure ⟨(s.itemList ++ additional.itemList).mergeSort (fun a b => a.1 ≤ b.1), s.setIndex,
    pairwise_mergeSort_key _⟩

/-- What `queue_function` returns, by function and input sets. -/
abbrev FunctionCall (Ctx : Type) :=
  String → List (Option (CompositionSet Ctx)) → DandelionResult (List (Option (CompositionSet Ctx)))

def isSharded (inputSets : FunctionInputs Ctx) : Bool :=
  inputSets.length != 0 && inputSets.any fun setOption =>
    match setOption with
    | some (_, set) => !set.isEmpty
    | none => false

/-- The results of futures that are all awaited: the panic of one is the panic of all, and the
first error is returned. -/
def joinAllResults {α : Type} (results : List (DandelionResult α)) : DandelionResult (List α) :=
  match results.find? fun result => match result with
    | .error .panic => true
    | .error .diverge => true
    | _ => false with
  | some (.error stop) => .error stop
  | _ => results.mapM id

/-- Add the sets of one run to those of the runs before. -/
def accumulate : List (Option (CompositionSet Ctx)) → List (Option (CompositionSet Ctx)) →
    DandelionResult (List (Option (CompositionSet Ctx)))
  | accumulatorSet :: accumulator, elemSet :: elemVec => do
    let first ← match accumulatorSet, elemSet with
      | _, none => pure accumulatorSet
      | none, some set => pure (some set)
      | some oldSet, some newSet =>
        match oldSet.combine newSet with
        | .ok set => pure (some set)
        | .error _ => crash
    let rest ← accumulate accumulator elemVec
    pure (first :: rest)
  | accumulator, [] => pure accumulator
  | [], _ :: _ => pure []

/-- Give the sets their composition ids. -/
def associate (outputMapping : List (Option Nat)) (sets : List (Option (CompositionSet Ctx))) :
    NewCompositions Ctx :=
  (outputMapping.zip sets).filterMap fun pair => pair.1.map fun index => (index, pair.2)

/-- The results of a function for all shards of its input sets; without items it runs once,
with no input sets. -/
def compositionResults (queueFunction : FunctionCall Ctx) (functionId : String)
    (inputSets : FunctionInputs Ctx) (joinInfo : List Nat × List JoinStrategy) :
    DandelionResult (List (List (Option (CompositionSet Ctx)))) :=
  if isSharded inputSets then
    match getSharding inputSets joinInfo.1 joinInfo.2 with
    | .ok sharded => joinAllResults (sharded.map (queueFunction functionId))
    | .error .diverge => .error .diverge
    | .error _ => crash
  else do
    let result ← queueFunction functionId []
    pure [result]

/-- The sets of all runs together; `outputLength` sets are absent when there was no run. -/
def compositionSetVecs (outputLength : Nat) : List (List (Option (CompositionSet Ctx))) →
    DandelionResult (List (Option (CompositionSet Ctx)))
  | [] => pure (List.replicate outputLength none)
  | first :: rest => rest.foldlM accumulate first

def queueFunctionSharded (queueFunction : FunctionCall Ctx) : ShardedCall Ctx :=
  fun functionId inputSets joinInfo outputMapping => do
    let results ← compositionResults queueFunction functionId inputSets joinInfo
    let sets ← compositionSetVecs outputMapping.length results
    pure (associate outputMapping sets)

/-- What is registered under a name. -/
inductive FunctionType where
  | function
  | composition (composition : Composition)
deriving DecidableEq, Repr

/-- Run a function on its engine, or a composition on the dispatcher; `call` is how the
applications of the composition are called. -/
def queueFunction (functions : String → Option FunctionType) (runOnEngine : FunctionCall Ctx)
    (call : ShardedCall Ctx) (order : Nat → Nat) (fuel : Nat) : FunctionCall Ctx :=
  fun functionId inputs =>
    match functions functionId with
    | none => fail (.functionRegistry (.unknownFunction functionId))
    | some .function => runOnEngine functionId inputs
    | some (.composition composition) => do
      let state ← queueComposition call composition inputs order fuel
      pure state.outputSets

end Calls
end Dandelion
