import Dandelion.Errors
import Dandelion.JoinIterator
import Dandelion.OrderedMap
import Mathlib.Data.String.Basic

/-!
# Compositions and their registration

The syntax tree the composition parser returns, and `composition_from_module`,
which numbers the sets of each composition and turns its statements into function
dependencies. Source positions are left out of the syntax tree, as the
registration does not read them.
-/

namespace Dandelion

open Outcome

namespace Dparser

structure FunctionDecl where
  name : String
  params : List String
  returns : List String
deriving DecidableEq, Repr

inductive Sharding where
  | all
  | keyed
  | each
deriving DecidableEq, Repr

structure InputDescriptor where
  name : String
  ident : String
  sharding : Sharding
  optional : Bool
deriving DecidableEq, Repr

inductive JoinFilterStrategy where
  | cross
  | inner
  | left
  | right
  | full
deriving DecidableEq, Repr

structure OutputDescriptor where
  ident : String
  name : String
deriving DecidableEq, Repr

structure FunctionApplicationJoinStrategy where
  joinStrategyOrder : List String
  joinStrategies : List JoinFilterStrategy
deriving DecidableEq, Repr

structure FunctionApplication where
  name : String
  args : List InputDescriptor
  rets : List OutputDescriptor
  joinStrategy : Option FunctionApplicationJoinStrategy
deriving DecidableEq, Repr

structure Loop where
  args : List InputDescriptor
  rets : List OutputDescriptor
  statements : List FunctionApplication
deriving DecidableEq, Repr

inductive Statement where
  | functionApplication (application : FunctionApplication)
  | loop (body : Loop)
deriving DecidableEq, Repr

structure Composition where
  name : String
  params : List String
  returns : List String
  statements : List Statement
deriving DecidableEq, Repr

inductive Item where
  | functionDecl (decl : FunctionDecl)
  | composition (comp : Composition)
deriving DecidableEq, Repr

abbrev Module := List Item

end Dparser

def ShardingMode.fromParserSharding : Dparser.Sharding → ShardingMode
  | .all => .all
  | .keyed => .key
  | .each => .each

def JoinStrategy.fromParserStrategy : Dparser.JoinFilterStrategy → DandelionResult JoinStrategy
  | .inner => pure .inner
  | .left => pure .left
  | .right => pure .right
  | .full => pure .outer
  | .cross => crash

/-- An input set of an application: the composition set it comes from, how that is
sharded, and whether the function also runs without items in it. -/
structure InputSetDescriptor where
  compositionId : Nat
  sharding : ShardingMode
  optional : Bool
deriving DecidableEq, Repr

structure FunctionDependencies where
  function : String
  inputSetIds : List (Option InputSetDescriptor)
  joinInfo : List Nat × List JoinStrategy
  outputSetIds : List (Option Nat)
deriving DecidableEq, Repr

structure Composition where
  dependencies : List FunctionDependencies
  outputMap : OrderedMap Nat Nat
deriving DecidableEq, Repr

/-- The set names of a registered composition; it presets no inputs. -/
structure Metadata where
  inputSets : List String
  outputSets : List String
deriving DecidableEq, Repr

/-- What the registration asks of its surroundings: which names the registry
already has, and whether a vector of the given length can be reserved. -/
structure FunctionRegistry where
  existsName : String → Bool
  tryReserve : Nat → Bool

abbrev SetNumbers := OrderedMap String Nat

namespace FunctionRegistry

def reserve (registry : FunctionRegistry) (n : Nat) : DandelionResult Unit :=
  if registry.tryReserve n then pure () else fail .outOfMemory

/-- Number the composition's input sets from 0 on. -/
def numberParams : List String → Nat → SetNumbers → DandelionResult (Nat × SetNumbers)
  | [], setCounter, setNumbers => pure (setCounter, setNumbers)
  | name :: params, setCounter, setNumbers =>
    match setNumbers.get? name with
    | none => numberParams params (setCounter + 1) (setNumbers.insert name setCounter)
    | some _ => fail (.composition .duplicateSetName)

/-- Number the composition's output sets; one that is an input set keeps its number. -/
def numberOutputs : List String → Nat → Nat → SetNumbers → OrderedMap Nat Nat →
    Nat × SetNumbers × OrderedMap Nat Nat
  | [], _, setCounter, setNumbers, outputMap => (setCounter, setNumbers, outputMap)
  | name :: returns, outputIndex, setCounter, setNumbers, outputMap =>
    match setNumbers.get? name with
    | none =>
      numberOutputs returns (outputIndex + 1) (setCounter + 1) (setNumbers.insert name setCounter)
        (outputMap.insert setCounter outputIndex)
    | some id =>
      numberOutputs returns (outputIndex + 1) setCounter setNumbers (outputMap.insert id outputIndex)

/-- Number the sets an application returns, unless they are output sets. -/
def numberReturns (outputSetsStart outputSetsEnd : Nat) :
    List Dparser.OutputDescriptor → Nat → SetNumbers → DandelionResult (Nat × SetNumbers)
  | [], setCounter, setNumbers => pure (setCounter, setNumbers)
  | ret :: rets, setCounter, setNumbers =>
    match setNumbers.get? ret.ident with
    | none =>
      numberReturns outputSetsStart outputSetsEnd rets (setCounter + 1)
        (setNumbers.insert ret.ident setCounter)
    | some id =>
      if outputSetsStart ≤ id ∧ id < outputSetsEnd then
        numberReturns outputSetsStart outputSetsEnd rets setCounter setNumbers
      else fail (.composition .duplicateSetName)

def numberStatements (outputSetsStart outputSetsEnd : Nat) :
    List Dparser.Statement → Nat → SetNumbers → DandelionResult (Nat × SetNumbers)
  | [], setCounter, setNumbers => pure (setCounter, setNumbers)
  | .functionApplication application :: statements, setCounter, setNumbers => do
    let (setCounter, setNumbers) ←
      numberReturns outputSetsStart outputSetsEnd application.rets setCounter setNumbers
    numberStatements outputSetsStart outputSetsEnd statements setCounter setNumbers
  | .loop _ :: _, _, _ => crash

/-- The first position of `name` in a declaration. -/
def position (names : List String) (name : String) : Option Nat := names.findIdx? (· = name)

/-- Write the described arguments at the positions of the declared parameters. -/
def inputSets (functionName : String) (params : List String) (setNumbers : SetNumbers) :
    List Dparser.InputDescriptor → List (Option InputSetDescriptor) →
      DandelionResult (List (Option InputSetDescriptor))
  | [], inputSetIds => pure inputSetIds
  | argument :: args, inputSetIds =>
    match position params argument.name with
    | some index =>
      match setNumbers.get? argument.ident with
      | none => fail (.composition (.functionInvalidIdentifier
          ("Could not find compositon set for argument " ++ argument.ident ++ " of function " ++
            functionName)))
      | some setId =>
        let descriptor : InputSetDescriptor :=
          ⟨setId, ShardingMode.fromParserSharding argument.sharding, argument.optional⟩
        inputSets functionName params setNumbers args (inputSetIds.set index (some descriptor))
    | none => fail (.composition (.functionInvalidIdentifier
        ("could not find index for input set " ++ argument.name ++ " for function " ++ functionName)))

def joinOrder (functionName : String) (params : List String) :
    List String → DandelionResult (List Nat)
  | [] => pure []
  | setName :: names =>
    match position params setName with
    | none => fail (.composition (.functionInvalidIdentifier
        ("Join order for " ++ functionName ++ " contains invalid set name: " ++ setName)))
    | some index => do
      let order ← joinOrder functionName params names
      pure (index :: order)

def joinStrategies : List Dparser.JoinFilterStrategy → DandelionResult (List JoinStrategy)
  | [] => pure []
  | strategy :: strategies => do
    let first ← JoinStrategy.fromParserStrategy strategy
    let rest ← joinStrategies strategies
    pure (first :: rest)

/-- The join order and strategies of an application; a clause that lacks either is ignored. -/
def joinInfo (functionName : String) (params : List String) :
    Option Dparser.FunctionApplicationJoinStrategy → DandelionResult (List Nat × List JoinStrategy)
  | none => pure ([], [])
  | some strategy =>
    if strategy.joinStrategyOrder.isEmpty || strategy.joinStrategies.isEmpty then pure ([], [])
    else do
      let order ← joinOrder functionName params strategy.joinStrategyOrder
      let strategies ← joinStrategies strategy.joinStrategies
      pure (order, strategies)

def outputSets (returns : List String) (setNumbers : SetNumbers) :
    List Dparser.OutputDescriptor → List (Option Nat) → DandelionResult (List (Option Nat))
  | [], outputSetIds => pure outputSetIds
  | ret :: rets, outputSetIds =>
    match position returns ret.name, setNumbers.get? ret.ident with
    | some index, some setId =>
      outputSets returns setNumbers rets (outputSetIds.set index (some setId))
    | _, _ => fail (.composition (.functionInvalidIdentifier ret.ident))

def functionDependencies (registry : FunctionRegistry)
    (knownFunctions : OrderedMap String Dparser.FunctionDecl) (setNumbers : SetNumbers)
    (application : Dparser.FunctionApplication) : DandelionResult FunctionDependencies :=
  match knownFunctions.get? application.name with
  | none => fail (.composition (.containsInvalidFunction application.name))
  | some decl =>
    if decl.params.length < application.args.length ∨ decl.returns.length < application.rets.length then
      fail (.composition (.containsInvalidFunction application.name))
    else do
      registry.reserve decl.params.length
      let inputSetIds ← inputSets application.name decl.params setNumbers application.args
        (List.replicate decl.params.length none)
      registry.reserve decl.params.length
      registry.reserve decl.params.length
      let joinInfo ← joinInfo application.name decl.params application.joinStrategy
      registry.reserve decl.returns.length
      let outputSetIds ← outputSets decl.returns setNumbers application.rets
        (List.replicate decl.returns.length none)
      pure { function := decl.name, inputSetIds, joinInfo, outputSetIds }

def dependencies (registry : FunctionRegistry)
    (knownFunctions : OrderedMap String Dparser.FunctionDecl) (setNumbers : SetNumbers) :
    List Dparser.Statement → DandelionResult (List FunctionDependencies)
  | [] => pure []
  | .functionApplication application :: statements => do
    let first ← functionDependencies registry knownFunctions setNumbers application
    let rest ← dependencies registry knownFunctions setNumbers statements
    pure (first :: rest)
  | .loop _ :: _ => crash

def composition (registry : FunctionRegistry)
    (knownFunctions : OrderedMap String Dparser.FunctionDecl) (comp : Dparser.Composition) :
    DandelionResult (String × Composition × Metadata) := do
  let (outputSetsStart, setNumbers) ← numberParams comp.params 0 .empty
  let (outputSetsEnd, setNumbers, outputMap) :=
    numberOutputs comp.returns 0 outputSetsStart setNumbers .empty
  let (_, setNumbers) ←
    numberStatements outputSetsStart outputSetsEnd comp.statements outputSetsEnd setNumbers
  let dependencies ← dependencies registry knownFunctions setNumbers comp.statements
  pure (comp.name, ⟨dependencies, outputMap⟩, ⟨comp.params, comp.returns⟩)

/-- The items of a module in turn, with the names of its compositions so far. -/
def compositionsFrom (registry : FunctionRegistry) :
    Dparser.Module → List String → OrderedMap String Dparser.FunctionDecl →
      DandelionResult (List (String × Composition × Metadata))
  | [], _, _ => pure []
  | .functionDecl decl :: items, compositionIds, knownFunctions =>
    if registry.existsName decl.name then
      compositionsFrom registry items compositionIds (knownFunctions.insert decl.name decl)
    else fail (.composition (.containsInvalidFunction decl.name))
  | .composition comp :: items, compositionIds, knownFunctions =>
    if registry.existsName comp.name || compositionIds.contains comp.name then
      fail (.composition (.duplicateIdentifier comp.name))
    else do
      let first ← composition registry knownFunctions comp
      let rest ← compositionsFrom registry items (comp.name :: compositionIds) knownFunctions
      pure (first :: rest)

def compositionFromModule (registry : FunctionRegistry) (module : Dparser.Module) :
    DandelionResult (List (String × Composition × Metadata)) :=
  compositionsFrom registry module [] .empty

end FunctionRegistry
end Dandelion
