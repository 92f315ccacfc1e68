import Dandelion.CompositionParser
import Dandelion.Stateful
import Mathlib.Order.Basic

/-!
# The function registry

The map from function names to functions and compositions, with the two ways to insert into
it. The binary behind an alternative is left out; whether its file exists, and which vectors
can be reserved, are arguments of the calls.
-/

namespace Dandelion.Registry

open Outcome Stateful

inductive EngineType where
  | reqwest
  | cheri
  | process
  | kvm
deriving DecidableEq, Repr

inductive DomainType where
  | system
  | cheri
  | kvm
  | process
deriving DecidableEq, Repr

def EngineType.rank : EngineType → Nat
  | .reqwest => 0
  | .cheri => 1
  | .process => 2
  | .kvm => 3

def DomainType.rank : DomainType → Nat
  | .system => 0
  | .cheri => 1
  | .kvm => 2
  | .process => 3

instance : LinearOrder EngineType :=
  LinearOrder.lift' EngineType.rank (by intro a b; cases a <;> cases b <;> decide)

instance : LinearOrder DomainType :=
  LinearOrder.lift' DomainType.rank (by intro a b; cases a <;> cases b <;> decide)

structure FunctionAlternative where
  engine : EngineType
  contextSize : Nat
  path : String
deriving DecidableEq, Repr

variable {Ctx Domain : Type}

/-- The names of a function's sets, with a static input set where there is one. -/
structure Metadata (Ctx : Type) where
  inputSets : List (String × Option (CompositionSet Ctx))
  outputSets : List String

structure FunctionInfo (Ctx : Type) where
  alternatives : List FunctionAlternative
  metadata : Metadata Ctx

structure CompositionInfo (Ctx : Type) where
  composition : Composition
  metadata : Metadata Ctx

inductive FunctionType (Ctx : Type) where
  | systemFunction (info : FunctionInfo Ctx)
  | function (info : FunctionInfo Ctx)
  | composition (info : CompositionInfo Ctx)

abbrev FunctionMap (Ctx : Type) := OrderedMap String (FunctionType Ctx)

/-- Append an alternative to an entry, unless there is one for its engine. -/
def pushAlternative (key : String) (entry : FunctionInfo Ctx → FunctionType Ctx)
    (info : FunctionInfo Ctx) (funcAlt : FunctionAlternative) :
    Stateful DandelionError (FunctionMap Ctx) Unit :=
  if info.alternatives.any fun alt => alt.engine = funcAlt.engine then
    lift (fail (.functionRegistry (.duplicateInsert key)))
  else modify fun fmap =>
    fmap.insert key (entry { info with alternatives := info.alternatives ++ [funcAlt] })

def fmapInsertFunction (key : String) (funcAlt : FunctionAlternative) (funcMeta : Metadata Ctx)
    (isSystem : Bool) : Stateful DandelionError (FunctionMap Ctx) Unit := do
  match (← get).get? key with
  | some (.systemFunction info) =>
    if !isSystem then lift (fail (.functionRegistry (.invalidSystemInsert key)))
    else pushAlternative key .systemFunction info funcAlt
  | some (.function info) =>
    if isSystem then lift (fail (.functionRegistry (.invalidUserInsert key)))
    else pushAlternative key .function info funcAlt
  | some (.composition _) => lift (fail (.functionRegistry (.typeConflictInsert key)))
  | none =>
    let info := { alternatives := [funcAlt], metadata := funcMeta }
    modify fun fmap => fmap.insert key (if isSystem then .systemFunction info else .function info)

def fmapInsertComposition (key : String) (composition : Composition) (metadata : Metadata Ctx) :
    Stateful DandelionError (FunctionMap Ctx) Unit := do
  match (← get).get? key with
  | some _ => lift (fail (.functionRegistry (.duplicateInsert key)))
  | none => modify fun fmap => fmap.insert key (.composition ⟨composition, metadata⟩)

inductive SystemFunction where
  | http
  | memcached
deriving DecidableEq, Repr

def SystemFunction.toString : SystemFunction → String
  | .http => "HTTP"
  | .memcached => "MEMCACHED"

inductive FunctionConfig where
  | elfConfig
  | sysConfig (function : SystemFunction)
deriving DecidableEq, Repr

def getSystemFunctions : EngineType → List (SystemFunction × Nat)
  | .reqwest => [(.http, 0x2000000)]
  | _ => []

def getSystemFunctionInputSets : SystemFunction → List String
  | .http => ["request"]
  | .memcached => ["request"]

def getSystemFunctionOutputSets : SystemFunction → List String
  | .http => ["response", "body"]
  | .memcached => ["response", "body"]

/-- `driver.parse_function`, by path and domain. -/
abbrev Driver (Domain : Type) := String → Domain → DandelionResult FunctionConfig

section New

variable (typeMap : OrderedMap EngineType DomainType) (domains : OrderedMap DomainType Domain)

/-- Insert one system function; any failure ends the initialization with a panic. -/
def newSystemFunction (engineType : EngineType) (driver : Driver Domain)
    (systemFunction : SystemFunction × Nat) (fmap : FunctionMap Ctx) :
    DandelionResult (FunctionMap Ctx) :=
  match (typeMap.get? engineType).bind domains.get? with
  | none => crash
  | some domain =>
    match driver "" domain with
    | .ok (.sysConfig _) =>
      let metadata := {
        inputSets := (getSystemFunctionInputSets systemFunction.1).map fun name => (name, none),
        outputSets := getSystemFunctionOutputSets systemFunction.1 }
      match exec (fmapInsertFunction systemFunction.1.toString ⟨engineType, systemFunction.2, ""⟩
          metadata true) fmap with
      | (.ok _, fmap) => pure fmap
      | (.error _, _) => crash
    | _ => crash

def newSystemFunctions (engineType : EngineType) (driver : Driver Domain) :
    List (SystemFunction × Nat) → FunctionMap Ctx → DandelionResult (FunctionMap Ctx)
  | [], fmap => pure fmap
  | systemFunction :: rest, fmap => do
    let fmap ← newSystemFunction typeMap domains engineType driver systemFunction fmap
    newSystemFunctions engineType driver rest fmap

def newFrom : List (EngineType × Driver Domain) → FunctionMap Ctx → DandelionResult (FunctionMap Ctx)
  | [], fmap => pure fmap
  | (engineType, driver) :: drivers, fmap => do
    let fmap ← newSystemFunctions typeMap domains engineType driver (getSystemFunctions engineType) fmap
    newFrom drivers fmap

/-- The registry with the system functions of the given drivers. -/
def new (drivers : OrderedMap EngineType (Driver Domain)) : DandelionResult (FunctionMap Ctx) :=
  newFrom typeMap domains drivers.entries .empty

end New

/-- Insert an alternative of a user function; `binaryFound` says whether the file exists. -/
def insertFunction (binaryFound : Bool) (functionId : String) (engineType : EngineType)
    (contextSize : Nat) (path : String) (metadata : Metadata Ctx) :
    Stateful DandelionError (FunctionMap Ctx) Unit :=
  if !binaryFound then lift (fail (.functionRegistry .binaryNotFound))
  else fmapInsertFunction functionId ⟨engineType, contextSize, path⟩ metadata false

/-- What the translation of a module sees of the registry. -/
def lookups (fmap : FunctionMap Ctx) (tryReserve : Nat → Bool) : FunctionRegistry :=
  ⟨fun name => (fmap.get? name).isSome, tryReserve⟩

def compositionMetadata (metadata : Dandelion.Metadata) : Metadata Ctx :=
  ⟨metadata.inputSets.map fun name => (name, none), metadata.outputSets⟩

/-- The loop under the write lock. -/
def insertAll : List (String × Composition × Dandelion.Metadata) →
    Stateful DandelionError (FunctionMap Ctx) Unit
  | [] => pure ()
  | (compName, composition, metadata) :: compVec => do
    fmapInsertComposition compName composition (compositionMetadata metadata)
    insertAll compVec

def insertCompositions (tryReserve : Nat → Bool) (compositionDesc : String) :
    Stateful DandelionError (FunctionMap Ctx) Unit :=
  match Dparser.parse compositionDesc with
  | none => lift (fail (.composition .parsingError))
  | some module => do
    let fmap ← get
    let compVec ← lift (FunctionRegistry.compositionFromModule (lookups fmap tryReserve) module)
    insertAll compVec

/-- `alternatives[0]`, the choice of `queue_function`. -/
def FunctionInfo.chosenAlternative (info : FunctionInfo Ctx) : DandelionResult FunctionAlternative :=
  match info.alternatives with
  | [] => crash
  | alternative :: _ => pure alternative

end Dandelion.Registry
