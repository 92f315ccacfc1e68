import Dandelion.Outcome

/-!
# Errors

The errors that the modelled calls report, under the names they have in
`dandelion_commons`.
-/

namespace Dandelion

inductive CompositionError where
  | parsingError
  | duplicateIdentifier (name : String)
  | containsInvalidFunction (name : String)
  | functionInvalidIdentifier (message : String)
  | duplicateSetName
deriving DecidableEq, Repr

inductive UserError where
  | emptyNonOptional
  | functionError (exitCode : Int)
  | invalidIdentifier
  | smallContext
deriving DecidableEq, Repr

/-- Errors in the frontend. -/
inductive FrontendError where
  | streamEnd
  | violatedSpec
  | malformedMessage
deriving DecidableEq, Repr

/-- Errors concerning promises and debts. -/
inductive PromiseError where
  | noneAvailable
  | takenPromise
  | droppedDebt
  | default
deriving DecidableEq, Repr

/-- Errors of the dispatcher. -/
inductive DispatcherError where
  | compositionCombine
deriving DecidableEq, Repr

/-- Errors of memory domains. -/
inductive DomainError where
  | invalidMemorySize
  | reachedCapacity
  | mapping
  | cleaningFailure
deriving DecidableEq, Repr

/-- Errors of the function registry. -/
inductive FunctionRegistryError where
  | duplicateInsert (name : String)
  | typeConflictInsert (name : String)
  | invalidSystemInsert (name : String)
  | invalidUserInsert (name : String)
  | unknownFunction (name : String)
  | binaryNotFound
deriving DecidableEq, Repr

inductive DandelionError where
  | composition (e : CompositionError)
  | userError (e : UserError)
  | outOfMemory
  | contextFull
  | readMisaligned
  | invalidRead
  | writeMisaligned
  | invalidWrite
  | usizeTypeConversionError
  | requestError (e : FrontendError)
  | promiseError (e : PromiseError)
  | dispatcher (e : DispatcherError)
  | functionRegistry (e : FunctionRegistryError)
  | configMissmatch
  | malformedConfig
  | unknownSymbol
  | invalidSystemFuncArg (message : String)
  | malformedSystemFuncArg (message : String)
  | transferInputNoSetAvailable
  | emptyDataSet
  | domainError (e : DomainError)
deriving DecidableEq, Repr

abbrev DandelionResult (α : Type) := Outcome DandelionError α

end Dandelion
