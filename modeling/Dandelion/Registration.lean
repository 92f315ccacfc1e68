import Dandelion.Composition
import Dandelion.PositionWrites

/-!
# What a registered composition was made from

For every composition of a registered module: the declarations that precede it, the numbers
of its sets, and for each of its applications the writes that made the input and output set
ids out of the argument and return lists.
-/

namespace Dandelion

open Outcome FunctionRegistry PositionWrites List

section Lists

variable {α β : Type*} {R : α → β → Prop} {l : List α} {m : List β}

theorem forall₂_iff_forall {P : α → β → Prop} {Q : α → Prop} (h : Forall₂ R l m)
    (hiff : ∀ a b, R a b → (P a b ↔ Q a)) : Forall₂ P l m ↔ ∀ a ∈ l, Q a := by
  induction h with
  | nil => simp
  | cons hfirst _ ih => rw [List.forall₂_cons, List.forall_mem_cons, hiff _ _ hfirst, ih]

theorem forall₂_getElem? (h : Forall₂ R l m) (k : Nat) :
    (l[k]? = none ∧ m[k]? = none) ∨ ∃ a b, l[k]? = some a ∧ m[k]? = some b ∧ R a b := by
  induction h generalizing k with
  | nil => exact .inl ⟨rfl, rfl⟩
  | cons hfirst _ ih =>
    cases k with
    | zero => exact .inr ⟨_, _, rfl, rfl, hfirst⟩
    | succ k => exact ih k

end Lists

section Names

theorem position_lt {names : List String} {name : String} {i : Nat}
    (h : position names name = some i) : i < names.length :=
  (List.findIdx?_eq_some_iff_getElem.mp h).1

theorem position_name {names : List String} {name : String} {i : Nat}
    (h : position names name = some i) : names[i]? = some name := by
  obtain ⟨hlt, hname, -⟩ := List.findIdx?_eq_some_iff_getElem.mp h
  rw [List.getElem?_eq_getElem hlt, of_decide_eq_true hname]

theorem biUnique_position (names : List String) :
    Relator.BiUnique fun name i => position names name = some i := by
  constructor
  · intro name name' i h h'
    have heq := (position_name h).symm.trans (position_name h')
    exact Option.some.inj heq
  · intro name i i' h h'
    exact Option.some.inj (h.symm.trans h')

end Names

section Application

variable {functionName : String} {names : List String} {setNumbers : SetNumbers}

/-- Where an argument is written, and what. -/
def ArgumentWrite (params : List String) (setNumbers : SetNumbers)
    (argument : Dparser.InputDescriptor) (write : Nat × InputSetDescriptor) : Prop :=
  position params argument.name = some write.1 ∧ ∃ id, setNumbers.get? argument.ident = some id ∧
    write.2 = ⟨id, ShardingMode.fromParserSharding argument.sharding, argument.optional⟩

/-- Where a return assignment is written, and what. -/
def ReturnWrite (returns : List String) (setNumbers : SetNumbers) (ret : Dparser.OutputDescriptor)
    (write : Nat × Nat) : Prop :=
  position returns ret.name = some write.1 ∧ setNumbers.get? ret.ident = some write.2

theorem inputSets_ok {args : List Dparser.InputDescriptor}
    {ids ids' : List (Option InputSetDescriptor)}
    (h : inputSets functionName names setNumbers args ids = .ok ids') :
    ∃ writes, Forall₂ (ArgumentWrite names setNumbers) args writes ∧ ids' = writeAll writes ids := by
  induction args generalizing ids with
  | nil =>
    cases h
    exact ⟨[], .nil, rfl⟩
  | cons argument args ih =>
    rw [inputSets] at h
    cases hposition : position names argument.name with
    | none =>
      rw [hposition] at h
      cases h
    | some index =>
      simp only [hposition] at h
      cases hid : setNumbers.get? argument.ident with
      | none =>
        rw [hid] at h
        cases h
      | some setId =>
        simp only [hid] at h
        obtain ⟨writes, hwrites, rfl⟩ := ih h
        exact ⟨(index, _) :: writes, .cons ⟨hposition, setId, hid, rfl⟩ hwrites, rfl⟩

theorem outputSets_ok {rets : List Dparser.OutputDescriptor} {ids ids' : List (Option Nat)}
    (h : outputSets names setNumbers rets ids = .ok ids') :
    ∃ writes, Forall₂ (ReturnWrite names setNumbers) rets writes ∧ ids' = writeAll writes ids := by
  induction rets generalizing ids with
  | nil =>
    cases h
    exact ⟨[], .nil, rfl⟩
  | cons ret rets ih =>
    rw [outputSets] at h
    cases hposition : position names ret.name with
    | none =>
      rw [hposition] at h
      cases h
    | some index =>
      cases hid : setNumbers.get? ret.ident with
      | none =>
        rw [hposition, hid] at h
        cases h
      | some setId =>
        simp only [hposition, hid] at h
        obtain ⟨writes, hwrites, rfl⟩ := ih h
        exact ⟨(index, setId) :: writes, .cons ⟨hposition, hid⟩ hwrites, rfl⟩

theorem keyedWrites_arguments (params : List String) (setNumbers : SetNumbers) :
    KeyedWrites (ArgumentWrite params setNumbers) (fun name i => position params name = some i)
      Dparser.InputDescriptor.name params.length where
  unique := biUnique_position params
  placed := fun _ _ h => h.1
  value := by
    rintro argument ⟨i, descriptor⟩ ⟨i', descriptor'⟩ ⟨hi, id, hid, rfl⟩ ⟨hi', id', hid', rfl⟩
    rw [hi] at hi'
    rw [hid] at hid'
    cases hi'
    cases hid'
    rfl
  inside := fun _ _ h => position_lt h.1

theorem keyedWrites_returns (returns : List String) (setNumbers : SetNumbers) :
    KeyedWrites (ReturnWrite returns setNumbers) (fun name i => position returns name = some i)
      Dparser.OutputDescriptor.name returns.length where
  unique := biUnique_position returns
  placed := fun _ _ h => h.1
  value := by
    rintro ret ⟨i, id⟩ ⟨i', id'⟩ ⟨hi, hid⟩ ⟨hi', hid'⟩
    exact Prod.ext (Option.some.inj (hi.symm.trans hi')) (Option.some.inj (hid.symm.trans hid'))
  inside := fun _ _ h => position_lt h.1

/-- How an application has been translated, for its declaration. -/
structure Translated (decl : Dparser.FunctionDecl) (setNumbers : SetNumbers)
    (application : Dparser.FunctionApplication) (deps : FunctionDependencies) : Prop where
  function : deps.function = decl.name
  arguments : ∃ writes, Forall₂ (ArgumentWrite decl.params setNumbers) application.args writes ∧
    deps.inputSetIds = writeAll writes (replicate decl.params.length none)
  joinInfo : FunctionRegistry.joinInfo application.name decl.params application.joinStrategy =
    .ok deps.joinInfo
  returns : ∃ writes, Forall₂ (ReturnWrite decl.returns setNumbers) application.rets writes ∧
    deps.outputSetIds = writeAll writes (replicate decl.returns.length none)

variable {registry : FunctionRegistry} {knownFunctions : OrderedMap String Dparser.FunctionDecl}

theorem functionDependencies_ok {application : Dparser.FunctionApplication}
    {deps : FunctionDependencies}
    (h : functionDependencies registry knownFunctions setNumbers application = .ok deps) :
    ∃ decl, knownFunctions.get? application.name = some decl ∧
      Translated decl setNumbers application deps := by
  rw [functionDependencies] at h
  cases hdecl : knownFunctions.get? application.name with
  | none =>
    rw [hdecl] at h
    cases h
  | some decl =>
    simp only [hdecl] at h
    split at h
    · cases h
    · obtain ⟨_, -, h⟩ := (bind_eq_ok_iff _ _ _).mp h
      obtain ⟨inputSetIds, hinputs, h⟩ := (bind_eq_ok_iff _ _ _).mp h
      obtain ⟨_, -, h⟩ := (bind_eq_ok_iff _ _ _).mp h
      obtain ⟨_, -, h⟩ := (bind_eq_ok_iff _ _ _).mp h
      obtain ⟨info, hinfo, h⟩ := (bind_eq_ok_iff _ _ _).mp h
      obtain ⟨_, -, h⟩ := (bind_eq_ok_iff _ _ _).mp h
      obtain ⟨outputSetIds, houtputs, h⟩ := (bind_eq_ok_iff _ _ _).mp h
      cases h
      exact ⟨decl, rfl, rfl, inputSets_ok hinputs, hinfo, outputSets_ok houtputs⟩

/-- A statement of a registered composition is an application, and how it was translated. -/
def TranslatedStatement (knownFunctions : OrderedMap String Dparser.FunctionDecl)
    (setNumbers : SetNumbers) (statement : Dparser.Statement) (deps : FunctionDependencies) : Prop :=
  ∃ application decl, statement = .functionApplication application ∧
    knownFunctions.get? application.name = some decl ∧ Translated decl setNumbers application deps

theorem dependencies_ok {statements : List Dparser.Statement} {deps : List FunctionDependencies}
    (h : dependencies registry knownFunctions setNumbers statements = .ok deps) :
    Forall₂ (TranslatedStatement knownFunctions setNumbers) statements deps := by
  induction statements generalizing deps with
  | nil =>
    cases h
    exact .nil
  | cons statement statements ih =>
    cases statement with
    | loop body => cases h
    | functionApplication application =>
      rw [dependencies] at h
      obtain ⟨first, hfirst, h⟩ := (bind_eq_ok_iff _ _ _).mp h
      obtain ⟨rest, hrest, h⟩ := (bind_eq_ok_iff _ _ _).mp h
      cases h
      obtain ⟨decl, hdecl, htranslated⟩ := functionDependencies_ok hfirst
      exact .cons ⟨application, decl, rfl, hdecl, htranslated⟩ (ih hrest)

theorem translated_of_getElem? {statements : List Dparser.Statement}
    {translations : List FunctionDependencies}
    (h : Forall₂ (TranslatedStatement knownFunctions setNumbers) statements translations) {k : Nat}
    {statement : Dparser.Statement} (hk : statements[k]? = some statement) :
    ∃ deps, translations[k]? = some deps ∧
      TranslatedStatement knownFunctions setNumbers statement deps := by
  rcases forall₂_getElem? h k with ⟨hnone, -⟩ | ⟨first, deps, hfirst, hdeps, htranslated⟩
  · rw [hk] at hnone
    cases hnone
  · rw [hk] at hfirst
    cases hfirst
    exact ⟨deps, hdeps, htranslated⟩

end Application

section Modules

variable {registry : FunctionRegistry}

/-- The numbers that the sets of a composition get. -/
def setNumbersOf (comp : Dparser.Composition) : DandelionResult SetNumbers := do
  let (outputSetsStart, setNumbers) ← numberParams comp.params 0 .empty
  let (outputSetsEnd, setNumbers, _) :=
    numberOutputs comp.returns 0 outputSetsStart setNumbers .empty
  let (_, setNumbers) ←
    numberStatements outputSetsStart outputSetsEnd comp.statements outputSetsEnd setNumbers
  pure setNumbers

/-- The compositions of a module, each with the declarations that precede it. -/
def compositionsOf : Dparser.Module → OrderedMap String Dparser.FunctionDecl →
    List (OrderedMap String Dparser.FunctionDecl × Dparser.Composition)
  | [], _ => []
  | .functionDecl decl :: items, knownFunctions =>
    compositionsOf items (knownFunctions.insert decl.name decl)
  | .composition comp :: items, knownFunctions =>
    (knownFunctions, comp) :: compositionsOf items knownFunctions

/-- What is registered for a composition. -/
def Registered
    (source : OrderedMap String Dparser.FunctionDecl × Dparser.Composition)
    (entry : String × Composition × Metadata) : Prop :=
  ∃ setNumbers, setNumbersOf source.2 = .ok setNumbers ∧
    Forall₂ (TranslatedStatement source.1 setNumbers) source.2.statements entry.2.1.dependencies

theorem composition_ok {knownFunctions : OrderedMap String Dparser.FunctionDecl}
    {comp : Dparser.Composition} {entry : String × Composition × Metadata}
    (h : composition registry knownFunctions comp = .ok entry) :
    Registered (knownFunctions, comp) entry := by
  rw [composition] at h
  obtain ⟨⟨start, numbers⟩, hparams, h⟩ := (bind_eq_ok_iff _ _ _).mp h
  obtain ⟨⟨counter, numbers'⟩, hstatements, h⟩ := (bind_eq_ok_iff _ _ _).mp h
  obtain ⟨deps, hdeps, h⟩ := (bind_eq_ok_iff _ _ _).mp h
  cases h
  refine ⟨numbers', ?_, dependencies_ok hdeps⟩
  rw [setNumbersOf, hparams]
  change (numberStatements _ _ _ _ _ >>= _) = _
  rw [hstatements]
  rfl

/-- What holds of every translated composition holds along a module. -/
theorem compositionsFrom_forall₂
    {R : OrderedMap String Dparser.FunctionDecl × Dparser.Composition →
      String × Composition × Metadata → Prop}
    (hR : ∀ knownFunctions comp entry, composition registry knownFunctions comp = .ok entry →
      R (knownFunctions, comp) entry)
    {module : Dparser.Module} {compositionIds : List String}
    {knownFunctions : OrderedMap String Dparser.FunctionDecl}
    {entries : List (String × Composition × Metadata)}
    (h : compositionsFrom registry module compositionIds knownFunctions = .ok entries) :
    Forall₂ R (compositionsOf module knownFunctions) entries := by
  induction module generalizing compositionIds knownFunctions entries with
  | nil =>
    cases h
    exact .nil
  | cons item items ih =>
    rw [compositionsFrom.eq_def] at h
    cases item with
    | functionDecl decl =>
      simp only at h
      split at h
      · exact ih h
      · cases h
    | composition comp =>
      simp only at h
      split at h
      · cases h
      · obtain ⟨first, hfirst, h⟩ := (bind_eq_ok_iff _ _ _).mp h
        obtain ⟨rest, hrest, h⟩ := (bind_eq_ok_iff _ _ _).mp h
        cases h
        exact .cons (hR _ _ _ hfirst) (ih hrest)

theorem compositionsFrom_ok {module : Dparser.Module} {compositionIds : List String}
    {knownFunctions : OrderedMap String Dparser.FunctionDecl}
    {entries : List (String × Composition × Metadata)}
    (h : compositionsFrom registry module compositionIds knownFunctions = .ok entries) :
    Forall₂ Registered (compositionsOf module knownFunctions) entries :=
  compositionsFrom_forall₂ (fun _ _ _ => composition_ok) h

theorem forall_compositionsOf_iff {Q : Dparser.Composition → Prop} (module : Dparser.Module)
    (knownFunctions : OrderedMap String Dparser.FunctionDecl) :
    (∀ source ∈ compositionsOf module knownFunctions, Q source.2) ↔
      ∀ comp, .composition comp ∈ module → Q comp := by
  induction module generalizing knownFunctions with
  | nil => simp [compositionsOf]
  | cons item items ih =>
    cases item with
    | functionDecl decl =>
      rw [compositionsOf, ih]
      simp
    | composition first =>
      rw [compositionsOf, List.forall_mem_cons, ih]
      simp

end Modules

end Dandelion
