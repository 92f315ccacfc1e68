import Dandelion.CompositionParser
import Dandelion.Registration

/-!
# When the registration of a composition panics

The parser accepts the join type `cross`, and the translation of a join clause panics on it.
This is the only panic of `composition_from_module` on a parsed module: it happens just when
such a clause is reached, everything before it having been accepted.
-/

namespace Dandelion

open Outcome FunctionRegistry Dparser List

section Clauses

variable {functionName : String} {names params : List String} {setNumbers : SetNumbers}

theorem position_isSome_iff (names : List String) (name : String) :
    (∃ i, position names name = some i) ↔ name ∈ names := by
  constructor
  · rintro ⟨i, hi⟩
    exact List.mem_of_getElem? (position_name hi)
  · intro hname
    apply Option.isSome_iff_exists.mp
    rw [position, List.findIdx?_isSome, List.any_eq_true]
    exact ⟨name, hname, decide_eq_true rfl⟩

theorem returns_joinStrategies (strategies : List JoinFilterStrategy) :
    Returns (joinStrategies strategies) ↔ .cross ∉ strategies := by
  induction strategies with
  | nil => simp [joinStrategies]
  | cons strategy strategies ih =>
    rw [joinStrategies, returns_bind]
    cases strategy with
    | cross => simp [JoinStrategy.fromParserStrategy]
    | _ =>
      simp only [JoinStrategy.fromParserStrategy, returns_pure, true_and]
      rw [List.mem_cons, not_or, ← ih]
      constructor
      · intro h
        exact ⟨by simp, ((returns_bind _ _).mp (h _ rfl)).1⟩
      · intro h a _
        exact (returns_bind _ _).mpr ⟨h.2, fun _ _ => returns_pure _⟩

theorem returns_joinOrder (functionName : String) (params names : List String) :
    Returns (joinOrder functionName params names) := by
  induction names with
  | nil => exact returns_pure _
  | cons name names ih =>
    rw [joinOrder]
    split
    · exact returns_fail _
    · exact (returns_bind _ _).mpr ⟨ih, fun _ _ => returns_pure _⟩

theorem joinOrder_ok_iff (functionName : String) (params names : List String) :
    (∃ order, joinOrder functionName params names = .ok order) ↔ ∀ name ∈ names, name ∈ params := by
  induction names with
  | nil =>
    constructor
    · intro _ name hname
      exact absurd hname List.not_mem_nil
    · exact fun _ => ⟨[], rfl⟩
  | cons name names ih =>
    rw [List.forall_mem_cons, ← ih, ← position_isSome_iff, joinOrder]
    cases hposition : position params name with
    | none => simp [fail]
    | some index =>
      simp only [exists_ok_bind]
      constructor
      · rintro ⟨order, horder, -⟩
        exact ⟨⟨index, rfl⟩, order, horder⟩
      · rintro ⟨-, order, horder⟩
        exact ⟨order, horder, _, rfl⟩

/-- The join clause of a parsed application panics just when it names `cross` and its sets
are parameters of the function. -/
theorem returns_joinInfo {functionName : String} {params : List String}
    {clause : FunctionApplicationJoinStrategy}
    (hclause : clause.joinStrategyOrder.length = clause.joinStrategies.length + 1) :
    Returns (joinInfo functionName params (some clause)) ↔
      ¬ ((∀ name ∈ clause.joinStrategyOrder, name ∈ params) ∧ .cross ∈ clause.joinStrategies) := by
  have horder : clause.joinStrategyOrder.isEmpty = false := by
    rw [List.isEmpty_eq_false_iff, ← List.length_pos_iff, hclause]
    exact Nat.succ_pos _
  rw [joinInfo, horder, Bool.false_or]
  cases hstrategies : clause.joinStrategies with
  | nil => simp
  | cons first strategies =>
    rw [if_neg (by simp), ← hstrategies, returns_bind, ← joinOrder_ok_iff functionName]
    constructor
    · rintro ⟨-, hrest⟩ ⟨⟨order, hok⟩, hcross⟩
      have hreturns := ((returns_bind _ _).mp (hrest order hok)).1
      exact (returns_joinStrategies _).mp hreturns hcross
    · intro hnot
      refine ⟨returns_joinOrder _ _ _, fun order hok => (returns_bind _ _).mpr
        ⟨(returns_joinStrategies _).mpr fun hcross => hnot ⟨⟨order, hok⟩, hcross⟩,
          fun _ _ => returns_pure _⟩⟩

theorem returns_inputSets (functionName : String) (params : List String) (setNumbers : SetNumbers)
    (args : List InputDescriptor) (inputSetIds : List (Option InputSetDescriptor)) :
    Returns (inputSets functionName params setNumbers args inputSetIds) := by
  induction args generalizing inputSetIds with
  | nil => exact returns_pure _
  | cons argument args ih =>
    rw [inputSets]
    split
    · split
      · exact returns_fail _
      · exact ih _
    · exact returns_fail _

theorem inputSets_ok_iff (functionName : String) (params : List String) (setNumbers : SetNumbers)
    (args : List InputDescriptor) (inputSetIds : List (Option InputSetDescriptor)) :
    (∃ ids, inputSets functionName params setNumbers args inputSetIds = .ok ids) ↔
      ∀ argument ∈ args, argument.name ∈ params ∧ ∃ id, setNumbers.get? argument.ident = some id := by
  induction args generalizing inputSetIds with
  | nil =>
    constructor
    · intro _ argument hargument
      exact absurd hargument List.not_mem_nil
    · exact fun _ => ⟨inputSetIds, rfl⟩
  | cons argument args ih =>
    rw [List.forall_mem_cons, ← position_isSome_iff, inputSets]
    cases hposition : position params argument.name with
    | none => simp [fail]
    | some index =>
      cases hid : setNumbers.get? argument.ident with
      | none => simp [fail]
      | some id =>
        simp only [ih]
        simp

theorem returns_outputSets (returns : List String) (setNumbers : SetNumbers)
    (rets : List OutputDescriptor) (outputSetIds : List (Option Nat)) :
    Returns (outputSets returns setNumbers rets outputSetIds) := by
  induction rets generalizing outputSetIds with
  | nil => exact returns_pure _
  | cons ret rets ih =>
    rw [outputSets]
    split
    · exact ih _
    · exact returns_fail _

end Clauses

section Statements

variable {registry : FunctionRegistry} {knownFunctions : OrderedMap String FunctionDecl}
  {setNumbers : SetNumbers}

theorem returns_reserve (registry : FunctionRegistry) (n : Nat) : Returns (registry.reserve n) := by
  rw [reserve]
  split
  · exact returns_pure _
  · exact returns_fail _

theorem reserve_ok_iff (registry : FunctionRegistry) (n : Nat) :
    (∃ u, registry.reserve n = .ok u) ↔ registry.tryReserve n = true := by
  rw [reserve]
  split
  · exact ⟨fun _ => ‹_›, fun _ => ⟨(), rfl⟩⟩
  · simp_all [fail]

/-- The translation of an application comes to its join clause, and that names `cross`. -/
structure ReachesCross (registry : FunctionRegistry)
    (knownFunctions : OrderedMap String FunctionDecl) (setNumbers : SetNumbers)
    (application : FunctionApplication) (decl : FunctionDecl)
    (clause : FunctionApplicationJoinStrategy) : Prop where
  declared : knownFunctions.get? application.name = some decl
  args_le : application.args.length ≤ decl.params.length
  rets_le : application.rets.length ≤ decl.returns.length
  reserved : registry.tryReserve decl.params.length = true
  args : ∀ argument ∈ application.args, argument.name ∈ decl.params ∧
    ∃ id, setNumbers.get? argument.ident = some id
  joinStrategy : application.joinStrategy = some clause
  order : ∀ name ∈ clause.joinStrategyOrder, name ∈ decl.params
  cross : .cross ∈ clause.joinStrategies

theorem returns_functionDependencies {application : FunctionApplication}
    (hparsed : ∀ clause, application.joinStrategy = some clause →
      clause.joinStrategyOrder.length = clause.joinStrategies.length + 1) :
    Returns (functionDependencies registry knownFunctions setNumbers application) ↔
      ¬ ∃ decl clause, ReachesCross registry knownFunctions setNumbers application decl clause := by
  rw [functionDependencies]
  cases hdecl : knownFunctions.get? application.name with
  | none =>
    simp only [returns_fail, true_iff]
    rintro ⟨decl, clause, h⟩
    rw [h.declared] at hdecl
    cases hdecl
  | some decl =>
    simp only
    split
    case isTrue harity =>
      simp only [returns_fail, true_iff]
      rintro ⟨decl', clause, h⟩
      cases hdecl.symm.trans h.declared
      have := h.args_le
      have := h.rets_le
      omega
    case isFalse harity =>
      rw [returns_bind]
      constructor
      · rintro ⟨-, h⟩ ⟨decl', clause, hreaches⟩
        cases hdecl.symm.trans hreaches.declared
        obtain ⟨u, hu⟩ := (reserve_ok_iff registry _).mpr hreaches.reserved
        obtain ⟨ids, hids⟩ := (inputSets_ok_iff application.name _ _ _ _).mpr hreaches.args
        have hinputs := ((returns_bind _ _).mp (h u hu)).2 ids hids
        have hreserved := ((returns_bind _ _).mp hinputs).2 u hu
        have hclauses := ((returns_bind _ _).mp hreserved).2 u hu
        have hjoin := ((returns_bind _ _).mp hclauses).1
        rw [hreaches.joinStrategy, returns_joinInfo (hparsed clause hreaches.joinStrategy)] at hjoin
        exact hjoin ⟨hreaches.order, hreaches.cross⟩
      · intro hnot
        refine ⟨returns_reserve _ _, fun u hu => (returns_bind _ _).mpr
          ⟨returns_inputSets _ _ _ _ _, fun ids hids => (returns_bind _ _).mpr
            ⟨returns_reserve _ _, fun _ _ => (returns_bind _ _).mpr
              ⟨returns_reserve _ _, fun _ _ => (returns_bind _ _).mpr ⟨?_, fun info _ => ?_⟩⟩⟩⟩⟩
        · cases hclause : application.joinStrategy with
          | none => exact returns_pure _
          | some clause =>
            apply (returns_joinInfo (hparsed clause hclause)).mpr
            rintro ⟨horder, hcross⟩
            exact hnot ⟨decl, clause, hdecl, by omega, by omega, (reserve_ok_iff _ _).mp ⟨u, hu⟩,
              (inputSets_ok_iff _ _ _ _ _).mp ⟨ids, hids⟩, hclause, horder, hcross⟩
        · exact (returns_bind _ _).mpr ⟨returns_reserve _ _, fun _ _ => (returns_bind _ _).mpr
            ⟨returns_outputSets _ _ _ _, fun _ _ => returns_pure _⟩⟩

/-- A statement reaches `cross` after the statements before it have been translated. -/
def StatementsReachCross (registry : FunctionRegistry)
    (knownFunctions : OrderedMap String FunctionDecl) (setNumbers : SetNumbers)
    (statements : List Statement) : Prop :=
  ∃ before application after decl clause, statements = before ++ .functionApplication application :: after ∧
    (∃ deps, dependencies registry knownFunctions setNumbers before = .ok deps) ∧
    ReachesCross registry knownFunctions setNumbers application decl clause

theorem statementsReachCross_cons {application : FunctionApplication} {statements : List Statement} :
    StatementsReachCross registry knownFunctions setNumbers
        (.functionApplication application :: statements) ↔
      (∃ decl clause, ReachesCross registry knownFunctions setNumbers application decl clause) ∨
      ((∃ deps, functionDependencies registry knownFunctions setNumbers application = .ok deps) ∧
        StatementsReachCross registry knownFunctions setNumbers statements) := by
  constructor
  · rintro ⟨before, reached, after, decl, clause, heq, ⟨deps, hbefore⟩, hreaches⟩
    cases before with
    | nil =>
      cases heq
      exact .inl ⟨decl, clause, hreaches⟩
    | cons first before =>
      cases heq
      obtain ⟨firstDeps, hfirst, restDeps, hrest, -⟩ := by
        simpa only [dependencies, bind_eq_ok_iff] using hbefore
      exact .inr ⟨⟨firstDeps, hfirst⟩, before, reached, after, decl, clause, rfl, ⟨restDeps, hrest⟩,
        hreaches⟩
  · rintro (⟨decl, clause, hreaches⟩ | ⟨⟨firstDeps, hfirst⟩, before, reached, after, decl, clause,
      rfl, ⟨restDeps, hrest⟩, hreaches⟩)
    · exact ⟨[], application, statements, decl, clause, rfl, ⟨[], rfl⟩, hreaches⟩
    · refine ⟨.functionApplication application :: before, reached, after, decl, clause, rfl,
        ⟨firstDeps :: restDeps, ?_⟩, hreaches⟩
      rw [dependencies, hfirst]
      change (dependencies _ _ _ _ >>= _) = _
      rw [hrest]
      rfl

theorem returns_dependencies {statements : List Statement}
    (hparsed : ∀ statement ∈ statements, ParsedStatement statement) :
    Returns (dependencies registry knownFunctions setNumbers statements) ↔
      ¬ StatementsReachCross registry knownFunctions setNumbers statements := by
  induction statements with
  | nil =>
    simp only [dependencies, returns_pure, true_iff]
    rintro ⟨before, application, after, decl, clause, heq, -⟩
    simp at heq
  | cons statement statements ih =>
    obtain ⟨⟨application, rfl, hclause⟩, hrest⟩ := List.forall_mem_cons.mp hparsed
    rw [dependencies, returns_bind, returns_functionDependencies hclause, statementsReachCross_cons,
      not_or, not_and]
    apply and_congr_right
    intro _
    constructor
    · rintro h ⟨first, hfirst⟩
      exact (ih hrest).mp ((returns_bind _ _).mp (h first hfirst)).1
    · intro h first hfirst
      exact (returns_bind _ _).mpr ⟨(ih hrest).mpr (h ⟨first, hfirst⟩), fun _ _ => returns_pure _⟩

end Statements

section Modules

variable {registry : FunctionRegistry} {knownFunctions : OrderedMap String FunctionDecl}

theorem returns_numberParams (params : List String) (setCounter : Nat) (setNumbers : SetNumbers) :
    Returns (numberParams params setCounter setNumbers) := by
  induction params generalizing setCounter setNumbers with
  | nil => exact returns_pure _
  | cons name params ih =>
    rw [numberParams]
    split
    · exact ih _ _
    · exact returns_fail _

theorem returns_numberReturns (outputSetsStart outputSetsEnd : Nat) (rets : List OutputDescriptor)
    (setCounter : Nat) (setNumbers : SetNumbers) :
    Returns (numberReturns outputSetsStart outputSetsEnd rets setCounter setNumbers) := by
  induction rets generalizing setCounter setNumbers with
  | nil => exact returns_pure _
  | cons ret rets ih =>
    rw [numberReturns]
    split
    · exact ih _ _
    · split
      · exact ih _ _
      · exact returns_fail _

theorem returns_numberStatements (outputSetsStart outputSetsEnd : Nat) {statements : List Statement}
    (hparsed : ∀ statement ∈ statements, ParsedStatement statement) (setCounter : Nat)
    (setNumbers : SetNumbers) :
    Returns (numberStatements outputSetsStart outputSetsEnd statements setCounter setNumbers) := by
  induction statements generalizing setCounter setNumbers with
  | nil => exact returns_pure _
  | cons statement statements ih =>
    obtain ⟨⟨application, rfl, -⟩, hrest⟩ := List.forall_mem_cons.mp hparsed
    rw [numberStatements]
    exact (returns_bind _ _).mpr ⟨returns_numberReturns _ _ _ _ _, fun _ _ => ih hrest _ _⟩

/-- The numbers of a composition's sets can be given, and one of its statements reaches
`cross`. -/
def CompositionReachesCross (registry : FunctionRegistry)
    (knownFunctions : OrderedMap String FunctionDecl) (comp : Dparser.Composition) : Prop :=
  ∃ setNumbers, setNumbersOf comp = .ok setNumbers ∧
    StatementsReachCross registry knownFunctions setNumbers comp.statements

theorem composition_eq (registry : FunctionRegistry)
    (knownFunctions : OrderedMap String FunctionDecl) (comp : Dparser.Composition) :
    ∃ entry : List FunctionDependencies → String × Composition × Metadata,
      FunctionRegistry.composition registry knownFunctions comp = (setNumbersOf comp >>= fun setNumbers =>
        dependencies registry knownFunctions setNumbers comp.statements >>= fun deps =>
          pure (entry deps)) := by
  rw [FunctionRegistry.composition, setNumbersOf]
  cases numberParams comp.params 0 .empty with
  | error stop => exact ⟨fun deps => (comp.name, ⟨deps, .empty⟩, ⟨comp.params, comp.returns⟩), rfl⟩
  | ok params =>
    refine ⟨fun deps => (comp.name,
      ⟨deps, (numberOutputs comp.returns 0 params.1 params.2 .empty).2.2⟩,
      ⟨comp.params, comp.returns⟩), ?_⟩
    simp only [bind, Except.bind]
    cases numberStatements params.1 (numberOutputs comp.returns 0 params.1 params.2 .empty).1
      comp.statements (numberOutputs comp.returns 0 params.1 params.2 .empty).1
      (numberOutputs comp.returns 0 params.1 params.2 .empty).2.1 <;> rfl

theorem returns_setNumbersOf {comp : Dparser.Composition}
    (hparsed : ∀ statement ∈ comp.statements, ParsedStatement statement) :
    Returns (setNumbersOf comp) :=
  (returns_bind _ _).mpr ⟨returns_numberParams _ _ _, fun _ _ => (returns_bind _ _).mpr
    ⟨returns_numberStatements _ _ hparsed _ _, fun _ _ => returns_pure _⟩⟩

theorem returns_composition {comp : Dparser.Composition}
    (hparsed : ∀ statement ∈ comp.statements, ParsedStatement statement) :
    Returns (FunctionRegistry.composition registry knownFunctions comp) ↔
      ¬ CompositionReachesCross registry knownFunctions comp := by
  obtain ⟨entry, heq⟩ := composition_eq registry knownFunctions comp
  rw [heq, returns_bind, and_iff_right (returns_setNumbersOf hparsed)]
  constructor
  · rintro h ⟨setNumbers, hnumbers, hcross⟩
    have hdeps := ((returns_bind _ _).mp (h setNumbers hnumbers)).1
    exact (returns_dependencies hparsed).mp hdeps hcross
  · intro h setNumbers hnumbers
    exact (returns_bind _ _).mpr ⟨(returns_dependencies hparsed).mpr
      fun hcross => h ⟨setNumbers, hnumbers, hcross⟩, fun _ _ => returns_pure _⟩

/-- The declarations a composition sees after the items before it. -/
def declarations : Module → OrderedMap String FunctionDecl → OrderedMap String FunctionDecl
  | [], knownFunctions => knownFunctions
  | .functionDecl decl :: items, knownFunctions =>
    declarations items (knownFunctions.insert decl.name decl)
  | .composition _ :: items, knownFunctions => declarations items knownFunctions

/-- One of the items is a composition of this name. -/
def HasComposition (module : Module) (name : String) : Prop :=
  ∃ comp, .composition comp ∈ module ∧ comp.name = name

/-- A composition with a free name reaches `cross` after the items before it have been
accepted. -/
def ModuleReachesCross (registry : FunctionRegistry) (module : Module)
    (compositionIds : List String) (knownFunctions : OrderedMap String FunctionDecl) : Prop :=
  ∃ before comp after, module = before ++ .composition comp :: after ∧
    (∃ entries, compositionsFrom registry before compositionIds knownFunctions = .ok entries) ∧
    registry.existsName comp.name = false ∧ comp.name ∉ compositionIds ∧
    ¬ HasComposition before comp.name ∧
    CompositionReachesCross registry (declarations before knownFunctions) comp

variable {items : Module} {compositionIds : List String}

theorem moduleReachesCross_decl (decl : FunctionDecl) :
    ModuleReachesCross registry (.functionDecl decl :: items) compositionIds knownFunctions ↔
      registry.existsName decl.name = true ∧
        ModuleReachesCross registry items compositionIds (knownFunctions.insert decl.name decl) := by
  constructor
  · rintro ⟨before, comp, after, heq, ⟨entries, hbefore⟩, hname, hid, hnew, hreaches⟩
    cases before with
    | nil => cases heq
    | cons first before =>
      cases heq
      rw [compositionsFrom] at hbefore
      split at hbefore
      case isTrue hdecl =>
        refine ⟨hdecl, before, comp, after, rfl, ⟨entries, hbefore⟩, hname, hid, ?_, hreaches⟩
        rintro ⟨other, hother, heq⟩
        exact hnew ⟨other, List.mem_cons_of_mem _ hother, heq⟩
      case isFalse hdecl => cases hbefore
  · rintro ⟨hdecl, before, comp, after, rfl, ⟨entries, hbefore⟩, hname, hid, hnew, hreaches⟩
    refine ⟨.functionDecl decl :: before, comp, after, rfl, ⟨entries, ?_⟩, hname, hid, ?_, hreaches⟩
    · rw [compositionsFrom, if_pos hdecl]
      exact hbefore
    · rintro ⟨other, hother, heq⟩
      rcases List.mem_cons.mp hother with hfirst | hother
      · cases hfirst
      · exact hnew ⟨other, hother, heq⟩

theorem moduleReachesCross_composition (comp : Dparser.Composition) :
    ModuleReachesCross registry (.composition comp :: items) compositionIds knownFunctions ↔
      (registry.existsName comp.name = false ∧ comp.name ∉ compositionIds) ∧
        (CompositionReachesCross registry knownFunctions comp ∨
          (∃ entry, FunctionRegistry.composition registry knownFunctions comp = .ok entry) ∧
            ModuleReachesCross registry items (comp.name :: compositionIds) knownFunctions) := by
  constructor
  · rintro ⟨before, reached, after, heq, ⟨entries, hbefore⟩, hname, hid, hnew, hreaches⟩
    cases before with
    | nil =>
      cases heq
      exact ⟨⟨hname, hid⟩, .inl hreaches⟩
    | cons first before =>
      cases heq
      rw [compositionsFrom] at hbefore
      split at hbefore
      case isTrue htaken => cases hbefore
      case isFalse htaken =>
        obtain ⟨entry, hentry, hrest⟩ := (bind_eq_ok_iff _ _ _).mp hbefore
        obtain ⟨rest, hrest, -⟩ := (bind_eq_ok_iff _ _ _).mp hrest
        refine ⟨by simpa using htaken, .inr ⟨⟨entry, hentry⟩, before, reached, after, rfl,
          ⟨rest, hrest⟩, hname, ?_, ?_, hreaches⟩⟩
        · intro hmem
          rcases List.mem_cons.mp hmem with heq | hmem
          · exact hnew ⟨comp, List.mem_cons_self, heq.symm⟩
          · exact hid hmem
        · rintro ⟨other, hother, heq⟩
          exact hnew ⟨other, List.mem_cons_of_mem _ hother, heq⟩
  · rintro ⟨⟨hname, hid⟩, hreaches | ⟨⟨entry, hentry⟩, before, reached, after, rfl, ⟨rest, hrest⟩,
      hname', hid', hnew, hreaches⟩⟩
    · exact ⟨[], comp, items, rfl, ⟨[], rfl⟩, hname, hid, fun ⟨_, hmem, _⟩ =>
        absurd hmem List.not_mem_nil, hreaches⟩
    · rw [List.mem_cons, not_or] at hid'
      refine ⟨.composition comp :: before, reached, after, rfl, ⟨entry :: rest, ?_⟩, hname', hid'.2,
        ?_, hreaches⟩
      · rw [compositionsFrom, if_neg (by simp [hname, hid]), hentry]
        change (compositionsFrom _ _ _ _ >>= _) = _
        rw [hrest]
        rfl
      · rintro ⟨other, hother, heq⟩
        rcases List.mem_cons.mp hother with hfirst | hother
        · cases hfirst
          exact hid'.1 heq.symm
        · exact hnew ⟨other, hother, heq⟩

theorem returns_compositionsFrom {module : Module} (hparsed : ParsedModule module)
    (compositionIds : List String) (knownFunctions : OrderedMap String FunctionDecl) :
    Returns (compositionsFrom registry module compositionIds knownFunctions) ↔
      ¬ ModuleReachesCross registry module compositionIds knownFunctions := by
  induction module generalizing compositionIds knownFunctions with
  | nil =>
    simp only [compositionsFrom, returns_pure, true_iff]
    rintro ⟨before, comp, after, heq, -⟩
    simp at heq
  | cons item items ih =>
    have hrest : ParsedModule items := fun comp hcomp => hparsed comp (List.mem_cons_of_mem _ hcomp)
    cases item with
    | functionDecl decl =>
      rw [compositionsFrom, moduleReachesCross_decl, not_and]
      split
      case isTrue hdecl =>
        rw [ih hrest]
        exact ⟨fun h _ => h, fun h => h hdecl⟩
      case isFalse hdecl =>
        simp only [returns_fail, true_iff]
        exact fun h => absurd h hdecl
    | composition comp =>
      have hcomp := hparsed comp List.mem_cons_self
      rw [compositionsFrom, moduleReachesCross_composition, not_and, not_or, not_and]
      split
      case isTrue htaken =>
        simp only [returns_fail, true_iff]
        rintro ⟨hname, hid⟩
        simp [hname, hid] at htaken
      case isFalse htaken =>
        have hfree : registry.existsName comp.name = false ∧ comp.name ∉ compositionIds := by
          simpa using htaken
        rw [returns_bind, returns_composition hcomp]
        constructor
        · rintro ⟨hfirst, h⟩ _
          refine ⟨hfirst, ?_⟩
          rintro ⟨entry, hentry⟩
          exact (ih hrest _ _).mp ((returns_bind _ _).mp (h entry hentry)).1
        · intro h
          obtain ⟨hfirst, hlater⟩ := h hfree
          refine ⟨hfirst, fun entry hentry => (returns_bind _ _).mpr
            ⟨(ih hrest _ _).mpr (hlater ⟨entry, hentry⟩), fun _ _ => returns_pure _⟩⟩

/-- The registration of a parsed module returns, unless it comes to a join clause with
`cross`. -/
theorem compositionFromModule_returns_iff (registry : FunctionRegistry) {src : String}
    {module : Module} (h : parse src = some module) :
    Returns (compositionFromModule registry module) ↔
      ¬ ModuleReachesCross registry module [] .empty :=
  returns_compositionsFrom (parsedModule_of_parse h) [] .empty

end Modules

/-- A composition that joins the sets of its only application. -/
def joining (strategy : String) : String :=
  "function F(x, y) => (z); composition C(A, B) => (D) \x7b F(x = keyed A, y = keyed B) => (D = z) by x " ++
    strategy ++ " y; \x7d"

def joiningModule (strategy : JoinFilterStrategy) : Module :=
  [.functionDecl ⟨"F", ["x", "y"], ["z"]⟩, .composition ⟨"C", ["A", "B"], ["D"],
    [.functionApplication ⟨"F", [⟨"x", "A", .keyed, false⟩, ⟨"y", "B", .keyed, false⟩], [⟨"D", "z"⟩],
      some ⟨["x", "y"], [strategy]⟩⟩]⟩]

theorem joining_left_returns : parse (joining "left") = some (joiningModule .left) ∧
    ¬ ModuleReachesCross ⟨fun name => name = "F", fun _ => true⟩ (joiningModule .left) [] .empty := by
  have hparse : parse (joining "left") = some (joiningModule .left) := by decide +kernel
  have hok : (compositionFromModule ⟨fun name => name = "F", fun _ => true⟩
    (joiningModule .left)).isOk = true := by decide
  refine ⟨hparse, (compositionFromModule_returns_iff _ hparse).mp ?_⟩
  intro stop hstop
  rw [hstop] at hok
  cases hok

theorem joining_cross_panics : parse (joining "cross") = some (joiningModule .cross) ∧
    ¬ Returns (compositionFromModule ⟨fun name => name = "F", fun _ => true⟩ (joiningModule .cross)) := by
  refine ⟨by decide +kernel, fun h => ?_⟩
  have hpanic : compositionFromModule ⟨fun name => name = "F", fun _ => true⟩ (joiningModule .cross) =
    crash := by decide
  rw [hpanic] at h
  exact not_returns_crash h

end Dandelion
