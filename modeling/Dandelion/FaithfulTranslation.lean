import Dandelion.Registration

/-!
# Faithful translation of applications

The arguments and return assignments of an application are written at the first position
that the declaration has for their names. Nothing is lost if and only if no name is used
twice in the argument list or in the return list; names that the declaration repeats do no
harm.
-/

namespace Dandelion

open Outcome FunctionRegistry PositionWrites List

section Faithful

variable {decl : Dparser.FunctionDecl} {setNumbers : SetNumbers}
  {application : Dparser.FunctionApplication} {deps : FunctionDependencies}

/-- Every argument and every return assignment is found in the translation, which has no
other entries. -/
structure Faithful (decl : Dparser.FunctionDecl) (setNumbers : SetNumbers)
    (application : Dparser.FunctionApplication) (deps : FunctionDependencies) : Prop where
  arguments : ∀ argument ∈ application.args, ∃ j id : Nat, decl.params[j]? = some argument.name ∧
    setNumbers.get? argument.ident = some id ∧ deps.inputSetIds[j]? =
      some (some ⟨id, ShardingMode.fromParserSharding argument.sharding, argument.optional⟩)
  returns : ∀ ret ∈ application.rets, ∃ j id : Nat, decl.returns[j]? = some ret.name ∧
    setNumbers.get? ret.ident = some id ∧ deps.outputSetIds[j]? = some (some id)
  argumentCount : deps.inputSetIds.countP Option.isSome = application.args.length
  returnCount : deps.outputSetIds.countP Option.isSome = application.rets.length

/-- No name stands twice in the argument list, nor in the return list. -/
def NamesOnce (application : Dparser.FunctionApplication) : Prop :=
  (application.args.map Dparser.InputDescriptor.name).Nodup ∧
    (application.rets.map Dparser.OutputDescriptor.name).Nodup

instance (application : Dparser.FunctionApplication) : Decidable (NamesOnce application) :=
  inferInstanceAs (Decidable (_ ∧ _))

theorem Translated.faithful_iff (h : Translated decl setNumbers application deps) :
    Faithful decl setNumbers application deps ↔ NamesOnce application := by
  obtain ⟨arguments, harguments, hinputs⟩ := h.arguments
  obtain ⟨returns, hreturns, houtputs⟩ := h.returns
  have hkeyed := keyedWrites_arguments decl.params setNumbers
  have hkeyed' := keyedWrites_returns decl.returns setNumbers
  constructor
  · intro hfaithful
    have hcount := hfaithful.argumentCount
    have hcount' := hfaithful.returnCount
    rw [hinputs] at hcount
    rw [houtputs] at hcount'
    exact ⟨(hkeyed.countP_iff harguments).mp hcount, (hkeyed'.countP_iff hreturns).mp hcount'⟩
  · intro hnames
    constructor
    · intro argument hargument
      obtain ⟨⟨j, descriptor⟩, ⟨hj, id, hid, hdescriptor⟩, hget⟩ :=
        hkeyed.getElem?_of_nodup harguments hnames.1 hargument
      refine ⟨j, id, position_name hj, hid, ?_⟩
      rw [hinputs, hget, hdescriptor]
    · intro ret hret
      obtain ⟨⟨j, id⟩, ⟨hj, hid⟩, hget⟩ := hkeyed'.getElem?_of_nodup hreturns hnames.2 hret
      refine ⟨j, id, position_name hj, hid, ?_⟩
      rw [houtputs, hget]
    · rw [hinputs]
      exact (hkeyed.countP_iff harguments).mpr hnames.1
    · rw [houtputs]
      exact (hkeyed'.countP_iff hreturns).mpr hnames.2

/-- Every statement of a composition is an application that is faithfully translated. -/
def FaithfulComposition (source : OrderedMap String Dparser.FunctionDecl × Dparser.Composition)
    (entry : String × Composition × Metadata) : Prop :=
  ∃ setNumbers, setNumbersOf source.2 = .ok setNumbers ∧
    Forall₂ (fun statement deps => ∃ application decl, statement = .functionApplication application ∧
      source.1.get? application.name = some decl ∧ Faithful decl setNumbers application deps)
      source.2.statements entry.2.1.dependencies

theorem Registered.faithful_iff {source : OrderedMap String Dparser.FunctionDecl × Dparser.Composition}
    {entry : String × Composition × Metadata} (h : Registered source entry) :
    FaithfulComposition source entry ↔ ∀ application,
      .functionApplication application ∈ source.2.statements → NamesOnce application := by
  obtain ⟨setNumbers, hnumbers, htranslated⟩ := h
  have hstatement : ∀ statement deps, TranslatedStatement source.1 setNumbers statement deps →
      ((∃ application decl, statement = .functionApplication application ∧
          source.1.get? application.name = some decl ∧ Faithful decl setNumbers application deps) ↔
        ∀ application, statement = .functionApplication application → NamesOnce application) := by
    rintro - deps ⟨application, decl, rfl, hdecl, htranslated⟩
    constructor
    · rintro ⟨application', decl', heq, hdecl', hfaithful⟩ application'' heq'
      cases heq
      cases heq'
      rw [hdecl] at hdecl'
      cases hdecl'
      exact htranslated.faithful_iff.mp hfaithful
    · intro hnames
      exact ⟨application, decl, rfl, hdecl, htranslated.faithful_iff.mpr (hnames application rfl)⟩
  have hall := forall₂_iff_forall htranslated hstatement
  constructor
  · rintro ⟨setNumbers', hnumbers', hfaithful⟩ application happlication
    rw [hnumbers] at hnumbers'
    cases hnumbers'
    exact hall.mp hfaithful _ happlication application rfl
  · intro hnames
    refine ⟨setNumbers, hnumbers, hall.mpr fun statement hstatement application heq => ?_⟩
    exact hnames application (heq ▸ hstatement)

/-- The compositions of a registered module are faithfully translated if and only if no
application uses a name twice. -/
theorem compositionFromModule_faithful_iff {registry : FunctionRegistry} {module : Dparser.Module}
    {entries : List (String × Composition × Metadata)}
    (h : compositionFromModule registry module = .ok entries) :
    Forall₂ FaithfulComposition (compositionsOf module .empty) entries ↔
      ∀ comp, .composition comp ∈ module → ∀ application,
        .functionApplication application ∈ comp.statements → NamesOnce application := by
  rw [forall₂_iff_forall (compositionsFrom_ok h) fun _ _ hentry => hentry.faithful_iff]
  exact forall_compositionsOf_iff (Q := fun comp => ∀ application,
    .functionApplication application ∈ comp.statements → NamesOnce application) module .empty

end Faithful

/-- `function F(x, y) => (z)` and
`composition C(A, B) => (D) { F(x = all A, second = each optional B) => (D = z); }` -/
def twoArguments (second : String) : Dparser.Module :=
  [.functionDecl ⟨"F", ["x", "y"], ["z"]⟩,
    .composition ⟨"C", ["A", "B"], ["D"],
      [.functionApplication ⟨"F", [⟨"x", "A", .all, false⟩, ⟨second, "B", .each, true⟩],
        [⟨"D", "z"⟩], none⟩]⟩]

/-- What is registered for it, with the input sets of its application. -/
def twoArgumentsEntries (inputSetIds : List (Option InputSetDescriptor)) :
    List (String × Composition × Metadata) :=
  [("C", ⟨[⟨"F", inputSetIds, ([], []), [some 2]⟩], .single 2 0⟩, ⟨["A", "B"], ["D"]⟩)]

theorem twoArguments_faithful :
    Forall₂ FaithfulComposition (compositionsOf (twoArguments "y") .empty)
      (twoArgumentsEntries [some ⟨0, .all, false⟩, some ⟨1, .each, true⟩]) := by
  have hok : compositionFromModule ⟨fun name => name = "F", fun _ => true⟩ (twoArguments "y") =
      .ok (twoArgumentsEntries [some ⟨0, .all, false⟩, some ⟨1, .each, true⟩]) := by decide
  apply (compositionFromModule_faithful_iff hok).mpr
  intro comp hcomp application happlication
  obtain rfl : comp = _ := by simpa [twoArguments] using hcomp
  obtain rfl : application = _ := by simpa using happlication
  decide

/-- The second argument for `x` takes the place of the first. -/
theorem argument_overwritten :
    compositionFromModule ⟨fun name => name = "F", fun _ => true⟩ (twoArguments "x") =
      .ok (twoArgumentsEntries [some ⟨1, .each, true⟩, none]) ∧
    ¬ Forall₂ FaithfulComposition (compositionsOf (twoArguments "x") .empty)
      (twoArgumentsEntries [some ⟨1, .each, true⟩, none]) := by
  refine ⟨by decide, fun h => ?_⟩
  obtain ⟨⟨setNumbers, -, hstatements⟩, -⟩ := List.forall₂_cons.mp h
  obtain ⟨⟨application, decl, heq, -, hfaithful⟩, -⟩ := List.forall₂_cons.mp hstatements
  cases heq
  exact absurd hfaithful.argumentCount (by decide)

end Dandelion
