import Dandelion.Dispatcher
import Mathlib.Data.List.ReduceOption

/-!
# The dataflow meaning of a composition

The least assignment of values to the composition sets: an input has its value, an
application with an empty set that is not optional gives its outputs nothing, and an
application whose input sets all have values gives its outputs what the function
reports for them. With every set assigned in one place the assignment is a function.
-/

namespace Dandelion

open Outcome

section Dataflow

variable {Ctx : Type} (call : ShardedCall Ctx) (dependencies : List FunctionDependencies)
  (inputs : List (Option (CompositionSet Ctx)))

/-- The input sets of an application under an assignment. -/
def suppliedInputs (deps : FunctionDependencies) (values : Nat → Option (CompositionSet Ctx)) :
    FunctionInputs Ctx :=
  deps.inputSetIds.map fun descriptorOption => descriptorOption.bind fun descriptor =>
    (values descriptor.compositionId).map fun set => (descriptor.sharding, set)

/-- No input set that is not optional lacks its items. -/
def Supplied (deps : FunctionDependencies) (values : Nat → Option (CompositionSet Ctx)) : Prop :=
  ∀ descriptor, some descriptor ∈ deps.inputSetIds → descriptor.optional = false →
    noItems (values descriptor.compositionId) = false

inductive Assigned : Nat → Option (CompositionSet Ctx) → Prop where
  | input {id : Nat} {value : Option (CompositionSet Ctx)} (h : inputs[id]? = some value) :
      Assigned id value
  | skipped {deps : FunctionDependencies} {descriptor : InputSetDescriptor}
      {value : Option (CompositionSet Ctx)} {id : Nat} (hdeps : deps ∈ dependencies)
      (hdescriptor : some descriptor ∈ deps.inputSetIds) (hoptional : descriptor.optional = false)
      (hvalue : Assigned descriptor.compositionId value) (hempty : noItems value = true)
      (hid : some id ∈ deps.outputSetIds) : Assigned id none
  | reported {deps : FunctionDependencies} {values : Nat → Option (CompositionSet Ctx)}
      {report : NewCompositions Ctx} {id : Nat} {value : Option (CompositionSet Ctx)}
      (hdeps : deps ∈ dependencies)
      (hvalues : ∀ descriptor, some descriptor ∈ deps.inputSetIds →
        Assigned descriptor.compositionId (values descriptor.compositionId))
      (hsupplied : Supplied deps values)
      (hcall : call deps.function (suppliedInputs deps values) deps.joinInfo deps.outputSetIds =
        .ok report)
      (hid : (id, value) ∈ report) : Assigned id value

/-- Every set is assigned in one place: no output id is an input of the composition, and
none occurs twice. -/
structure SingleAssignment : Prop where
  fresh : ∀ deps ∈ dependencies, ∀ id, some id ∈ deps.outputSetIds → inputs.length ≤ id
  nodup : (dependencies.flatMap fun deps => deps.outputSetIds.reduceOption).Nodup

/-- Every call the dataflow makes succeeds and reports the ids of the output mapping. -/
def CallsReport : Prop :=
  ∀ deps ∈ dependencies, ∀ values : Nat → Option (CompositionSet Ctx),
    (∀ descriptor, some descriptor ∈ deps.inputSetIds →
      Assigned call dependencies inputs descriptor.compositionId
        (values descriptor.compositionId)) →
    Supplied deps values →
    ∃ report, call deps.function (suppliedInputs deps values) deps.joinInfo deps.outputSetIds =
      .ok report ∧ report.map Prod.fst = deps.outputSetIds.reduceOption

open Classical in
/-- The assigned value, `none` for a set without one. -/
noncomputable def assignedValue (id : Nat) : Option (CompositionSet Ctx) :=
  if h : ∃ value, Assigned call dependencies inputs id value then h.choose else none

variable {call dependencies inputs}

theorem suppliedInputs_congr {deps : FunctionDependencies}
    {values values' : Nat → Option (CompositionSet Ctx)}
    (h : ∀ descriptor, some descriptor ∈ deps.inputSetIds →
      values descriptor.compositionId = values' descriptor.compositionId) :
    suppliedInputs deps values = suppliedInputs deps values' := by
  apply List.map_congr_left
  intro descriptorOption hmem
  cases descriptorOption with
  | none => rfl
  | some descriptor => simp only [Option.bind_some, h descriptor hmem]

theorem SingleAssignment.unique_producer (h : SingleAssignment dependencies inputs)
    {deps deps' : FunctionDependencies} {id : Nat} (hdeps : deps ∈ dependencies)
    (hdeps' : deps' ∈ dependencies) (hid : some id ∈ deps.outputSetIds)
    (hid' : some id ∈ deps'.outputSetIds) : deps = deps' := by
  obtain ⟨-, hdisjoint⟩ := List.nodup_flatMap.mp h.nodup
  by_contra hne
  have hsymm : Std.Symm (Function.onFun List.Disjoint fun deps : FunctionDependencies =>
    deps.outputSetIds.reduceOption) := ⟨fun _ _ hd => List.Disjoint.symm hd⟩
  have hdis := hdisjoint.forall hdeps hdeps' hne
  exact hdis (List.reduceOption_mem_iff.mpr hid) (List.reduceOption_mem_iff.mpr hid')

theorem SingleAssignment.nodup_outputs (h : SingleAssignment dependencies inputs)
    {deps : FunctionDependencies} (hdeps : deps ∈ dependencies) :
    deps.outputSetIds.reduceOption.Nodup :=
  (List.nodup_flatMap.mp h.nodup).1 deps hdeps

theorem mem_of_reported {deps : FunctionDependencies} {report : NewCompositions Ctx}
    (hids : report.map Prod.fst = deps.outputSetIds.reduceOption) {id : Nat}
    {value : Option (CompositionSet Ctx)} (h : (id, value) ∈ report) :
    some id ∈ deps.outputSetIds := by
  apply List.reduceOption_mem_iff.mp
  rw [← hids]
  exact List.mem_map_of_mem h

theorem eq_of_mem_report {report : NewCompositions Ctx} (hnodup : (report.map Prod.fst).Nodup)
    {id : Nat} {value value' : Option (CompositionSet Ctx)} (h : (id, value) ∈ report)
    (h' : (id, value') ∈ report) : value = value' := by
  have heq := List.inj_on_of_nodup_map hnodup h h' rfl
  exact congrArg Prod.snd heq

section Unique

variable (hsingle : SingleAssignment dependencies inputs)
  (hcalls : CallsReport call dependencies inputs)
include hsingle hcalls

/-- The outputs of an application are not inputs, and no other application has them. -/
theorem Assigned.output_cases {id : Nat} {value : Option (CompositionSet Ctx)}
    (h : Assigned call dependencies inputs id value) {deps : FunctionDependencies}
    (hdeps : deps ∈ dependencies) (hid : some id ∈ deps.outputSetIds) :
    (value = none ∧ ∃ descriptor v, some descriptor ∈ deps.inputSetIds ∧
        descriptor.optional = false ∧
        Assigned call dependencies inputs descriptor.compositionId v ∧ noItems v = true) ∨
      ∃ values report, (∀ descriptor, some descriptor ∈ deps.inputSetIds →
          Assigned call dependencies inputs descriptor.compositionId
            (values descriptor.compositionId)) ∧
        Supplied deps values ∧
        call deps.function (suppliedInputs deps values) deps.joinInfo deps.outputSetIds =
          .ok report ∧ (id, value) ∈ report := by
  cases h with
  | input h =>
    have hlt := (List.getElem?_eq_some_iff.mp h).1
    have hle := hsingle.fresh deps hdeps id hid
    omega
  | @skipped deps' descriptor v _ hdeps' hdescriptor hoptional hvalue hempty hid' =>
    obtain rfl := hsingle.unique_producer hdeps hdeps' hid hid'
    exact .inl ⟨rfl, descriptor, v, hdescriptor, hoptional, hvalue, hempty⟩
  | @reported deps' values report _ _ hdeps' hvalues hsupplied hcall hmem =>
    obtain ⟨report', hcall', hids⟩ := hcalls deps' hdeps' values hvalues hsupplied
    rw [hcall] at hcall'
    cases hcall'
    obtain rfl := hsingle.unique_producer hdeps hdeps' hid (mem_of_reported hids hmem)
    exact .inr ⟨values, report, hvalues, hsupplied, hcall, hmem⟩

theorem Assigned.unique {id : Nat} {value value' : Option (CompositionSet Ctx)}
    (h : Assigned call dependencies inputs id value)
    (h' : Assigned call dependencies inputs id value') : value = value' := by
  induction h generalizing value' with
  | @input id value hin =>
    cases h' with
    | input hin' =>
      rw [hin] at hin'
      exact Option.some.inj hin'
    | @skipped deps _ _ _ hdeps _ _ _ _ hid =>
      have hlt := (List.getElem?_eq_some_iff.mp hin).1
      have hle := hsingle.fresh deps hdeps id hid
      omega
    | @reported deps values report _ _ hdeps hvalues hsupplied hcall hmem =>
      obtain ⟨report', hcall', hids⟩ := hcalls deps hdeps values hvalues hsupplied
      rw [hcall] at hcall'
      cases hcall'
      have hlt := (List.getElem?_eq_some_iff.mp hin).1
      have hle := hsingle.fresh deps hdeps id (mem_of_reported hids hmem)
      omega
  | @skipped deps descriptor v id hdeps hdescriptor hoptional hvalue hempty hid ih =>
    obtain ⟨rfl, -⟩ | ⟨values, report, hvalues, hsupplied, -, -⟩ :=
      h'.output_cases hsingle hcalls hdeps hid
    · rfl
    · have hitems := hsupplied descriptor hdescriptor hoptional
      rw [← ih (hvalues descriptor hdescriptor), hempty] at hitems
      cases hitems
  | @reported deps values report id value hdeps hvalues hsupplied hcall hmem ih =>
    obtain ⟨report', hcall', hids⟩ := hcalls deps hdeps values hvalues hsupplied
    rw [hcall] at hcall'
    cases hcall'
    obtain ⟨-, descriptor, v, hdescriptor, hoptional, hv, hempty⟩ |
        ⟨values', report', hvalues', -, hcall', hmem'⟩ :=
      h'.output_cases hsingle hcalls hdeps (mem_of_reported hids hmem)
    · have hitems := hsupplied descriptor hdescriptor hoptional
      rw [ih descriptor hdescriptor hv, hempty] at hitems
      cases hitems
    · have hsame : suppliedInputs deps values = suppliedInputs deps values' :=
        suppliedInputs_congr fun descriptor hdescriptor =>
          ih descriptor hdescriptor (hvalues' descriptor hdescriptor)
      rw [hsame, hcall'] at hcall
      cases hcall
      have hnodup : (report.map Prod.fst).Nodup := by
        rw [hids]
        exact hsingle.nodup_outputs hdeps
      exact eq_of_mem_report hnodup hmem hmem'

theorem Assigned.value_eq {id : Nat} {value : Option (CompositionSet Ctx)}
    (h : Assigned call dependencies inputs id value) :
    assignedValue call dependencies inputs id = value := by
  have hex : ∃ value, Assigned call dependencies inputs id value := ⟨value, h⟩
  rw [assignedValue, dif_pos hex]
  exact hex.choose_spec.unique hsingle hcalls h

end Unique

theorem assignedValue_of_not {id : Nat}
    (h : ¬ ∃ value, Assigned call dependencies inputs id value) :
    assignedValue call dependencies inputs id = none := dif_neg h

end Dataflow
end Dandelion
