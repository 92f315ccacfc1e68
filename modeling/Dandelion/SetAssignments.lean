import Dandelion.Registration
import Mathlib.Data.List.Flatten

/-!
# How often composition sets are assigned

The registration numbers the parameters, then the returned sets, then the sets that the
applications assign. It rejects an assignment to a parameter and a second assignment to an
internal set, but returned sets may be assigned any number of times.
-/

namespace Dandelion

open Outcome FunctionRegistry PositionWrites List

section Occurrences

variable {α β : Type*} [DecidableEq β] {f : α → β}

/-- An element whose image occurs once is found at one place of a list. -/
theorem split_unique {before after before' after' : List α} {x x' : α}
    (hcount : ((before ++ x :: after).map f).count (f x) ≤ 1)
    (h : before ++ x :: after = before' ++ x' :: after') (hx : f x' = f x) :
    before' = before ∧ x' = x ∧ after' = after := by
  rw [List.map_append, List.map_cons, List.count_append, List.count_cons_self] at hcount
  have hbefore : x' ∉ before := by
    intro hmem
    have hpos := List.count_pos_iff.mpr (List.mem_map_of_mem (f := f) hmem)
    rw [hx] at hpos
    omega
  have hafter : x' ∉ after := by
    intro hmem
    have hpos := List.count_pos_iff.mpr (List.mem_map_of_mem (f := f) hmem)
    rw [hx] at hpos
    omega
  obtain ⟨rfl, rfl, rfl⟩ := (List.append_cons_inj_of_notMem hbefore hafter).mp h
  exact ⟨rfl, rfl, rfl⟩

/-- A value that occurs once in lists put together occurs in one of them. -/
theorem index_unique {g : α → List β} {l : List α} {b : β} (hcount : (l.flatMap g).count b ≤ 1)
    {k k' : Nat} {x x' : α} (hk : l[k]? = some x) (hk' : l[k']? = some x') (hx : b ∈ g x)
    (hx' : b ∈ g x') : k = k' := by
  have hlt : ∀ {i i' : Nat} {y y' : α}, l[i]? = some y → l[i']? = some y' → b ∈ g y → b ∈ g y' →
      ¬ i < i' := by
    intro i i' y y' hi hi' hy hy' hlt
    obtain ⟨hlt', rfl⟩ := List.getElem?_eq_some_iff.mp hi'
    have hsplit : l = l.take i' ++ l[i'] :: l.drop (i' + 1) := by
      rw [List.cons_getElem_drop_succ, List.take_append_drop]
    have hfirst : b ∈ (l.take i').flatMap g := by
      have hy₀ : (l.take i')[i]? = some y := by rw [List.getElem?_take_of_lt hlt, hi]
      exact List.mem_flatMap.mpr ⟨y, List.mem_of_getElem? hy₀, hy⟩
    rw [hsplit, List.flatMap_append, List.flatMap_cons, List.count_append,
      List.count_append] at hcount
    have hpos := List.count_pos_iff.mpr hfirst
    have hpos' := List.count_pos_iff.mpr hy'
    omega
  have h₁ := hlt hk hk' hx hx'
  have h₂ := hlt hk' hk hx' hx
  omega

end Occurrences

section Numbering

/-- The numbers in use are below the counter, and no two names share one. -/
structure Numbered (setCounter : Nat) (setNumbers : SetNumbers) : Prop where
  lt : ∀ name id, setNumbers.get? name = some id → id < setCounter
  inj : ∀ name name' id, setNumbers.get? name = some id → setNumbers.get? name' = some id →
    name = name'

variable {setCounter setCounter' : Nat} {setNumbers setNumbers' : SetNumbers}

theorem numbered_empty : Numbered 0 .empty where
  lt := fun name id h => by simp at h
  inj := fun name name' id h => by simp at h

theorem Numbered.insert (h : Numbered setCounter setNumbers) (name : String) :
    Numbered (setCounter + 1) (setNumbers.insert name setCounter) where
  lt := by
    intro name' id hget
    rcases (OrderedMap.get?_insert_eq_some_iff _ _ _ _ _).mp hget with ⟨-, rfl⟩ | ⟨-, hold⟩
    · exact Nat.lt_succ_self _
    · exact Nat.lt_succ_of_lt (h.lt name' id hold)
  inj := by
    intro first second id hfirst hsecond
    rcases (OrderedMap.get?_insert_eq_some_iff _ _ _ _ _).mp hfirst with ⟨rfl, rfl⟩ | ⟨-, hold⟩
    · rcases (OrderedMap.get?_insert_eq_some_iff _ _ _ _ _).mp hsecond with ⟨rfl, -⟩ | ⟨-, hold'⟩
      · rfl
      · exact absurd (h.lt _ _ hold') (Nat.lt_irrefl _)
    · rcases (OrderedMap.get?_insert_eq_some_iff _ _ _ _ _).mp hsecond with ⟨-, rfl⟩ | ⟨-, hold'⟩
      · exact absurd (h.lt _ _ hold) (Nat.lt_irrefl _)
      · exact h.inj first second id hold hold'

/-- The numbering goes on with a list of names: old names keep their numbers, and those of
new names start at the counter. -/
structure Extends (setCounter : Nat) (setNumbers : SetNumbers) (names : List String)
    (setCounter' : Nat) (setNumbers' : SetNumbers) : Prop where
  numbered : Numbered setCounter' setNumbers'
  le : setCounter ≤ setCounter'
  kept : ∀ name id, setNumbers.get? name = some id → setNumbers'.get? name = some id
  fresh : ∀ name id, setNumbers.get? name = none → setNumbers'.get? name = some id →
    setCounter ≤ id ∧ name ∈ names
  named : ∀ name ∈ names, ∃ id, setNumbers'.get? name = some id

theorem Numbered.extends_nil (h : Numbered setCounter setNumbers) :
    Extends setCounter setNumbers [] setCounter setNumbers where
  numbered := h
  le := Nat.le_refl _
  kept := fun _ _ hget => hget
  fresh := fun _ _ hnone hsome => absurd (hnone.symm.trans hsome) (by simp)
  named := fun _ hname => absurd hname List.not_mem_nil

theorem Extends.new {first : String} {names : List String} (hfirst : setNumbers.get? first = none)
    (h : Extends (setCounter + 1) (setNumbers.insert first setCounter) names setCounter'
      setNumbers') :
    Extends setCounter setNumbers (first :: names) setCounter' setNumbers' := by
  have hkept := h.kept first setCounter (OrderedMap.get?_insert_self _ _ _)
  refine ⟨h.numbered, Nat.le_of_succ_le h.le, fun name id hget => ?_, fun name id hnone hsome => ?_,
    List.forall_mem_cons.mpr ⟨⟨_, hkept⟩, h.named⟩⟩
  · apply h.kept
    rw [OrderedMap.get?_insert_of_ne]
    · exact hget
    · rintro rfl
      rw [hfirst] at hget
      cases hget
  · by_cases heq : name = first
    · subst heq
      rw [hkept] at hsome
      cases hsome
      exact ⟨Nat.le_refl _, List.mem_cons_self⟩
    · obtain ⟨hle, hname⟩ := h.fresh name id
        (by rw [OrderedMap.get?_insert_of_ne _ _ heq, hnone]) hsome
      exact ⟨Nat.le_of_succ_le hle, List.mem_cons_of_mem _ hname⟩

theorem Extends.old {first : String} {names : List String} {id : Nat}
    (hfirst : setNumbers.get? first = some id)
    (h : Extends setCounter setNumbers names setCounter' setNumbers') :
    Extends setCounter setNumbers (first :: names) setCounter' setNumbers' where
  numbered := h.numbered
  le := h.le
  kept := h.kept
  fresh := by
    intro name id' hnone hsome
    obtain ⟨hle, hname⟩ := h.fresh name id' hnone hsome
    exact ⟨hle, List.mem_cons_of_mem _ hname⟩
  named := List.forall_mem_cons.mpr ⟨⟨id, h.kept first id hfirst⟩, h.named⟩

theorem numberParams_extends {params : List String}
    (h : numberParams params setCounter setNumbers = .ok (setCounter', setNumbers'))
    (hnumbered : Numbered setCounter setNumbers) :
    Extends setCounter setNumbers params setCounter' setNumbers' := by
  induction params generalizing setCounter setNumbers with
  | nil =>
    cases h
    exact hnumbered.extends_nil
  | cons first params ih =>
    rw [numberParams] at h
    cases hfirst : setNumbers.get? first with
    | none =>
      rw [hfirst] at h
      exact (ih h (hnumbered.insert first)).new hfirst
    | some id =>
      rw [hfirst] at h
      cases h

theorem numberOutputs_extends {returns : List String} {outputIndex : Nat}
    {outputMap outputMap' : OrderedMap Nat Nat}
    (h : numberOutputs returns outputIndex setCounter setNumbers outputMap =
      (setCounter', setNumbers', outputMap')) (hnumbered : Numbered setCounter setNumbers) :
    Extends setCounter setNumbers returns setCounter' setNumbers' := by
  induction returns generalizing outputIndex setCounter setNumbers outputMap with
  | nil =>
    cases h
    exact hnumbered.extends_nil
  | cons first returns ih =>
    rw [numberOutputs] at h
    cases hfirst : setNumbers.get? first with
    | none =>
      rw [hfirst] at h
      exact (ih h (hnumbered.insert first)).new hfirst
    | some id =>
      rw [hfirst] at h
      exact (ih h hnumbered).old hfirst

section Returns

variable {outputSetsStart outputSetsEnd : Nat} {rets : List Dparser.OutputDescriptor}

theorem numberReturns_extends
    (h : numberReturns outputSetsStart outputSetsEnd rets setCounter setNumbers =
      .ok (setCounter', setNumbers')) (hnumbered : Numbered setCounter setNumbers) :
    Extends setCounter setNumbers (rets.map Dparser.OutputDescriptor.ident) setCounter'
      setNumbers' := by
  induction rets generalizing setCounter setNumbers with
  | nil =>
    cases h
    exact hnumbered.extends_nil
  | cons ret rets ih =>
    rw [numberReturns] at h
    cases hfirst : setNumbers.get? ret.ident with
    | none =>
      rw [hfirst] at h
      exact (ih h (hnumbered.insert ret.ident)).new hfirst
    | some id =>
      simp only [hfirst] at h
      split at h
      · exact (ih h hnumbered).old hfirst
      · cases h

/-- Of the sets that have a number already, only output sets may be assigned. -/
theorem numberReturns_range
    (h : numberReturns outputSetsStart outputSetsEnd rets setCounter setNumbers =
      .ok (setCounter', setNumbers')) (hend : outputSetsEnd ≤ setCounter) {name : String} {id : Nat}
    (hname : setNumbers.get? name = some id)
    (hassigned : name ∈ rets.map Dparser.OutputDescriptor.ident) :
    outputSetsStart ≤ id ∧ id < outputSetsEnd := by
  induction rets generalizing setCounter setNumbers with
  | nil => exact absurd hassigned List.not_mem_nil
  | cons ret rets ih =>
    rw [numberReturns] at h
    cases hfirst : setNumbers.get? ret.ident with
    | none =>
      rw [hfirst] at h
      have hne : name ≠ ret.ident := by
        rintro rfl
        rw [hfirst] at hname
        cases hname
      refine ih h (by omega) ?_ ((List.mem_cons.mp hassigned).resolve_left hne)
      rw [OrderedMap.get?_insert_of_ne _ _ hne, hname]
    | some id' =>
      simp only [hfirst] at h
      split at h
      · next hrange =>
        rcases List.mem_cons.mp hassigned with rfl | hassigned
        · rw [hfirst] at hname
          cases hname
          exact hrange
        · exact ih h hend hname hassigned
      · cases h

theorem numberReturns_count
    (h : numberReturns outputSetsStart outputSetsEnd rets setCounter setNumbers =
      .ok (setCounter', setNumbers')) (hend : outputSetsEnd ≤ setCounter) {name : String}
    (hname : setNumbers.get? name = none) :
    (rets.map Dparser.OutputDescriptor.ident).count name ≤ 1 := by
  induction rets generalizing setCounter setNumbers with
  | nil => exact Nat.zero_le 1
  | cons ret rets ih =>
    rw [numberReturns] at h
    rw [List.map_cons]
    by_cases heq : ret.ident = name
    · subst heq
      rw [hname] at h
      -- the name now has a number that is not in the range of the output sets
      have hnew : ret.ident ∉ rets.map Dparser.OutputDescriptor.ident := by
        intro hagain
        have hrange := numberReturns_range h (by omega) (OrderedMap.get?_insert_self _ _ _) hagain
        omega
      rw [List.count_cons_self, List.count_eq_zero_of_not_mem hnew]
    · rw [List.count_cons_of_ne heq]
      cases hfirst : setNumbers.get? ret.ident with
      | none =>
        rw [hfirst] at h
        refine ih h (by omega) ?_
        rw [OrderedMap.get?_insert_of_ne _ _ (Ne.symm heq), hname]
      | some id =>
        simp only [hfirst] at h
        split at h
        · exact ih h hend hname
        · cases h

end Returns

end Numbering

/-- The return assignments of a statement. -/
def Dparser.Statement.rets : Dparser.Statement → List Dparser.OutputDescriptor
  | .functionApplication application => application.rets
  | .loop body => body.rets

def Dparser.Statement.args : Dparser.Statement → List Dparser.InputDescriptor
  | .functionApplication application => application.args
  | .loop body => body.args

/-- The sets that are assigned in a composition, as often as they are. -/
def assignedNames (comp : Dparser.Composition) : List String :=
  (comp.statements.flatMap Dparser.Statement.rets).map Dparser.OutputDescriptor.ident

/-- The sets that are arguments in a composition. -/
def usedNames (comp : Dparser.Composition) : List String :=
  (comp.statements.flatMap Dparser.Statement.args).map Dparser.InputDescriptor.ident

section Numbers

variable {outputSetsStart outputSetsEnd : Nat}

theorem numberReturns_append (rets rets' : List Dparser.OutputDescriptor) (setCounter : Nat)
    (setNumbers : SetNumbers) :
    numberReturns outputSetsStart outputSetsEnd (rets ++ rets') setCounter setNumbers =
      numberReturns outputSetsStart outputSetsEnd rets setCounter setNumbers >>= fun numbered =>
        numberReturns outputSetsStart outputSetsEnd rets' numbered.1 numbered.2 := by
  induction rets generalizing setCounter setNumbers with
  | nil => rfl
  | cons ret rets ih =>
    rw [List.cons_append, numberReturns, numberReturns]
    cases hget : setNumbers.get? ret.ident with
    | none => exact ih _ _
    | some id =>
      simp only
      split
      · exact ih _ _
      · rfl

theorem numberStatements_ok {statements : List Dparser.Statement} {setCounter : Nat}
    {setNumbers : SetNumbers} {numbered : Nat × SetNumbers}
    (h : numberStatements outputSetsStart outputSetsEnd statements setCounter setNumbers =
      .ok numbered) :
    numberReturns outputSetsStart outputSetsEnd (statements.flatMap Dparser.Statement.rets)
      setCounter setNumbers = .ok numbered := by
  induction statements generalizing setCounter setNumbers with
  | nil => exact h
  | cons statement statements ih =>
    cases statement with
    | loop body => cases h
    | functionApplication application =>
      rw [numberStatements] at h
      obtain ⟨⟨counter, numbers⟩, hfirst, hrest⟩ := (bind_eq_ok_iff _ _ _).mp h
      rw [List.flatMap_cons, numberReturns_append]
      exact (bind_eq_ok_iff _ _ _).mpr ⟨_, hfirst, ih hrest⟩

/-- What the numbering of a composition has checked. -/
structure Numbering (comp : Dparser.Composition) (setNumbers : SetNumbers) : Prop where
  inj : ∀ name name' id, setNumbers.get? name = some id → setNumbers.get? name' = some id →
    name = name'
  params : ∀ name ∈ comp.params,
    name ∉ assignedNames comp ∧ ∃ id, setNumbers.get? name = some id
  returns : ∀ name ∈ comp.returns, ∃ id, setNumbers.get? name = some id
  internal : ∀ name id, setNumbers.get? name = some id → name ∉ comp.params →
    name ∉ comp.returns → (assignedNames comp).count name = 1

theorem setNumbersOf_ok {comp : Dparser.Composition} {setNumbers : SetNumbers}
    (h : setNumbersOf comp = .ok setNumbers) : Numbering comp setNumbers := by
  rw [setNumbersOf] at h
  obtain ⟨⟨start, numbers⟩, hparams, h⟩ := (bind_eq_ok_iff _ _ _).mp h
  obtain ⟨⟨counter, numbers'⟩, hstatements, h⟩ := (bind_eq_ok_iff _ _ _).mp h
  cases h
  obtain ⟨last, numbers₂, outputMap, houtputs⟩ : ∃ last numbers₂ outputMap,
      numberOutputs comp.returns 0 start numbers .empty = (last, numbers₂, outputMap) :=
    ⟨_, _, _, rfl⟩
  rw [houtputs] at hstatements
  replace hstatements := numberStatements_ok hstatements
  have hparam := numberParams_extends hparams numbered_empty
  have houtput := numberOutputs_extends houtputs hparam.numbered
  have hreturn := numberReturns_extends hstatements houtput.numbered
  refine ⟨hreturn.numbered.inj, fun name hname => ?_, fun name hname => ?_,
    fun name id hget hparams' hreturns' => ?_⟩
  · obtain ⟨id, hid⟩ := hparam.named name hname
    have hid' := houtput.kept name id hid
    refine ⟨fun hassigned => ?_, id, hreturn.kept name id hid'⟩
    have hrange := numberReturns_range hstatements (Nat.le_refl _) hid' hassigned
    have hlt := hparam.numbered.lt name id hid
    omega
  · obtain ⟨id, hid⟩ := houtput.named name hname
    exact ⟨id, hreturn.kept name id hid⟩
  · -- the name was not numbered before the statements
    have hnone : numbers₂.get? name = none := by
      cases hget₂ : numbers₂.get? name with
      | none => rfl
      | some id₂ =>
        cases hget₁ : numbers.get? name with
        | none => exact absurd (houtput.fresh name id₂ hget₁ hget₂).2 hreturns'
        | some id₁ =>
          exact absurd (hparam.fresh name id₁ (by simp) hget₁).2 hparams'
    have hassigned := (hreturn.fresh name id hnone hget).2
    have hle := numberReturns_count hstatements (Nat.le_refl _) hnone
    exact Nat.le_antisymm hle (List.count_pos_iff.mpr hassigned)

end Numbers

section Assignments

variable {knownFunctions : OrderedMap String Dparser.FunctionDecl} {comp : Dparser.Composition}
  {setNumbers : SetNumbers} {dependencies : List FunctionDependencies}

/-- The output with this position, of the application with this position, has the id. -/
def Carries (dependencies : List FunctionDependencies) (place : Nat × Nat) (id : Nat) : Prop :=
  ∃ deps, dependencies[place.1]? = some deps ∧ deps.outputSetIds[place.2]? = some (some id)

/-- An id stands where the last return assignment with its return name has put it. -/
theorem carries_iff {statements : List Dparser.Statement}
    (h : Forall₂ (TranslatedStatement knownFunctions setNumbers) statements dependencies)
    (k j id : Nat) :
    Carries dependencies (k, j) id ↔ ∃ application decl before ret after,
      statements[k]? = some (.functionApplication application) ∧
      knownFunctions.get? application.name = some decl ∧
      application.rets = before ++ ret :: after ∧
      ReturnWrite decl.returns setNumbers ret (j, id) ∧ ∀ later ∈ after, later.name ≠ ret.name := by
  rcases forall₂_getElem? h k with
    ⟨hstatement, hdeps⟩ | ⟨-, deps, hstatement, hdeps, application, decl, rfl, hdecl, htranslated⟩
  · constructor
    · rintro ⟨deps, hk, -⟩
      rw [hdeps] at hk
      cases hk
    · rintro ⟨application, decl, before, ret, after, hk, -⟩
      rw [hstatement] at hk
      cases hk
  · obtain ⟨writes, hwrites, houtputs⟩ := htranslated.returns
    have hget := (keyedWrites_returns decl.returns setNumbers).getElem?_iff hwrites j id
    constructor
    · rintro ⟨deps', hk, hj⟩
      rw [hdeps] at hk
      cases hk
      rw [houtputs] at hj
      obtain ⟨before, ret, after, hrets, hret, hlast⟩ := hget.mp hj
      exact ⟨application, decl, before, ret, after, hstatement, hdecl, hrets, hret, hlast⟩
    · rintro ⟨application', decl', before, ret, after, hk, hdecl', hrets, hret, hlast⟩
      rw [hstatement] at hk
      cases hk
      rw [hdecl] at hdecl'
      cases hdecl'
      refine ⟨deps, hdeps, ?_⟩
      rw [houtputs]
      exact hget.mpr ⟨before, ret, after, hrets, hret, hlast⟩

/-- Every set that is used or returned, other than the parameters, is assigned once, and the
parameters are not. -/
structure SinglyAssigned (comp : Dparser.Composition) (setNumbers : SetNumbers)
    (dependencies : List FunctionDependencies) : Prop where
  sets : ∀ name, name ∉ comp.params → name ∈ usedNames comp ∨ name ∈ comp.returns →
    (assignedNames comp).count name = 1 ∧ ∃ id, setNumbers.get? name = some id ∧
      ∃! place, Carries dependencies place id
  params : ∀ name ∈ comp.params, name ∉ assignedNames comp ∧
    ∃ id, setNumbers.get? name = some id ∧ ∀ place, ¬ Carries dependencies place id

/-- Every returned set that is no parameter is assigned once, and no assignment to a set that
is used or returned is followed by one with the same return name. -/
structure AssignedOnce (comp : Dparser.Composition) : Prop where
  returned : ∀ name ∈ comp.returns, name ∉ comp.params → (assignedNames comp).count name = 1
  kept : ∀ application, .functionApplication application ∈ comp.statements →
    ∀ before ret after, application.rets = before ++ ret :: after →
      ret.ident ∈ usedNames comp ∨ ret.ident ∈ comp.returns → ∀ later ∈ after, later.name ≠ ret.name

theorem mem_assignedNames {application : Dparser.FunctionApplication}
    (happlication : .functionApplication application ∈ comp.statements)
    {ret : Dparser.OutputDescriptor} (hret : ret ∈ application.rets) :
    ret.ident ∈ assignedNames comp :=
  List.mem_map_of_mem (List.mem_flatMap.mpr ⟨_, happlication, hret⟩)

theorem assignedNames_eq (comp : Dparser.Composition) : assignedNames comp =
    comp.statements.flatMap fun statement => statement.rets.map Dparser.OutputDescriptor.ident :=
  List.map_flatMap ..

/-- Two return assignments to a set that is assigned once are the same. -/
theorem assignment_unique {name : String} (hcount : (assignedNames comp).count name = 1) {k k' : Nat}
    {application application' : Dparser.FunctionApplication}
    (hk : comp.statements[k]? = some (.functionApplication application))
    (hk' : comp.statements[k']? = some (.functionApplication application'))
    {before after before' after' : List Dparser.OutputDescriptor} {ret ret' : Dparser.OutputDescriptor}
    (hrets : application.rets = before ++ ret :: after)
    (hrets' : application'.rets = before' ++ ret' :: after') (hret : ret.ident = name)
    (hret' : ret'.ident = name) :
    k' = k ∧ application' = application ∧ before' = before ∧ ret' = ret ∧ after' = after := by
  subst hret
  have hle : (assignedNames comp).count ret.ident ≤ 1 := Nat.le_of_eq hcount
  rw [assignedNames_eq] at hle
  have hmem : ∀ {application : Dparser.FunctionApplication} {before after ret''},
      application.rets = before ++ ret'' :: after → ret''.ident = ret.ident → ret.ident ∈
        (Dparser.Statement.functionApplication application).rets.map Dparser.OutputDescriptor.ident := by
    intro application before after ret'' hrets hident
    refine List.mem_map.mpr ⟨ret'', ?_, hident⟩
    change ret'' ∈ application.rets
    rw [hrets]
    exact List.mem_append_right _ List.mem_cons_self
  obtain rfl := index_unique hle hk hk' (hmem hrets rfl) (hmem hrets' hret')
  rw [hk] at hk'
  cases hk'
  have hsublist := (List.singleton_sublist.mpr (List.mem_of_getElem? hk)).flatMap
    fun statement => statement.rets.map Dparser.OutputDescriptor.ident
  rw [List.flatMap_singleton] at hsublist
  have hcount' : (application.rets.map Dparser.OutputDescriptor.ident).count ret.ident ≤ 1 :=
    (hsublist.count_le _).trans hle
  rw [hrets] at hcount' hrets'
  exact ⟨rfl, rfl, split_unique hcount' hrets' hret'⟩

section Registered

variable (hnumbering : Numbering comp setNumbers)
  (htranslated : Forall₂ (TranslatedStatement knownFunctions setNumbers) comp.statements dependencies)

include htranslated in
theorem exists_number_of_used {name : String} (hname : name ∈ usedNames comp) :
    ∃ id, setNumbers.get? name = some id := by
  obtain ⟨argument, hargument, rfl⟩ := List.mem_map.mp hname
  obtain ⟨statement, hstatement, hargument⟩ := List.mem_flatMap.mp hargument
  obtain ⟨deps, -, application, decl, rfl, -, htranslated'⟩ :=
    exists_right_of_mem htranslated hstatement
  obtain ⟨writes, hwrites, -⟩ := htranslated'.arguments
  obtain ⟨write, -, -, id, hid, -⟩ := exists_right_of_mem hwrites hargument
  exact ⟨id, hid⟩

include htranslated in
/-- A return assignment that is not followed by one with its return name has a place. -/
theorem exists_carries {k : Nat} {application : Dparser.FunctionApplication}
    (hk : comp.statements[k]? = some (.functionApplication application))
    {before after : List Dparser.OutputDescriptor} {ret : Dparser.OutputDescriptor}
    (hrets : application.rets = before ++ ret :: after) (hlast : ∀ later ∈ after, later.name ≠ ret.name)
    {id : Nat} (hid : setNumbers.get? ret.ident = some id) :
    ∃ place, Carries dependencies place id := by
  obtain ⟨deps, -, application', decl, heq, hdecl, htranslated'⟩ :=
    translated_of_getElem? htranslated hk
  cases heq
  obtain ⟨writes, hwrites, -⟩ := htranslated'.returns
  have hmem : ret ∈ application.rets := by
    rw [hrets]
    exact List.mem_append_right _ List.mem_cons_self
  obtain ⟨⟨j, id'⟩, -, hj, hid'⟩ := exists_right_of_mem hwrites hmem
  obtain rfl : id = id' := Option.some.inj (hid.symm.trans hid')
  exact ⟨(k, j), (carries_iff htranslated k j id).mpr
    ⟨application, decl, before, ret, after, hk, hdecl, hrets, ⟨hj, hid⟩, hlast⟩⟩

include hnumbering htranslated

theorem Carries.assignment {name : String} {id : Nat} (hid : setNumbers.get? name = some id)
    {place : Nat × Nat} (h : Carries dependencies place id) :
    ∃ application decl before ret after,
      comp.statements[place.1]? = some (.functionApplication application) ∧
      knownFunctions.get? application.name = some decl ∧
      application.rets = before ++ ret :: after ∧ ret.ident = name ∧
      position decl.returns ret.name = some place.2 ∧ ∀ later ∈ after, later.name ≠ ret.name := by
  obtain ⟨application, decl, before, ret, after, hk, hdecl, hrets, hret, hlast⟩ :=
    (carries_iff htranslated place.1 place.2 id).mp h
  exact ⟨application, decl, before, ret, after, hk, hdecl, hrets,
    hnumbering.inj _ _ id hret.2 hid, hret.1, hlast⟩

/-- The parameters are never assigned. -/
theorem not_carries_param {name : String} (hname : name ∈ comp.params) :
    name ∉ assignedNames comp ∧
      ∃ id, setNumbers.get? name = some id ∧ ∀ place, ¬ Carries dependencies place id := by
  obtain ⟨hunassigned, id, hid⟩ := hnumbering.params name hname
  refine ⟨hunassigned, id, hid, fun place hplace => hunassigned ?_⟩
  obtain ⟨application, -, before, ret, after, hk, -, hrets, rfl, -⟩ :=
    hplace.assignment hnumbering htranslated hid
  apply mem_assignedNames (List.mem_of_getElem? hk)
  rw [hrets]
  exact List.mem_append_right _ List.mem_cons_self

theorem singlyAssigned_of_once (h : AssignedOnce comp) :
    SinglyAssigned comp setNumbers dependencies := by
  refine ⟨fun name hparam hname => ?_, fun name => not_carries_param hnumbering htranslated⟩
  obtain ⟨id, hid⟩ : ∃ id, setNumbers.get? name = some id := by
    rcases hname with hused | hreturned
    · exact exists_number_of_used htranslated hused
    · exact hnumbering.returns name hreturned
  have hcount : (assignedNames comp).count name = 1 := by
    by_cases hreturned : name ∈ comp.returns
    · exact h.returned name hreturned hparam
    · exact hnumbering.internal name id hid hparam hreturned
  refine ⟨hcount, id, hid, ?_⟩
  -- the one assignment of the set has a place, as nothing overwrites it
  have hassigned : name ∈ assignedNames comp := by
    rw [← List.count_pos_iff, hcount]
    exact Nat.one_pos
  obtain ⟨ret, hret, rfl⟩ := List.mem_map.mp hassigned
  obtain ⟨statement, hstatement, hret⟩ := List.mem_flatMap.mp hret
  obtain ⟨deps, -, application, decl, rfl, -⟩ := exists_right_of_mem htranslated hstatement
  obtain ⟨k, hk⟩ := List.mem_iff_getElem?.mp hstatement
  obtain ⟨before, after, hrets⟩ := List.append_of_mem hret
  have hlast := h.kept application hstatement before ret after hrets hname
  obtain ⟨place, hplace⟩ := exists_carries htranslated hk hrets hlast hid
  refine ⟨place, hplace, fun place' hplace' => ?_⟩
  obtain ⟨application₁, decl₁, before₁, ret₁, after₁, hk₁, hdecl₁, hrets₁, hret₁, hj₁, -⟩ :=
    hplace.assignment hnumbering htranslated hid
  obtain ⟨application₂, decl₂, before₂, ret₂, after₂, hk₂, hdecl₂, hrets₂, hret₂, hj₂, -⟩ :=
    hplace'.assignment hnumbering htranslated hid
  obtain ⟨hindex, rfl, -, rfl, -⟩ :=
    assignment_unique hcount hk₁ hk₂ hrets₁ hrets₂ hret₁ hret₂
  rw [hdecl₁] at hdecl₂
  cases hdecl₂
  exact Prod.ext hindex (Option.some.inj (hj₂.symm.trans hj₁))

theorem once_of_singlyAssigned (h : SinglyAssigned comp setNumbers dependencies) :
    AssignedOnce comp := by
  refine ⟨fun name hreturned hparam => (h.sets name hparam (.inr hreturned)).1, ?_⟩
  intro application happlication before ret after hrets hname
  have hassigned : ret.ident ∈ assignedNames comp := by
    apply mem_assignedNames happlication
    rw [hrets]
    exact List.mem_append_right _ List.mem_cons_self
  have hparam : ret.ident ∉ comp.params := fun hin => (h.params _ hin).1 hassigned
  obtain ⟨hcount, id, hid, place, hplace, -⟩ := h.sets ret.ident hparam hname
  obtain ⟨k, hk⟩ := List.mem_iff_getElem?.mp happlication
  obtain ⟨application', decl', before', ret', after', hk', -, hrets', hret', -, hlast⟩ :=
    Carries.assignment hnumbering htranslated hid hplace
  obtain ⟨-, -, -, rfl, rfl⟩ := assignment_unique hcount hk hk' hrets hrets' rfl hret'
  exact hlast

end Registered

/-- The sets of a composition are singly assigned, in its source and in what is registered. -/
def SinglyAssignedComposition (source : OrderedMap String Dparser.FunctionDecl × Dparser.Composition)
    (entry : String × Composition × Metadata) : Prop :=
  ∃ setNumbers, setNumbersOf source.2 = .ok setNumbers ∧
    SinglyAssigned source.2 setNumbers entry.2.1.dependencies

theorem Registered.singlyAssigned_iff
    {source : OrderedMap String Dparser.FunctionDecl × Dparser.Composition}
    {entry : String × Composition × Metadata} (h : Registered source entry) :
    SinglyAssignedComposition source entry ↔ AssignedOnce source.2 := by
  obtain ⟨setNumbers, hnumbers, htranslated⟩ := h
  have hnumbering := setNumbersOf_ok hnumbers
  constructor
  · rintro ⟨setNumbers', hnumbers', hsingly⟩
    rw [hnumbers] at hnumbers'
    cases hnumbers'
    exact once_of_singlyAssigned hnumbering htranslated hsingly
  · exact fun honce => ⟨setNumbers, hnumbers, singlyAssigned_of_once hnumbering htranslated honce⟩

/-- The compositions of a registered module are singly assigned if and only if each of them
assigns its returned sets once and overwrites nothing that it uses or returns. -/
theorem compositionFromModule_singlyAssigned_iff {registry : FunctionRegistry}
    {module : Dparser.Module} {entries : List (String × Composition × Metadata)}
    (h : compositionFromModule registry module = .ok entries) :
    Forall₂ SinglyAssignedComposition (compositionsOf module .empty) entries ↔
      ∀ comp, .composition comp ∈ module → AssignedOnce comp := by
  rw [forall₂_iff_forall (compositionsFrom_ok h) fun _ _ hentry => hentry.singlyAssigned_iff]
  exact forall_compositionsOf_iff module .empty

end Assignments

/-- `function F(x) => (y)` and a composition `C(A) => (B)` with the given number of applications
`F(x = all A) => (B = y)` -/
def assigning (times : Nat) : Dparser.Module :=
  [.functionDecl ⟨"F", ["x"], ["y"]⟩,
    .composition ⟨"C", ["A"], ["B"], List.replicate times
      (.functionApplication ⟨"F", [⟨"x", "A", .all, false⟩], [⟨"B", "y"⟩], none⟩)⟩]

def assigningEntries (times : Nat) : List (String × Composition × Metadata) :=
  [("C", ⟨List.replicate times ⟨"F", [some ⟨0, .all, false⟩], ([], []), [some 1]⟩,
    .single 1 0⟩, ⟨["A"], ["B"]⟩)]

theorem assigning_once :
    Forall₂ SinglyAssignedComposition (compositionsOf (assigning 1) .empty) (assigningEntries 1) := by
  have hok : compositionFromModule ⟨fun name => name = "F", fun _ => true⟩ (assigning 1) =
      .ok (assigningEntries 1) := by decide
  apply (compositionFromModule_singlyAssigned_iff hok).mpr
  intro comp hcomp
  obtain rfl : comp = _ := by simpa [assigning] using hcomp
  constructor
  · decide
  · intro application happlication before ret after hrets _ later hlater
    obtain rfl : application = _ := by simpa using happlication
    obtain ⟨rfl, rfl, rfl⟩ : before = [] ∧ ret = ⟨"B", "y"⟩ ∧ after = [] := by
      cases before with
      | nil => simpa [eq_comm] using hrets
      | cons first before => simp at hrets
    exact absurd hlater List.not_mem_nil

/-- A returned set that two applications assign is accepted. -/
theorem returned_set_assigned_twice :
    compositionFromModule ⟨fun name => name = "F", fun _ => true⟩ (assigning 2) =
      .ok (assigningEntries 2) ∧
    ¬ Forall₂ SinglyAssignedComposition (compositionsOf (assigning 2) .empty) (assigningEntries 2) := by
  refine ⟨by decide, fun h => ?_⟩
  obtain ⟨⟨setNumbers, -, hsingly⟩, -⟩ := List.forall₂_cons.mp h
  exact absurd (hsingly.sets "B" (by decide) (by decide)).1 (by decide)

end Dandelion
