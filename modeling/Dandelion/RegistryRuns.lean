import Dandelion.FunctionMap
import Dandelion.Registration

/-!
# What the registry keeps over its calls

Whatever is inserted, an entry keeps its kind, its metadata and its composition, and its
alternatives are only appended, each for an engine of its own. A call that does not return Ok
leaves the map as it was: for a batch of compositions this rests on the checks that the
translation has made on all names before the first insertion.
-/

namespace Dandelion.Registry

open Outcome Stateful FunctionRegistry List

variable {Ctx Domain : Type}

/-- There is an alternative, and at most one for each engine. -/
structure FunctionInfo.WellFormed (info : FunctionInfo Ctx) : Prop where
  nonempty : info.alternatives ≠ []
  engines : (info.alternatives.map FunctionAlternative.engine).Nodup

def FunctionType.WellFormed : FunctionType Ctx → Prop
  | .systemFunction info => info.WellFormed
  | .function info => info.WellFormed
  | .composition _ => True

/-- The alternatives have been appended to, and the metadata is the same. -/
structure FunctionInfo.Extends (info info' : FunctionInfo Ctx) : Prop where
  alternatives : info.alternatives <+: info'.alternatives
  metadata : info'.metadata = info.metadata

/-- What may become of an entry: its kind stays, and so does a composition. -/
inductive FunctionType.Extends : FunctionType Ctx → FunctionType Ctx → Prop
  | systemFunction {info info' : FunctionInfo Ctx} (h : info.Extends info') :
      Extends (.systemFunction info) (.systemFunction info')
  | function {info info' : FunctionInfo Ctx} (h : info.Extends info') :
      Extends (.function info) (.function info')
  | composition (info : CompositionInfo Ctx) : Extends (.composition info) (.composition info)

def WellFormed (fmap : FunctionMap Ctx) : Prop :=
  ∀ name entry, fmap.get? name = some entry → entry.WellFormed

/-- Every name stays bound, and its entry is only extended. -/
def Grows (fmap fmap' : FunctionMap Ctx) : Prop :=
  ∀ name entry, fmap.get? name = some entry →
    ∃ entry', fmap'.get? name = some entry' ∧ entry.Extends entry'

theorem FunctionInfo.Extends.refl (info : FunctionInfo Ctx) : info.Extends info :=
  ⟨List.prefix_refl _, rfl⟩

theorem FunctionType.Extends.refl (entry : FunctionType Ctx) : entry.Extends entry := by
  cases entry with
  | systemFunction info => exact .systemFunction (.refl info)
  | function info => exact .function (.refl info)
  | composition info => exact .composition info

theorem FunctionInfo.Extends.trans {info info' info'' : FunctionInfo Ctx} (h : info.Extends info')
    (h' : info'.Extends info'') : info.Extends info'' :=
  ⟨h.alternatives.trans h'.alternatives, h'.metadata.trans h.metadata⟩

theorem FunctionType.Extends.trans {entry entry' entry'' : FunctionType Ctx}
    (h : entry.Extends entry') (h' : entry'.Extends entry'') : entry.Extends entry'' := by
  cases h with
  | systemFunction h =>
    cases h' with
    | systemFunction h' => exact .systemFunction (h.trans h')
  | function h =>
    cases h' with
    | function h' => exact .function (h.trans h')
  | composition info => exact h'

theorem Grows.refl (fmap : FunctionMap Ctx) : Grows fmap fmap :=
  fun _ entry h => ⟨entry, h, .refl entry⟩

theorem Grows.trans {fmap fmap' fmap'' : FunctionMap Ctx} (h : Grows fmap fmap')
    (h' : Grows fmap' fmap'') : Grows fmap fmap'' := by
  intro name entry hentry
  obtain ⟨entry', hentry', hextends⟩ := h name entry hentry
  obtain ⟨entry'', hentry'', hextends'⟩ := h' name entry' hentry'
  exact ⟨entry'', hentry'', hextends.trans hextends'⟩

/-- A step of the registry: the map grows and stays well formed. -/
structure Evolves (fmap fmap' : FunctionMap Ctx) : Prop where
  grows : Grows fmap fmap'
  wellFormed : WellFormed fmap → WellFormed fmap'

theorem Evolves.refl (fmap : FunctionMap Ctx) : Evolves fmap fmap := ⟨.refl fmap, fun h => h⟩

theorem Evolves.trans {fmap fmap' fmap'' : FunctionMap Ctx} (h : Evolves fmap fmap')
    (h' : Evolves fmap' fmap'') : Evolves fmap fmap'' :=
  ⟨h.grows.trans h'.grows, fun hwf => h'.wellFormed (h.wellFormed hwf)⟩

theorem evolves_insert {fmap : FunctionMap Ctx} {key : String} {entry : FunctionType Ctx}
    (hextends : ∀ old, fmap.get? key = some old → old.Extends entry)
    (hwf : WellFormed fmap → entry.WellFormed) : Evolves fmap (fmap.insert key entry) := by
  constructor
  · intro name old hold
    by_cases hname : name = key
    · subst hname
      exact ⟨entry, OrderedMap.get?_insert_self _ _ _, hextends old hold⟩
    · exact ⟨old, by rw [OrderedMap.get?_insert_of_ne _ _ hname]; exact hold, .refl old⟩
  · intro hmap name entry' hentry'
    rcases (OrderedMap.get?_insert_eq_some_iff _ _ _ _ _).mp hentry' with ⟨-, rfl⟩ | ⟨-, hold⟩
    · exact hwf hmap
    · exact hmap name entry' hold

section Insertions

/-- How a single insertion ends: with a larger map, or with an error and the same map. -/
def Inserts (m : Stateful DandelionError (FunctionMap Ctx) Unit) (fmap : FunctionMap Ctx) : Prop :=
  (∃ fmap', exec m fmap = (.ok (), fmap') ∧ Evolves fmap fmap') ∨ ∃ e, exec m fmap = (fail e, fmap)

theorem pushAlternative_inserts {fmap : FunctionMap Ctx} {key : String}
    {entry : FunctionInfo Ctx → FunctionType Ctx} {info : FunctionInfo Ctx}
    (hold : fmap.get? key = some (entry info))
    (hextends : ∀ info', info.Extends info' → (entry info).Extends (entry info'))
    (hentry : ∀ info', (entry info').WellFormed ↔ info'.WellFormed)
    (funcAlt : FunctionAlternative) : Inserts (pushAlternative key entry info funcAlt) fmap := by
  rw [Inserts, pushAlternative]
  split
  case isTrue => exact .inr ⟨_, rfl⟩
  case isFalse hnew =>
    have hnew' : ∀ alt ∈ info.alternatives, alt.engine ≠ funcAlt.engine := by
      intro alt halt heq
      exact hnew (List.any_eq_true.mpr ⟨alt, halt, decide_eq_true heq⟩)
    refine .inl ⟨_, rfl, evolves_insert (fun old hget => ?_) fun hwf => (hentry _).mpr ?_⟩
    · rw [hold] at hget
      cases hget
      exact hextends _ ⟨List.prefix_append _ _, rfl⟩
    · have hinfo := (hentry info).mp (hwf key _ hold)
      refine ⟨by simp, ?_⟩
      rw [List.map_append, List.nodup_append]
      refine ⟨hinfo.engines, List.nodup_singleton _, fun engine hmem engine' hlast => ?_⟩
      obtain ⟨alt, halt, rfl⟩ := List.mem_map.mp hmem
      rw [List.mem_singleton.mp hlast]
      exact hnew' alt halt

theorem fmapInsertFunction_inserts (fmap : FunctionMap Ctx) (key : String)
    (funcAlt : FunctionAlternative) (funcMeta : Metadata Ctx) (isSystem : Bool) :
    Inserts (fmapInsertFunction key funcAlt funcMeta isSystem) fmap := by
  rw [Inserts, fmapInsertFunction, exec_get_bind]
  cases hold : fmap.get? key with
  | none =>
    refine .inl ⟨_, rfl, evolves_insert (fun old hget => ?_) fun _ => ?_⟩
    · rw [hold] at hget
      cases hget
    · have hinfo : (⟨[funcAlt], funcMeta⟩ : FunctionInfo Ctx).WellFormed := ⟨by simp, by simp⟩
      cases isSystem <;> exact hinfo
  | some entry =>
    cases entry with
    | systemFunction info =>
      cases isSystem with
      | false => exact .inr ⟨_, rfl⟩
      | true => exact pushAlternative_inserts hold (fun _ => .systemFunction) (fun _ => Iff.rfl) funcAlt
    | function info =>
      cases isSystem with
      | true => exact .inr ⟨_, rfl⟩
      | false => exact pushAlternative_inserts hold (fun _ => .function) (fun _ => Iff.rfl) funcAlt
    | composition info => exact .inr ⟨_, rfl⟩

theorem insertFunction_inserts (fmap : FunctionMap Ctx) (binaryFound : Bool) (functionId : String)
    (engineType : EngineType) (contextSize : Nat) (path : String) (metadata : Metadata Ctx) :
    Inserts (insertFunction binaryFound functionId engineType contextSize path metadata) fmap := by
  cases binaryFound with
  | false => exact .inr ⟨_, rfl⟩
  | true => exact fmapInsertFunction_inserts fmap functionId _ metadata false

theorem exec_fmapInsertComposition (fmap : FunctionMap Ctx) (key : String)
    (composition : Composition) (metadata : Metadata Ctx) :
    exec (fmapInsertComposition key composition metadata) fmap =
      if (fmap.get? key).isSome then (fail (.functionRegistry (.duplicateInsert key)), fmap)
      else (.ok (), fmap.insert key (.composition ⟨composition, metadata⟩)) := by
  rw [fmapInsertComposition, exec_get_bind]
  cases fmap.get? key <;> rfl

theorem evolves_insert_composition {fmap : FunctionMap Ctx} {key : String}
    (hnew : (fmap.get? key).isSome = false) (info : CompositionInfo Ctx) :
    Evolves fmap (fmap.insert key (.composition info)) := by
  refine evolves_insert (fun old hold => ?_) fun _ => trivial
  rw [hold] at hnew
  cases hnew

theorem insertAll_evolves (compVec : List (String × Composition × Dandelion.Metadata))
    (fmap : FunctionMap Ctx) : Evolves fmap (exec (insertAll compVec) fmap).2 := by
  induction compVec generalizing fmap with
  | nil => exact .refl fmap
  | cons entry compVec ih =>
    obtain ⟨compName, composition, metadata⟩ := entry
    rw [insertAll, exec_bind, exec_fmapInsertComposition]
    split_ifs with hold
    · exact .refl fmap
    · exact (evolves_insert_composition (Bool.not_eq_true _ ▸ hold) _).trans (ih _)

/-- With names that are free and distinct, the whole batch is inserted. -/
theorem insertAll_ok {compVec : List (String × Composition × Dandelion.Metadata)}
    {fmap : FunctionMap Ctx} (hfree : ∀ entry ∈ compVec, (fmap.get? entry.1).isSome = false)
    (hnodup : (compVec.map Prod.fst).Nodup) :
    (exec (insertAll compVec) fmap).1 = .ok () ∧
      ∀ entry ∈ compVec, (exec (insertAll compVec) fmap).2.get? entry.1 =
        some (.composition ⟨entry.2.1, compositionMetadata entry.2.2⟩) := by
  induction compVec generalizing fmap with
  | nil => exact ⟨rfl, fun entry hentry => absurd hentry List.not_mem_nil⟩
  | cons first compVec ih =>
    obtain ⟨compName, composition, metadata⟩ := first
    obtain ⟨hfirst, hrest⟩ := List.forall_mem_cons.mp hfree
    obtain ⟨hnew, hnodup⟩ := List.nodup_cons.mp hnodup
    rw [insertAll, exec_bind, exec_fmapInsertComposition, hfirst]
    set fmap' := fmap.insert compName
      (.composition ⟨composition, compositionMetadata metadata⟩) with hfmap'
    have hfree' : ∀ entry ∈ compVec, (fmap'.get? entry.1).isSome = false := by
      intro entry hentry
      rw [hfmap', OrderedMap.get?_insert_of_ne]
      · exact hrest entry hentry
      · rintro rfl
        exact hnew (List.mem_map.mpr ⟨entry, hentry, rfl⟩)
    obtain ⟨hok, hinserted⟩ := ih hfree' hnodup
    refine ⟨hok, List.forall_mem_cons.mpr ⟨?_, hinserted⟩⟩
    obtain ⟨entry', hentry', hextends⟩ := (insertAll_evolves compVec fmap').grows compName _
      (OrderedMap.get?_insert_self _ _ _)
    cases hextends
    exact hentry'

end Insertions

section Modules

variable {registry : FunctionRegistry}

theorem composition_name {knownFunctions : OrderedMap String Dparser.FunctionDecl}
    {comp : Dparser.Composition} {entry : String × Composition × Dandelion.Metadata}
    (h : composition registry knownFunctions comp = .ok entry) : entry.1 = comp.name := by
  rw [composition] at h
  obtain ⟨params, -, h⟩ := (bind_eq_ok_iff _ _ _).mp h
  obtain ⟨statements, -, h⟩ := (bind_eq_ok_iff _ _ _).mp h
  obtain ⟨deps, -, h⟩ := (bind_eq_ok_iff _ _ _).mp h
  cases h
  rfl

/-- The translated compositions have distinct names that the registry does not have. -/
theorem compositionsFrom_names {module : Dparser.Module} {compositionIds : List String}
    {knownFunctions : OrderedMap String Dparser.FunctionDecl}
    {entries : List (String × Composition × Dandelion.Metadata)}
    (h : compositionsFrom registry module compositionIds knownFunctions = .ok entries) :
    (∀ entry ∈ entries, registry.existsName entry.1 = false ∧ entry.1 ∉ compositionIds) ∧
      (entries.map Prod.fst).Nodup := by
  induction module generalizing compositionIds knownFunctions entries with
  | nil =>
    cases h
    exact ⟨fun entry hentry => absurd hentry List.not_mem_nil, List.nodup_nil⟩
  | cons item items ih =>
    rw [compositionsFrom.eq_def] at h
    cases item with
    | functionDecl decl =>
      simp only at h
      split at h
      · exact ih h
      · cases h
    | composition comp =>
      simp only at h
      split at h
      case isTrue => cases h
      case isFalse hfree =>
        obtain ⟨first, hfirst, h⟩ := (bind_eq_ok_iff _ _ _).mp h
        obtain ⟨rest, hrest, h⟩ := (bind_eq_ok_iff _ _ _).mp h
        cases h
        obtain ⟨hnames, hnodup⟩ := ih hrest
        have hname := composition_name hfirst
        refine ⟨List.forall_mem_cons.mpr ⟨by simpa [hname] using hfree, fun entry hentry => ?_⟩,
          List.nodup_cons.mpr ⟨fun hmem => ?_, hnodup⟩⟩
        · obtain ⟨hexists, hid⟩ := hnames entry hentry
          exact ⟨hexists, fun hmem => hid (List.mem_cons_of_mem _ hmem)⟩
        · obtain ⟨entry, hentry, heq⟩ := List.mem_map.mp hmem
          apply (hnames entry hentry).2
          rw [heq, hname]
          exact List.mem_cons_self

end Modules

section Runs

/-- A call of a client. -/
inductive Call (Ctx : Type) where
  | insertFunction (binaryFound : Bool) (functionId : String) (engineType : EngineType)
      (contextSize : Nat) (path : String) (metadata : Metadata Ctx)
  | insertCompositions (tryReserve : Nat → Bool) (compositionDesc : String)

def Call.run : Call Ctx → Stateful DandelionError (FunctionMap Ctx) Unit
  | .insertFunction binaryFound functionId engineType contextSize path metadata =>
    Registry.insertFunction binaryFound functionId engineType contextSize path metadata
  | .insertCompositions tryReserve compositionDesc =>
    Registry.insertCompositions tryReserve compositionDesc

/-- The map after calls one after the other, whatever they return. -/
def runCalls (fmap : FunctionMap Ctx) (calls : List (Call Ctx)) : FunctionMap Ctx :=
  calls.foldl (fun fmap call => (exec call.run fmap).2) fmap

theorem insertCompositions_inserts (fmap : FunctionMap Ctx) (tryReserve : Nat → Bool)
    (compositionDesc : String) :
    ((exec (insertCompositions tryReserve compositionDesc) fmap).1 = .ok () ∧
      Evolves fmap (exec (insertCompositions tryReserve compositionDesc) fmap).2) ∨
    ((exec (insertCompositions tryReserve compositionDesc) fmap).1 ≠ .ok () ∧
      (exec (insertCompositions tryReserve compositionDesc) fmap).2 = fmap) := by
  rw [insertCompositions]
  cases Dparser.parse compositionDesc with
  | none => exact .inr ⟨fun h => (by cases h), rfl⟩
  | some module =>
    simp only [exec_get_bind]
    cases hmodule : compositionFromModule (lookups fmap tryReserve) module with
    | error stop => exact .inr ⟨fun h => (by cases h), rfl⟩
    | ok compVec =>
      rw [exec_lift_ok_bind]
      obtain ⟨hnames, hnodup⟩ := compositionsFrom_names hmodule
      exact .inl ⟨(insertAll_ok (fun entry hentry => (hnames entry hentry).1) hnodup).1,
        insertAll_evolves compVec fmap⟩

theorem Call.evolves (call : Call Ctx) (fmap : FunctionMap Ctx) :
    Evolves fmap (exec call.run fmap).2 := by
  cases call with
  | insertFunction binaryFound functionId engineType contextSize path metadata =>
    rcases insertFunction_inserts fmap binaryFound functionId engineType contextSize path metadata with
      ⟨fmap', hok, hevolves⟩ | ⟨e, herror⟩
    · rw [Call.run, hok]
      exact hevolves
    · rw [Call.run, herror]
      exact .refl fmap
  | insertCompositions tryReserve compositionDesc =>
    rcases insertCompositions_inserts fmap tryReserve compositionDesc with ⟨-, hevolves⟩ | ⟨-, hsame⟩
    · exact hevolves
    · rw [Call.run, hsame]
      exact .refl fmap

theorem Call.unchanged (call : Call Ctx) (fmap : FunctionMap Ctx)
    (h : (exec call.run fmap).1 ≠ .ok ()) : (exec call.run fmap).2 = fmap := by
  cases call with
  | insertFunction binaryFound functionId engineType contextSize path metadata =>
    rcases insertFunction_inserts fmap binaryFound functionId engineType contextSize path metadata with
      ⟨fmap', hok, -⟩ | ⟨e, herror⟩
    · rw [Call.run, hok] at h
      exact absurd rfl h
    · rw [Call.run, herror]
  | insertCompositions tryReserve compositionDesc =>
    rcases insertCompositions_inserts fmap tryReserve compositionDesc with ⟨hok, -⟩ | ⟨-, hsame⟩
    · exact absurd hok h
    · exact hsame

theorem runCalls_evolves (calls : List (Call Ctx)) (fmap : FunctionMap Ctx) :
    Evolves fmap (runCalls fmap calls) := by
  induction calls generalizing fmap with
  | nil => exact .refl fmap
  | cons call calls ih => exact (call.evolves fmap).trans (ih _)

end Runs

section New

variable {typeMap : OrderedMap EngineType DomainType} {domains : OrderedMap DomainType Domain}

theorem newSystemFunction_evolves {engineType : EngineType} {driver : Driver Domain}
    {systemFunction : SystemFunction × Nat} {fmap fmap' : FunctionMap Ctx}
    (h : newSystemFunction typeMap domains engineType driver systemFunction fmap = .ok fmap') :
    Evolves fmap fmap' := by
  rw [newSystemFunction] at h
  split at h
  · cases h
  · split at h
    · simp only at h
      split at h
      case h_1 inserted hexec =>
        cases h
        rcases fmapInsertFunction_inserts fmap systemFunction.1.toString _ _ true with
          ⟨fmap'', hok, hevolves⟩ | ⟨e, herror⟩
        · cases hexec.symm.trans hok
          exact hevolves
        · cases hexec.symm.trans herror
      case h_2 => cases h
    · cases h

theorem newSystemFunctions_evolves {engineType : EngineType} {driver : Driver Domain}
    (functions : List (SystemFunction × Nat)) {fmap fmap' : FunctionMap Ctx}
    (h : newSystemFunctions typeMap domains engineType driver functions fmap = .ok fmap') :
    Evolves fmap fmap' := by
  induction functions generalizing fmap with
  | nil =>
    cases h
    exact .refl _
  | cons function functions ih =>
    obtain ⟨middle, hfirst, hrest⟩ := (bind_eq_ok_iff _ _ _).mp h
    exact (newSystemFunction_evolves hfirst).trans (ih hrest)

theorem newFrom_evolves (drivers : List (EngineType × Driver Domain)) {fmap fmap' : FunctionMap Ctx}
    (h : newFrom typeMap domains drivers fmap = .ok fmap') : Evolves fmap fmap' := by
  induction drivers generalizing fmap with
  | nil =>
    cases h
    exact .refl _
  | cons driver drivers ih =>
    obtain ⟨middle, hfirst, hrest⟩ := (bind_eq_ok_iff _ _ _).mp h
    exact (newSystemFunctions_evolves _ hfirst).trans (ih hrest)

theorem wellFormed_new {drivers : OrderedMap EngineType (Driver Domain)} {fmap : FunctionMap Ctx}
    (h : new typeMap domains drivers = .ok fmap) : WellFormed fmap :=
  (newFrom_evolves drivers.entries h).wellFormed fun name entry hentry => by simp at hentry

end New

/-- The choice of an engine for a registered function. -/
def ChoosesAlternative (fmap : FunctionMap Ctx) : Prop :=
  ∀ name info, fmap.get? name = some (.systemFunction info) ∨ fmap.get? name = some (.function info) →
    ∃ alternative, info.chosenAlternative = .ok alternative

theorem FunctionInfo.WellFormed.chooses {info : FunctionInfo Ctx} (h : info.WellFormed) :
    ∃ alternative, info.chosenAlternative = .ok alternative := by
  rw [FunctionInfo.chosenAlternative]
  cases halternatives : info.alternatives with
  | nil => exact absurd halternatives h.nonempty
  | cons alternative rest => exact ⟨alternative, rfl⟩

theorem WellFormed.chooses {fmap : FunctionMap Ctx} (h : WellFormed fmap) : ChoosesAlternative fmap := by
  rintro name info (hsystem | huser)
  · exact FunctionInfo.WellFormed.chooses (h name _ hsystem)
  · exact FunctionInfo.WellFormed.chooses (h name _ huser)

/-- After any calls the map is well formed, so that every function has an alternative to
choose; all later calls only extend it; and a call that does not return Ok changes nothing. -/
theorem registry_invariant {typeMap : OrderedMap EngineType DomainType}
    {domains : OrderedMap DomainType Domain} {drivers : OrderedMap EngineType (Driver Domain)}
    {initial : FunctionMap Ctx} (hnew : new typeMap domains drivers = .ok initial)
    (calls : List (Call Ctx)) :
    WellFormed (runCalls initial calls) ∧ ChoosesAlternative (runCalls initial calls) ∧
      (∀ more, Grows (runCalls initial calls) (runCalls (runCalls initial calls) more)) ∧
      ∀ call : Call Ctx, (exec call.run (runCalls initial calls)).1 ≠ .ok () →
        (exec call.run (runCalls initial calls)).2 = runCalls initial calls := by
  have hwf := (runCalls_evolves calls initial).wellFormed (wellFormed_new hnew)
  exact ⟨hwf, hwf.chooses, fun more => (runCalls_evolves more _).grows,
    fun call => call.unchanged _⟩

/-- The registry of a configuration with the HTTP driver only. -/
def httpRegistry : FunctionMap Unit :=
  ⟨[("HTTP", .systemFunction ⟨[⟨.reqwest, 0x2000000, ""⟩],
    ⟨[("request", none)], ["response", "body"]⟩⟩)], List.pairwise_singleton _ _⟩

theorem httpRegistry_runs :
    ChoosesAlternative (runCalls httpRegistry
      [.insertFunction true "HTTP" .process 4096 "http" ⟨[], []⟩,
        .insertFunction true "F" .process 4096 "f" ⟨[], []⟩,
        .insertFunction true "F" .kvm 4096 "f" ⟨[], []⟩]) := by
  have hnew : new ⟨[(.reqwest, .system)], List.pairwise_singleton _ _⟩
      ⟨[(.system, ())], List.pairwise_singleton _ _⟩
      ⟨[(.reqwest, fun _ _ => .ok (.sysConfig .http))], List.pairwise_singleton _ _⟩ =
      .ok httpRegistry := rfl
  exact (registry_invariant hnew _).2.1

end Dandelion.Registry
