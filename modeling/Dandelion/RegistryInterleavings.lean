import Dandelion.RegistryRuns
import Dandelion.Transitions

/-!
# Registrations of several clients

The calls of any number of clients on one registry, step by step: a lookup of a name under
the read lock and a section under the write lock are one step each. Beside the state of the
source, the state records which call has inserted which compositions, and what each call of
`insert_compositions` has returned.
-/

namespace Dandelion.Registry

open Outcome Stateful Transitions

/-- A registration that has returned, with the names of the compositions in its module. -/
structure Returned where
  call : Nat
  names : List String
  result : DandelionResult Unit
deriving DecidableEq

/-- A registration between its steps: the items still to be checked, and what has become of
those before. -/
structure Checking where
  call : Nat
  module : Dparser.Module
  tryReserve : Nat → Bool
  items : Dparser.Module
  compositionIds : List String
  knownFunctions : OrderedMap String Dparser.FunctionDecl
  compVec : List (String × Composition × Dandelion.Metadata)

/-- The work after a declaration. -/
def Checking.declared (work : Checking) (decl : Dparser.FunctionDecl) (items : Dparser.Module) :
    Checking :=
  { work with items, knownFunctions := work.knownFunctions.insert decl.name decl }

/-- The work after a composition. -/
def Checking.translated (work : Checking) (comp : Dparser.Composition) (items : Dparser.Module)
    (entry : String × Composition × Dandelion.Metadata) : Checking :=
  { work with
    items, compositionIds := comp.name :: work.compositionIds, compVec := work.compVec ++ [entry] }

/-- Where a client stands. -/
inductive Phase (Ctx : Type) where
  | idle
  | inserting (call : Call Ctx)
  | checking (work : Checking)

structure ClientsState (Ctx : Type) where
  fmap : FunctionMap Ctx
  phase : Nat → Phase Ctx
  nextCall : Nat
  inserted : List (Nat × String)
  returned : List Returned

inductive Action (Ctx : Type) where
  | start (client : Nat) (call : Call Ctx)
  | advance (client : Nat)

variable {Ctx : Type}

def compositionNames (module : Dparser.Module) : List String :=
  module.filterMap fun item => match item with
    | .functionDecl _ => none
    | .composition comp => some comp.name

namespace ClientsState

def moveTo (s : ClientsState Ctx) (client : Nat) (phase : Phase Ctx) : ClientsState Ctx :=
  { s with phase := Function.update s.phase client phase }

def finish (s : ClientsState Ctx) (client : Nat) (work : Checking) (result : DandelionResult Unit) :
    ClientsState Ctx :=
  { s.moveTo client .idle with
    returned := ⟨work.call, compositionNames work.module, result⟩ :: s.returned }

/-- The section under the write lock. The names that it binds are recorded. -/
def write (s : ClientsState Ctx) (client : Nat) (work : Checking) : ClientsState Ctx :=
  let (result, fmap) := exec (insertAll work.compVec) s.fmap
  let bound := (work.compVec.map Prod.fst).filter fun name =>
    (s.fmap.get? name).isNone && (fmap.get? name).isSome
  { s.finish client work result with
    fmap, inserted := s.inserted ++ bound.map fun name => (work.call, name) }

/-- The next item is checked, with the lookup of its name. -/
def check (s : ClientsState Ctx) (client : Nat) (work : Checking) : ClientsState Ctx :=
  match work.items with
  | [] => s.write client work
  | .functionDecl decl :: items =>
    if (s.fmap.get? decl.name).isSome then
      s.moveTo client (.checking (work.declared decl items))
    else s.finish client work (fail (.composition (.containsInvalidFunction decl.name)))
  | .composition comp :: items =>
    if (s.fmap.get? comp.name).isSome || work.compositionIds.contains comp.name then
      s.finish client work (fail (.composition (.duplicateIdentifier comp.name)))
    else
      match FunctionRegistry.composition (lookups s.fmap work.tryReserve) work.knownFunctions comp with
      | .ok entry => s.moveTo client (.checking (work.translated comp items entry))
      | .error stop => s.finish client work (.error stop)

/-- A client begins a call. A call that fails before its first lock returns at once. -/
def begin (s : ClientsState Ctx) (client : Nat) : Call Ctx → ClientsState Ctx
  | .insertFunction binaryFound functionId engineType contextSize path metadata =>
    if binaryFound then s.moveTo client
      (.inserting (.insertFunction binaryFound functionId engineType contextSize path metadata))
    else s
  | .insertCompositions tryReserve compositionDesc =>
    match Dparser.parse compositionDesc with
    | none => { s with
        nextCall := s.nextCall + 1,
        returned := ⟨s.nextCall, [], fail (.composition .parsingError)⟩ :: s.returned }
    | some module => { s.moveTo client (.checking
        ⟨s.nextCall, module, tryReserve, module, [], .empty, []⟩) with
        nextCall := s.nextCall + 1 }

def act (s : ClientsState Ctx) : Action Ctx → Option (ClientsState Ctx)
  | .start client call =>
    match s.phase client with
    | .idle => some (s.begin client call)
    | _ => none
  | .advance client =>
    match s.phase client with
    | .idle => none
    | .inserting call => some { s.moveTo client .idle with fmap := (exec call.run s.fmap).2 }
    | .checking work => some (s.check client work)

/-- No client is in a call, and nothing has been recorded. -/
def initial (fmap : FunctionMap Ctx) : ClientsState Ctx := ⟨fmap, fun _ => .idle, 0, [], []⟩

end ClientsState

section Alone

/-- The call that a check is part of, from where the check stands. -/
def Checking.rest (work : Checking) : Stateful DandelionError (FunctionMap Ctx) Unit := do
  let fmap ← get
  let compVec ← lift (FunctionRegistry.compositionsFrom (lookups fmap work.tryReserve) work.items
    work.compositionIds work.knownFunctions)
  insertAll (work.compVec ++ compVec)

/-- The call is left with the given outcome and map. -/
structure Leaves (s t : ClientsState Ctx) (client : Nat) (work : Checking)
    (outcome : DandelionResult Unit × FunctionMap Ctx) : Prop where
  idle : t.phase client = .idle
  fmap : t.fmap = outcome.2
  returned : t.returned = ⟨work.call, compositionNames work.module, outcome.1⟩ :: s.returned

section Rest

variable {work : Checking} {items : Dparser.Module} {fmap : FunctionMap Ctx}

theorem rest_nil (hitems : work.items = []) :
    exec work.rest fmap = exec (insertAll work.compVec) fmap := by
  rw [Checking.rest, exec_get_bind, hitems, FunctionRegistry.compositionsFrom]
  change exec (lift (.ok []) >>= _) _ = _
  rw [exec_lift_ok_bind, List.append_nil]

theorem rest_declared {decl : Dparser.FunctionDecl}
    (hitems : work.items = .functionDecl decl :: items) (hdecl : (fmap.get? decl.name).isSome = true) :
    exec work.rest fmap = exec (work.declared decl items).rest fmap := by
  rw [Checking.rest, Checking.rest, exec_get_bind, exec_get_bind, hitems,
    FunctionRegistry.compositionsFrom]
  simp only [lookups, hdecl, if_true]
  rfl

theorem rest_undeclared {decl : Dparser.FunctionDecl}
    (hitems : work.items = .functionDecl decl :: items)
    (hdecl : ¬ (fmap.get? decl.name).isSome = true) :
    exec work.rest fmap =
      (fail (.composition (.containsInvalidFunction decl.name)), fmap) := by
  rw [Checking.rest, exec_get_bind, hitems, FunctionRegistry.compositionsFrom]
  simp only [lookups, hdecl]
  rfl

variable {comp : Dparser.Composition} (hitems : work.items = .composition comp :: items)
include hitems

theorem rest_taken
    (htaken : ((fmap.get? comp.name).isSome || work.compositionIds.contains comp.name) = true) :
    exec work.rest fmap = (fail (.composition (.duplicateIdentifier comp.name)), fmap) := by
  rw [Checking.rest, exec_get_bind, hitems, FunctionRegistry.compositionsFrom]
  simp only [lookups, htaken, if_true]
  rfl

variable (hfree : ¬ ((fmap.get? comp.name).isSome || work.compositionIds.contains comp.name) = true)
include hfree

theorem rest_rejected {stop : Stop DandelionError}
    (hentry : FunctionRegistry.composition (lookups fmap work.tryReserve) work.knownFunctions comp =
      .error stop) : exec work.rest fmap = (.error stop, fmap) := by
  rw [Checking.rest, exec_get_bind, hitems, FunctionRegistry.compositionsFrom]
  rw [lookups] at hentry ⊢
  simp only [hfree, hentry]
  rfl

theorem rest_translated {entry : String × Composition × Dandelion.Metadata}
    (hentry : FunctionRegistry.composition (lookups fmap work.tryReserve) work.knownFunctions comp =
      .ok entry) : exec work.rest fmap = exec (work.translated comp items entry).rest fmap := by
  have hmodule : FunctionRegistry.compositionsFrom (lookups fmap work.tryReserve) work.items
      work.compositionIds work.knownFunctions =
      (FunctionRegistry.compositionsFrom (lookups fmap work.tryReserve) items
        (comp.name :: work.compositionIds) work.knownFunctions >>= fun rest => pure (entry :: rest)) := by
    rw [hitems, FunctionRegistry.compositionsFrom]
    exact (if_neg hfree).trans (by rw [hentry]; rfl)
  rw [Checking.rest, Checking.rest, exec_get_bind, exec_get_bind, hmodule]
  change _ = exec (lift (FunctionRegistry.compositionsFrom (lookups fmap work.tryReserve) items
    (comp.name :: work.compositionIds) work.knownFunctions) >>= _) _
  cases FunctionRegistry.compositionsFrom (lookups fmap work.tryReserve) items
    (comp.name :: work.compositionIds) work.knownFunctions with
  | error stop => rfl
  | ok compVec =>
    change exec (lift (.ok (entry :: compVec)) >>= _) _ = _
    rw [exec_lift_ok_bind, exec_lift_ok_bind, Checking.translated, List.append_assoc]
    rfl

end Rest

variable {s : ClientsState Ctx} {client : Nat} {work : Checking}
  (hphase : s.phase client = .checking work)
include hphase

theorem finish_leaves {stop : Stop DandelionError}
    (hcheck : s.check client work = s.finish client work (.error stop))
    (hrest : exec work.rest s.fmap = (.error stop, s.fmap)) :
    ∃ n t, run ClientsState.act s (List.replicate n (.advance client)) = some t ∧
      Leaves s t client work (exec work.rest s.fmap) := by
  refine ⟨1, s.finish client work (.error stop), ?_, ?_⟩
  · simp only [List.replicate, run, ClientsState.act, hphase, hcheck, Option.bind_some]
  · rw [hrest]
    exact ⟨Function.update_self .., rfl, rfl⟩

theorem moveTo_leaves {work' : Checking}
    (hcheck : s.check client work = s.moveTo client (.checking work'))
    (hcall : work'.call = work.call) (hmodule : work'.module = work.module)
    (hrest : exec work.rest s.fmap = exec work'.rest s.fmap)
    (h : ∃ n t, run ClientsState.act (s.moveTo client (.checking work'))
        (List.replicate n (.advance client)) = some t ∧
      Leaves (s.moveTo client (.checking work')) t client work' (exec work'.rest s.fmap)) :
    ∃ n t, run ClientsState.act s (List.replicate n (.advance client)) = some t ∧
      Leaves s t client work (exec work.rest s.fmap) := by
  obtain ⟨n, t, hrun, hleaves⟩ := h
  refine ⟨n + 1, t, ?_, ?_⟩
  · simp only [List.replicate_succ, run, ClientsState.act, hphase, hcheck, Option.bind_some]
    exact hrun
  · rw [hrest]
    exact ⟨hleaves.idle, hleaves.fmap, by rw [hleaves.returned, hcall, hmodule]; rfl⟩

omit hphase in
/-- A client that is not interrupted makes the call of the sequential registry. -/
theorem advance_alone (items : Dparser.Module) (hitems : work.items = items)
    (hphase : s.phase client = .checking work) :
    ∃ n t, run ClientsState.act s (List.replicate n (.advance client)) = some t ∧
      Leaves s t client work (exec work.rest s.fmap) := by
  induction items generalizing s work with
  | nil =>
    refine ⟨1, s.write client work, ?_, ?_⟩
    · simp only [List.replicate, run, ClientsState.act, hphase, ClientsState.check, hitems,
        Option.bind_some]
    · rw [rest_nil hitems]
      exact ⟨Function.update_self .., rfl, rfl⟩
  | cons item items ih =>
    cases item with
    | functionDecl decl =>
      by_cases hdecl : (s.fmap.get? decl.name).isSome = true
      · have hcheck : s.check client work = s.moveTo client (.checking (work.declared decl items)) := by
          rw [ClientsState.check, hitems]
          exact if_pos hdecl
        exact moveTo_leaves hphase hcheck rfl rfl (rest_declared hitems hdecl)
          (ih rfl (Function.update_self ..))
      · refine finish_leaves hphase ?_ (rest_undeclared hitems hdecl)
        rw [ClientsState.check, hitems]
        exact if_neg hdecl
    | composition comp =>
      by_cases htaken : ((s.fmap.get? comp.name).isSome ||
          work.compositionIds.contains comp.name) = true
      · refine finish_leaves hphase ?_ (rest_taken hitems htaken)
        rw [ClientsState.check, hitems]
        exact if_pos htaken
      · cases hentry : FunctionRegistry.composition (lookups s.fmap work.tryReserve)
          work.knownFunctions comp with
        | error stop =>
          refine finish_leaves hphase ?_ (rest_rejected hitems htaken hentry)
          rw [ClientsState.check, hitems]
          simp only [if_neg htaken, hentry]
        | ok entry =>
          have hcheck : s.check client work =
              s.moveTo client (.checking (work.translated comp items entry)) := by
            rw [ClientsState.check, hitems]
            simp only [if_neg htaken, hentry]
          exact moveTo_leaves hphase hcheck rfl rfl (rest_translated hitems htaken hentry)
            (ih rfl (Function.update_self ..))

end Alone

section Batches

theorem insertAll_taken {compVec : List (String × Composition × Dandelion.Metadata)}
    {fmap : FunctionMap Ctx} (h : ∃ entry ∈ compVec, (fmap.get? entry.1).isSome = true) :
    ∃ e, (exec (insertAll compVec) fmap).1 = fail e := by
  induction compVec generalizing fmap with
  | nil =>
    obtain ⟨entry, hentry, -⟩ := h
    exact absurd hentry List.not_mem_nil
  | cons first compVec ih =>
    obtain ⟨compName, composition, metadata⟩ := first
    rw [insertAll, exec_bind, exec_fmapInsertComposition]
    by_cases hfirst : (fmap.get? compName).isSome = true
    · rw [if_pos hfirst]
      exact ⟨_, rfl⟩
    · rw [if_neg hfirst]
      apply ih
      obtain ⟨entry, hentry, htaken⟩ := h
      rcases List.mem_cons.mp hentry with rfl | hentry
      · exact absurd htaken hfirst
      · refine ⟨entry, hentry, ?_⟩
        rw [OrderedMap.get?_insert]
        split_ifs
        · rfl
        · exact htaken

theorem insertAll_first_taken {first : String × Composition × Dandelion.Metadata}
    {rest : List (String × Composition × Dandelion.Metadata)} {fmap : FunctionMap Ctx}
    (h : (fmap.get? first.1).isSome = true) : (exec (insertAll (first :: rest)) fmap).2 = fmap := by
  obtain ⟨compName, composition, metadata⟩ := first
  rw [insertAll, exec_bind, exec_fmapInsertComposition, if_pos h]
  rfl

theorem insertAll_first_free {first : String × Composition × Dandelion.Metadata}
    {rest : List (String × Composition × Dandelion.Metadata)} {fmap : FunctionMap Ctx}
    (h : (fmap.get? first.1).isSome = false) :
    ((exec (insertAll (first :: rest)) fmap).2.get? first.1).isSome = true := by
  obtain ⟨compName, composition, metadata⟩ := first
  rw [insertAll, exec_bind, exec_fmapInsertComposition, h]
  obtain ⟨entry, hentry, -⟩ := (insertAll_evolves rest _).grows compName _
    (OrderedMap.get?_insert_self _ _ _)
  exact Option.isSome_iff_exists.mpr ⟨entry, hentry⟩

end Batches

section Calls

def Phase.call? : Phase Ctx → Option Nat
  | .checking work => some work.call
  | _ => none

/-- The compositions checked so far and those still to be checked are those of the module. -/
structure Checking.Consistent (work : Checking) : Prop where
  nodup : (work.compVec.map Prod.fst).Nodup
  ids : ∀ name ∈ work.compVec.map Prod.fst, name ∈ work.compositionIds
  names : compositionNames work.module = work.compVec.map Prod.fst ++ compositionNames work.items

/-- Calls are told apart by their numbers: those under way have no record yet. -/
structure Tracked (s : ClientsState Ctx) : Prop where
  lt : ∀ client call, (s.phase client).call? = some call → call < s.nextCall
  unique : ∀ client client' call, (s.phase client).call? = some call →
    (s.phase client').call? = some call → client = client'
  fresh : ∀ client call, (s.phase client).call? = some call →
    (∀ r ∈ s.returned, r.call ≠ call) ∧ ∀ p ∈ s.inserted, p.1 ≠ call
  returned_lt : ∀ r ∈ s.returned, r.call < s.nextCall
  inserted_lt : ∀ p ∈ s.inserted, p.1 < s.nextCall
  consistent : ∀ client work, s.phase client = .checking work → work.Consistent

/-- A registration that returned an error has inserted nothing, and one that returned Ok has
inserted all its compositions. -/
def AllOrNothing (s : ClientsState Ctx) : Prop :=
  ∀ r ∈ s.returned,
    (r.result = .ok () → ∀ name ∈ r.names, (r.call, name) ∈ s.inserted) ∧
    (∀ e, r.result = fail e → ∀ name, (r.call, name) ∉ s.inserted)

theorem tracked_initial (fmap : FunctionMap Ctx) : Tracked (.initial fmap) where
  lt := fun client call h => by cases h
  unique := fun client client' call h => by cases h
  fresh := fun client call h => by cases h
  returned_lt := fun r h => absurd h List.not_mem_nil
  inserted_lt := fun p h => absurd h List.not_mem_nil
  consistent := fun client work h => by cases h

theorem allOrNothing_initial (fmap : FunctionMap Ctx) : AllOrNothing (.initial fmap) :=
  fun _ h => absurd h List.not_mem_nil

variable {s : ClientsState Ctx}

/-- A client that goes on in its call, or is in none; the map may change. -/
theorem Tracked.move (h : Tracked s) (client : Nat) (phase : Phase Ctx) (fmap : FunctionMap Ctx)
    (hcall : ∀ call, phase.call? = some call → (s.phase client).call? = some call)
    (hwork : ∀ work, phase = .checking work → work.Consistent) :
    Tracked { s.moveTo client phase with fmap } := by
  have hold : ∀ client' call, (Function.update s.phase client phase client').call? = some call →
      (s.phase client').call? = some call := by
    intro client' call hphase
    by_cases heq : client' = client
    · subst heq
      rw [Function.update_self] at hphase
      exact hcall call hphase
    · rwa [Function.update_of_ne heq] at hphase
  constructor
  · exact fun client' call hphase => h.lt client' call (hold client' call hphase)
  · exact fun client' client'' call hphase hphase' =>
      h.unique client' client'' call (hold _ _ hphase) (hold _ _ hphase')
  · exact fun client' call hphase => h.fresh client' call (hold client' call hphase)
  · exact h.returned_lt
  · exact h.inserted_lt
  · intro client' work hphase
    change Function.update s.phase client phase client' = .checking work at hphase
    by_cases heq : client' = client
    · subst heq
      rw [Function.update_self] at hphase
      exact hwork work hphase
    · rw [Function.update_of_ne heq] at hphase
      exact h.consistent client' work hphase

theorem Tracked.finish (h : Tracked s) {client : Nat} {work : Checking}
    (hphase : s.phase client = .checking work)
    (result : DandelionResult Unit) (fmap : FunctionMap Ctx) (bound : List String) :
    Tracked { s.finish client work result with
      fmap, inserted := s.inserted ++ bound.map fun name => (work.call, name) } := by
  have hmine : (s.phase client).call? = some work.call := by rw [hphase]; rfl
  have hmoved := h.move client .idle fmap (fun call hcall => by cases hcall)
    (fun work hwork => by cases hwork)
  have hother : ∀ client' call,
      (Function.update s.phase client (.idle : Phase Ctx) client').call? = some call →
      call ≠ work.call := by
    intro client' call hcall heq
    by_cases hclient : client' = client
    · subst hclient
      rw [Function.update_self] at hcall
      cases hcall
    · rw [Function.update_of_ne hclient] at hcall
      exact hclient (h.unique client' client call hcall (heq ▸ hmine))
  refine ⟨hmoved.lt, hmoved.unique, fun client' call hcall => ⟨?_, ?_⟩, ?_, ?_, hmoved.consistent⟩
  · intro r hr
    rcases List.mem_cons.mp hr with rfl | hr
    · exact (hother client' call hcall).symm
    · exact (hmoved.fresh client' call hcall).1 r hr
  · intro p hp
    rcases List.mem_append.mp hp with hp | hp
    · exact (hmoved.fresh client' call hcall).2 p hp
    · obtain ⟨name, -, rfl⟩ := List.mem_map.mp hp
      exact (hother client' call hcall).symm
  · intro r hr
    rcases List.mem_cons.mp hr with rfl | hr
    · exact h.lt client _ hmine
    · exact h.returned_lt r hr
  · intro p hp
    rcases List.mem_append.mp hp with hp | hp
    · exact h.inserted_lt p hp
    · obtain ⟨name, -, rfl⟩ := List.mem_map.mp hp
      exact h.lt client _ hmine

/-- The record of a returned call decides whether the property still holds. -/
theorem AllOrNothing.finish_iff (h : AllOrNothing s) (htracked : Tracked s) {client : Nat}
    {work : Checking}
    (hphase : s.phase client = .checking work) (result : DandelionResult Unit)
    (fmap : FunctionMap Ctx) (bound : List String) :
    AllOrNothing { s.finish client work result with
        fmap, inserted := s.inserted ++ bound.map fun name => (work.call, name) } ↔
      (result = .ok () → ∀ name ∈ compositionNames work.module, name ∈ bound) ∧
      ∀ e, result = fail e → bound = [] := by
  have hmine : (s.phase client).call? = some work.call := by rw [hphase]; rfl
  obtain ⟨hreturned, hinserted⟩ := htracked.fresh client work.call hmine
  have hmem : ∀ name, (work.call, name) ∈
      s.inserted ++ bound.map (fun name => (work.call, name)) ↔ name ∈ bound := by
    intro name
    rw [List.mem_append, List.mem_map]
    constructor
    · rintro (hold | ⟨name', hname', heq⟩)
      · exact absurd rfl (hinserted _ hold)
      · cases heq
        exact hname'
    · exact fun hname => .inr ⟨name, hname, rfl⟩
  constructor
  · intro hall
    obtain ⟨hok, hfail⟩ := hall _ List.mem_cons_self
    refine ⟨fun hresult name hname => (hmem name).mp (hok hresult name hname), fun e he => ?_⟩
    apply List.eq_nil_iff_forall_not_mem.mpr
    exact fun name hname => hfail e he name ((hmem name).mpr hname)
  · rintro ⟨hok, hfail⟩ r hr
    rcases List.mem_cons.mp hr with rfl | hr
    · refine ⟨fun hresult name hname => (hmem name).mpr (hok hresult name hname),
        fun e he name hname => ?_⟩
      rw [hmem, hfail e he] at hname
      exact absurd hname List.not_mem_nil
    · refine ⟨fun hresult name hname => List.mem_append_left _ ((h r hr).1 hresult name hname),
        fun e he name hname => ?_⟩
      rcases List.mem_append.mp hname with hold | hnew
      · exact (h r hr).2 e he name hold
      · obtain ⟨name', -, heq⟩ := List.mem_map.mp hnew
        exact hreturned r hr (congrArg Prod.fst heq).symm

/-- A call that gives up before the write lock has inserted nothing. -/
theorem finish_unwritten (h : Tracked s) {client : Nat} {work : Checking}
    (hphase : s.phase client = .checking work) (stop : Stop DandelionError) :
    Tracked (s.finish client work (.error stop)) ∧
      (AllOrNothing s → AllOrNothing (s.finish client work (.error stop))) := by
  have htracked := h.finish hphase (.error stop) s.fmap []
  have hiff := fun hall => AllOrNothing.finish_iff hall h hphase (.error stop) s.fmap []
  rw [List.map_nil, List.append_nil] at htracked
  simp only [List.map_nil, List.append_nil] at hiff
  refine ⟨htracked, fun hall => (hiff hall).mpr ⟨fun hok => (by cases hok), fun _ _ => trivial⟩⟩

/-- The section under the write lock leaves a clean record just when the first name of the
batch is taken or none is. -/
def CleanBatch (fmap : FunctionMap Ctx)
    (compVec : List (String × Composition × Dandelion.Metadata)) : Prop :=
  (∀ entry ∈ compVec, (fmap.get? entry.1).isSome = false) ∨
    ∃ first rest, compVec = first :: rest ∧ (fmap.get? first.1).isSome = true

theorem write_allOrNothing_iff (h : Tracked s) (hall : AllOrNothing s) {client : Nat}
    {work : Checking} (hphase : s.phase client = .checking work) (hitems : work.items = []) :
    AllOrNothing (s.write client work) ↔ CleanBatch s.fmap work.compVec := by
  have hwork := h.consistent client work hphase
  have hnames : compositionNames work.module = work.compVec.map Prod.fst := by
    rw [hwork.names, hitems]
    exact List.append_nil _
  rw [ClientsState.write, AllOrNothing.finish_iff hall h hphase, hnames]
  by_cases hfree : ∀ entry ∈ work.compVec, (s.fmap.get? entry.1).isSome = false
  · obtain ⟨hok, hinserted⟩ := insertAll_ok hfree hwork.nodup
    refine iff_of_true ⟨fun _ name hname => ?_, fun e he => ?_⟩ (.inl hfree)
    · obtain ⟨entry, hentry, rfl⟩ := List.mem_map.mp hname
      have hnone : s.fmap.get? entry.1 = none := by simpa using hfree entry hentry
      refine List.mem_filter.mpr ⟨hname, ?_⟩
      rw [hinserted entry hentry, hnone]
      rfl
    · rw [hok] at he
      cases he
  · simp only [not_forall, Bool.not_eq_false] at hfree
    obtain ⟨taken, htaken, hbound⟩ := hfree
    obtain ⟨e, herror⟩ := insertAll_taken ⟨taken, htaken, hbound⟩
    cases hcompVec : work.compVec with
    | nil =>
      rw [hcompVec] at htaken
      exact absurd htaken List.not_mem_nil
    | cons first rest =>
      rw [hcompVec] at herror
      by_cases hfirst : (s.fmap.get? first.1).isSome = true
      · refine iff_of_true ⟨fun hok => ?_, fun _ _ => ?_⟩ (.inr ⟨first, rest, rfl, hfirst⟩)
        · rw [herror] at hok
          cases hok
        · rw [insertAll_first_taken hfirst, List.filter_eq_nil_iff]
          intro name _
          cases s.fmap.get? name <;> simp
      · rw [Bool.not_eq_true] at hfirst
        refine iff_of_false (fun hclean => ?_) ?_
        · have hmem : first.1 ∈ ((first :: rest).map Prod.fst).filter fun name =>
              (s.fmap.get? name).isNone &&
                ((exec (insertAll (first :: rest)) s.fmap).2.get? name).isSome := by
            refine List.mem_filter.mpr ⟨List.mem_cons_self, ?_⟩
            rw [insertAll_first_free hfirst, Bool.and_true]
            simpa using hfirst
          rw [hclean.2 e herror] at hmem
          exact absurd hmem List.not_mem_nil
        · rintro (hall | ⟨first', rest', heq, htaken'⟩)
          · rw [hcompVec] at htaken
            rw [hall taken htaken] at hbound
            cases hbound
          · cases heq
            rw [hfirst] at htaken'
            cases htaken'

theorem write_tracked (h : Tracked s) {client : Nat} {work : Checking}
    (hphase : s.phase client = .checking work) : Tracked (s.write client work) :=
  h.finish hphase _ _ _

theorem Checking.Consistent.decl {work : Checking} (h : work.Consistent) {decl : Dparser.FunctionDecl}
    {items : Dparser.Module} (hitems : work.items = .functionDecl decl :: items) :
    (work.declared decl items).Consistent := by
  refine ⟨h.nodup, h.ids, h.names.trans ?_⟩
  rw [hitems]
  rfl

theorem Checking.Consistent.composition {work : Checking} (h : work.Consistent)
    {comp : Dparser.Composition} {items : Dparser.Module}
    (hitems : work.items = .composition comp :: items) (hnew : comp.name ∉ work.compositionIds)
    {entry : String × Composition × Dandelion.Metadata} (hname : entry.1 = comp.name) :
    (work.translated comp items entry).Consistent := by
  have hcompVec : (work.translated comp items entry).compVec.map Prod.fst =
      work.compVec.map Prod.fst ++ [comp.name] := by
    rw [Checking.translated, List.map_append, List.map_singleton, hname]
  refine ⟨?_, fun name hmem => ?_, h.names.trans ?_⟩
  · rw [hcompVec, List.nodup_append]
    refine ⟨h.nodup, List.nodup_singleton _, fun name hmem name' hlast heq => ?_⟩
    rw [List.mem_singleton] at hlast
    exact hnew (hlast ▸ heq ▸ h.ids name hmem)
  · rw [hcompVec] at hmem
    rcases List.mem_append.mp hmem with hold | hlast
    · exact List.mem_cons_of_mem _ (h.ids name hold)
    · exact List.mem_singleton.mp hlast ▸ List.mem_cons_self
  · rw [hcompVec, hitems, List.append_assoc]
    rfl

/-- One step of a check: either the write, or a step that keeps both properties. -/
theorem check_cases (h : Tracked s) {client : Nat} {work : Checking}
    (hphase : s.phase client = .checking work) :
    (work.items = [] ∧ s.check client work = s.write client work) ∨
      (work.items ≠ [] ∧ Tracked (s.check client work) ∧
        (AllOrNothing s → AllOrNothing (s.check client work))) := by
  have hwork := h.consistent client work hphase
  have hmine : (s.phase client).call? = some work.call := by rw [hphase]; rfl
  rw [ClientsState.check]
  split
  case h_1 hitems => exact .inl ⟨hitems, rfl⟩
  case h_2 decl items hitems =>
    right
    refine ⟨by simp [hitems], ?_⟩
    split_ifs
    · refine ⟨h.move client _ s.fmap (fun call hcall => ?_) (fun work' hwork' => ?_), fun hall => hall⟩
      · cases hcall
        exact hmine
      · cases hwork'
        exact hwork.decl hitems
    · exact finish_unwritten h hphase _
  case h_3 comp items hitems =>
    right
    refine ⟨by simp [hitems], ?_⟩
    split_ifs with htaken
    · exact finish_unwritten h hphase _
    · split
      case h_1 entry hentry =>
        have hnew : comp.name ∉ work.compositionIds := by
          intro hmem
          exact htaken (by simp [hmem])
        refine ⟨h.move client _ s.fmap (fun call hcall => ?_) (fun work' hwork' => ?_),
          fun hall => hall⟩
        · cases hcall
          exact hmine
        · cases hwork'
          exact hwork.composition hitems hnew (composition_name hentry)
      case h_2 => exact finish_unwritten h hphase _

theorem begin_keeps (h : Tracked s) {client : Nat} (hidle : s.phase client = .idle)
    (call : Call Ctx) :
    Tracked (s.begin client call) ∧ (AllOrNothing s → AllOrNothing (s.begin client call)) := by
  cases call with
  | insertFunction binaryFound functionId engineType contextSize path metadata =>
    rw [ClientsState.begin]
    split_ifs
    · exact ⟨h.move client _ s.fmap (fun call hcall => by cases hcall)
        (fun work hwork => by cases hwork), fun hall => hall⟩
    · exact ⟨h, fun hall => hall⟩
  | insertCompositions tryReserve compositionDesc =>
    rw [ClientsState.begin]
    cases Dparser.parse compositionDesc with
    | none =>
      refine ⟨⟨fun client' call hcall => Nat.lt_succ_of_lt (h.lt client' call hcall), h.unique,
        fun client' call hcall => ⟨?_, (h.fresh client' call hcall).2⟩, ?_,
        fun p hp => Nat.lt_succ_of_lt (h.inserted_lt p hp), h.consistent⟩, fun hall => ?_⟩
      · refine List.forall_mem_cons.mpr ⟨(h.lt client' call hcall).ne', (h.fresh client' call hcall).1⟩
      · exact List.forall_mem_cons.mpr ⟨Nat.lt_succ_self _,
          fun r hr => Nat.lt_succ_of_lt (h.returned_lt r hr)⟩
      · refine List.forall_mem_cons.mpr ⟨⟨fun hok => (by cases hok), fun e he name hmem => ?_⟩, hall⟩
        exact absurd (h.inserted_lt _ hmem) (Nat.lt_irrefl _)
    | some module =>
      -- the new call has the next number, which no other call and no record has
      have hcases : ∀ client' call, (Function.update s.phase client (.checking
          ⟨s.nextCall, module, tryReserve, module, [], .empty, []⟩) client').call? = some call →
          (client' = client ∧ call = s.nextCall) ∨ (s.phase client').call? = some call := by
        intro client' call hcall
        by_cases heq : client' = client
        · subst heq
          rw [Function.update_self] at hcall
          cases hcall
          exact .inl ⟨rfl, rfl⟩
        · rw [Function.update_of_ne heq] at hcall
          exact .inr hcall
      refine ⟨⟨fun client' call hcall => ?_, fun client' client'' call hcall hcall' => ?_,
        fun client' call hcall => ?_, fun r hr => Nat.lt_succ_of_lt (h.returned_lt r hr),
        fun p hp => Nat.lt_succ_of_lt (h.inserted_lt p hp), fun client' work hwork => ?_⟩,
        fun hall => hall⟩
      · rcases hcases client' call hcall with ⟨-, rfl⟩ | hold
        · exact Nat.lt_succ_self _
        · exact Nat.lt_succ_of_lt (h.lt client' call hold)
      · rcases hcases client' call hcall with ⟨rfl, rfl⟩ | hold
        · rcases hcases client'' _ hcall' with ⟨rfl, -⟩ | hold'
          · rfl
          · exact absurd (h.lt client'' _ hold') (Nat.lt_irrefl _)
        · rcases hcases client'' call hcall' with ⟨-, rfl⟩ | hold'
          · exact absurd (h.lt client' _ hold) (Nat.lt_irrefl _)
          · exact h.unique client' client'' call hold hold'
      · rcases hcases client' call hcall with ⟨-, rfl⟩ | hold
        · exact ⟨fun r hr => (h.returned_lt r hr).ne, fun p hp => (h.inserted_lt p hp).ne⟩
        · exact h.fresh client' call hold
      · change Function.update s.phase client _ client' = .checking work at hwork
        by_cases heq : client' = client
        · subst heq
          rw [Function.update_self] at hwork
          cases hwork
          exact ⟨List.nodup_nil, fun name hname => absurd hname List.not_mem_nil, rfl⟩
        · rw [Function.update_of_ne heq] at hwork
          exact h.consistent client' work hwork

/-- The step of a client is not the write of a batch, or that batch is clean. -/
def WritesClean (s : ClientsState Ctx) : Action Ctx → Prop
  | .start _ _ => True
  | .advance client => ∀ work, s.phase client = .checking work → work.items = [] →
      CleanBatch s.fmap work.compVec

theorem act_keeps (h : Tracked s) {action : Action Ctx} {t : ClientsState Ctx}
    (hact : s.act action = some t) :
    Tracked t ∧ (AllOrNothing s → (AllOrNothing t ↔ WritesClean s action)) := by
  cases action with
  | start client call =>
    cases hphase : s.phase client with
    | idle =>
      simp only [ClientsState.act, hphase] at hact
      cases hact
      obtain ⟨htracked, hall⟩ := begin_keeps h hphase call
      exact ⟨htracked, fun hs => iff_of_true (hall hs) trivial⟩
    | inserting _ => simp [ClientsState.act, hphase] at hact
    | checking _ => simp [ClientsState.act, hphase] at hact
  | advance client =>
    cases hphase : s.phase client with
    | idle => simp [ClientsState.act, hphase] at hact
    | inserting call =>
      simp only [ClientsState.act, hphase] at hact
      cases hact
      refine ⟨h.move client .idle _ (fun call hcall => by cases hcall)
        (fun work hwork => by cases hwork), fun hs => iff_of_true hs fun work hwork => ?_⟩
      rw [hphase] at hwork
      cases hwork
    | checking work =>
      simp only [ClientsState.act, hphase] at hact
      cases hact
      have hguard : WritesClean s (.advance client) ↔ (work.items = [] → CleanBatch s.fmap work.compVec) := by
        constructor
        · exact fun hclean => hclean work hphase
        · intro hclean work' hwork'
          cases hphase.symm.trans hwork'
          exact hclean
      rcases check_cases h hphase with ⟨hitems, hwrite⟩ | ⟨hitems, htracked, hkeeps⟩
      · rw [hwrite]
        refine ⟨write_tracked h hphase, fun hs => ?_⟩
        rw [write_allOrNothing_iff h hs hphase hitems, hguard]
        exact ⟨fun hclean _ => hclean, fun hclean => hclean hitems⟩
      · exact ⟨htracked, fun hs => iff_of_true (hkeeps hs)
          (hguard.mpr fun hempty => absurd hempty hitems)⟩

end Calls

/-- Along every run of any number of clients, each registration is all or nothing just when
no batch is written with its first name free and another name taken. -/
theorem allOrNothing_along_iff (fmap : FunctionMap Ctx) (actions : List (Action Ctx)) :
    SafeAlong ClientsState.act AllOrNothing (.initial fmap) actions ↔
      GuardedAlong ClientsState.act WritesClean (.initial fmap) actions := by
  constructor
  · exact guarded_of_safeAlong (fun s action t h hact => (act_keeps h hact).1)
      (fun s action t h hs hact ht => ((act_keeps h hact).2 hs).mp ht) actions (tracked_initial fmap)
  · exact safeAlong_of_guarded (I := fun s => Tracked s ∧ AllOrNothing s)
      (fun s action t h hact hguard => ⟨(act_keeps h.1 hact).1, ((act_keeps h.1 hact).2 h.2).mpr hguard⟩)
      (fun s h => h.2) actions ⟨tracked_initial fmap, allOrNothing_initial fmap⟩

/-- Client 0 checks a module with the compositions A and B, client 1 registers B before the
write of client 0: that fails with A inserted. -/
def racingActions : List (Action Unit) :=
  [.start 0 (.insertCompositions (fun _ => true)
      "composition A() => () \x7b\x7d composition B() => () \x7b\x7d"),
    .start 1 (.insertCompositions (fun _ => true) "composition B() => () \x7b\x7d"),
    .advance 0, .advance 0, .advance 1, .advance 1, .advance 0]

theorem batch_half_inserted :
    ∃ s, run ClientsState.act (.initial (.empty : FunctionMap Unit)) racingActions = some s ∧
      ⟨0, ["A", "B"], fail (.functionRegistry (.duplicateInsert "B"))⟩ ∈ s.returned ∧
      (0, "A") ∈ s.inserted ∧ ¬ AllOrNothing s := by
  have hrun : (run ClientsState.act (.initial (.empty : FunctionMap Unit)) racingActions).map
      (fun s => (s.returned, s.inserted)) =
      some ([⟨0, ["A", "B"], fail (.functionRegistry (.duplicateInsert "B"))⟩, ⟨1, ["B"], .ok ()⟩],
        [(1, "B"), (0, "A")]) := by decide +kernel
  obtain ⟨s, hs, hrecords⟩ := Option.map_eq_some_iff.mp hrun
  obtain ⟨hreturned, hinserted⟩ := Prod.mk.inj hrecords
  have hfailed : ⟨0, ["A", "B"], fail (.functionRegistry (.duplicateInsert "B"))⟩ ∈ s.returned := by
    rw [hreturned]
    exact List.mem_cons_self
  have hbound : (0, "A") ∈ s.inserted := by
    rw [hinserted]
    exact List.mem_cons_of_mem _ List.mem_cons_self
  exact ⟨s, hs, hfailed, hbound, fun hall => (hall _ hfailed).2 _ rfl "A" hbound⟩

end Dandelion.Registry
