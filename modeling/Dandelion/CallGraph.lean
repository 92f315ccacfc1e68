import Dandelion.CallTrees
import Dandelion.Halting
import Dandelion.RegistryInterleavings

/-!
# The calls between registered functions

A composition is registered after the functions that it applies, and nothing is ever removed from
the registry. So whatever clients register, in whatever order their calls interleave, no composition
calls itself, directly or through others, and none calls a name that is not registered. For the
dispatcher this means that the calls which nest in a call of a registered function come to an end,
and that what is registered while it runs makes no difference to it.
-/

namespace Dandelion.Registry

open Outcome Stateful Transitions CallTrees

variable {Ctx Domain : Type}

/-- The composition registered as `caller` applies `callee`. -/
def Calls (fmap : FunctionMap Ctx) (caller callee : String) : Prop :=
  ∃ info, fmap.get? caller = some (.composition info) ∧
    ∃ deps ∈ info.composition.dependencies, deps.function = callee

def IsRegistered (fmap : FunctionMap Ctx) (name : String) : Prop := (fmap.get? name).isSome = true

/-- A rank for the registered names, below their number, that every call lowers. -/
structure Grounded (fmap : FunctionMap Ctx) (rank : String → Nat) : Prop where
  ranked : Ranked (Calls fmap) (IsRegistered fmap) rank
  bounded : ∀ name, IsRegistered fmap name → rank name < fmap.len

theorem isRegistered_of_get? {fmap : FunctionMap Ctx} {name : String} {entry : FunctionType Ctx}
    (h : fmap.get? name = some entry) : IsRegistered fmap name := by
  rw [IsRegistered, h]
  rfl

theorem Grows.isRegistered {fmap fmap' : FunctionMap Ctx} (h : Grows fmap fmap') {name : String}
    (hname : IsRegistered fmap name) : IsRegistered fmap' name := by
  obtain ⟨entry, hentry⟩ := Option.isSome_iff_exists.mp hname
  obtain ⟨entry', hentry', -⟩ := h name entry hentry
  exact isRegistered_of_get? hentry'

/-! ## What an insertion keeps -/

section Insertion

variable {fmap : FunctionMap Ctx} {rank : String → Nat} {key : String} {entry : FunctionType Ctx}

theorem length_le_len (fmap : FunctionMap Ctx) (names : List String) (hnodup : names.Nodup)
    (h : ∀ name ∈ names, IsRegistered fmap name) : names.length ≤ fmap.len := by
  rw [OrderedMap.len, ← List.length_map (f := Prod.fst)]
  refine (List.subperm_of_subset hnodup fun name hname => ?_).length_le
  obtain ⟨entry, hentry⟩ := Option.isSome_iff_exists.mp (h name hname)
  exact List.mem_map.mpr ⟨(name, entry), (fmap.get?_eq_some_iff _ _).mp hentry, rfl⟩

theorem nodup_names (fmap : FunctionMap Ctx) : (fmap.entries.map Prod.fst).Nodup :=
  List.Pairwise.map _ (fun _ _ hlt => ne_of_lt hlt) fmap.sorted

theorem isRegistered_of_mem {name : String} (h : name ∈ fmap.entries.map Prod.fst) :
    IsRegistered fmap name := by
  obtain ⟨⟨name, entry⟩, hmem, rfl⟩ := List.mem_map.mp h
  exact isRegistered_of_get? ((fmap.get?_eq_some_iff _ _).mpr hmem)

theorem isRegistered_insert {name : String} (h : IsRegistered fmap name ∨ name = key) :
    IsRegistered (fmap.insert key entry) name := by
  rw [IsRegistered, OrderedMap.get?_insert]
  split
  · rfl
  · next hne => exact h.resolve_right hne

theorem len_le_insert (fmap : FunctionMap Ctx) (key : String) (entry : FunctionType Ctx) :
    fmap.len ≤ (fmap.insert key entry).len := by
  have hle := length_le_len (fmap.insert key entry) _ (nodup_names fmap) fun name hname =>
    isRegistered_insert (.inl (isRegistered_of_mem hname))
  rwa [List.length_map] at hle

theorem len_lt_insert (hnew : ¬ IsRegistered fmap key) : fmap.len < (fmap.insert key entry).len := by
  have hle := length_le_len (fmap.insert key entry) (key :: fmap.entries.map Prod.fst)
    (List.nodup_cons.mpr ⟨fun hmem => hnew (isRegistered_of_mem hmem), nodup_names fmap⟩)
    (List.forall_mem_cons.mpr ⟨isRegistered_insert (.inr rfl),
      fun name hname => isRegistered_insert (.inl (isRegistered_of_mem hname))⟩)
  rwa [List.length_cons, List.length_map] at hle

/-- The names that an entry applies. -/
def FunctionType.Applies (entry : FunctionType Ctx) (callee : String) : Prop :=
  ∃ info, entry = .composition info ∧ ∃ deps ∈ info.composition.dependencies, deps.function = callee

theorem calls_insert {caller callee : String} (h : Calls (fmap.insert key entry) caller callee) :
    (caller = key ∧ entry.Applies callee) ∨ (caller ≠ key ∧ Calls fmap caller callee) := by
  obtain ⟨info, hget, hdeps⟩ := h
  rcases (OrderedMap.get?_insert_eq_some_iff _ _ _ _ _).mp hget with ⟨rfl, heq⟩ | ⟨hne, hold⟩
  · exact .inl ⟨rfl, info, heq.symm, hdeps⟩
  · exact .inr ⟨hne, info, hold, hdeps⟩

theorem Calls.caller_isRegistered {caller callee : String} (h : Calls fmap caller callee) :
    IsRegistered fmap caller := by
  obtain ⟨info, hget, -⟩ := h
  exact isRegistered_of_get? hget

/-- A new entry that applies registered names only gets the highest rank. -/
theorem Grounded.insert_new (h : Grounded fmap rank) (hnew : ¬ IsRegistered fmap key)
    (happlies : ∀ callee, entry.Applies callee → IsRegistered fmap callee) :
    Grounded (fmap.insert key entry) (Function.update rank key fmap.len) := by
  have hold : ∀ name, IsRegistered fmap name → Function.update rank key fmap.len name = rank name := by
    intro name hname
    refine Function.update_of_ne ?_ _ _
    rintro rfl
    exact hnew hname
  refine ⟨⟨fun caller callee _ hcalls => ?_, fun caller callee _ hcalls => ?_⟩, fun name hname => ?_⟩
  · rcases calls_insert hcalls with ⟨-, happly⟩ | ⟨-, hcalls⟩
    · exact isRegistered_insert (.inl (happlies callee happly))
    · exact isRegistered_insert (.inl (h.ranked.closed caller callee hcalls.caller_isRegistered hcalls))
  · rcases calls_insert hcalls with ⟨rfl, happly⟩ | ⟨-, hcalls⟩
    · have hcallee := happlies callee happly
      rw [hold callee hcallee, Function.update_self]
      exact h.bounded callee hcallee
    · have hcaller := hcalls.caller_isRegistered
      rw [hold callee (h.ranked.closed caller callee hcaller hcalls), hold caller hcaller]
      exact h.ranked.descends caller callee hcaller hcalls
  · have hlt : fmap.len < (fmap.insert key entry).len := len_lt_insert hnew
    by_cases hkey : name = key
    · rw [hkey, Function.update_self]
      exact hlt
    · have hname' : IsRegistered fmap name := by
        rwa [IsRegistered, OrderedMap.get?_insert_of_ne _ _ hkey] at hname
      rw [hold name hname']
      exact (h.bounded name hname').trans hlt

/-- An entry that applies nothing may take the place of another one. -/
theorem Grounded.insert_old (h : Grounded fmap rank) (hold : IsRegistered fmap key)
    (happlies : ∀ callee, ¬ entry.Applies callee) : Grounded (fmap.insert key entry) rank := by
  have hcalls : ∀ caller callee, Calls (fmap.insert key entry) caller callee →
      Calls fmap caller callee := by
    intro caller callee hcalls
    rcases calls_insert hcalls with ⟨-, happly⟩ | ⟨-, hcalls⟩
    · exact absurd happly (happlies callee)
    · exact hcalls
  have hnames : ∀ name, IsRegistered (fmap.insert key entry) name → IsRegistered fmap name := by
    intro name hname
    by_cases hkey : name = key
    · exact hkey ▸ hold
    · rwa [IsRegistered, OrderedMap.get?_insert_of_ne _ _ hkey] at hname
  refine ⟨⟨fun caller callee hcaller hcall => ?_, fun caller callee hcaller hcall => ?_⟩,
    fun name hname => ?_⟩
  · have hcallee := h.ranked.closed caller callee (hnames caller hcaller) (hcalls _ _ hcall)
    exact isRegistered_insert (.inl hcallee)
  · exact h.ranked.descends caller callee (hnames caller hcaller) (hcalls _ _ hcall)
  · exact (h.bounded name (hnames name hname)).trans_le (len_le_insert fmap key entry)

end Insertion

def HasRank (fmap : FunctionMap Ctx) : Prop := ∃ rank, Grounded fmap rank

section Steps

variable {fmap : FunctionMap Ctx}

theorem hasRank_empty : HasRank (OrderedMap.empty : FunctionMap Ctx) :=
  ⟨fun _ => 0, ⟨fun _ _ h => absurd h Bool.false_ne_true, fun _ _ h => absurd h Bool.false_ne_true⟩,
    fun _ h => absurd h Bool.false_ne_true⟩

theorem HasRank.pushAlternative (h : HasRank fmap) {key : String}
    {entry : FunctionInfo Ctx → FunctionType Ctx} (hentry : ∀ info callee, ¬ (entry info).Applies callee)
    (hkey : IsRegistered fmap key) (info : FunctionInfo Ctx) (funcAlt : FunctionAlternative) :
    HasRank (exec (Registry.pushAlternative key entry info funcAlt) fmap).2 := by
  obtain ⟨rank, hrank⟩ := h
  rw [Registry.pushAlternative]
  split
  · exact ⟨rank, hrank⟩
  · exact ⟨rank, hrank.insert_old hkey (hentry _)⟩

theorem HasRank.fmapInsertFunction (h : HasRank fmap) (key : String) (funcAlt : FunctionAlternative)
    (funcMeta : Metadata Ctx) (isSystem : Bool) :
    HasRank (exec (Registry.fmapInsertFunction key funcAlt funcMeta isSystem) fmap).2 := by
  have hsystem : ∀ (info : FunctionInfo Ctx) callee,
      ¬ (FunctionType.systemFunction info).Applies callee := by
    rintro info callee ⟨info', heq, -⟩
    cases heq
  have hfunction : ∀ (info : FunctionInfo Ctx) callee,
      ¬ (FunctionType.function info).Applies callee := by
    rintro info callee ⟨info', heq, -⟩
    cases heq
  rw [Registry.fmapInsertFunction, exec_get_bind]
  cases hold : fmap.get? key with
  | none =>
    obtain ⟨rank, hrank⟩ := h
    have hnew : ¬ IsRegistered fmap key := by
      rw [IsRegistered, hold]
      exact Bool.false_ne_true
    cases isSystem with
    | true => exact ⟨_, hrank.insert_new hnew fun callee happly => absurd happly (hsystem _ callee)⟩
    | false => exact ⟨_, hrank.insert_new hnew fun callee happly => absurd happly (hfunction _ callee)⟩
  | some entry =>
    have hkey := isRegistered_of_get? hold
    cases entry with
    | systemFunction info =>
      cases isSystem with
      | false => exact h
      | true => exact h.pushAlternative hsystem hkey info funcAlt
    | function info =>
      cases isSystem with
      | true => exact h
      | false => exact h.pushAlternative hfunction hkey info funcAlt
    | composition info => exact h

theorem HasRank.insertFunction (h : HasRank fmap) (binaryFound : Bool) (functionId : String)
    (engineType : EngineType) (contextSize : Nat) (path : String) (metadata : Metadata Ctx) :
    HasRank (exec (Registry.insertFunction binaryFound functionId engineType contextSize path metadata)
      fmap).2 := by
  cases binaryFound with
  | false => exact h
  | true => exact h.fmapInsertFunction functionId _ metadata false

theorem HasRank.insertAll (h : HasRank fmap)
    {compVec : List (String × Composition × Dandelion.Metadata)}
    (hcompVec : ∀ entry ∈ compVec, ∀ deps ∈ entry.2.1.dependencies, IsRegistered fmap deps.function) :
    HasRank (exec (Registry.insertAll compVec) fmap).2 := by
  induction compVec generalizing fmap with
  | nil => exact h
  | cons first compVec ih =>
    obtain ⟨compName, composition, metadata⟩ := first
    obtain ⟨hfirst, hrest⟩ := List.forall_mem_cons.mp hcompVec
    rw [Registry.insertAll, exec_bind, exec_fmapInsertComposition]
    by_cases hold : (fmap.get? compName).isSome = true
    · rw [if_pos hold]
      exact h
    · rw [if_neg hold]
      obtain ⟨rank, hrank⟩ := h
      refine ih ⟨_, hrank.insert_new hold fun callee happly => ?_⟩ fun entry hentry deps hdeps =>
        isRegistered_insert (.inl (hrest entry hentry deps hdeps))
      obtain ⟨info, heq, deps, hdeps, rfl⟩ := happly
      cases heq
      exact hfirst deps hdeps

section New

variable {typeMap : OrderedMap EngineType DomainType} {domains : OrderedMap DomainType Domain}

theorem HasRank.newSystemFunction (h : HasRank fmap) {engineType : EngineType} {driver : Driver Domain}
    {systemFunction : SystemFunction × Nat} {fmap' : FunctionMap Ctx}
    (hnew : Registry.newSystemFunction typeMap domains engineType driver systemFunction fmap = .ok fmap') :
    HasRank fmap' := by
  rw [Registry.newSystemFunction] at hnew
  split at hnew
  · cases hnew
  · split at hnew
    · simp only at hnew
      split at hnew
      · next inserted hexec =>
        cases hnew
        have hinserted := h.fmapInsertFunction systemFunction.1.toString
          ⟨engineType, systemFunction.2, ""⟩ ⟨(getSystemFunctionInputSets systemFunction.1).map
            fun name => (name, none), getSystemFunctionOutputSets systemFunction.1⟩ true
        rw [hexec] at hinserted
        exact hinserted
      · cases hnew
    · cases hnew

theorem HasRank.newSystemFunctions (h : HasRank fmap) {engineType : EngineType} {driver : Driver Domain}
    (functions : List (SystemFunction × Nat)) {fmap' : FunctionMap Ctx}
    (hnew : Registry.newSystemFunctions typeMap domains engineType driver functions fmap = .ok fmap') :
    HasRank fmap' := by
  induction functions generalizing fmap with
  | nil =>
    cases hnew
    exact h
  | cons function functions ih =>
    obtain ⟨middle, hfirst, hrest⟩ := (bind_eq_ok_iff _ _ _).mp hnew
    exact ih (h.newSystemFunction hfirst) hrest

theorem HasRank.newFrom (h : HasRank fmap) (drivers : List (EngineType × Driver Domain))
    {fmap' : FunctionMap Ctx} (hnew : Registry.newFrom typeMap domains drivers fmap = .ok fmap') :
    HasRank fmap' := by
  induction drivers generalizing fmap with
  | nil =>
    cases hnew
    exact h
  | cons driver drivers ih =>
    obtain ⟨middle, hfirst, hrest⟩ := (bind_eq_ok_iff _ _ _).mp hnew
    exact ih (h.newSystemFunctions _ hfirst) hrest

end New

end Steps

/-! ## Registrations of several clients -/

section Clients

/-- What a check has translated applies names that were looked up. -/
structure Checking.Sourced (work : Checking) (fmap : FunctionMap Ctx) : Prop where
  known : ∀ name decl, work.knownFunctions.get? name = some decl →
    decl.name = name ∧ IsRegistered fmap name
  applied : ∀ entry ∈ work.compVec, ∀ deps ∈ entry.2.1.dependencies, IsRegistered fmap deps.function

def Phase.Sourced (fmap : FunctionMap Ctx) : Phase Ctx → Prop
  | .idle => True
  | .inserting (.insertFunction _ _ _ _ _ _) => True
  | .inserting (.insertCompositions _ _) => False
  | .checking work => work.Sourced fmap

/-- Between the steps of the clients. -/
structure Built (s : ClientsState Ctx) : Prop where
  hasRank : HasRank s.fmap
  sourced : ∀ client, (s.phase client).Sourced s.fmap

theorem Checking.Sourced.mono {work : Checking} {fmap fmap' : FunctionMap Ctx} (h : work.Sourced fmap)
    (hgrows : Grows fmap fmap') : work.Sourced fmap' :=
  ⟨fun name decl hdecl => (h.known name decl hdecl).imp_right hgrows.isRegistered,
    fun entry hentry deps hdeps => hgrows.isRegistered (h.applied entry hentry deps hdeps)⟩

theorem Phase.Sourced.mono {phase : Phase Ctx} {fmap fmap' : FunctionMap Ctx} (h : phase.Sourced fmap)
    (hgrows : Grows fmap fmap') : phase.Sourced fmap' := by
  cases phase with
  | idle => trivial
  | inserting call =>
    cases call with
    | insertFunction => trivial
    | insertCompositions => exact h.elim
  | checking work => exact Checking.Sourced.mono h hgrows

variable {s : ClientsState Ctx} {client : Nat}

/-- A client goes on, and the map may grow. -/
theorem Built.move (h : Built s) {phase : Phase Ctx} {fmap : FunctionMap Ctx} (hgrows : Grows s.fmap fmap)
    (hrank : HasRank fmap) (hphase : phase.Sourced fmap) :
    Built { s.moveTo client phase with fmap } := by
  refine ⟨hrank, fun other => ?_⟩
  change (Function.update s.phase client phase other).Sourced fmap
  rw [Function.update_apply]
  split
  · exact hphase
  · exact (h.sourced other).mono hgrows

theorem Built.of_eq {t : ClientsState Ctx} (h : Built s) (hfmap : t.fmap = s.fmap)
    (hphase : t.phase = s.phase) : Built t :=
  ⟨hfmap ▸ h.hasRank, fun other => by rw [hfmap, hphase]; exact h.sourced other⟩

theorem Built.stay (h : Built s) {phase : Phase Ctx} (hphase : phase.Sourced s.fmap) :
    Built (s.moveTo client phase) := h.move (.refl s.fmap) h.hasRank hphase

theorem Built.finish (h : Built s) (work : Checking) (result : DandelionResult Unit) :
    Built (s.finish client work result) := by
  have hidle : Built (s.moveTo client .idle) := h.stay trivial
  exact hidle.of_eq rfl rfl

theorem Checking.Sourced.declared {work : Checking} {fmap : FunctionMap Ctx} (h : work.Sourced fmap)
    {decl : Dparser.FunctionDecl} (hdecl : IsRegistered fmap decl.name) (items : Dparser.Module) :
    (work.declared decl items).Sourced fmap := by
  refine ⟨fun name decl' hget => ?_, h.applied⟩
  rcases (OrderedMap.get?_insert_eq_some_iff _ _ _ _ _).mp hget with ⟨rfl, rfl⟩ | ⟨-, hold⟩
  · exact ⟨rfl, hdecl⟩
  · exact h.known name decl' hold

theorem Checking.Sourced.translated {work : Checking} {fmap : FunctionMap Ctx} (h : work.Sourced fmap)
    {registry : FunctionRegistry} {comp : Dparser.Composition}
    {entry : String × Composition × Dandelion.Metadata}
    (hentry : FunctionRegistry.composition registry work.knownFunctions comp = .ok entry)
    (items : Dparser.Module) : (work.translated comp items entry).Sourced fmap := by
  refine ⟨h.known, List.forall_mem_append.mpr ⟨h.applied, ?_⟩⟩
  obtain ⟨setNumbers, -, hstatements⟩ := composition_ok hentry
  rintro _ hlast deps hdeps
  rw [List.mem_singleton.mp hlast] at hdeps
  obtain ⟨k, hk⟩ := List.mem_iff_getElem?.mp hdeps
  rcases forall₂_getElem? hstatements k with ⟨-, hnone⟩ | ⟨statement, deps', -, hdeps', htranslated⟩
  · rw [hk] at hnone
    cases hnone
  · cases hk.symm.trans hdeps'
    obtain ⟨application, decl, -, hknown, htranslated⟩ := htranslated
    obtain ⟨hname, hregistered⟩ := h.known application.name decl hknown
    rw [htranslated.function, hname]
    exact hregistered

theorem Built.check (h : Built s) {work : Checking} (hwork : work.Sourced s.fmap) :
    Built (s.check client work) := by
  rw [ClientsState.check]
  split
  · have hidle : Built { s.moveTo client .idle with fmap := (exec (insertAll work.compVec) s.fmap).2 } :=
      h.move (insertAll_evolves work.compVec s.fmap).grows (h.hasRank.insertAll hwork.applied) trivial
    exact hidle.of_eq rfl rfl
  · split
    · next hdecl => exact h.stay (hwork.declared hdecl _)
    · exact h.finish work _
  · split
    · exact h.finish work _
    · split
      · next hentry => exact h.stay (hwork.translated hentry _)
      · exact h.finish work _

theorem Built.begin (h : Built s) (call : Call Ctx) : Built (s.begin client call) := by
  cases call with
  | insertFunction binaryFound functionId engineType contextSize path metadata =>
    rw [ClientsState.begin]
    split
    · exact h.stay trivial
    · exact h
  | insertCompositions tryReserve compositionDesc =>
    rw [ClientsState.begin]
    cases Dparser.parse compositionDesc with
    | none => exact h.of_eq rfl rfl
    | some module =>
      have hfresh : Checking.Sourced ⟨s.nextCall, module, tryReserve, module, [], .empty, []⟩ s.fmap :=
        ⟨fun name decl hget => (by cases hget), fun entry hentry => absurd hentry List.not_mem_nil⟩
      have hchecking : Built (s.moveTo client
          (.checking ⟨s.nextCall, module, tryReserve, module, [], .empty, []⟩)) := h.stay hfresh
      exact hchecking.of_eq rfl rfl

/-- One step of a client keeps the names ranked, and the map only grows. -/
theorem Built.act {action : Action Ctx} {t : ClientsState Ctx} (h : Built s)
    (hact : s.act action = some t) : Built t ∧ Evolves s.fmap t.fmap := by
  cases action with
  | start client call =>
    cases hphase : s.phase client with
    | idle =>
      simp only [ClientsState.act, hphase] at hact
      cases hact
      refine ⟨h.begin call, ?_⟩
      have hfmap : (s.begin client call).fmap = s.fmap := by
        cases call with
        | insertFunction binaryFound functionId engineType contextSize path metadata =>
          rw [ClientsState.begin]
          split <;> rfl
        | insertCompositions tryReserve compositionDesc =>
          rw [ClientsState.begin]
          cases Dparser.parse compositionDesc <;> rfl
      rw [hfmap]
      exact .refl _
    | inserting _ => simp [ClientsState.act, hphase] at hact
    | checking _ => simp [ClientsState.act, hphase] at hact
  | advance client =>
    have hsourced := h.sourced client
    cases hphase : s.phase client with
    | idle => simp [ClientsState.act, hphase] at hact
    | inserting call =>
      simp only [ClientsState.act, hphase] at hact
      cases hact
      rw [hphase] at hsourced
      cases call with
      | insertCompositions tryReserve compositionDesc => exact hsourced.elim
      | insertFunction binaryFound functionId engineType contextSize path metadata =>
        have hevolves := Call.evolves (.insertFunction binaryFound functionId engineType contextSize path
          metadata) s.fmap
        exact ⟨h.move hevolves.grows (h.hasRank.insertFunction ..) trivial, hevolves⟩
    | checking work =>
      simp only [ClientsState.act, hphase] at hact
      cases hact
      rw [hphase] at hsourced
      refine ⟨h.check hsourced, ?_⟩
      rw [ClientsState.check]
      split
      · exact insertAll_evolves work.compVec s.fmap
      · split <;> exact .refl _
      · split
        · exact .refl _
        · split <;> exact .refl _

theorem Built.run {actions : List (Action Ctx)} {t : ClientsState Ctx} (h : Built s)
    (hrun : run ClientsState.act s actions = some t) : Built t ∧ Evolves s.fmap t.fmap := by
  induction actions generalizing s with
  | nil =>
    cases hrun
    exact ⟨h, .refl _⟩
  | cons action actions ih =>
    obtain ⟨u, hact, hrest⟩ := Option.bind_eq_some_iff.mp hrun
    obtain ⟨hu, hevolves⟩ := h.act hact
    obtain ⟨ht, hevolves'⟩ := ih hu hrest
    exact ⟨ht, hevolves.trans hevolves'⟩

end Clients

theorem built_new {typeMap : OrderedMap EngineType DomainType} {domains : OrderedMap DomainType Domain}
    {drivers : OrderedMap EngineType (Driver Domain)} {fmap : FunctionMap Ctx}
    (hnew : new typeMap domains drivers = .ok fmap) : Built (ClientsState.initial fmap) :=
  ⟨hasRank_empty.newFrom drivers.entries hnew, fun _ => trivial⟩

/-- In every interleaving of registrations: what a registered composition applies is registered; no
composition calls itself, directly or through others; and calls nest less deeply than there are
names. -/
theorem calls_acyclic {typeMap : OrderedMap EngineType DomainType}
    {domains : OrderedMap DomainType Domain} {drivers : OrderedMap EngineType (Driver Domain)}
    {fmap : FunctionMap Ctx} (hnew : new typeMap domains drivers = .ok fmap) {actions : List (Action Ctx)}
    {s : ClientsState Ctx} (hrun : run ClientsState.act (.initial fmap) actions = some s) :
    (∀ caller callee, Calls s.fmap caller callee → IsRegistered s.fmap callee) ∧
    (∀ name, ¬ Relation.TransGen (Calls s.fmap) name name) ∧
    ∀ name chain, IsRegistered s.fmap name → (name :: chain).IsChain (Calls s.fmap) →
      chain.length < s.fmap.len := by
  obtain ⟨⟨⟨rank, hrank⟩, -⟩, -⟩ := (built_new hnew).run hrun
  refine ⟨fun caller callee hcalls => ?_, fun name hcycle => ?_, fun name chain hname hchain => ?_⟩
  · exact hrank.ranked.closed caller callee hcalls.caller_isRegistered hcalls
  · have hname : IsRegistered s.fmap name := by
      rcases Relation.TransGen.head'_iff.mp hcycle with ⟨callee, hcalls, -⟩
      exact hcalls.caller_isRegistered
    exact hrank.ranked.acyclic hname hcycle
  · exact (hrank.ranked.chain_length_le hname hchain).trans_lt (hrank.bounded name hname)

/-- A client registers a composition of the HTTP function, and another one of that composition. -/
def nestingActions : List (Action Unit) :=
  [.start 0 (.insertCompositions (fun _ => true)
      ("function HTTP(request) => (response, body); composition C(x) => (y) \x7b " ++
        "HTTP(request = all x) => (y = body); \x7d")),
    .advance 0, .advance 0, .advance 0,
    .start 0 (.insertCompositions (fun _ => true)
      "function C(x) => (y); composition D(x) => (y) \x7b C(x = all x) => (y = y); \x7d"),
    .advance 0, .advance 0, .advance 0]

/-- The names that an entry applies, and its rounds. -/
def FunctionType.summary : FunctionType Ctx → List String × Nat
  | .composition info =>
    (info.composition.dependencies.map FunctionDependencies.function, maxRounds info.composition.dependencies)
  | _ => ([], 0)

theorem nesting_registered : ∃ s, run ClientsState.act (.initial httpRegistry) nestingActions = some s ∧
    s.fmap.entries.map (fun e => (e.1, e.2.summary)) =
      [("C", ["HTTP"], 2), ("D", ["C"], 2), ("HTTP", [], 0)] := by
  have hrun : (run ClientsState.act (.initial httpRegistry) nestingActions).map
      (fun s => s.fmap.entries.map (fun e => (e.1, e.2.summary))) =
      some [("C", ["HTTP"], 2), ("D", ["C"], 2), ("HTTP", [], 0)] := by decide +kernel
  exact Option.map_eq_some_iff.mp hrun

theorem httpRegistry_new : new ⟨[(.reqwest, .system)], List.pairwise_singleton _ _⟩
    ⟨[(.system, ())], List.pairwise_singleton _ _⟩
    ⟨[(.reqwest, fun _ _ => .ok (.sysConfig .http))], List.pairwise_singleton _ _⟩ =
      .ok httpRegistry := rfl

theorem nesting_acyclic : ∃ s, run ClientsState.act (.initial httpRegistry) nestingActions = some s ∧
    (∀ caller callee, Calls s.fmap caller callee → IsRegistered s.fmap callee) ∧
    (∀ name, ¬ Relation.TransGen (Calls s.fmap) name name) ∧
    ∀ name chain, IsRegistered s.fmap name → (name :: chain).IsChain (Calls s.fmap) →
      chain.length < s.fmap.len := by
  obtain ⟨s, hrun, -⟩ := nesting_registered
  exact ⟨s, hrun, calls_acyclic httpRegistry_new hrun⟩

/-! ## Calls on the dispatcher -/

section Dispatcher

/-- What an engine does: by the alternative, the metadata and the input sets of a function. -/
abbrev RunOnEngine (Ctx : Type) :=
  FunctionAlternative → Metadata Ctx → List (Option (CompositionSet Ctx)) →
    DandelionResult (List (Option (CompositionSet Ctx)))

/-- `queue_function` on a registry, given what the calls from inside a composition do. -/
def queueFunction (fmap : FunctionMap Ctx) (runOnEngine : RunOnEngine Ctx) (order : Nat → Nat)
    (rounds : Nat) (call : FunctionCall Ctx) : FunctionCall Ctx := fun functionId inputs =>
  match fmap.get? functionId with
  | none => fail (.functionRegistry (.unknownFunction functionId))
  | some (.systemFunction info) | some (.function info) => do
    let chosenAlternative ← info.chosenAlternative
    runOnEngine chosenAlternative info.metadata inputs
  | some (.composition info) => do
    let state ← queueComposition (queueFunctionSharded call) info.composition inputs order rounds
    pure state.outputSets

variable {runOnEngine : RunOnEngine Ctx} {fmap fmap' : FunctionMap Ctx} {call call' : FunctionCall Ctx}
  {order : Nat → Nat} {rounds : Nat}

theorem queueFunction_halts (hengine : ∀ alternative metadata inputs,
      Halts (runOnEngine alternative metadata inputs))
    (hrounds : ∀ name info, fmap.get? name = some (.composition info) →
      maxRounds info.composition.dependencies < rounds) {functionId : String}
    (hcall : ∀ callee, Calls fmap functionId callee → ∀ inputs, Halts (call callee inputs))
    (inputs : List (Option (CompositionSet Ctx))) :
    Halts (queueFunction fmap runOnEngine order rounds call functionId inputs) := by
  have hfunction : ∀ info : FunctionInfo Ctx,
      Halts (info.chosenAlternative >>= fun alternative => runOnEngine alternative info.metadata inputs) := by
    intro info
    refine Halts.bind ?_ fun alternative _ => hengine alternative info.metadata inputs
    rw [FunctionInfo.chosenAlternative]
    split
    · exact halts_crash
    · exact halts_pure _
  rw [queueFunction]
  cases hentry : fmap.get? functionId with
  | none => exact halts_fail _
  | some entry =>
    cases entry with
    | systemFunction info => exact hfunction info
    | function info => exact hfunction info
    | composition info =>
      have hstart : ∀ args : FunctionArgs Ctx, Calls fmap functionId args.functionId →
          Halts (args.start (queueFunctionSharded call)) :=
        fun args hargs => queueFunctionSharded_halts (hcall args.functionId hargs) _ _ _
      refine Halts.bind ?_ fun state _ => halts_pure _
      exact queueComposition_halts hstart (fun deps hdeps => ⟨info, hentry, deps, hdeps, rfl⟩) inputs
        order (hrounds functionId info hentry)

theorem chosenAlternative_extends {info info' : FunctionInfo Ctx} (hinfo : info.WellFormed)
    (h : info.Extends info') : info'.chosenAlternative = info.chosenAlternative := by
  obtain ⟨more, hmore⟩ := h.alternatives
  rw [FunctionInfo.chosenAlternative, FunctionInfo.chosenAlternative, ← hmore]
  cases halternatives : info.alternatives with
  | nil => exact absurd halternatives hinfo.nonempty
  | cons alternative rest => rfl

/-- On a larger registry the call of a registered function is the same, if the calls from inside
are. -/
theorem queueFunction_grows (hwf : WellFormed fmap) (hgrows : Grows fmap fmap') {functionId : String}
    (hname : IsRegistered fmap functionId)
    (hcall : ∀ callee, Calls fmap functionId callee → call callee = call' callee) :
    queueFunction fmap' runOnEngine order rounds call functionId =
      queueFunction fmap runOnEngine order rounds call' functionId := by
  funext inputs
  obtain ⟨entry, hentry⟩ := Option.isSome_iff_exists.mp hname
  obtain ⟨entry', hentry', hextends⟩ := hgrows functionId entry hentry
  have hentryWf := hwf functionId entry hentry
  rw [queueFunction, queueFunction, hentry, hentry']
  cases hextends with
  | systemFunction h => simp only [chosenAlternative_extends hentryWf h, h.metadata]
  | function h => simp only [chosenAlternative_extends hentryWf h, h.metadata]
  | composition info =>
    have hsharded : ∀ callee, Calls fmap functionId callee →
        queueFunctionSharded call callee = queueFunctionSharded call' callee :=
      fun callee hcallee => queueFunctionSharded_congr (hcall callee hcallee)
    simp only [queueComposition_congr hsharded (fun deps hdeps => ⟨info, hentry, deps, hdeps, rfl⟩)]

/-- A call of `queue_function` to a bounded depth of nested calls. The registry may be another one
at every lookup. -/
def queueFunctionAt (lookup : Nat → String → List (Option (CompositionSet Ctx)) → FunctionMap Ctx)
    (runOnEngine : RunOnEngine Ctx) (order : String → List (Option (CompositionSet Ctx)) → Nat → Nat)
    (rounds : Nat) (depth : Nat) : FunctionCall Ctx :=
  callAt (fun left call functionId inputs => queueFunction (lookup left functionId inputs) runOnEngine
    (order functionId inputs) rounds call functionId inputs) (fun _ _ => .error .diverge) depth

end Dispatcher

/-- The call of a registered function comes to an end, if those of the engines do, within as many
nested calls as there are names and with a bound on the rounds that each registered composition
meets. It is as if nothing were registered while it runs: the result is that on the registry of its
start, whichever later states of the registry its lookups meet. -/
theorem registered_call_halts {typeMap : OrderedMap EngineType DomainType}
    {domains : OrderedMap DomainType Domain} {drivers : OrderedMap EngineType (Driver Domain)}
    {fmap : FunctionMap Ctx} (hnew : new typeMap domains drivers = .ok fmap) {actions : List (Action Ctx)}
    {s : ClientsState Ctx} (hrun : run ClientsState.act (.initial fmap) actions = some s)
    {runOnEngine : RunOnEngine Ctx}
    (hengine : ∀ alternative metadata inputs, Halts (runOnEngine alternative metadata inputs))
    {rounds : Nat} (hrounds : ∀ name info, s.fmap.get? name = some (.composition info) →
      maxRounds info.composition.dependencies < rounds)
    (order : String → List (Option (CompositionSet Ctx)) → Nat → Nat)
    {lookup : Nat → String → List (Option (CompositionSet Ctx)) → FunctionMap Ctx}
    (hlookup : ∀ left name inputs, ∃ later t, run ClientsState.act s later = some t ∧
      lookup left name inputs = t.fmap)
    {functionId : String} (hname : IsRegistered s.fmap functionId)
    (inputs : List (Option (CompositionSet Ctx))) {depth : Nat} (hdepth : s.fmap.len ≤ depth) :
    Halts (queueFunctionAt lookup runOnEngine order rounds depth functionId inputs) ∧
    queueFunctionAt lookup runOnEngine order rounds depth functionId inputs =
      queueFunctionAt (fun _ _ _ => s.fmap) runOnEngine order rounds s.fmap.len functionId inputs := by
  obtain ⟨hbuilt, hevolves⟩ := (built_new hnew).run hrun
  have hwf := hevolves.wellFormed (wellFormed_new hnew)
  obtain ⟨rank, hrank⟩ := hbuilt.hasRank
  have hlt := hrank.bounded functionId hname
  have hgrows : ∀ left name inputs, Grows s.fmap (lookup left name inputs) := by
    intro left name inputs
    obtain ⟨later, t, hlater, heq⟩ := hlookup left name inputs
    rw [heq]
    exact (hbuilt.run hlater).2.grows
  have hsame : queueFunctionAt lookup runOnEngine order rounds depth functionId =
      queueFunctionAt (fun _ _ _ => s.fmap) runOnEngine order rounds s.fmap.len functionId := by
    refine hrank.ranked.callAt_eq (fun f g name hname hagree => ?_) (fun left f name hname => ?_) _ _ hname
      (hlt.trans_le hdepth) hlt
    · funext inputs
      exact congrFun (queueFunction_grows hwf (.refl _) hname hagree) inputs
    · funext inputs
      exact congrFun (queueFunction_grows hwf (hgrows left name inputs) hname fun _ _ => rfl) inputs
  refine ⟨?_, congrFun hsame inputs⟩
  rw [hsame]
  refine hrank.ranked.callAt_induction (P := fun _ f => ∀ inputs, Halts (f inputs))
    (fun left f name hname hcalls inputs => ?_) _ hname hlt inputs
  exact queueFunction_halts hengine hrounds hcalls inputs

/-- A call of the outer composition, with engines that return their inputs. -/
theorem nesting_halts : ∃ s, run ClientsState.act (.initial httpRegistry) nestingActions = some s ∧
    ∀ inputs : List (Option (CompositionSet Unit)),
      Halts (queueFunctionAt (fun _ _ _ => s.fmap) (fun _ _ inputs => pure inputs) (fun _ _ _ => 0) 3 3
        "D" inputs) := by
  obtain ⟨s, hrun, hentries⟩ := nesting_registered
  have hrounds : ∀ name info, s.fmap.get? name = some (.composition info) →
      maxRounds info.composition.dependencies < 3 := by
    intro name info hget
    have hmem : (name, FunctionType.summary (.composition info)) ∈
        [("C", ["HTTP"], 2), ("D", ["C"], 2), ("HTTP", [], 0)] := by
      rw [← hentries]
      exact List.mem_map.mpr ⟨(name, .composition info), (s.fmap.get?_eq_some_iff _ _).mp hget, rfl⟩
    have hall : ∀ e ∈ [("C", ["HTTP"], 2), ("D", ["C"], 2), ("HTTP", [], 0)], e.2.2 < 3 := by decide
    exact hall _ hmem
  have hname : IsRegistered s.fmap "D" := by
    have hmem : ("D", ["C"], 2) ∈ s.fmap.entries.map fun e => (e.1, e.2.summary) := by
      rw [hentries]
      exact List.mem_cons_of_mem _ List.mem_cons_self
    obtain ⟨⟨name, entry⟩, hentry, heq⟩ := List.mem_map.mp hmem
    cases congrArg Prod.fst heq
    exact isRegistered_of_get? ((s.fmap.get?_eq_some_iff _ _).mpr hentry)
  have hlen : s.fmap.len = 3 := by
    rw [OrderedMap.len, ← List.length_map (f := fun e => (e.1, e.2.summary)), hentries]
    rfl
  exact ⟨s, hrun, fun inputs => (registered_call_halts httpRegistry_new hrun
    (fun _ _ inputs => halts_pure inputs) hrounds (fun _ _ _ => 0) (fun _ _ _ => ⟨[], s, rfl, rfl⟩) hname
    inputs hlen.le).1⟩

end Dandelion.Registry
