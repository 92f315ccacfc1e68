import Dandelion.NestedCompositions
import Dandelion.SetAssignments

/-!
# One output slot for each declared return

`composition_from_module` numbers the output slots by the declared returns, while
`queue_composition` makes as many slots as the output map has entries. The two agree just when
no return is declared twice. Then no write to the slots is out of range, whatever the functions
report and in whatever order.
-/

namespace Dandelion

open Outcome FunctionRegistry List

section Numbering

variable {setCounter setCounter' : Nat} {setNumbers setNumbers' : SetNumbers}
  {outputMap outputMap' : OrderedMap Nat Nat}

/-- The slot of a set is the last position at which its name is returned. -/
def LastReturned (setNumbers : SetNumbers) (returns : List String) (id j : Nat) : Prop :=
  ∃ name, returns[j]? = some name ∧ setNumbers.get? name = some id ∧
    ∀ j', j < j' → returns[j']? ≠ some name

theorem lastReturned_cons_succ (setNumbers : SetNumbers) (first : String) (returns : List String)
    (id j : Nat) :
    LastReturned setNumbers (first :: returns) id (j + 1) ↔ LastReturned setNumbers returns id j := by
  constructor
  · rintro ⟨name, hj, hid, hlast⟩
    exact ⟨name, hj, hid, fun j' hlt => hlast (j' + 1) (Nat.succ_lt_succ hlt)⟩
  · rintro ⟨name, hj, hid, hlast⟩
    refine ⟨name, hj, hid, fun j' hlt => ?_⟩
    cases j' with
    | zero => omega
    | succ j' => exact hlast j' (Nat.lt_of_succ_lt_succ hlt)

theorem lastReturned_cons_zero {first : String} {id₀ : Nat} (hnumbered : Numbered setCounter setNumbers)
    (hfirst : setNumbers.get? first = some id₀) (returns : List String) (id : Nat) :
    LastReturned setNumbers (first :: returns) id 0 ↔
      id = id₀ ∧ ∀ name ∈ returns, setNumbers.get? name ≠ some id := by
  constructor
  · rintro ⟨name, hname, hid, hlast⟩
    cases hname
    rw [hfirst] at hid
    cases hid
    refine ⟨rfl, fun name hmem hid => ?_⟩
    obtain ⟨j, hj⟩ := List.getElem?_of_mem hmem
    have heq := hnumbered.inj name first _ hid hfirst
    rw [heq] at hj
    exact hlast (j + 1) (Nat.succ_pos j) hj
  · rintro ⟨rfl, hnone⟩
    refine ⟨first, rfl, hfirst, fun j' hlt hj' => ?_⟩
    obtain ⟨j, rfl⟩ := Nat.exists_eq_add_one.mpr hlt
    exact hnone first (List.mem_of_getElem? hj') hfirst

/-- What the output map holds after the returns have been numbered. -/
theorem numberOutputs_get? {returns : List String} {outputIndex : Nat}
    (h : numberOutputs returns outputIndex setCounter setNumbers outputMap =
      (setCounter', setNumbers', outputMap')) (hnumbered : Numbered setCounter setNumbers)
    (id index : Nat) :
    outputMap'.get? id = some index ↔
      (∃ j, index = outputIndex + j ∧ LastReturned setNumbers' returns id j) ∨
      (outputMap.get? id = some index ∧ ∀ name ∈ returns, setNumbers'.get? name ≠ some id) := by
  induction returns generalizing outputIndex setCounter setNumbers outputMap with
  | nil =>
    cases h
    simp [LastReturned]
  | cons first returns ih =>
    have hextends := numberOutputs_extends h hnumbered
    -- in both branches the returned set gets the slot `outputIndex` under its final number
    obtain ⟨id₀, hfirst, hget⟩ : ∃ id₀, setNumbers'.get? first = some id₀ ∧
        (outputMap'.get? id = some index ↔
          (∃ j, index = outputIndex + 1 + j ∧ LastReturned setNumbers' returns id j) ∨
          ((outputMap.insert id₀ outputIndex).get? id = some index ∧
            ∀ name ∈ returns, setNumbers'.get? name ≠ some id)) := by
      rw [numberOutputs] at h
      cases hold : setNumbers.get? first with
      | none =>
        rw [hold] at h
        have hrest := numberOutputs_extends h (hnumbered.insert first)
        exact ⟨setCounter, hrest.kept _ _ (OrderedMap.get?_insert_self _ _ _),
          ih h (hnumbered.insert first)⟩
      | some id₀ =>
        rw [hold] at h
        exact ⟨id₀, hextends.kept first id₀ hold, ih h hnumbered⟩
    have hzero := lastReturned_cons_zero hextends.numbered hfirst returns id
    rw [hget, OrderedMap.get?_insert_eq_some_iff]
    constructor
    · rintro (⟨j, rfl, hlast⟩ | ⟨⟨rfl, rfl⟩ | ⟨hne, hold⟩, hnone⟩)
      · exact .inl ⟨j + 1, by omega, (lastReturned_cons_succ _ _ _ _ _).mpr hlast⟩
      · exact .inl ⟨0, rfl, hzero.mpr ⟨rfl, hnone⟩⟩
      · refine .inr ⟨hold, List.forall_mem_cons.mpr ⟨fun hid => ?_, hnone⟩⟩
        exact hne (Option.some.inj (hid.symm.trans hfirst))
    · rintro (⟨j, rfl, hlast⟩ | ⟨hold, hnone⟩)
      · cases j with
        | zero =>
          obtain ⟨rfl, hnone⟩ := hzero.mp hlast
          exact .inr ⟨.inl ⟨rfl, rfl⟩, hnone⟩
        | succ j =>
          exact .inl ⟨j, by omega, (lastReturned_cons_succ _ _ _ _ _).mp hlast⟩
      · obtain ⟨hne, hnone⟩ := List.forall_mem_cons.mp hnone
        refine .inr ⟨.inr ⟨?_, hold⟩, hnone⟩
        rintro rfl
        exact hne hfirst

/-- No two sets get the same slot: a slot is the position of one name. -/
theorem numberOutputs_slots_distinct {returns : List String}
    (h : numberOutputs returns 0 setCounter setNumbers .empty = (setCounter', setNumbers', outputMap'))
    (hnumbered : Numbered setCounter setNumbers) {id id' slot : Nat}
    (hid : outputMap'.get? id = some slot) (hid' : outputMap'.get? id' = some slot) : id = id' := by
  have hname : ∀ {id}, outputMap'.get? id = some slot →
      ∃ name, returns[slot]? = some name ∧ setNumbers'.get? name = some id := by
    intro id hid
    rcases (numberOutputs_get? h hnumbered id slot).mp hid with
      ⟨j, hj, name, hname, hnumber, -⟩ | ⟨hold, -⟩
    · rw [Nat.zero_add] at hj
      exact ⟨name, hj ▸ hname, hnumber⟩
    · cases hold
  obtain ⟨name, hreturn, hnumber⟩ := hname hid
  obtain ⟨name', hreturn', hnumber'⟩ := hname hid'
  rw [hreturn] at hreturn'
  cases hreturn'
  exact Option.some.inj (hnumber.symm.trans hnumber')

end Numbering

section Slots

/-- The output map is a bijection from its keys onto the slots below `count`. -/
def SlotsMatch (outputMap : OrderedMap Nat Nat) (count : Nat) : Prop :=
  Set.BijOn outputMap.get? {id | outputMap.get? id ≠ none} (some '' Set.Iio count)

variable {outputMap : OrderedMap Nat Nat} {count : Nat}

theorem SlotsMatch.inside (h : SlotsMatch outputMap count) {id index : Nat}
    (hindex : outputMap.get? id = some index) : index < count := by
  have hmem : outputMap.get? id ∈ some '' Set.Iio count := h.mapsTo (by simp [hindex])
  obtain ⟨index', hlt, heq⟩ := hmem
  rw [hindex] at heq
  cases heq
  exact hlt

theorem SlotsMatch.len_eq (h : SlotsMatch outputMap count) : outputMap.len = count := by
  have hnodup : (outputMap.entries.map Prod.snd).Nodup := by
    apply List.Nodup.map_on
    · intro e he f hf heq
      have hget := (outputMap.get?_eq_some_iff e.1 e.2).mpr he
      have hget' := (outputMap.get?_eq_some_iff f.1 f.2).mpr hf
      have hkey : e.1 = f.1 := h.injOn (by simp [hget]) (by simp [hget']) (by rw [hget, hget', heq])
      exact Prod.ext hkey heq
    · exact outputMap.sorted.imp fun hlt heq => absurd (congrArg Prod.fst heq) hlt.ne
  have hmem : ∀ index, index ∈ outputMap.entries.map Prod.snd ↔ index ∈ List.range count := by
    intro index
    rw [List.mem_range]
    constructor
    · intro hindex
      obtain ⟨e, he, rfl⟩ := List.mem_map.mp hindex
      exact h.inside ((outputMap.get?_eq_some_iff e.1 e.2).mpr he)
    · intro hlt
      obtain ⟨id, -, hid⟩ := h.surjOn ⟨index, hlt, rfl⟩
      exact List.mem_map.mpr ⟨(id, index), (outputMap.get?_eq_some_iff _ _).mp hid, rfl⟩
  have hperm := (List.perm_ext_iff_of_nodup hnodup List.nodup_range).mpr hmem
  have hlength := hperm.length_eq
  rw [List.length_map, List.length_range] at hlength
  exact hlength

end Slots

/-- The numbers of the returned sets are a bijection just when no return is declared twice. -/
theorem numberOutputs_slotsMatch_iff {returns : List String} {setCounter setCounter' : Nat}
    {setNumbers setNumbers' : SetNumbers} {outputMap : OrderedMap Nat Nat}
    (h : numberOutputs returns 0 setCounter setNumbers .empty =
      (setCounter', setNumbers', outputMap)) (hnumbered : Numbered setCounter setNumbers) :
    SlotsMatch outputMap returns.length ↔ returns.Nodup := by
  have hextends := numberOutputs_extends h hnumbered
  have hget : ∀ id index, outputMap.get? id = some index ↔
      LastReturned setNumbers' returns id index := by
    intro id index
    rw [numberOutputs_get? h hnumbered]
    simp
  constructor
  · intro hmatch
    rw [List.nodup_iff_getElem?_ne_getElem?]
    intro i j hij hj heq
    obtain ⟨id, -, hid⟩ := hmatch.surjOn ⟨i, hij.trans hj, rfl⟩
    obtain ⟨name, hname, -, hlast⟩ := (hget id i).mp hid
    exact hlast j hij (heq ▸ hname)
  · intro hnodup
    refine ⟨fun id hid => ?_, fun id hid id' hid' heq => ?_, ?_⟩
    · obtain ⟨index, hindex⟩ := Option.ne_none_iff_exists'.mp hid
      obtain ⟨name, hname, -⟩ := (hget id index).mp hindex
      exact ⟨index, (List.getElem?_eq_some_iff.mp hname).1, hindex.symm⟩
    · obtain ⟨index, hindex⟩ := Option.ne_none_iff_exists'.mp hid
      obtain ⟨name, hname, hnumber, -⟩ := (hget id index).mp hindex
      obtain ⟨name', hname', hnumber', -⟩ := (hget id' index).mp (heq ▸ hindex)
      rw [hname] at hname'
      cases hname'
      exact Option.some.inj (hnumber.symm.trans hnumber')
    · rintro _ ⟨index, hlt, rfl⟩
      have hname : returns[index]? = some returns[index] := List.getElem?_eq_getElem hlt
      obtain ⟨id, hid⟩ := hextends.named returns[index] (List.getElem_mem hlt)
      have hindex : outputMap.get? id = some index := by
        refine (hget id index).mpr ⟨_, hname, hid, fun j hij hj => ?_⟩
        have hjlt := (List.getElem?_eq_some_iff.mp hj).1
        exact (List.nodup_iff_getElem?_ne_getElem?.mp hnodup) index j hij hjlt (hname.trans hj.symm)
      exact ⟨id, by simp [hindex], hindex⟩

section Runs

variable {Ctx : Type} {call : ShardedCall Ctx} {outputMap : OrderedMap Nat Nat} {count : Nat}

/-- The sets a function waits for have a place among its inputs. -/
def FunctionArgs.InRange (args : FunctionArgs Ctx) : Prop :=
  ∀ key entry, args.missingSets.get? key = some entry → (ofLex key).2 < args.inputSets.length

/-- There are `count` output slots, and no function that waits or runs can crash the
dispatcher. -/
structure DispatchState.InRange (count : Nat) (state : DispatchState Ctx) : Prop where
  outputs : state.outputSets.length = count
  waiting : ∀ args ∈ state.nonReadyFunctions, args.InRange
  awaited : ∀ result ∈ state.awaitedSets, result ≠ crash

theorem Waiting.inRange {arrived : List Nat} {value : Nat → Option (CompositionSet Ctx)}
    {deps : FunctionDependencies} {args : FunctionArgs Ctx} (h : Waiting arrived value deps args) :
    args.InRange := by
  intro key entry hkey
  obtain ⟨descriptor, hdescriptor, -⟩ := (h.missing key entry).mp hkey
  rw [h.inputSets, filledInputs, List.length_map]
  exact (List.getElem?_eq_some_iff.mp hdescriptor).1

theorem writeOutput_meets (hslots : SlotsMatch outputMap count)
    {outputSets : List (Option (CompositionSet Ctx))} (hlength : outputSets.length = count) (id : Nat)
    (setOption : Option (CompositionSet Ctx)) :
    Meets (writeOutput outputMap outputSets id setOption) (fun written => written.length = count)
      (· ≠ .panic) := by
  rw [writeOutput]
  cases hindex : outputMap.get? id with
  | none => exact hlength
  | some index =>
    have hlt : index < outputSets.length := hlength ▸ hslots.inside hindex
    simp only [setAt_of_lt hlt, meets_ok]
    rw [List.length_set]
    exact hlength

theorem presetOutputs_meets (hslots : SlotsMatch outputMap count)
    (inputs : List (Option (CompositionSet Ctx))) (first : Nat)
    {outputSets : List (Option (CompositionSet Ctx))} (hlength : outputSets.length = count) :
    Meets (presetOutputs outputMap inputs first outputSets) (fun written => written.length = count)
      (· ≠ .panic) := by
  induction inputs generalizing first outputSets with
  | nil => exact hlength
  | cons inputSet inputs ih =>
    rw [presetOutputs]
    exact (writeOutput_meets hslots hlength _ _).bind fun written hwritten => ih _ hwritten

theorem prepareFunctions_meets (inputs : List (Option (CompositionSet Ctx)))
    (dependencies : List FunctionDependencies) (application : Nat) :
    Meets (prepareFunctions inputs dependencies application)
      (fun prepared => ∀ args ∈ prepared.1, args.InRange) (· ≠ .panic) := by
  induction dependencies generalizing application with
  | nil => exact fun args hargs => absurd hargs List.not_mem_nil
  | cons deps dependencies ih =>
    rw [prepareFunctions]
    rcases readyInputs_cases inputs deps with ⟨hskip, -⟩ | ⟨missingSets, inputSets, hok, hwaiting⟩
    · rw [hskip]
      exact (ih (application + 1)).bind fun prepared hprepared => hprepared
    · rw [hok]
      exact (ih (application + 1)).bind fun prepared hprepared =>
        List.forall_mem_cons.mpr ⟨(hwaiting application).inRange, hprepared⟩

variable (hcall : ∀ functionId inputSets joinInfo outputMapping,
  call functionId inputSets joinInfo outputMapping ≠ crash)
include hcall

/-- A function that receives a set waits on in range, or is replaced by futures. -/
theorem receiveSet_meets {args : FunctionArgs Ctx} (h : args.InRange) (id : Nat)
    (setOption : Option (CompositionSet Ctx)) :
    Meets (receiveSet call id setOption args)
      (fun received => (∀ args' ∈ received.1, args'.InRange) ∧
        ∀ result ∈ received.2.1, result ≠ crash) (· ≠ .panic) := by
  have hinside : ∀ entry ∈ args.missing id, (ofLex entry.1).2 < args.inputSets.length := by
    intro entry hentry
    obtain ⟨hget, -⟩ := (mem_missing_iff args id entry).mp hentry
    exact h _ _ hget
  obtain ⟨filled, keys, hfill, -⟩ := @fillMissing_total _ setOption _ _ hinside
  obtain ⟨hlength, -⟩ := fillMissing_ok hfill
  have hskipped : ∀ result ∈ (keys.filter Option.isNone).map
      (fun _ => (pure (skippedSets args.outputMapping) : DandelionResult (NewCompositions Ctx))),
      result ≠ crash := by
    intro result hresult
    obtain ⟨key, -, rfl⟩ := List.mem_map.mp hresult
    intro hpanic
    cases hpanic
  rw [receiveSet_eq hfill]
  cases hrest : removeKeys keys args.missingSets with
  | none => exact ⟨by simp, hskipped⟩
  | some rest =>
    simp only
    split
    · refine ⟨by simp, fun result hresult => ?_⟩
      rcases List.mem_append.mp hresult with hresult | hresult
      · exact hskipped result hresult
      · rw [List.mem_singleton.mp hresult]
        exact hcall _ _ _ _
    · refine ⟨fun args' hargs' => ?_, hskipped⟩
      cases hargs'
      intro key entry hkey
      obtain ⟨-, hold⟩ := (removeKeys_eq_some hrest).2 key entry hkey
      change _ < filled.length
      rw [hlength]
      exact h key entry hold

theorem receiveAll_meets (id : Nat) (setOption : Option (CompositionSet Ctx))
    {functions : List (FunctionArgs Ctx)} (h : ∀ args ∈ functions, args.InRange) :
    Meets (receiveAll call id setOption functions)
      (fun received => (∀ args ∈ received.1, args.InRange) ∧
        ∀ result ∈ received.2.1, result ≠ crash) (· ≠ .panic) := by
  induction functions with
  | nil =>
    exact ⟨fun args hargs => absurd hargs List.not_mem_nil,
      fun result hresult => absurd hresult List.not_mem_nil⟩
  | cons args functions ih =>
    obtain ⟨hfirst, hrest⟩ := List.forall_mem_cons.mp h
    rw [receiveAll]
    refine (receiveSet_meets hcall hfirst id setOption).bind fun first hfirst' => ?_
    refine (ih hrest).bind fun rest hrest' => ⟨?_, ?_⟩
    · intro args' hargs'
      rcases List.mem_append.mp hargs' with hargs' | hargs'
      · exact hfirst'.1 args' (Option.mem_toList.mp hargs')
      · exact hrest'.1 args' hargs'
    · intro result hresult
      rcases List.mem_append.mp hresult with hresult | hresult
      · exact hfirst'.2 result hresult
      · exact hrest'.2 result hresult

variable (hslots : SlotsMatch outputMap count)
include hslots

theorem deliver_meets {state : DispatchState Ctx} (h : state.InRange count)
    (new : Nat × Option (CompositionSet Ctx)) :
    Meets (deliver call outputMap state new) (DispatchState.InRange count) (· ≠ .panic) := by
  rw [deliver]
  refine (writeOutput_meets hslots h.outputs new.1 new.2).bind fun outputSets hlength => ?_
  refine (receiveAll_meets hcall new.1 new.2 h.waiting).bind fun received hreceived => ?_
  refine ⟨hlength, hreceived.1, fun result hresult => ?_⟩
  rcases List.mem_append.mp hresult with hresult | hresult
  · exact h.awaited result hresult
  · exact hreceived.2 result hresult

theorem deliverAll_meets (report : NewCompositions Ctx) {state : DispatchState Ctx}
    (h : state.InRange count) :
    Meets (deliverAll call outputMap report state) (DispatchState.InRange count) (· ≠ .panic) := by
  induction report generalizing state with
  | nil => exact h
  | cons new report ih =>
    rw [deliverAll]
    exact (deliver_meets hcall hslots h new).bind fun next hnext => ih hnext

theorem awaitNext_meets {state : DispatchState Ctx} (h : state.InRange count) (order : Nat → Nat) :
    Meets (awaitNext call outputMap (state, order))
      (Sum.elim (fun next => next.1.InRange count) (DispatchState.InRange count)) (· ≠ .panic) := by
  rw [awaitNext]
  cases hget : state.awaitedSets[order 0 % state.awaitedSets.length]? with
  | none => exact h
  | some result =>
    have hresult := h.awaited result (List.mem_of_getElem? hget)
    have hrest : DispatchState.InRange count
        { state with awaitedSets :=
            state.awaitedSets.eraseIdx (order 0 % state.awaitedSets.length) } :=
      ⟨h.outputs, h.waiting, fun result hmem => h.awaited result (List.mem_of_mem_eraseIdx hmem)⟩
    cases result with
    | error stop =>
      intro hpanic
      exact hresult (congrArg Except.error hpanic)
    | ok report =>
      exact (deliverAll_meets hcall hslots report hrest).bind fun next hnext => hnext

theorem awaitLoop_meets (fuel : Nat) {state : DispatchState Ctx} (h : state.InRange count)
    (order : Nat → Nat) :
    Meets (loop (awaitNext call outputMap) fuel (state, order)) (DispatchState.InRange count)
      (· ≠ .panic) := by
  induction fuel generalizing state order with
  | zero =>
    intro hpanic
    cases hpanic
  | succ fuel ih =>
    rw [loop_succ]
    refine (awaitNext_meets hcall hslots h order).bind fun round hround => ?_
    cases round with
    | inl next => exact ih hround next.2
    | inr final => exact hround

end Runs

/-- No run of a composition whose slots match panics, if no function does, and each run that
returns has one slot for each declared return. -/
theorem queueComposition_meets {Ctx : Type} {call : ShardedCall Ctx}
    (hcall : ∀ functionId inputSets joinInfo outputMapping,
      call functionId inputSets joinInfo outputMapping ≠ crash)
    {composition : Composition} {count : Nat} (hslots : SlotsMatch composition.outputMap count)
    (inputs : List (Option (CompositionSet Ctx))) (order : Nat → Nat) (fuel : Nat) :
    Meets (queueComposition call composition inputs order fuel) (DispatchState.InRange count)
      (· ≠ .panic) := by
  rw [queueComposition, initialState]
  refine Meets.bind (Q := DispatchState.InRange count) ?_
    fun state hstate => awaitLoop_meets hcall hslots fuel hstate order
  have hblank : (List.replicate composition.outputMap.len
      (none : Option (CompositionSet Ctx))).length = count := by
    rw [List.length_replicate, hslots.len_eq]
  refine (presetOutputs_meets hslots inputs 0 hblank).bind fun outputSets hlength => ?_
  refine (prepareFunctions_meets inputs composition.dependencies 0).bind fun prepared hprepared => ?_
  refine ⟨hlength, fun args hargs => hprepared args ?_, fun result hresult => ?_⟩
  · change args ∈ (prepared.1.partition fun args => args.missingSets.entries.isEmpty).2 at hargs
    rw [List.partition_eq_filter_filter] at hargs
    exact List.mem_of_mem_filter hargs
  · rcases List.mem_append.mp hresult with hresult | hresult
    · obtain ⟨report, -, rfl⟩ := List.mem_map.mp hresult
      intro hpanic
      cases hpanic
    · obtain ⟨args, -, rfl⟩ := List.mem_map.mp hresult
      exact hcall _ _ _ _

/-- The output slots of a registered composition match its declaration: one slot for each
declared return, none of them out of range in any run. -/
structure OutputsMatch (comp : Dparser.Composition) (entry : String × Composition × Metadata) :
    Prop where
  declared : entry.2.2.outputSets.length = comp.returns.length
  bijection : SlotsMatch entry.2.1.outputMap comp.returns.length
  inRange : ∀ {Ctx : Type} {call : ShardedCall Ctx},
    (∀ functionId inputSets joinInfo outputMapping,
      call functionId inputSets joinInfo outputMapping ≠ crash) →
    ∀ inputs order fuel, queueComposition call entry.2.1 inputs order fuel ≠ crash ∧
      ∀ state, queueComposition call entry.2.1 inputs order fuel = .ok state →
        state.outputSets.length = comp.returns.length

theorem outputsMatch_iff {registry : FunctionRegistry}
    {knownFunctions : OrderedMap String Dparser.FunctionDecl} {comp : Dparser.Composition}
    {entry : String × Composition × Metadata}
    (h : composition registry knownFunctions comp = .ok entry) :
    OutputsMatch comp entry ↔ comp.returns.Nodup := by
  rw [composition] at h
  obtain ⟨⟨start, numbers⟩, hparams, h⟩ := (bind_eq_ok_iff _ _ _).mp h
  obtain ⟨⟨counter, numbers'⟩, -, h⟩ := (bind_eq_ok_iff _ _ _).mp h
  obtain ⟨deps, -, h⟩ := (bind_eq_ok_iff _ _ _).mp h
  cases h
  have hnumbered := (numberParams_extends hparams numbered_empty).numbered
  have hiff := @numberOutputs_slotsMatch_iff comp.returns _ _ _ _ _ rfl hnumbered
  constructor
  · exact fun hmatch => hiff.mp hmatch.bijection
  · intro hnodup
    have hslots := hiff.mpr hnodup
    refine ⟨rfl, hslots, fun hcall inputs order fuel => ?_⟩
    have hmeets := @queueComposition_meets _ _ hcall ⟨deps, _⟩ _ hslots inputs order fuel
    constructor
    · intro hpanic
      rw [hpanic] at hmeets
      exact hmeets rfl
    · intro state hstate
      rw [hstate] at hmeets
      exact hmeets.outputs

/-- For every composition of an accepted module, the output slots match the declaration just
when no return is declared twice. -/
theorem compositionFromModule_outputsMatch_iff {registry : FunctionRegistry} {module : Dparser.Module}
    {entries : List (String × Composition × Metadata)}
    (h : compositionFromModule registry module = .ok entries) :
    Forall₂ (fun source entry => OutputsMatch source.2 entry ↔ source.2.returns.Nodup)
      (compositionsOf module .empty) entries :=
  compositionsFrom_forall₂ (fun _ _ _ => outputsMatch_iff) h

/-- `function F(x) => (y); composition C(A) => (B, second) { F(x = all A) => (B = y); }` -/
def returning (second : String) : Dparser.Module :=
  [.functionDecl forwardDecl,
    .composition ⟨"C", ["A"], ["B", second], [forwardApplication "A" "B"]⟩]

def returningComposition (outputMap : OrderedMap Nat Nat) : Composition :=
  ⟨[forwardDependencies 0 1], outputMap⟩

/-- A composition that also returns its parameter has two slots. -/
theorem returning_parameter_slots :
    OutputsMatch ⟨"C", ["A"], ["B", "A"], [forwardApplication "A" "B"]⟩
      ("C", returningComposition ⟨[(0, 1), (1, 0)], by decide⟩, ⟨["A"], ["B", "A"]⟩) := by
  have hok : compositionFromModule ⟨fun name => name = "F", fun _ => true⟩ (returning "A") =
      .ok [("C", returningComposition ⟨[(0, 1), (1, 0)], by decide⟩, ⟨["A"], ["B", "A"]⟩)] := by
    decide
  have hiff := compositionFromModule_outputsMatch_iff hok
  exact (List.forall₂_cons.mp hiff).1.mpr (by decide)

/-- A set that is returned twice keeps its second slot only, and the first report for it
indexes the output sets out of range. -/
theorem returned_twice_out_of_range :
    compositionFromModule ⟨fun name => name = "F", fun _ => true⟩ (returning "B") =
      .ok [("C", returningComposition ⟨[(1, 1)], by decide⟩, ⟨["A"], ["B", "B"]⟩)] ∧
    ¬ SlotsMatch (returningComposition ⟨[(1, 1)], by decide⟩).outputMap 2 ∧
    (∀ functionId inputSets joinInfo outputMapping,
      forwardFirst functionId inputSets joinInfo outputMapping ≠ crash) ∧
    ∀ order fuel, queueComposition forwardFirst (returningComposition ⟨[(1, 1)], by decide⟩)
      [some (CompositionSet.ofKeys [1] (by decide))] order (fuel + 1) = crash := by
  refine ⟨by decide, ?_, ?_, ?_⟩
  · intro hmatch
    cases hmatch.len_eq
  · intro functionId inputSets joinInfo outputMapping hpanic
    cases hpanic
  · intro order fuel
    rw [queueComposition]
    change loop _ _ _ = _
    rw [loop_succ, awaitNext]
    simp only [map_nil, nil_append, map_cons, length_cons, length_nil, zero_add, Nat.mod_one,
      reverse_cons, reverse_nil]
    rfl

end Dandelion
