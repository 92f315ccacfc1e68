import Dandelion.DispatchRuns

/-!
# Which sets a run reports

No assumption on the functions or on how often a set is assigned. A run that returns has
received every set that can be computed from its inputs by applications whose successful
calls report it.
-/

namespace Dandelion

open Outcome

section Reported

variable {Ctx : Type} (call : ShardedCall Ctx) (dependencies : List FunctionDependencies)

/-- The application assigns the set, and every call of it that succeeds reports the set. -/
def Yields (deps : FunctionDependencies) (id : Nat) : Prop :=
  some id ∈ deps.outputSetIds ∧ ∀ inputSets report,
    call deps.function inputSets deps.joinInfo deps.outputSetIds = .ok report →
      id ∈ report.map Prod.fst

/-- The sets that come from the first `count` ones. -/
inductive Computed (count : Nat) : Nat → Prop
  | input {id : Nat} (h : id < count) : Computed count id
  | output {deps : FunctionDependencies} {id : Nat} (hdeps : deps ∈ dependencies)
      (hinputs : ∀ descriptor, some descriptor ∈ deps.inputSetIds →
        Computed count descriptor.compositionId)
      (hid : Yields call deps id) : Computed count id

/-- A future reports the set, unless it fails. -/
def AboutToReport (awaited : List (DandelionResult (NewCompositions Ctx))) (id : Nat) : Prop :=
  ∃ result ∈ awaited, ∀ report, result = .ok report → id ∈ report.map Prod.fst

/-- A waiting application lacks only sets that have not arrived. -/
structure Lacks (arrived : List Nat) (deps : FunctionDependencies) (args : FunctionArgs Ctx) :
    Prop where
  functionId : args.functionId = deps.function
  joinInfo : args.joinInfo = deps.joinInfo
  outputMapping : args.outputMapping = deps.outputSetIds
  missing : ∀ key entry, args.missingSets.get? key = some entry → (ofLex key).1 ∉ arrived ∧
    ∃ descriptor, some descriptor ∈ deps.inputSetIds ∧ descriptor.compositionId = (ofLex key).1

/-- Every application waits, or its sets have arrived or are about to. -/
structure Tracks (arrived : List Nat) (pending : NewCompositions Ctx)
    (nonReady : List (FunctionArgs Ctx)) (awaited : List (DandelionResult (NewCompositions Ctx))) :
    Prop where
  waiting : ∀ args ∈ nonReady, ∃ deps, dependencies[args.application]? = some deps ∧
    Lacks arrived deps args ∧ args.missingSets.entries ≠ []
  tracked : ∀ k deps, dependencies[k]? = some deps → (∃ args ∈ nonReady, args.application = k) ∨
    ∀ id, Yields call deps id →
      id ∈ arrived ∨ id ∈ pending.map Prod.fst ∨ AboutToReport awaited id

variable {call dependencies}

theorem AboutToReport.mono {awaited awaited' : List (DandelionResult (NewCompositions Ctx))}
    {id : Nat} (h : AboutToReport awaited id) (hsub : ∀ result ∈ awaited, result ∈ awaited') :
    AboutToReport awaited' id := by
  obtain ⟨result, hresult, hreport⟩ := h
  exact ⟨result, hsub result hresult, hreport⟩

theorem aboutToReport_skipped {deps : FunctionDependencies} {id : Nat}
    {awaited : List (DandelionResult (NewCompositions Ctx))} (hid : some id ∈ deps.outputSetIds)
    (hmem : .ok (skippedSets deps.outputSetIds) ∈ awaited) : AboutToReport awaited id := by
  refine ⟨_, hmem, fun report hreport => ?_⟩
  cases hreport
  rw [skippedSets_fst]
  exact List.reduceOption_mem_iff.mpr hid

theorem removeKeys_eq_none {keys : List (Option (Nat ×ₗ Nat))}
    {missingSets : OrderedMap (Nat ×ₗ Nat) (ShardingMode × Bool)}
    (h : removeKeys keys missingSets = none) : none ∈ keys := by
  induction keys generalizing missingSets with
  | nil => cases h
  | cons key keys ih =>
    cases key with
    | none => exact List.mem_cons_self
    | some key => exact List.mem_cons_of_mem _ (ih h)

theorem removeKeys_eq_some {keys : List (Option (Nat ×ₗ Nat))}
    {missingSets rest : OrderedMap (Nat ×ₗ Nat) (ShardingMode × Bool)}
    (h : removeKeys keys missingSets = some rest) :
    none ∉ keys ∧ ∀ key entry, rest.get? key = some entry →
      some key ∉ keys ∧ missingSets.get? key = some entry := by
  induction keys generalizing missingSets with
  | nil =>
    cases h
    exact ⟨List.not_mem_nil, fun key entry hkey => ⟨List.not_mem_nil, hkey⟩⟩
  | cons first keys ih =>
    cases first with
    | none => cases h
    | some first =>
      obtain ⟨hnone, hget⟩ := ih h
      refine ⟨by simpa using hnone, fun key entry hkey => ?_⟩
      obtain ⟨hnew, hold⟩ := hget key entry hkey
      obtain ⟨hne, hold⟩ := (OrderedMap.get?_remove_eq_some_iff _ _ _ _).mp hold
      exact ⟨by simp [hne, hnew], hold⟩

theorem fillMissing_keys {setOption : Option (CompositionSet Ctx)}
    {entries : List ((Nat ×ₗ Nat) × (ShardingMode × Bool))} {inputSets filled : FunctionInputs Ctx}
    {keys : List (Option (Nat ×ₗ Nat))}
    (h : fillMissing setOption entries inputSets = .ok (filled, keys)) :
    ∀ entry ∈ entries, none ∈ keys ∨ some entry.1 ∈ keys := by
  induction entries generalizing inputSets keys with
  | nil => exact fun entry hentry => absurd hentry List.not_mem_nil
  | cons first entries ih =>
    obtain ⟨key, mode, optional⟩ := first
    rw [fillMissing] at h
    split at h
    · obtain ⟨⟨filled', keys'⟩, -, hkeys⟩ := (bind_eq_ok_iff _ _ _).mp h
      cases hkeys
      exact fun entry _ => .inl List.mem_cons_self
    · obtain ⟨inputSets', -, h⟩ := (bind_eq_ok_iff _ _ _).mp h
      obtain ⟨⟨filled', keys'⟩, hrest, hkeys⟩ := (bind_eq_ok_iff _ _ _).mp h
      cases hkeys
      intro entry hentry
      rcases List.mem_cons.mp hentry with rfl | hentry
      · exact .inr List.mem_cons_self
      · rcases ih hrest entry hentry with hnone | hsome
        · exact .inl (List.mem_cons_of_mem _ hnone)
        · exact .inr (List.mem_cons_of_mem _ hsome)

/-- A waiting application that receives a set waits on, or is about to report. -/
theorem receiveSet_lacks {arrived : List Nat} {deps : FunctionDependencies}
    {args : FunctionArgs Ctx} (h : Lacks arrived deps args) {id : Nat}
    {setOption : Option (CompositionSet Ctx)} {kept : Option (FunctionArgs Ctx)}
    {awaited : List (DandelionResult (NewCompositions Ctx))}
    {started : List (Nat × FunctionInputs Ctx)}
    (hok : receiveSet call id setOption args = .ok (kept, awaited, started)) :
    (∃ args', kept = some args' ∧ args'.application = args.application ∧
        Lacks (id :: arrived) deps args' ∧ args'.missingSets.entries ≠ []) ∨
      kept = none ∧ ∀ output, Yields call deps output → AboutToReport awaited output := by
  rw [receiveSet] at hok
  obtain ⟨⟨filled, keys⟩, hfill, hok⟩ := (bind_eq_ok_iff _ _ _).mp hok
  cases hremove : removeKeys keys args.missingSets with
  | none =>
    simp only [hremove] at hok
    cases hok
    refine .inr ⟨rfl, fun output houtput => aboutToReport_skipped houtput.1 ?_⟩
    refine List.mem_map.mpr ⟨none, List.mem_filter.mpr ⟨removeKeys_eq_none hremove, rfl⟩, ?_⟩
    rw [h.outputMapping]
    rfl
  | some missingSets =>
    simp only [hremove] at hok
    obtain ⟨hnone, hget⟩ := removeKeys_eq_some hremove
    split at hok
    · cases hok
      refine .inr ⟨rfl, fun output houtput => ⟨_, List.mem_append_right _ List.mem_cons_self, ?_⟩⟩
      intro report hreport
      rw [FunctionArgs.start, h.functionId, h.joinInfo, h.outputMapping] at hreport
      exact houtput.2 _ report hreport
    · next hempty =>
      cases hok
      refine .inl ⟨_, rfl, rfl, ⟨h.functionId, h.joinInfo, h.outputMapping, fun key entry hkey => ?_⟩,
        by simpa using hempty⟩
      obtain ⟨hnew, hold⟩ := hget key entry hkey
      obtain ⟨harrived, hdescriptor⟩ := h.missing key entry hold
      refine ⟨?_, hdescriptor⟩
      rw [List.mem_cons, not_or]
      refine ⟨fun heq => ?_, harrived⟩
      rcases fillMissing_keys hfill (key, entry) ((mem_missing_iff _ _ _).mpr ⟨hold, heq⟩) with
        hmarked | hfilled
      · exact hnone hmarked
      · exact hnew hfilled

theorem receiveAll_tracks {arrived : List Nat} {id : Nat}
    {setOption : Option (CompositionSet Ctx)} (functions : List (FunctionArgs Ctx))
    {nonReady : List (FunctionArgs Ctx)} {awaited : List (DandelionResult (NewCompositions Ctx))}
    {started : List (Nat × FunctionInputs Ctx)}
    (hwaiting : ∀ args ∈ functions, ∃ deps, dependencies[args.application]? = some deps ∧
      Lacks arrived deps args ∧ args.missingSets.entries ≠ [])
    (hok : receiveAll call id setOption functions = .ok (nonReady, awaited, started)) :
    (∀ args ∈ nonReady, ∃ deps, dependencies[args.application]? = some deps ∧
        Lacks (id :: arrived) deps args ∧ args.missingSets.entries ≠ []) ∧
      ∀ args ∈ functions, (∃ args' ∈ nonReady, args'.application = args.application) ∨
        ∀ deps, dependencies[args.application]? = some deps →
          ∀ output, Yields call deps output → AboutToReport awaited output := by
  induction functions generalizing nonReady awaited started with
  | nil =>
    cases hok
    exact ⟨fun args h => absurd h List.not_mem_nil, fun args h => absurd h List.not_mem_nil⟩
  | cons first functions ih =>
    rw [receiveAll] at hok
    obtain ⟨⟨kept, awaitedFirst, startedFirst⟩, hfirst, hok⟩ := (bind_eq_ok_iff _ _ _).mp hok
    obtain ⟨⟨nonReadyRest, awaitedRest, startedRest⟩, hrest, hok⟩ := (bind_eq_ok_iff _ _ _).mp hok
    cases hok
    obtain ⟨⟨deps, hdeps, hlacks, -⟩, hwaiting⟩ := List.forall_mem_cons.mp hwaiting
    obtain ⟨hnonReady, htracked⟩ := ih hwaiting hrest
    have hlater : ∀ args ∈ functions,
        (∃ args' ∈ kept.toList ++ nonReadyRest, args'.application = args.application) ∨
          ∀ deps, dependencies[args.application]? = some deps →
            ∀ output, Yields call deps output →
              AboutToReport (awaitedFirst ++ awaitedRest) output := by
      intro args hargs
      rcases htracked args hargs with ⟨args', hargs', happ⟩ | hreport
      · exact .inl ⟨args', List.mem_append_right _ hargs', happ⟩
      · exact .inr fun deps hdeps output houtput =>
          (hreport deps hdeps output houtput).mono fun _ h => List.mem_append_right _ h
    rcases receiveSet_lacks hlacks hfirst with ⟨args', rfl, happ, hlacks'⟩ | ⟨rfl, hreport⟩
    · refine ⟨List.forall_mem_cons.mpr ⟨⟨deps, happ ▸ hdeps, hlacks'⟩, hnonReady⟩,
        List.forall_mem_cons.mpr ⟨.inl ⟨args', List.mem_cons_self, happ⟩, hlater⟩⟩
    · refine ⟨hnonReady, List.forall_mem_cons.mpr ⟨.inr fun deps' hdeps' output houtput => ?_, hlater⟩⟩
      rw [hdeps] at hdeps'
      cases hdeps'
      exact (hreport output houtput).mono fun _ h => List.mem_append_left _ h

theorem Tracks.arrive {arrived : List Nat} {new : Nat × Option (CompositionSet Ctx)}
    {pending : NewCompositions Ctx} {functions nonReady : List (FunctionArgs Ctx)}
    {awaited awaited' : List (DandelionResult (NewCompositions Ctx))}
    {started : List (Nat × FunctionInputs Ctx)}
    (h : Tracks call dependencies arrived (new :: pending) functions awaited)
    (hok : receiveAll call new.1 new.2 functions = .ok (nonReady, awaited', started)) :
    Tracks call dependencies (new.1 :: arrived) pending nonReady (awaited ++ awaited') := by
  obtain ⟨hwaiting, htracked⟩ := receiveAll_tracks functions h.waiting hok
  refine ⟨hwaiting, fun k deps hdeps => ?_⟩
  rcases h.tracked k deps hdeps with ⟨args, hargs, rfl⟩ | hreported
  · rcases htracked args hargs with hkept | hreport
    · exact .inl hkept
    · exact .inr fun id hid => .inr (.inr
        ((hreport deps hdeps id hid).mono fun _ h => List.mem_append_right _ h))
  · refine .inr fun id hid => ?_
    rcases hreported id hid with harrived | hpending | hawaited
    · exact .inl (List.mem_cons_of_mem _ harrived)
    · rcases List.mem_cons.mp hpending with rfl | hpending
      · exact .inl List.mem_cons_self
      · exact .inr (.inl hpending)
    · exact .inr (.inr (hawaited.mono fun _ h => List.mem_append_left _ h))

theorem Tracks.finish {arrived : List Nat} {functions : List (FunctionArgs Ctx)}
    {awaited : List (DandelionResult (NewCompositions Ctx))} {report : NewCompositions Ctx} {i : Nat}
    (h : Tracks call dependencies arrived [] functions awaited)
    (hi : awaited[i]? = some (.ok report)) :
    Tracks call dependencies arrived report functions (awaited.eraseIdx i) := by
  refine ⟨h.waiting, fun k deps hdeps => ?_⟩
  refine (h.tracked k deps hdeps).imp_right fun hreported id hid => ?_
  rcases hreported id hid with harrived | hpending | ⟨result, hresult, hreport⟩
  · exact .inl harrived
  · exact absurd hpending List.not_mem_nil
  · obtain ⟨j, hj⟩ := List.mem_iff_getElem?.mp hresult
    by_cases hij : j = i
    · rw [hij, hi] at hj
      cases hj
      exact .inr (.inl (hreport report rfl))
    · exact .inr (.inr ⟨result, List.mem_eraseIdx_iff_getElem?.mpr ⟨j, hij, hj⟩, hreport⟩)

/-- When nothing is awaited any more, every computed set has arrived. -/
theorem Tracks.complete {count : Nat} {arrived : List Nat} {functions : List (FunctionArgs Ctx)}
    (h : Tracks call dependencies arrived [] functions []) (hinputs : ∀ id < count, id ∈ arrived)
    {id : Nat} (hid : Computed call dependencies count id) : id ∈ arrived := by
  induction hid with
  | input hlt => exact hinputs _ hlt
  | @output deps id hdeps _ hyields ih =>
    obtain ⟨k, hk⟩ := List.mem_iff_getElem?.mp hdeps
    rcases h.tracked k deps hk with ⟨args, hargs, rfl⟩ | hreported
    · obtain ⟨deps', hdeps', hlacks, hmissing⟩ := h.waiting args hargs
      rw [hk] at hdeps'
      cases hdeps'
      obtain ⟨⟨key, entry⟩, hmem⟩ := List.exists_mem_of_ne_nil _ hmissing
      obtain ⟨hnew, descriptor, hdescriptor, heq⟩ :=
        hlacks.missing key entry ((OrderedMap.get?_eq_some_iff _ _ _).mpr hmem)
      exact absurd (heq ▸ ih descriptor hdescriptor) hnew
    · rcases hreported id hyields with harrived | hpending | ⟨result, hresult, -⟩
      · exact harrived
      · exact absurd hpending List.not_mem_nil
      · exact absurd hresult List.not_mem_nil

section Start

variable {inputs : List (Option (CompositionSet Ctx))}

theorem readyInputs_missing {descriptors : List (Option InputSetDescriptor)} {count : Nat}
    {missingMap missingSets : OrderedMap (Nat ×ₗ Nat) (ShardingMode × Bool)}
    {ready inputSets : FunctionInputs Ctx}
    (hok : readyInputs inputs descriptors count missingMap ready =
      .ok (some (missingSets, inputSets))) {key : Nat ×ₗ Nat} {entry : ShardingMode × Bool}
    (hkey : missingSets.get? key = some entry) :
    missingMap.get? key = some entry ∨ inputs.length ≤ (ofLex key).1 ∧
      ∃ descriptor, some descriptor ∈ descriptors ∧ descriptor.compositionId = (ofLex key).1 := by
  induction descriptors generalizing count missingMap ready with
  | nil =>
    cases hok
    exact .inl hkey
  | cons descriptorOption descriptors ih =>
    have hlater : ∀ {missingMap' ready'}, readyInputs inputs descriptors (count + 1) missingMap' ready' =
        .ok (some (missingSets, inputSets)) → missingMap'.get? key = some entry ∨
          inputs.length ≤ (ofLex key).1 ∧ ∃ descriptor,
            some descriptor ∈ descriptorOption :: descriptors ∧
              descriptor.compositionId = (ofLex key).1 := by
      intro missingMap' ready' hrest
      refine (ih hrest).imp_right fun ⟨hle, descriptor, hdescriptor, heq⟩ => ?_
      exact ⟨hle, descriptor, List.mem_cons_of_mem _ hdescriptor, heq⟩
    cases descriptorOption with
    | none => exact hlater hok
    | some descriptor =>
      rw [readyInputs] at hok
      cases hinput : inputs[descriptor.compositionId]? with
      | none =>
        rw [hinput] at hok
        rcases hlater hok with hinsert | hnew
        · rcases (OrderedMap.get?_insert_eq_some_iff _ _ _ _ _).mp hinsert with ⟨rfl, -⟩ | ⟨-, hold⟩
          · exact .inr ⟨List.getElem?_eq_none_iff.mp hinput, descriptor, List.mem_cons_self, rfl⟩
          · exact .inl hold
        · exact .inr hnew
      | some compSet =>
        simp only [hinput] at hok
        split at hok
        · cases hok
        · cases compSet with
          | none => exact hlater hok
          | some set =>
            obtain ⟨ready', -, hrest⟩ := (bind_eq_ok_iff _ _ _).mp hok
            exact hlater hrest

/-- The functions before the loop, and the reports of those that are skipped. -/
theorem prepareFunctions_tracks (rest : List FunctionDependencies) {first : Nat}
    (hrest : dependencies.drop first = rest) {functions : List (FunctionArgs Ctx)}
    {skipped : List (NewCompositions Ctx)}
    (hok : prepareFunctions inputs rest first = .ok (functions, skipped)) :
    (∀ args ∈ functions, ∃ deps, dependencies[args.application]? = some deps ∧
        Lacks (List.range inputs.length) deps args) ∧
      ∀ k deps, first ≤ k → dependencies[k]? = some deps →
        (∃ args ∈ functions, args.application = k) ∨ skippedSets deps.outputSetIds ∈ skipped := by
  induction rest generalizing first functions skipped with
  | nil =>
    cases hok
    refine ⟨fun args h => absurd h List.not_mem_nil, fun k deps hk hdeps => ?_⟩
    have hlt := (List.getElem?_eq_some_iff.mp hdeps).1
    have hle := List.drop_eq_nil_iff.mp hrest
    omega
  | cons deps rest ih =>
    obtain ⟨hhead, htail⟩ := drop_eq_cons hrest
    rw [prepareFunctions] at hok
    obtain ⟨prepared, hready, hok⟩ := (bind_eq_ok_iff _ _ _).mp hok
    obtain ⟨⟨functions', skipped'⟩, hlater, hok⟩ := (bind_eq_ok_iff _ _ _).mp hok
    obtain ⟨hlacks, htracked⟩ := ih htail hlater
    cases prepared with
    | none =>
      cases hok
      refine ⟨hlacks, fun k deps' hk hdeps' => ?_⟩
      rcases Nat.eq_or_lt_of_le hk with rfl | hlt
      · rw [hhead] at hdeps'
        cases hdeps'
        exact .inr List.mem_cons_self
      · exact (htracked k deps' hlt hdeps').imp_right (List.mem_cons_of_mem _)
    | some prepared =>
      obtain ⟨missingSets, inputSets⟩ := prepared
      cases hok
      refine ⟨List.forall_mem_cons.mpr ⟨⟨deps, hhead, rfl, rfl, rfl, fun key entry hkey => ?_⟩, hlacks⟩,
        fun k deps' hk hdeps' => ?_⟩
      · rcases readyInputs_missing hready hkey with hold | ⟨hle, hdescriptor⟩
        · simp at hold
        · refine ⟨?_, hdescriptor⟩
          rw [List.mem_range]
          omega
      · rcases Nat.eq_or_lt_of_le hk with rfl | hlt
        · exact .inl ⟨_, List.mem_cons_self, rfl⟩
        · refine (htracked k deps' hlt hdeps').imp_left ?_
          rintro ⟨args, hargs, happ⟩
          exact ⟨args, List.mem_cons_of_mem _ hargs, happ⟩

theorem initialState_tracks {composition : Composition} {state : DispatchState Ctx}
    (hok : initialState call composition inputs = .ok state) :
    Tracks call composition.dependencies (List.range inputs.length) [] state.nonReadyFunctions
      state.awaitedSets := by
  rw [initialState] at hok
  obtain ⟨outputSets, -, hok⟩ := (bind_eq_ok_iff _ _ _).mp hok
  obtain ⟨⟨functions, skipped⟩, hprepare, hok⟩ := (bind_eq_ok_iff _ _ _).mp hok
  obtain ⟨hlacks, htracked⟩ := prepareFunctions_tracks _ List.drop_zero hprepare
  simp only [List.partition_eq_filter_filter] at hok
  cases hok
  constructor
  · intro args hargs
    obtain ⟨hmem, hmissing⟩ := List.mem_filter.mp hargs
    obtain ⟨deps, hdeps, hargs⟩ := hlacks args hmem
    exact ⟨deps, hdeps, hargs, by simpa using hmissing⟩
  · intro k deps hdeps
    rcases htracked k deps (Nat.zero_le k) hdeps with ⟨args, hargs, rfl⟩ | hskipped
    · by_cases hempty : args.missingSets.entries.isEmpty = true
      · refine .inr fun id hid => .inr (.inr ⟨args.start call, ?_, fun report hreport => ?_⟩)
        · exact List.mem_append_right _
            (List.mem_map_of_mem (List.mem_filter.mpr ⟨hargs, hempty⟩))
        · obtain ⟨deps', hdeps', hargs'⟩ := hlacks args hargs
          rw [hdeps] at hdeps'
          cases hdeps'
          rw [FunctionArgs.start, hargs'.functionId, hargs'.joinInfo, hargs'.outputMapping] at hreport
          exact hid.2 _ report hreport
      · exact .inl ⟨args, List.mem_filter.mpr ⟨hargs, by simpa using hempty⟩, rfl⟩
    · refine .inr fun id hid => .inr (.inr (aboutToReport_skipped hid.1 ?_))
      exact List.mem_append_left _ (List.mem_map_of_mem hskipped)

end Start

end Reported
end Dandelion
