import Dandelion.DispatchSteps

/-!
# Runs of a composition

The invariant of the dispatcher's loop. Every awaited future reports the assigned
values of the outputs of one application, every application either still waits or has
its outputs announced, and no application is started twice. When nothing is awaited
any more, every set that has a value has arrived.
-/

namespace Dandelion

open Outcome

section Runs

variable {Ctx : Type} (call : ShardedCall Ctx) (dependencies : List FunctionDependencies)
  (inputs : List (Option (CompositionSet Ctx)))

/-- A future with the assigned values of the outputs of an application. -/
def Reports (deps : FunctionDependencies) (result : DandelionResult (NewCompositions Ctx)) : Prop :=
  ∃ report, result = .ok report ∧ report.map Prod.fst = deps.outputSetIds.reduceOption ∧
    ∀ new ∈ report, Assigned call dependencies inputs new.1 new.2

/-- The inputs of an application all have values, and none lacks items it needs. -/
def Ready (value : Nat → Option (CompositionSet Ctx)) (deps : FunctionDependencies) : Prop :=
  (∀ descriptor, some descriptor ∈ deps.inputSetIds →
    Assigned call dependencies inputs descriptor.compositionId (value descriptor.compositionId)) ∧
  Supplied deps value

/-- The id has arrived, or is about to. -/
def Announced (arrived : List Nat) (pending : NewCompositions Ctx)
    (awaited : List (DandelionResult (NewCompositions Ctx))) (id : Nat) : Prop :=
  id ∈ arrived ∨ id ∈ pending.map Prod.fst ∨
    ∃ report, .ok report ∈ awaited ∧ id ∈ report.map Prod.fst

/-- The application was started or skipped, and its outputs are announced. -/
def Settled (value : Nat → Option (CompositionSet Ctx)) (arrived : List Nat)
    (pending : NewCompositions Ctx) (awaited : List (DandelionResult (NewCompositions Ctx)))
    (started : List (Nat × FunctionInputs Ctx)) (application : Nat) (deps : FunctionDependencies) :
    Prop :=
  (application ∈ started.map Prod.fst ∨ LacksItems arrived value deps) ∧
    ∀ id, some id ∈ deps.outputSetIds → Announced arrived pending awaited id

/-- A group of applications, given by their positions: those that wait, the futures and the
starts of the others. -/
structure Group (value : Nat → Option (CompositionSet Ctx)) (arrived : List Nat)
    (pending : NewCompositions Ctx) (applications : List Nat)
    (nonReady : List (FunctionArgs Ctx)) (awaited : List (DandelionResult (NewCompositions Ctx)))
    (started : List (Nat × FunctionInputs Ctx)) : Prop where
  waiting : ∀ args ∈ nonReady, ∃ deps, dependencies[args.application]? = some deps ∧
    Waiting arrived value deps args ∧ args.missingSets.entries ≠ []
  reports : ∀ result ∈ awaited, ∃ deps ∈ dependencies, Reports call dependencies inputs deps result
  ready : ∀ start ∈ started, ∃ deps, dependencies[start.1]? = some deps ∧
    Ready call dependencies inputs value deps ∧ start.2 = suppliedInputs deps value
  once : ∀ k, (nonReady.map FunctionArgs.application).count k + (started.map Prod.fst).count k ≤
    applications.count k
  tracked : ∀ k ∈ applications, (∃ args ∈ nonReady, args.application = k) ∨
    ∃ deps, dependencies[k]? = some deps ∧ Settled value arrived pending awaited started k deps

variable {call dependencies inputs} {value : Nat → Option (CompositionSet Ctx)}

theorem skippedSets_fst (outputMapping : List (Option Nat)) :
    (skippedSets outputMapping : NewCompositions Ctx).map Prod.fst = outputMapping.reduceOption := by
  induction outputMapping with
  | nil => rfl
  | cons id outputMapping ih =>
    cases id with
    | none => exact ih
    | some id => exact congrArg (id :: ·) ih

theorem mem_skippedSets {outputMapping : List (Option Nat)} {new : Nat × Option (CompositionSet Ctx)}
    (h : new ∈ skippedSets outputMapping) : some new.1 ∈ outputMapping ∧ new.2 = none := by
  obtain ⟨idOption, hmem, hnew⟩ := List.mem_filterMap.mp h
  obtain ⟨id, rfl, rfl⟩ := Option.map_eq_some_iff.mp hnew
  exact ⟨hmem, rfl⟩

theorem LacksItems.reports {arrived : List Nat} {deps : FunctionDependencies}
    (h : LacksItems arrived value deps) (hdeps : deps ∈ dependencies)
    (harrived : ∀ id ∈ arrived, Assigned call dependencies inputs id (value id)) :
    Reports call dependencies inputs deps (.ok (skippedSets deps.outputSetIds)) := by
  obtain ⟨descriptor, hdescriptor, hin, hoptional, hempty⟩ := h
  refine ⟨_, rfl, skippedSets_fst _, fun new hnew => ?_⟩
  obtain ⟨hid, hnone⟩ := mem_skippedSets hnew
  rw [hnone]
  exact .skipped hdeps hdescriptor hoptional (harrived _ hin) hempty hid

theorem Ready.reports (hcalls : CallsReport call dependencies inputs) {deps : FunctionDependencies}
    (h : Ready call dependencies inputs value deps) (hdeps : deps ∈ dependencies) :
    Reports call dependencies inputs deps
      (call deps.function (suppliedInputs deps value) deps.joinInfo deps.outputSetIds) := by
  obtain ⟨report, hcall, hids⟩ := hcalls deps hdeps value h.1 h.2
  exact ⟨report, hcall, hids, fun new hnew => .reported hdeps h.1 h.2 hcall hnew⟩

theorem Reports.announced {deps : FunctionDependencies}
    {result : DandelionResult (NewCompositions Ctx)}
    (h : Reports call dependencies inputs deps result)
    {awaited : List (DandelionResult (NewCompositions Ctx))} (hmem : result ∈ awaited)
    (arrived : List Nat) (pending : NewCompositions Ctx) {id : Nat}
    (hid : some id ∈ deps.outputSetIds) : Announced arrived pending awaited id := by
  obtain ⟨report, rfl, hids, -⟩ := h
  refine .inr (.inr ⟨report, hmem, ?_⟩)
  rw [hids]
  exact List.reduceOption_mem_iff.mpr hid

theorem LacksItems.mono {arrived arrived' : List Nat} {deps : FunctionDependencies}
    (h : LacksItems arrived value deps) (harrived : ∀ i ∈ arrived, i ∈ arrived') :
    LacksItems arrived' value deps := by
  obtain ⟨descriptor, hdescriptor, hin, hrest⟩ := h
  exact ⟨descriptor, hdescriptor, harrived _ hin, hrest⟩

theorem Settled.mono {arrived arrived' : List Nat} {pending pending' : NewCompositions Ctx}
    {awaited awaited' : List (DandelionResult (NewCompositions Ctx))}
    {started started' : List (Nat × FunctionInputs Ctx)} {k : Nat} {deps : FunctionDependencies}
    (h : Settled value arrived pending awaited started k deps)
    (harrived : ∀ i ∈ arrived, i ∈ arrived') (hstarted : ∀ start ∈ started, start ∈ started')
    (hannounced : ∀ id, Announced arrived pending awaited id →
      Announced arrived' pending' awaited' id) :
    Settled value arrived' pending' awaited' started' k deps := by
  refine ⟨?_, fun id hid => hannounced id (h.2 id hid)⟩
  rcases h.1 with hk | hlacks
  · obtain ⟨start, hstart, rfl⟩ := List.mem_map.mp hk
    exact .inl (List.mem_map_of_mem (hstarted start hstart))
  · exact .inr (hlacks.mono harrived)

theorem Announced.awaited_mono {arrived : List Nat} {pending : NewCompositions Ctx}
    {awaited awaited' : List (DandelionResult (NewCompositions Ctx))} {id : Nat}
    (h : Announced arrived pending awaited id) (hawaited : ∀ result ∈ awaited, result ∈ awaited') :
    Announced arrived pending awaited' id := by
  rcases h with h | h | ⟨report, hreport, h⟩
  · exact .inl h
  · exact .inr (.inl h)
  · exact .inr (.inr ⟨report, hawaited _ hreport, h⟩)

theorem Announced.arrive {arrived : List Nat} {new : Nat × Option (CompositionSet Ctx)}
    {pending : NewCompositions Ctx} {awaited : List (DandelionResult (NewCompositions Ctx))}
    {id : Nat} (h : Announced arrived (new :: pending) awaited id) :
    Announced (new.1 :: arrived) pending awaited id := by
  rcases h with h | h | h
  · exact .inl (List.mem_cons_of_mem _ h)
  · rcases List.mem_cons.mp h with rfl | h
    · exact .inl List.mem_cons_self
    · exact .inr (.inl h)
  · exact .inr (.inr h)

theorem Announced.finish {arrived : List Nat} {report : NewCompositions Ctx}
    {awaited : List (DandelionResult (NewCompositions Ctx))} {i id : Nat}
    (hi : awaited[i]? = some (.ok report)) (h : Announced arrived [] awaited id) :
    Announced arrived report (awaited.eraseIdx i) id := by
  rcases h with h | h | ⟨report', hreport', h⟩
  · exact .inl h
  · exact absurd h List.not_mem_nil
  · obtain ⟨j, hj⟩ := List.mem_iff_getElem?.mp hreport'
    by_cases hij : j = i
    · rw [hij, hi] at hj
      cases hj
      exact .inr (.inl h)
    · exact .inr (.inr ⟨report', List.mem_eraseIdx_iff_getElem?.mpr ⟨j, hij, hj⟩, h⟩)

section Groups

variable {arrived : List Nat} {pending : NewCompositions Ctx} {apps : List Nat}
  {nonReady : List (FunctionArgs Ctx)} {awaited : List (DandelionResult (NewCompositions Ctx))}
  {started : List (Nat × FunctionInputs Ctx)}

theorem Group.append {apps' : List Nat} {nonReady' : List (FunctionArgs Ctx)}
    {awaited' : List (DandelionResult (NewCompositions Ctx))}
    {started' : List (Nat × FunctionInputs Ctx)}
    (h : Group call dependencies inputs value arrived pending apps nonReady awaited started)
    (h' : Group call dependencies inputs value arrived pending apps' nonReady' awaited' started') :
    Group call dependencies inputs value arrived pending (apps ++ apps') (nonReady ++ nonReady')
      (awaited ++ awaited') (started ++ started') where
  waiting := List.forall_mem_append.mpr ⟨h.waiting, h'.waiting⟩
  reports := List.forall_mem_append.mpr ⟨h.reports, h'.reports⟩
  ready := List.forall_mem_append.mpr ⟨h.ready, h'.ready⟩
  once := by
    intro k
    have h1 := h.once k
    have h2 := h'.once k
    simp only [List.map_append, List.count_append]
    omega
  tracked := by
    intro k hk
    rcases List.mem_append.mp hk with hk | hk
    · rcases h.tracked k hk with ⟨args, hargs, happ⟩ | ⟨deps, hdeps, hsettled⟩
      · exact .inl ⟨args, List.mem_append_left _ hargs, happ⟩
      · exact .inr ⟨deps, hdeps, hsettled.mono (fun _ hi => hi)
          (fun _ hs => List.mem_append_left _ hs)
          (fun _ ha => ha.awaited_mono fun _ hr => List.mem_append_left _ hr)⟩
    · rcases h'.tracked k hk with ⟨args, hargs, happ⟩ | ⟨deps, hdeps, hsettled⟩
      · exact .inl ⟨args, List.mem_append_right _ hargs, happ⟩
      · exact .inr ⟨deps, hdeps, hsettled.mono (fun _ hi => hi)
          (fun _ hs => List.mem_append_right _ hs)
          (fun _ ha => ha.awaited_mono fun _ hr => List.mem_append_right _ hr)⟩

theorem Group.awaited_congr {awaited' : List (DandelionResult (NewCompositions Ctx))}
    (h : Group call dependencies inputs value arrived pending apps nonReady awaited started)
    (hmem : ∀ result, result ∈ awaited ↔ result ∈ awaited') :
    Group call dependencies inputs value arrived pending apps nonReady awaited' started where
  waiting := h.waiting
  reports := fun result hresult => h.reports result ((hmem result).mpr hresult)
  ready := h.ready
  once := h.once
  tracked := by
    intro k hk
    rcases h.tracked k hk with hwait | ⟨deps, hdeps, hsettled⟩
    · exact .inl hwait
    · exact .inr ⟨deps, hdeps, hsettled.mono (fun _ hi => hi) (fun _ hs => hs)
        (fun _ ha => ha.awaited_mono fun result hr => (hmem result).mp hr)⟩

/-- A set arrives: the waiting applications of a group become a group of their own. -/
theorem Group.arrive {new : Nat × Option (CompositionSet Ctx)}
    {nonReady' : List (FunctionArgs Ctx)}
    {awaited' : List (DandelionResult (NewCompositions Ctx))}
    {started' : List (Nat × FunctionInputs Ctx)}
    (h : Group call dependencies inputs value arrived (new :: pending) apps nonReady awaited started)
    (h' : Group call dependencies inputs value (new.1 :: arrived) pending
      (nonReady.map FunctionArgs.application) nonReady' awaited' started') :
    Group call dependencies inputs value (new.1 :: arrived) pending apps nonReady'
      (awaited ++ awaited') (started ++ started') where
  waiting := h'.waiting
  reports := List.forall_mem_append.mpr ⟨h.reports, h'.reports⟩
  ready := List.forall_mem_append.mpr ⟨h.ready, h'.ready⟩
  once := by
    intro k
    have h1 := h.once k
    have h2 := h'.once k
    simp only [List.map_append, List.count_append]
    omega
  tracked := by
    intro k hk
    rcases h.tracked k hk with ⟨args, hargs, rfl⟩ | ⟨deps, hdeps, hsettled⟩
    · rcases h'.tracked _ (List.mem_map_of_mem hargs) with hwait | ⟨deps, hdeps, hsettled⟩
      · exact .inl hwait
      · exact .inr ⟨deps, hdeps, hsettled.mono (fun _ hi => hi)
          (fun _ hs => List.mem_append_right _ hs)
          (fun _ ha => ha.awaited_mono fun _ hr => List.mem_append_right _ hr)⟩
    · exact .inr ⟨deps, hdeps, hsettled.mono (fun _ hi => List.mem_cons_of_mem _ hi)
        (fun _ hs => List.mem_append_left _ hs)
        (fun _ ha => ha.arrive.awaited_mono fun _ hr => List.mem_append_left _ hr)⟩

theorem Group.finish {report : NewCompositions Ctx} {i : Nat}
    (hi : awaited[i]? = some (.ok report))
    (h : Group call dependencies inputs value arrived [] apps nonReady awaited started) :
    Group call dependencies inputs value arrived report apps nonReady (awaited.eraseIdx i)
      started where
  waiting := h.waiting
  reports := fun result hresult => h.reports result (List.mem_of_mem_eraseIdx hresult)
  ready := h.ready
  once := h.once
  tracked := by
    intro k hk
    rcases h.tracked k hk with hwait | ⟨deps, hdeps, hsettled⟩
    · exact .inl hwait
    · exact .inr ⟨deps, hdeps, hsettled.mono (fun _ hi => hi) (fun _ hs => hs)
        (fun _ ha => ha.finish hi)⟩

theorem group_waiting {args : FunctionArgs Ctx} {deps : FunctionDependencies}
    (hdeps : dependencies[args.application]? = some deps) (hwaiting : Waiting arrived value deps args)
    (hmissing : args.missingSets.entries ≠ []) :
    Group call dependencies inputs value arrived pending [args.application] [args] [] [] where
  waiting := List.forall_mem_singleton.mpr ⟨deps, hdeps, hwaiting, hmissing⟩
  reports := fun _ h => absurd h List.not_mem_nil
  ready := fun _ h => absurd h List.not_mem_nil
  once := fun _ => Nat.le_refl _
  tracked := fun _ hk => .inl ⟨args, List.mem_singleton_self _, (List.mem_singleton.mp hk).symm⟩

theorem group_started (hcalls : CallsReport call dependencies inputs) {application : Nat}
    {deps : FunctionDependencies} (hdeps : dependencies[application]? = some deps)
    (hready : Ready call dependencies inputs value deps) :
    Group call dependencies inputs value arrived pending [application] []
      [call deps.function (suppliedInputs deps value) deps.joinInfo deps.outputSetIds]
      [(application, suppliedInputs deps value)] where
  waiting := fun _ h => absurd h List.not_mem_nil
  reports := List.forall_mem_singleton.mpr
    ⟨deps, List.mem_of_getElem? hdeps, hready.reports hcalls (List.mem_of_getElem? hdeps)⟩
  ready := List.forall_mem_singleton.mpr ⟨deps, hdeps, hready, rfl⟩
  once := fun k => by simp
  tracked := by
    intro k hk
    obtain rfl := List.mem_singleton.mp hk
    refine .inr ⟨deps, hdeps, .inl (List.mem_singleton_self _), fun id hid => ?_⟩
    exact (hready.reports hcalls (List.mem_of_getElem? hdeps)).announced
      (List.mem_singleton_self _) _ _ hid

theorem group_skipped (harrived : ∀ id ∈ arrived, Assigned call dependencies inputs id (value id))
    {application : Nat} {deps : FunctionDependencies}
    (hdeps : dependencies[application]? = some deps) (hlacks : LacksItems arrived value deps)
    {count : Nat} (hpos : 0 < count) :
    Group call dependencies inputs value arrived pending [application] []
      (List.replicate count (.ok (skippedSets deps.outputSetIds))) [] where
  waiting := fun _ h => absurd h List.not_mem_nil
  reports := by
    intro result hresult
    obtain rfl := List.eq_of_mem_replicate hresult
    exact ⟨deps, List.mem_of_getElem? hdeps, hlacks.reports (List.mem_of_getElem? hdeps) harrived⟩
  ready := fun _ h => absurd h List.not_mem_nil
  once := fun k => Nat.zero_le _
  tracked := by
    intro k hk
    obtain rfl := List.mem_singleton.mp hk
    refine .inr ⟨deps, hdeps, .inr hlacks, fun id hid => ?_⟩
    exact (hlacks.reports (List.mem_of_getElem? hdeps) harrived).announced
      (List.mem_replicate.mpr ⟨by omega, rfl⟩) _ _ hid

theorem Received.group (hcalls : CallsReport call dependencies inputs)
    (harrived : ∀ id ∈ arrived, Assigned call dependencies inputs id (value id))
    {args : FunctionArgs Ctx} {deps : FunctionDependencies}
    (hdeps : dependencies[args.application]? = some deps)
    {result : Option (FunctionArgs Ctx) × List (DandelionResult (NewCompositions Ctx)) ×
      List (Nat × FunctionInputs Ctx)} (h : Received call arrived value deps args result) :
    Group call dependencies inputs value arrived pending [args.application] result.1.toList
      result.2.1 result.2.2 := by
  cases h with
  | kept happlication hwaiting hmissing hle =>
    rw [← happlication] at hdeps ⊢
    exact group_waiting hdeps hwaiting hmissing
  | started hall hsupplied =>
    exact group_started hcalls hdeps
      ⟨fun descriptor hdescriptor => harrived _ (hall descriptor hdescriptor), hsupplied⟩
  | skipped hlacks hpos hle => exact group_skipped harrived hdeps hlacks hpos

/-- The rounds a group can still cause. -/
def rounds (nonReady : List (FunctionArgs Ctx))
    (awaited : List (DandelionResult (NewCompositions Ctx))) : Nat :=
  awaited.length + (nonReady.map fun args => args.missingSets.len).sum

theorem Received.rounds_le {args : FunctionArgs Ctx} {deps : FunctionDependencies}
    {result : Option (FunctionArgs Ctx) × List (DandelionResult (NewCompositions Ctx)) ×
      List (Nat × FunctionInputs Ctx)} (h : Received call arrived value deps args result)
    (hmissing : args.missingSets.entries ≠ []) :
    rounds result.1.toList result.2.1 ≤ args.missingSets.len := by
  cases h with
  | kept happlication hwaiting hmissing hle => simpa [rounds] using hle
  | started hall hsupplied => exact List.length_pos_iff.mpr hmissing
  | skipped hlacks hpos hle => simpa [rounds] using hle

theorem receiveAll_spec (hcalls : CallsReport call dependencies inputs) {id : Nat}
    (harrived : ∀ i ∈ id :: arrived, Assigned call dependencies inputs i (value i))
    (functions : List (FunctionArgs Ctx))
    (hwaiting : ∀ args ∈ functions, ∃ deps, dependencies[args.application]? = some deps ∧
      Waiting arrived value deps args ∧ args.missingSets.entries ≠ []) :
    ∃ nonReady awaited started,
      receiveAll call id (value id) functions = .ok (nonReady, awaited, started) ∧
      Group call dependencies inputs value (id :: arrived) pending
        (functions.map FunctionArgs.application) nonReady awaited started ∧
      rounds nonReady awaited ≤ rounds functions [] := by
  induction functions with
  | nil =>
    refine ⟨[], [], [], rfl, ⟨?_, ?_, ?_, ?_, ?_⟩, Nat.le_refl _⟩
    all_goals simp
  | cons args functions ih =>
    obtain ⟨⟨deps, hdeps, hargs, hmissing⟩, hrest⟩ := List.forall_mem_cons.mp hwaiting
    obtain ⟨⟨kept, awaited, started⟩, hok, hreceived⟩ := receiveSet_spec call hargs id
    obtain ⟨nonReady, awaited', started', hok', hgroup, hle⟩ := ih hrest
    refine ⟨kept.toList ++ nonReady, awaited ++ awaited', started ++ started',
      receiveAll_cons hok hok', (hreceived.group hcalls harrived hdeps).append hgroup, ?_⟩
    have hhead := hreceived.rounds_le hmissing
    simp only [rounds, List.length_append, List.map_append, List.sum_append, List.map_cons,
      List.sum_cons, List.length_nil] at hhead hle ⊢
    omega

end Groups

end Runs
end Dandelion
