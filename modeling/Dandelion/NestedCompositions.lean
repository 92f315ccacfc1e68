import Dandelion.CompositionMeaning
import Dandelion.ListsUpTo
import Dandelion.ReportedSets
import Dandelion.ShardedCalls
import Dandelion.SurplusSets
import Dandelion.Transitions

/-!
# Compositions that are called without items

When no input set of an application has items, `queue_function_sharded` calls the function
with no input sets at all. For a composition that is not the same as its own inputs, absent
or empty: its parameters never arrive, and what waits for them is neither started nor
skipped. The results agree if everything that waits for a parameter would be skipped.
-/

namespace Dandelion

open Outcome ListsUpTo Transitions

section Rounds

variable {Ctx : Type} {call : ShardedCall Ctx} {outputMap : OrderedMap Nat Nat}

/-- One of the awaited futures finishes. -/
def Finishes (call : ShardedCall Ctx) (outputMap : OrderedMap Nat Nat) (s t : DispatchState Ctx) :
    Prop :=
  ∃ i report, s.awaitedSets[i]? = some (.ok report) ∧
    deliverAll call outputMap report { s with awaitedSets := s.awaitedSets.eraseIdx i } = .ok t

/-- The results of the loop, over all orders: the states without futures that are reached. -/
theorem loop_iff_reaches (s t : DispatchState Ctx) :
    (∃ order fuel, loop (awaitNext call outputMap) fuel (s, order) = .ok t) ↔
      Reaches (Finishes call outputMap) s t ∧ t.awaitedSets = [] := by
  constructor
  · rintro ⟨order, fuel, hloop⟩
    induction fuel generalizing s order with
    | zero => cases hloop
    | succ fuel ih =>
      rw [loop_succ, bind_eq_ok_iff] at hloop
      obtain ⟨r, hround, hrest⟩ := hloop
      rw [awaitNext] at hround
      cases hget : s.awaitedSets[order 0 % s.awaitedSets.length]? with
      | none =>
        rw [hget] at hround
        cases hround
        cases hrest
        exact ⟨.refl _, awaited_nil_of_getElem? hget⟩
      | some result =>
        rw [hget] at hround
        cases result with
        | error stop => cases hround
        | ok report =>
          obtain ⟨next, hdeliver, hround⟩ := (bind_eq_ok_iff (deliverAll _ _ _ _) _ _).mp hround
          cases hround
          obtain ⟨hreaches, hdone⟩ := ih next _ hrest
          exact ⟨Relation.ReflTransGen.head ⟨_, report, hget, hdeliver⟩ hreaches, hdone⟩
  · rintro ⟨hreaches, hdone⟩
    induction hreaches using Relation.ReflTransGen.head_induction_on with
    | refl =>
      refine ⟨fun _ => 0, 1, ?_⟩
      rw [loop_succ, awaitNext, hdone]
      rfl
    | @head s next hstep _ ih =>
      obtain ⟨i, report, hi, hdeliver⟩ := hstep
      obtain ⟨order, fuel, hloop⟩ := ih
      have hlt := (List.getElem?_eq_some_iff.mp hi).1
      obtain ⟨schedule, hzero, hlater⟩ : ∃ schedule : Nat → Nat, schedule 0 = i ∧
          (fun round => schedule (round + 1)) = order :=
        ⟨fun round => Nat.casesOn round i order, rfl, rfl⟩
      refine ⟨schedule, fuel + 1, ?_⟩
      have hround : awaitNext call outputMap (s, schedule) = .ok (.inl (next, order)) := by
        rw [awaitNext, hzero, hlater, Nat.mod_eq_of_lt hlt, hi]
        dsimp only
        rw [ok_bind, hdeliver]
        rfl
      rw [loop_succ, hround]
      exact hloop

end Rounds

section Receiving

variable {Ctx : Type} {call : ShardedCall Ctx} {starved : Nat → Prop}

/-- A waiting application that cannot start: it lacks a set that will not have items. -/
structure StarvedArgs (starved : Nat → Prop) (args : FunctionArgs Ctx) : Prop where
  outputs : ∀ id, some id ∈ args.outputMapping → starved id
  inside : ∀ key entry, args.missingSets.get? key = some entry →
    (ofLex key).2 < args.inputSets.length
  cut : ∃ key entry, args.missingSets.get? key = some entry ∧ starved (ofLex key).1 ∧
    entry.2 = false

/-- A waiting application that has nothing to do with starved sets. -/
structure HealthyArgs (starved : Nat → Prop) (args : FunctionArgs Ctx) : Prop where
  outputs : ∀ id, some id ∈ args.outputMapping → ¬ starved id
  reads : ∀ key entry, args.missingSets.get? key = some entry → ¬ starved (ofLex key).1

def StarvedReport (starved : Nat → Prop) (result : DandelionResult (NewCompositions Ctx)) : Prop :=
  ∃ report, result = .ok report ∧ ∀ new ∈ report, starved new.1 ∧ new.2 = none

def HealthyReport (starved : Nat → Prop) (result : DandelionResult (NewCompositions Ctx)) : Prop :=
  ∀ report, result = .ok report → ∀ new ∈ report, ¬ starved new.1

/-- A call reports sets of its output mapping only. -/
def ReportsMapping (call : ShardedCall Ctx) : Prop :=
  ∀ functionId inputSets joinInfo outputMapping report,
    call functionId inputSets joinInfo outputMapping = .ok report →
      ∀ new ∈ report, some new.1 ∈ outputMapping

theorem starvedReport_skipped {outputMapping : List (Option Nat)}
    (h : ∀ id, some id ∈ outputMapping → starved id) :
    StarvedReport starved (pure (skippedSets outputMapping) : DandelionResult (NewCompositions Ctx)) := by
  refine ⟨_, rfl, fun new hnew => ?_⟩
  obtain ⟨hid, hnone⟩ := mem_skippedSets hnew
  exact ⟨h _ hid, hnone⟩

theorem healthyReport_skipped {outputMapping : List (Option Nat)}
    (h : ∀ id, some id ∈ outputMapping → ¬ starved id) :
    HealthyReport starved (pure (skippedSets outputMapping) : DandelionResult (NewCompositions Ctx)) := by
  intro report hreport new hnew
  cases hreport
  exact h _ (mem_skippedSets hnew).1

theorem HealthyArgs.start (hcall : ReportsMapping call) {args : FunctionArgs Ctx}
    (h : HealthyArgs starved args) : HealthyReport starved (args.start call) := by
  intro report hreport new hnew
  exact h.outputs _ (hcall _ _ _ _ _ hreport new hnew)

theorem fillMissing_ok {setOption : Option (CompositionSet Ctx)}
    {entries : List ((Nat ×ₗ Nat) × (ShardingMode × Bool))} {inputSets filled : FunctionInputs Ctx}
    {keys : List (Option (Nat ×ₗ Nat))}
    (h : fillMissing setOption entries inputSets = .ok (filled, keys)) :
    filled.length = inputSets.length ∧ ∀ key, some key ∈ keys → ∃ entry ∈ entries, entry.1 = key := by
  induction entries generalizing inputSets filled keys with
  | nil =>
    cases h
    exact ⟨rfl, fun key hkey => absurd hkey List.not_mem_nil⟩
  | cons first entries ih =>
    obtain ⟨key, mode, optional⟩ := first
    rw [fillMissing] at h
    split at h
    · obtain ⟨⟨filled', keys'⟩, hrest, hkeys⟩ := (bind_eq_ok_iff _ _ _).mp h
      cases hkeys
      obtain ⟨hlength, hmem⟩ := ih hrest
      refine ⟨hlength, fun key' hkey' => ?_⟩
      obtain ⟨entry, hentry, rfl⟩ := hmem key' (by simpa using hkey')
      exact ⟨entry, List.mem_cons_of_mem _ hentry, rfl⟩
    · obtain ⟨inputSets', hset, h⟩ := (bind_eq_ok_iff _ _ _).mp h
      obtain ⟨⟨filled', keys'⟩, hrest, hkeys⟩ := (bind_eq_ok_iff _ _ _).mp h
      cases hkeys
      obtain ⟨hlength, hmem⟩ := ih hrest
      have hset' : inputSets'.length = inputSets.length := by
        rw [setAt] at hset
        split at hset
        · cases hset
          exact List.length_set
        · cases hset
      refine ⟨hlength.trans hset', fun key' hkey' => ?_⟩
      rcases List.mem_cons.mp hkey' with heq | hkey'
      · cases heq
        exact ⟨_, List.mem_cons_self, rfl⟩
      · obtain ⟨entry, hentry, rfl⟩ := hmem key' hkey'
        exact ⟨entry, List.mem_cons_of_mem _ hentry, rfl⟩

theorem removeKeys_keeps {keys : List (Option (Nat ×ₗ Nat))}
    {missingSets rest : OrderedMap (Nat ×ₗ Nat) (ShardingMode × Bool)}
    (h : removeKeys keys missingSets = some rest) :
    rest.len ≤ missingSets.len ∧ ∀ key entry, some key ∉ keys →
      missingSets.get? key = some entry → rest.get? key = some entry := by
  induction keys generalizing missingSets with
  | nil =>
    cases h
    exact ⟨Nat.le_refl _, fun _ _ _ hkey => hkey⟩
  | cons first keys ih =>
    cases first with
    | none => cases h
    | some first =>
      obtain ⟨hle, hget⟩ := ih h
      refine ⟨hle.trans (List.length_filter_le _ _), fun key entry hnew hkey => ?_⟩
      rw [List.mem_cons, not_or] at hnew
      apply hget key entry hnew.2
      exact (OrderedMap.get?_remove_eq_some_iff _ _ _ _).mpr
        ⟨fun heq => hnew.1 (congrArg some heq), hkey⟩

theorem receiveSet_eq {args : FunctionArgs Ctx} {id : Nat} {setOption : Option (CompositionSet Ctx)}
    {filled : FunctionInputs Ctx} {keys : List (Option (Nat ×ₗ Nat))}
    (hfill : fillMissing setOption (args.missing id) args.inputSets = .ok (filled, keys)) :
    receiveSet call id setOption args =
      match removeKeys keys args.missingSets with
      | none => .ok (none, (keys.filter Option.isNone).map
          fun _ => pure (skippedSets args.outputMapping), [])
      | some rest =>
        if rest.entries.isEmpty then
          .ok (none, (keys.filter Option.isNone).map
              (fun _ => pure (skippedSets args.outputMapping)) ++
              [FunctionArgs.start call { args with inputSets := filled, missingSets := rest }],
            [(args.application, filled)])
        else .ok (some { args with inputSets := filled, missingSets := rest },
          (keys.filter Option.isNone).map fun _ => pure (skippedSets args.outputMapping), []) := by
  rw [receiveSet, hfill]
  rfl

variable (call) in
/-- A starved application is skipped or waits on, whatever arrives. -/
theorem receiveSet_starved {args : FunctionArgs Ctx} (h : StarvedArgs starved args) {id : Nat}
    (setOption : Option (CompositionSet Ctx)) (hset : starved id → setOption = none) :
    ∃ kept awaited, receiveSet call id setOption args = .ok (kept, awaited, []) ∧
      (∀ args' ∈ kept.toList, StarvedArgs starved args') ∧
      (∀ result ∈ awaited, StarvedReport starved result) ∧
      rounds kept.toList awaited ≤ args.missingSets.len := by
  have hlt : ∀ entry ∈ args.missing id, (ofLex entry.1).2 < args.inputSets.length := by
    intro entry hentry
    exact h.inside _ _ ((mem_missing_iff _ _ _).mp hentry).1
  obtain ⟨filled, keys, hfill, hlength, hnone⟩ := @fillMissing_total _ setOption _ _ hlt
  obtain ⟨hfilled, hkeys⟩ := fillMissing_ok hfill
  have hskipped : ∀ result ∈ (keys.filter Option.isNone).map
      fun _ => (pure (skippedSets args.outputMapping) : DandelionResult (NewCompositions Ctx)),
      StarvedReport starved result := by
    intro result hresult
    obtain ⟨-, -, rfl⟩ := List.mem_map.mp hresult
    exact starvedReport_skipped h.outputs
  rw [receiveSet_eq hfill]
  cases hremove : removeKeys keys args.missingSets with
  | none =>
    refine ⟨none, _, rfl, fun args' h => absurd h List.not_mem_nil, hskipped, ?_⟩
    calc rounds [] ((keys.filter Option.isNone).map fun _ => _)
        = (keys.filter Option.isNone).length := by simp [rounds]
      _ ≤ keys.length := List.length_filter_le _ _
      _ = (args.missing id).length := hlength
      _ ≤ args.missingSets.len := List.length_filter_le _ _
  | some rest =>
    obtain ⟨hmarked, hget⟩ := removeKeys_eq_some hremove
    obtain ⟨hle, hkeeps⟩ := removeKeys_keeps hremove
    obtain ⟨key, entry, hkey, hstarved, hoptional⟩ := h.cut
    -- had the set of the cut arrived, it would have been without items
    have hother : some key ∉ keys := by
      intro hin
      obtain ⟨first, hfirst, rfl⟩ := hkeys key hin
      obtain ⟨hfirst', rfl⟩ := (mem_missing_iff _ _ _).mp hfirst
      rw [hkey] at hfirst'
      cases hfirst'
      exact hmarked (hnone (by rw [hset hstarved]; rfl) first hfirst hoptional)
    have hcut := hkeeps key entry hother hkey
    have hwaits : rest.entries.isEmpty = false := by
      rw [List.isEmpty_eq_false_iff]
      exact List.ne_nil_of_mem ((OrderedMap.get?_eq_some_iff _ _ _).mp hcut)
    have hnothing : keys.filter Option.isNone = [] := by
      rw [List.filter_eq_nil_iff]
      intro keyOption hin
      cases keyOption with
      | none => exact absurd hin hmarked
      | some key => simp
    refine ⟨some { args with inputSets := filled, missingSets := rest }, [], ?_, ?_,
      fun result h => absurd h List.not_mem_nil, by simpa [rounds] using hle⟩
    · simp only [hwaits, hnothing]
      rfl
    · intro args' hargs'
      obtain rfl := List.mem_singleton.mp hargs'
      refine ⟨h.outputs, fun key' entry' hkey' => ?_, key, entry, hcut, hstarved, hoptional⟩
      exact hfilled ▸ h.inside key' entry' (hget key' entry' hkey').2

theorem receiveSet_healthy (hcall : ReportsMapping call) {args : FunctionArgs Ctx}
    (h : HealthyArgs starved args) {id : Nat} {setOption : Option (CompositionSet Ctx)}
    {kept : Option (FunctionArgs Ctx)} {awaited : List (DandelionResult (NewCompositions Ctx))}
    {started : List (Nat × FunctionInputs Ctx)}
    (hok : receiveSet call id setOption args = .ok (kept, awaited, started)) :
    (∀ args' ∈ kept.toList, HealthyArgs starved args' ∧ args'.missingSets.entries ≠ []) ∧
      ∀ result ∈ awaited, HealthyReport starved result := by
  rw [receiveSet] at hok
  obtain ⟨⟨filled, keys⟩, -, hok⟩ := (bind_eq_ok_iff _ _ _).mp hok
  have hskipped : ∀ result ∈ (keys.filter Option.isNone).map
      fun _ => (pure (skippedSets args.outputMapping) : DandelionResult (NewCompositions Ctx)),
      HealthyReport starved result := by
    intro result hresult
    obtain ⟨-, -, rfl⟩ := List.mem_map.mp hresult
    exact healthyReport_skipped h.outputs
  cases hremove : removeKeys keys args.missingSets with
  | none =>
    simp only [hremove] at hok
    cases hok
    exact ⟨fun args' h => absurd h List.not_mem_nil, hskipped⟩
  | some rest =>
    simp only [hremove] at hok
    obtain ⟨-, hget⟩ := removeKeys_eq_some hremove
    have hrest : HealthyArgs starved { args with inputSets := filled, missingSets := rest } :=
      ⟨h.outputs, fun key entry hkey => h.reads key entry (hget key entry hkey).2⟩
    split at hok
    · cases hok
      refine ⟨fun args' h => absurd h List.not_mem_nil, fun result hresult => ?_⟩
      rcases List.mem_append.mp hresult with hresult | hresult
      · exact hskipped result hresult
      · obtain rfl := List.mem_singleton.mp hresult
        exact hrest.start hcall
    · next hempty =>
      cases hok
      refine ⟨fun args' hargs' => ?_, hskipped⟩
      obtain rfl := List.mem_singleton.mp hargs'
      exact ⟨hrest, by simpa using hempty⟩

/-- A starved set is nothing to an application that does not read it. -/
theorem receiveSet_unread {args : FunctionArgs Ctx} (h : HealthyArgs starved args)
    (hwaits : args.missingSets.entries ≠ []) {id : Nat} (hid : starved id)
    (setOption : Option (CompositionSet Ctx)) :
    receiveSet call id setOption args = .ok (some args, [], []) := by
  have hmissing : args.missing id = [] := by
    apply List.eq_nil_iff_forall_not_mem.mpr
    intro entry hentry
    obtain ⟨hget, rfl⟩ := (mem_missing_iff _ _ _).mp hentry
    exact h.reads _ _ hget hid
  have hfill : fillMissing setOption (args.missing id) args.inputSets =
      .ok (args.inputSets, ([] : List (Nat ×ₗ Nat)).map some) := by
    rw [hmissing]
    rfl
  rw [receiveSet_filled call hfill rfl, if_neg (by simpa using hwaits)]

/-- The same waiting applications, but for starved ones. -/
abbrev SameWaiting (starved : Nat → Prop) : List (FunctionArgs Ctx) → List (FunctionArgs Ctx) → Prop :=
  UpTo (fun args => HealthyArgs starved args ∧ args.missingSets.entries ≠ []) (StarvedArgs starved)

abbrev SameAwaited (starved : Nat → Prop) :
    List (DandelionResult (NewCompositions Ctx)) → List (DandelionResult (NewCompositions Ctx)) → Prop :=
  UpTo (HealthyReport starved) (StarvedReport starved)

theorem receiveAll_alike (hcall : ReportsMapping call) {functions functions' : List (FunctionArgs Ctx)}
    (h : SameWaiting starved functions functions') {id : Nat} (hid : ¬ starved id)
    (setOption : Option (CompositionSet Ctx)) :
    Alike (fun r r' => SameWaiting starved r.1 r'.1 ∧ SameAwaited starved r.2.1 r'.2.1)
      (receiveAll call id setOption functions) (receiveAll call id setOption functions') := by
  induction h with
  | nil => exact .ok ⟨.nil, .nil⟩
  | @both args functions functions' hargs _ ih =>
    rw [receiveAll, receiveAll]
    cases hreceive : receiveSet call id setOption args with
    | error stop => exact .stop stop
    | ok received =>
      obtain ⟨kept, awaited, started⟩ := received
      obtain ⟨hkept, hawaited⟩ := receiveSet_healthy hcall hargs.1 hreceive
      exact ih.bind fun r r' hr => .ok
        ⟨(upTo_refl hkept).append hr.1, (upTo_refl hawaited).append hr.2⟩
  | @left args functions functions' hargs _ ih =>
    obtain ⟨kept, awaited, hreceive, hkept, hawaited, -⟩ :=
      receiveSet_starved call hargs setOption fun h => absurd h hid
    rw [receiveAll, hreceive, ← bind_pure (receiveAll call id setOption functions')]
    exact ih.bind fun r r' hr => .ok
      ⟨(upTo_extra hkept).append hr.1, (upTo_extra hawaited).append hr.2⟩
  | @right args functions functions' hargs _ ih =>
    obtain ⟨kept, awaited, hreceive, hkept, hawaited, -⟩ :=
      receiveSet_starved call hargs setOption fun h => absurd h hid
    rw [receiveAll, hreceive, ← bind_pure (receiveAll call id setOption functions)]
    exact ih.bind fun r r' hr => .ok
      ⟨(upTo_extra hkept).symm.append hr.1, (upTo_extra hawaited).symm.append hr.2⟩

variable (call) in
/-- A starved set arrives in one run: only starved applications take notice. -/
theorem receiveAll_starved {functions functions' : List (FunctionArgs Ctx)}
    (h : SameWaiting starved functions functions') {id : Nat} (hid : starved id) :
    ∃ nonReady awaited started, receiveAll call id none functions = .ok (nonReady, awaited, started) ∧
      SameWaiting starved nonReady functions' ∧
      (∀ result ∈ awaited, StarvedReport starved result) ∧
      rounds nonReady awaited ≤ rounds functions [] := by
  induction h with
  | nil => exact ⟨[], [], [], rfl, .nil, fun result h => absurd h List.not_mem_nil, Nat.le_refl _⟩
  | @both args functions functions' hargs _ ih =>
    obtain ⟨nonReady, awaited, started, hrest, hsame, hawaited, hle⟩ := ih
    refine ⟨args :: nonReady, awaited, started,
      receiveAll_cons (receiveSet_unread hargs.1 hargs.2 hid none) hrest, .both hargs hsame,
      hawaited, ?_⟩
    simp only [rounds, List.map_cons, List.sum_cons] at hle ⊢
    omega
  | @left args functions functions' hargs _ ih =>
    obtain ⟨nonReady, awaited, started, hrest, hsame, hawaited, hle⟩ := ih
    obtain ⟨kept, awaited', hreceive, hkept, hawaited', hle'⟩ :=
      receiveSet_starved call hargs none fun _ => rfl
    refine ⟨kept.toList ++ nonReady, awaited' ++ awaited, [] ++ started,
      receiveAll_cons hreceive hrest, (upTo_extra hkept).append hsame,
      List.forall_mem_append.mpr ⟨hawaited', hawaited⟩, ?_⟩
    simp only [rounds, List.length_append, List.map_append, List.sum_append, List.map_cons,
      List.sum_cons, List.length_nil] at hle hle' ⊢
    omega
  | right hargs _ ih =>
    obtain ⟨nonReady, awaited, started, hrest, hsame, hawaited, hle⟩ := ih
    exact ⟨nonReady, awaited, started, hrest, .right hargs hsame, hawaited, hle⟩

variable {outputMap : OrderedMap Nat Nat}

/-- Two runs that differ in starved applications and in the futures that report them. -/
structure SameBut (outputMap : OrderedMap Nat Nat) (starved : Nat → Prop) (s t : DispatchState Ctx) :
    Prop where
  outputs : t.outputSets = s.outputSets
  blank : ∀ id index, starved id → outputMap.get? id = some index →
    s.outputSets[index]? = some none
  nonReady : SameWaiting starved s.nonReadyFunctions t.nonReadyFunctions
  awaited : SameAwaited starved s.awaitedSets t.awaitedSets

theorem SameBut.symm {s t : DispatchState Ctx} (h : SameBut outputMap starved s t) :
    SameBut outputMap starved t s :=
  ⟨h.outputs.symm, h.outputs ▸ h.blank, h.nonReady.symm, h.awaited.symm⟩

section Delivering

variable (hcall : ReportsMapping call)
  (hshared : ∀ id id' index, starved id → outputMap.get? id = some index →
    outputMap.get? id' = some index → starved id')

include hcall hshared in
theorem deliver_healthy {s t : DispatchState Ctx} (h : SameBut outputMap starved s t)
    {new : Nat × Option (CompositionSet Ctx)} (hnew : ¬ starved new.1) :
    Alike (SameBut outputMap starved) (deliver call outputMap s new)
      (deliver call outputMap t new) := by
  rw [deliver, deliver, h.outputs]
  cases hwrite : writeOutput outputMap s.outputSets new.1 new.2 with
  | error stop => exact .stop stop
  | ok written =>
    have hblank : ∀ id index, starved id → outputMap.get? id = some index →
        written[index]? = some none := by
      intro id index hid hindex
      rw [(writeOutput_ok hwrite).2.1 index fun hindex' => hnew (hshared _ _ _ hid hindex hindex')]
      exact h.blank id index hid hindex
    exact (receiveAll_alike hcall h.nonReady hnew new.2).bind fun r r' hr => .ok
      ⟨rfl, hblank, hr.1, h.awaited.append hr.2⟩

include hcall hshared in
theorem deliverAll_healthy (report : NewCompositions Ctx) {s t : DispatchState Ctx}
    (h : SameBut outputMap starved s t) (hreport : ∀ new ∈ report, ¬ starved new.1) :
    Alike (SameBut outputMap starved) (deliverAll call outputMap report s)
      (deliverAll call outputMap report t) := by
  induction report generalizing s t with
  | nil => exact .ok h
  | cons new report ih =>
    obtain ⟨hnew, hreport⟩ := List.forall_mem_cons.mp hreport
    rw [deliverAll, deliverAll]
    exact (deliver_healthy hcall hshared h hnew).bind fun s' t' h' => ih h' hreport

variable (call) in
theorem deliver_starved {s t : DispatchState Ctx} (h : SameBut outputMap starved s t)
    {new : Nat × Option (CompositionSet Ctx)} (hnew : starved new.1) (hnone : new.2 = none) :
    ∃ s', deliver call outputMap s new = .ok s' ∧ SameBut outputMap starved s' t ∧
      s'.rounds ≤ s.rounds := by
  obtain ⟨id, setOption⟩ := new
  obtain rfl : setOption = none := hnone
  have hwrite : writeOutput outputMap s.outputSets id none = .ok s.outputSets := by
    rw [writeOutput]
    cases hindex : outputMap.get? id with
    | none => rfl
    | some index =>
      have hblank := h.blank id index hnew hindex
      obtain ⟨hlt, hget⟩ := List.getElem?_eq_some_iff.mp hblank
      simp only [setAt_of_lt hlt]
      congr 1
      rw [← hget]
      exact List.set_getElem_self hlt
  obtain ⟨nonReady, awaited, started, hreceive, hsame, hawaited, hle⟩ :=
    receiveAll_starved call h.nonReady hnew
  refine ⟨⟨s.outputSets, nonReady, s.awaitedSets ++ awaited, s.started ++ started⟩,
    deliver_eq hwrite hreceive, ⟨h.outputs, h.blank, hsame, ?_⟩, ?_⟩
  · have hextra : SameAwaited starved awaited [] := upTo_extra hawaited
    have happend := h.awaited.append hextra
    rwa [List.append_nil] at happend
  · simp only [DispatchState.rounds, rounds, List.length_append, List.length_nil] at hle ⊢
    omega

variable (call) in
theorem deliverAll_starved (report : NewCompositions Ctx) {s t : DispatchState Ctx}
    (h : SameBut outputMap starved s t) (hreport : ∀ new ∈ report, starved new.1 ∧ new.2 = none) :
    ∃ s', deliverAll call outputMap report s = .ok s' ∧ SameBut outputMap starved s' t ∧
      s'.rounds ≤ s.rounds := by
  induction report generalizing s with
  | nil => exact ⟨s, rfl, h, Nat.le_refl _⟩
  | cons new report ih =>
    obtain ⟨hnew, hreport⟩ := List.forall_mem_cons.mp hreport
    obtain ⟨next, hdeliver, hnext, hle⟩ := deliver_starved call h hnew.1 hnew.2
    obtain ⟨last, hlast, hsame, hle'⟩ := ih hnext hreport
    refine ⟨last, ?_, hsame, hle'.trans hle⟩
    rw [deliverAll, hdeliver]
    exact hlast

variable (call) in
theorem finishes_starved {s t : DispatchState Ctx} {i : Nat}
    {result : DandelionResult (NewCompositions Ctx)} (hi : s.awaitedSets[i]? = some result)
    (hresult : StarvedReport starved result)
    (h : SameBut outputMap starved { s with awaitedSets := s.awaitedSets.eraseIdx i } t) :
    ∃ s', Finishes call outputMap s s' ∧ SameBut outputMap starved s' t ∧ s'.rounds < s.rounds := by
  obtain ⟨report, rfl, hreport⟩ := hresult
  obtain ⟨s', hdeliver, hsame, hle⟩ := deliverAll_starved call report h hreport
  refine ⟨s', ⟨i, report, hi, hdeliver⟩, hsame, hle.trans_lt ?_⟩
  have hlt := (List.getElem?_eq_some_iff.mp hi).1
  simp only [DispatchState.rounds, rounds, List.length_eraseIdx_of_lt hlt]
  omega

include hcall hshared in
theorem finishes_follow {s s' t : DispatchState Ctx} (h : SameBut outputMap starved s t)
    (hstep : Finishes call outputMap s s') :
    ∃ t', Reaches (Finishes call outputMap) t t' ∧ SameBut outputMap starved s' t' := by
  obtain ⟨i, report, hi, hdeliver⟩ := hstep
  rcases h.awaited.eraseIdx hi with ⟨⟨report', heq, hreport⟩, herased⟩ | ⟨hreport, j, hj, herased⟩
  · cases heq
    have htaken : SameBut outputMap starved { s with awaitedSets := s.awaitedSets.eraseIdx i } t :=
      ⟨h.outputs, h.blank, h.nonReady, herased⟩
    obtain ⟨u, hdeliver', hsame, -⟩ := deliverAll_starved call report htaken hreport
    rw [hdeliver] at hdeliver'
    cases hdeliver'
    exact ⟨t, .refl t, hsame⟩
  · have htaken : SameBut outputMap starved { s with awaitedSets := s.awaitedSets.eraseIdx i }
        { t with awaitedSets := t.awaitedSets.eraseIdx j } :=
      ⟨h.outputs, h.blank, h.nonReady, herased⟩
    have halike := deliverAll_healthy hcall hshared report htaken (hreport report rfl)
    obtain ⟨t', hdeliver', hsame⟩ := halike.exists_ok hdeliver
    exact ⟨t', Relation.ReflTransGen.single ⟨j, report, hj, hdeliver'⟩, hsame⟩

include hcall hshared in
theorem SameBut.outputs_of_reaches {s s' t : DispatchState Ctx} (h : SameBut outputMap starved s t)
    (hreaches : Reaches (Finishes call outputMap) s s') (hdone : s'.awaitedSets = []) :
    ∃ t', Reaches (Finishes call outputMap) t t' ∧ t'.awaitedSets = [] ∧
      t'.outputSets = s'.outputSets := by
  obtain ⟨u, hu, hsame⟩ :=
    hreaches.follow (fun _ _ _ hR hstep => finishes_follow hcall hshared hR hstep) h
  -- what is left of the other run are futures with starved reports
  have hflush : ∀ v, SameBut outputMap starved v s' → v.awaitedSets = [] ∨
      ∃ w, Finishes call outputMap v w ∧ SameBut outputMap starved w s' ∧ w.rounds < v.rounds := by
    intro v hv
    cases hawaited : v.awaitedSets with
    | nil => exact .inl rfl
    | cons result rest =>
      right
      have hall := hv.awaited
      rw [hdone] at hall
      have hextra := hall.forall_extra
      apply finishes_starved call (i := 0) (by rw [hawaited]; rfl)
        (hextra result (by rw [hawaited]; exact List.mem_cons_self))
      refine ⟨hv.outputs, hv.blank, hv.nonReady, ?_⟩
      rw [hdone]
      exact upTo_extra fun result' hresult' => hextra result' (List.mem_of_mem_eraseIdx hresult')
  obtain ⟨t', ht', hsame', hdone'⟩ := exists_reaches_done DispatchState.rounds hflush hsame.symm
  exact ⟨t', Relation.ReflTransGen.trans hu ht', hdone', hsame'.outputs.symm⟩

end Delivering

end Receiving

section Start

variable {Ctx : Type} (dependencies : List FunctionDependencies) (count : Nat)

/-- The sets that have no items if the first `count` ones have none: those of applications
that do not run without one of them. -/
inductive Starved : Nat → Prop
  | parameter {id : Nat} (h : id < count) : Starved id
  | output {deps : FunctionDependencies} {descriptor : InputSetDescriptor} {id : Nat}
      (hdeps : deps ∈ dependencies) (hdescriptor : some descriptor ∈ deps.inputSetIds)
      (hoptional : descriptor.optional = false) (hstarved : Starved descriptor.compositionId)
      (hid : some id ∈ deps.outputSetIds) : Starved id

/-- The application has a starved input that is not optional. -/
def Cut (deps : FunctionDependencies) : Prop :=
  ∃ descriptor, some descriptor ∈ deps.inputSetIds ∧ descriptor.optional = false ∧
    Starved dependencies count descriptor.compositionId

/-- Whatever has to do with a starved set is skipped, and what is returned of it is absent. -/
structure SkipsStarved (composition : Composition) (inputs : List (Option (CompositionSet Ctx))) :
    Prop where
  readers : ∀ deps ∈ composition.dependencies, ∀ descriptor, some descriptor ∈ deps.inputSetIds →
    Starved composition.dependencies inputs.length descriptor.compositionId →
      Cut composition.dependencies inputs.length deps
  assigners : ∀ deps ∈ composition.dependencies, ∀ id, some id ∈ deps.outputSetIds →
    Starved composition.dependencies inputs.length id →
      Cut composition.dependencies inputs.length deps
  returned : ∀ id index, Starved composition.dependencies inputs.length id →
    composition.outputMap.get? id = some index → index < composition.outputMap.len ∧
      ∀ id', composition.outputMap.get? id' = some index →
        Starved composition.dependencies inputs.length id'
  parameters : ∀ id index set, composition.outputMap.get? id = some index →
    inputs[id]? ≠ some (some set)

variable {dependencies count} {inputs : List (Option (CompositionSet Ctx))}

/-- An application that is cut waits for a starved set, when no input has items. -/
theorem Waiting.starvedArgs (hempty : ∀ setOption ∈ inputs, noItems setOption = true)
    {deps : FunctionDependencies} (hdeps : deps ∈ dependencies) (hcut : Cut dependencies count deps)
    {args : FunctionArgs Ctx}
    (h : Waiting (List.range inputs.length) (fun id => (inputs[id]?).join) deps args) :
    StarvedArgs (Starved dependencies count) args := by
  obtain ⟨descriptor, hdescriptor, hoptional, hstarved⟩ := hcut
  have hnew : descriptor.compositionId ∉ List.range inputs.length := by
    intro hin
    have hitems := h.supplied descriptor hdescriptor hin hoptional
    have hlt := List.mem_range.mp hin
    rw [List.getElem?_eq_getElem hlt, Option.join_some, hempty _ (List.getElem_mem hlt)] at hitems
    cases hitems
  obtain ⟨j, hj⟩ := List.mem_iff_getElem?.mp hdescriptor
  refine ⟨fun id hid => ?_, fun key entry hkey => ?_, ?_⟩
  · rw [h.outputMapping] at hid
    exact .output hdeps hdescriptor hoptional hstarved hid
  · obtain ⟨descriptor', hdescriptor', -⟩ := (h.missing key entry).mp hkey
    rw [h.inputSets, filledInputs, List.length_map]
    exact (List.getElem?_eq_some_iff.mp hdescriptor').1
  · exact ⟨toLex (descriptor.compositionId, j), (descriptor.sharding, descriptor.optional),
      (h.missing _ _).mpr ⟨descriptor, hj, rfl, hnew, rfl⟩, hstarved, hoptional⟩

theorem prepareFunctions_starved (hempty : ∀ setOption ∈ inputs, noItems setOption = true)
    {deps : FunctionDependencies} (hdeps : deps ∈ dependencies) (hcut : Cut dependencies count deps)
    {rest : List FunctionDependencies} {application : Nat} {functions : List (FunctionArgs Ctx)}
    {skipped : List (NewCompositions Ctx)}
    (hrest : prepareFunctions inputs rest (application + 1) = .ok (functions, skipped)) :
    ∃ first firstSkipped, prepareFunctions inputs (deps :: rest) application =
        .ok (first ++ functions, firstSkipped ++ skipped) ∧
      (∀ args ∈ first, StarvedArgs (Starved dependencies count) args) ∧
      ∀ report ∈ firstSkipped, StarvedReport (Starved dependencies count) (.ok report) := by
  rcases readyInputs_cases inputs deps with ⟨hready, -⟩ | ⟨missingSets, inputSets, hready, hwaiting⟩
  · refine ⟨[], [skippedSets deps.outputSetIds], prepareFunctions_skip hrest hready,
      fun args h => absurd h List.not_mem_nil, fun report hreport => ?_⟩
    obtain rfl := List.mem_singleton.mp hreport
    obtain ⟨descriptor, hdescriptor, hoptional, hstarved⟩ := hcut
    exact starvedReport_skipped fun id hid => .output hdeps hdescriptor hoptional hstarved hid
  · refine ⟨[_], [], prepareFunctions_wait hrest hready, fun args hargs => ?_,
      fun report h => absurd h List.not_mem_nil⟩
    obtain rfl := List.mem_singleton.mp hargs
    exact (hwaiting application).starvedArgs hempty hdeps hcut

/-- An application that reads no starved set looks the same to both runs. -/
theorem readyInputs_unread {deps : FunctionDependencies}
    (hreads : ∀ descriptor, some descriptor ∈ deps.inputSetIds →
      ¬ Starved dependencies inputs.length descriptor.compositionId) :
    readyInputs inputs deps.inputSetIds 0 .empty (List.replicate deps.inputSetIds.length none) =
      readyInputs [] deps.inputSetIds 0 .empty (List.replicate deps.inputSetIds.length none) := by
  have hunread : ∀ descriptor, some descriptor ∈ deps.inputSetIds →
      descriptor.compositionId < ([] : List (Option (CompositionSet Ctx))).length ∨
        ([] : List (Option (CompositionSet Ctx))).length + inputs.length ≤ descriptor.compositionId := by
    intro descriptor hdescriptor
    right
    rw [List.length_nil, Nat.zero_add]
    exact Nat.le_of_not_lt fun hlt => hreads descriptor hdescriptor (.parameter hlt)
  exact readyInputs_append hunread 0 .empty _

theorem readyInputs_healthy {deps : FunctionDependencies}
    (hreads : ∀ descriptor, some descriptor ∈ deps.inputSetIds →
      ¬ Starved dependencies count descriptor.compositionId)
    (hassigns : ∀ id, some id ∈ deps.outputSetIds → ¬ Starved dependencies count id) :
    ∃ missingSets inputSets,
      readyInputs ([] : List (Option (CompositionSet Ctx))) deps.inputSetIds 0 .empty
        (List.replicate deps.inputSetIds.length none) = .ok (some (missingSets, inputSets)) ∧
      ∀ application, HealthyArgs (Starved dependencies count)
        ({ application, functionId := deps.function, inputSets, joinInfo := deps.joinInfo,
           outputMapping := deps.outputSetIds, missingSets } : FunctionArgs Ctx) := by
  rcases readyInputs_cases ([] : List (Option (CompositionSet Ctx))) deps with
    ⟨-, descriptor, -, hin, -⟩ | ⟨missingSets, inputSets, hready, hwaiting⟩
  · exact absurd hin List.not_mem_nil
  · refine ⟨missingSets, inputSets, hready, fun application => ⟨hassigns, fun key entry hkey => ?_⟩⟩
    obtain ⟨descriptor, hdescriptor, hid, -⟩ := ((hwaiting application).missing key entry).mp hkey
    exact hid ▸ hreads descriptor (List.mem_of_getElem? hdescriptor)

theorem prepareFunctions_same (hempty : ∀ setOption ∈ inputs, noItems setOption = true)
    (hreaders : ∀ deps ∈ dependencies, ∀ descriptor, some descriptor ∈ deps.inputSetIds →
      Starved dependencies inputs.length descriptor.compositionId →
        Cut dependencies inputs.length deps)
    (hassigners : ∀ deps ∈ dependencies, ∀ id, some id ∈ deps.outputSetIds →
      Starved dependencies inputs.length id → Cut dependencies inputs.length deps)
    (rest : List FunctionDependencies) (hrest : ∀ deps ∈ rest, deps ∈ dependencies)
    (application : Nat) :
    ∃ functions functions' skipped skipped',
      prepareFunctions inputs rest application = .ok (functions, skipped) ∧
      prepareFunctions ([] : List (Option (CompositionSet Ctx))) rest application =
        .ok (functions', skipped') ∧
      UpTo (HealthyArgs (Starved dependencies inputs.length))
        (StarvedArgs (Starved dependencies inputs.length)) functions functions' ∧
      SameAwaited (Starved dependencies inputs.length) (skipped.map .ok) (skipped'.map .ok) := by
  induction rest generalizing application with
  | nil => exact ⟨[], [], [], [], rfl, rfl, .nil, .nil⟩
  | cons deps rest ih =>
    obtain ⟨hdeps, hrest⟩ := List.forall_mem_cons.mp hrest
    obtain ⟨functions, functions', skipped, skipped', hprepare, hprepare', hsame, hskipped⟩ :=
      ih hrest (application + 1)
    by_cases hcut : Cut dependencies inputs.length deps
    · obtain ⟨first, report, hfirst, hargs, hreport⟩ :=
        prepareFunctions_starved hempty hdeps hcut hprepare
      obtain ⟨first', report', hfirst', hargs', hreport'⟩ :=
        prepareFunctions_starved (fun setOption h => absurd h List.not_mem_nil) hdeps hcut hprepare'
      refine ⟨_, _, _, _, hfirst, hfirst', ?_, ?_⟩
      · exact (upTo_extra hargs).append ((upTo_extra hargs').symm.append hsame)
      · have hextra : SameAwaited (Starved dependencies inputs.length) (report.map .ok) [] :=
          upTo_extra (List.forall_mem_map.mpr hreport)
        have hextra' : SameAwaited (Starved dependencies inputs.length) (report'.map .ok) [] :=
          upTo_extra (List.forall_mem_map.mpr hreport')
        rw [List.map_append, List.map_append]
        exact hextra.append (hextra'.symm.append hskipped)
    · have hreads : ∀ descriptor, some descriptor ∈ deps.inputSetIds →
          ¬ Starved dependencies inputs.length descriptor.compositionId :=
        fun descriptor hdescriptor h => hcut (hreaders deps hdeps descriptor hdescriptor h)
      have hassigns : ∀ id, some id ∈ deps.outputSetIds → ¬ Starved dependencies inputs.length id :=
        fun id hid h => hcut (hassigners deps hdeps id hid h)
      obtain ⟨missingSets, inputSets, hready, hhealthy⟩ := readyInputs_healthy hreads hassigns
      exact ⟨_, _, skipped, skipped',
        prepareFunctions_wait hprepare ((readyInputs_unread hreads).trans hready),
        prepareFunctions_wait hprepare' hready, .both (hhealthy application) hsame, hskipped⟩

variable {composition : Composition}

theorem presetOutputs_blank {outputMap : OrderedMap Nat Nat} {total : Nat}
    (inputs : List (Option (CompositionSet Ctx))) {first : Nat}
    (hblank : ∀ j setOption index, inputs[j]? = some setOption →
      outputMap.get? (first + j) = some index → index < total ∧ setOption = none) :
    presetOutputs outputMap inputs first (List.replicate total none) =
      .ok (List.replicate total none) := by
  induction inputs generalizing first with
  | nil => rfl
  | cons input inputs ih =>
    have hwrite : writeOutput outputMap (List.replicate total none) first input =
        .ok (List.replicate total none) := by
      rw [writeOutput]
      cases hindex : outputMap.get? first with
      | none => rfl
      | some index =>
        obtain ⟨hlt, rfl⟩ := hblank 0 input index rfl hindex
        have hlt' : index < (List.replicate total (none : Option (CompositionSet Ctx))).length := by
          rwa [List.length_replicate]
        simp only [setAt_of_lt hlt', List.set_replicate_self]
    rw [presetOutputs, hwrite]
    apply ih
    intro j setOption index hj hindex
    rw [Nat.add_assoc, Nat.add_comm 1 j] at hindex
    exact hblank (j + 1) setOption index hj hindex

variable {call : ShardedCall Ctx}

theorem initialState_sameBut (hcall : ReportsMapping call)
    (hempty : ∀ setOption ∈ inputs, noItems setOption = true)
    (h : SkipsStarved composition inputs) :
    ∃ s t, initialState call composition inputs = .ok s ∧ initialState call composition [] = .ok t ∧
      SameBut composition.outputMap (Starved composition.dependencies inputs.length) s t := by
  have hpreset : presetOutputs composition.outputMap inputs 0
      (List.replicate composition.outputMap.len none) =
        .ok (List.replicate composition.outputMap.len none) := by
    apply presetOutputs_blank
    intro j setOption index hj hindex
    rw [Nat.zero_add] at hindex
    have hlt := (List.getElem?_eq_some_iff.mp hj).1
    refine ⟨(h.returned j index (.parameter hlt) hindex).1, ?_⟩
    cases setOption with
    | none => rfl
    | some set => exact absurd hj (h.parameters j index set hindex)
  obtain ⟨functions, functions', skipped, skipped', hprepare, hprepare', hsame, hskipped⟩ :=
    prepareFunctions_same hempty h.readers h.assigners composition.dependencies (fun _ h => h) 0
  refine ⟨_, _, initialState_eq call hpreset hprepare, initialState_eq call rfl hprepare', rfl,
    fun id index hid hindex => ?_, ?_, hskipped.append ?_⟩
  · exact List.getElem?_replicate_of_lt (h.returned id index hid hindex).1
  · exact (hsame.filter _).mono (fun args hargs => ⟨hargs.1, by simpa using hargs.2⟩)
      fun args hargs => hargs.1
  · -- a starved application is not ready
    refine (hsame.filter _).map _ (fun args hargs => hargs.1.start hcall) fun args hargs => ?_
    obtain ⟨⟨-, -, key, entry, hkey, -⟩, hready⟩ := hargs
    have hmem := (OrderedMap.get?_eq_some_iff _ _ _).mp hkey
    rw [List.isEmpty_iff.mp hready] at hmem
    exact absurd hmem List.not_mem_nil

/-- A run from one of two states that are alike, for a composition that starts in the other. -/
theorem SameBut.queueComposition_ok {starved : Nat → Prop} (hcall : ReportsMapping call)
    (hshared : ∀ id id' index, starved id → composition.outputMap.get? id = some index →
      composition.outputMap.get? id' = some index → starved id')
    {s t : DispatchState Ctx} (h : SameBut composition.outputMap starved s t)
    (ht : initialState call composition inputs = .ok t) {order : Nat → Nat} {fuel : Nat}
    {state : DispatchState Ctx}
    (hloop : loop (awaitNext call composition.outputMap) fuel (s, order) = .ok state) :
    ∃ order fuel state', queueComposition call composition inputs order fuel = .ok state' ∧
      state'.outputSets = state.outputSets := by
  obtain ⟨hreaches, hdone⟩ := (loop_iff_reaches s state).mp ⟨order, fuel, hloop⟩
  obtain ⟨state', hreaches', hdone', houtputs⟩ :=
    h.outputs_of_reaches hcall hshared hreaches hdone
  obtain ⟨order', fuel', hloop'⟩ := (loop_iff_reaches t state').mpr ⟨hreaches', hdone'⟩
  refine ⟨order', fuel', state', ?_, houtputs⟩
  rw [queueComposition, ht]
  exact hloop'

/-- Without items the inputs make no difference to what is returned. -/
theorem queueComposition_empty (hcall : ReportsMapping call)
    (hempty : ∀ setOption ∈ inputs, noItems setOption = true)
    (h : SkipsStarved composition inputs) (outputs : List (Option (CompositionSet Ctx))) :
    (∃ order fuel state, queueComposition call composition [] order fuel = .ok state ∧
        state.outputSets = outputs) ↔
      ∃ order fuel state, queueComposition call composition inputs order fuel = .ok state ∧
        state.outputSets = outputs := by
  obtain ⟨s, t, hs, ht, hsame⟩ := initialState_sameBut hcall hempty h
  have hshared : ∀ id id' index, Starved composition.dependencies inputs.length id →
      composition.outputMap.get? id = some index → composition.outputMap.get? id' = some index →
        Starved composition.dependencies inputs.length id' :=
    fun id id' index hid hindex => (h.returned id index hid hindex).2 id'
  constructor
  · rintro ⟨order, fuel, state, hrun, rfl⟩
    rw [queueComposition, ht] at hrun
    exact hsame.symm.queueComposition_ok hcall hshared hs hrun
  · rintro ⟨order, fuel, state, hrun, rfl⟩
    rw [queueComposition, hs] at hrun
    exact hsame.queueComposition_ok hcall hshared ht hrun

end Start

section Nested

variable {Ctx : Type}

theorem reportsMapping_queueFunctionSharded (queueFunction : FunctionCall Ctx) :
    ReportsMapping (queueFunctionSharded queueFunction) := by
  intro functionId inputSets joinInfo outputMapping report hok new hnew
  rw [queueFunctionSharded] at hok
  obtain ⟨results, -, hok⟩ := (bind_eq_ok_iff _ _ _).mp hok
  obtain ⟨sets, -, hok⟩ := (bind_eq_ok_iff _ _ _).mp hok
  cases hok
  obtain ⟨pair, hpair, hid⟩ := List.mem_filterMap.mp hnew
  obtain ⟨id, heq, rfl⟩ := Option.map_eq_some_iff.mp hid
  exact heq ▸ (List.of_mem_zip hpair).1

theorem isSharded_of_noItems {inputSets : FunctionInputs Ctx}
    (h : ∀ setOption ∈ inputSets.map (Option.map Prod.snd), noItems setOption = true) :
    isSharded inputSets = false := by
  rw [isSharded, Bool.and_eq_false_iff]
  right
  rw [List.any_eq_false]
  intro input hinput
  have hempty := h _ (List.mem_map_of_mem hinput)
  cases input with
  | none => exact Bool.false_ne_true
  | some input => simpa [noItems] using hempty

variable {functions : String → Option FunctionType} {composition : Composition} {name : String}

/-- A composition that is called without items runs without inputs. -/
theorem queueFunctionSharded_noItems (runOnEngine : FunctionCall Ctx) (call : ShardedCall Ctx)
    (hregistered : functions name = some (.composition composition)) {inputSets : FunctionInputs Ctx}
    (hempty : ∀ setOption ∈ inputSets.map (Option.map Prod.snd), noItems setOption = true)
    (joinInfo : List Nat × List JoinStrategy) (outputMapping : List (Option Nat))
    (order : Nat → Nat) (fuel : Nat) (report : NewCompositions Ctx) :
    queueFunctionSharded (queueFunction functions runOnEngine call order fuel) name inputSets joinInfo
        outputMapping = .ok report ↔
      ∃ state, queueComposition call composition [] order fuel = .ok state ∧
        associate outputMapping state.outputSets = report := by
  rw [queueFunctionSharded, compositionResults, isSharded_of_noItems hempty]
  simp only [queueFunction, hregistered]
  cases hrun : queueComposition call composition [] order fuel with
  | error stop =>
    constructor
    · exact fun h => by cases h
    · rintro ⟨state, hstate, -⟩
      cases hstate
  | ok state =>
    constructor
    · intro h
      cases h
      exact ⟨state, rfl, rfl⟩
    · rintro ⟨state', hstate, rfl⟩
      cases hstate
      rfl

/-- A composition that skips what is starved reports the same when it is called from a
composition as when it is called directly. -/
theorem queueFunctionSharded_nested_skips (runOnEngine callee : FunctionCall Ctx)
    (hregistered : functions name = some (.composition composition)) {inputSets : FunctionInputs Ctx}
    (hempty : ∀ setOption ∈ inputSets.map (Option.map Prod.snd), noItems setOption = true)
    (hskips : SkipsStarved composition (inputSets.map (Option.map Prod.snd)))
    (joinInfo : List Nat × List JoinStrategy) (outputMapping : List (Option Nat))
    (report : NewCompositions Ctx) :
    (∃ order fuel, queueFunctionSharded
        (queueFunction functions runOnEngine (queueFunctionSharded callee) order fuel) name inputSets
          joinInfo outputMapping = .ok report) ↔
      ∃ order fuel state, queueComposition (queueFunctionSharded callee) composition
          (inputSets.map (Option.map Prod.snd)) order fuel = .ok state ∧
        associate outputMapping state.outputSets = report := by
  have hsame := queueComposition_empty (reportsMapping_queueFunctionSharded callee) hempty hskips
  constructor
  · rintro ⟨order, fuel, hnested⟩
    obtain ⟨state, hrun, hreport⟩ := (queueFunctionSharded_noItems runOnEngine _ hregistered hempty
      joinInfo outputMapping order fuel report).mp hnested
    obtain ⟨order', fuel', state', hrun', houtputs⟩ :=
      (hsame state.outputSets).mp ⟨order, fuel, state, hrun, rfl⟩
    exact ⟨order', fuel', state', hrun', by rw [houtputs, hreport]⟩
  · rintro ⟨order, fuel, state, hrun, hreport⟩
    obtain ⟨order', fuel', state', hrun', houtputs⟩ :=
      (hsame state.outputSets).mpr ⟨order, fuel, state, hrun, rfl⟩
    refine ⟨order', fuel', (queueFunctionSharded_noItems runOnEngine _ hregistered hempty
      joinInfo outputMapping order' fuel' report).mpr ⟨state', hrun', ?_⟩⟩
    rw [houtputs, hreport]

end Nested

/-- A function that returns one set, whatever it is given. -/
def constantFunction : FunctionCall Unit := fun _ _ =>
  pure [some (CompositionSet.ofKeys [1] (by decide))]

theorem forwardOnce_nested :
    ∃ order fuel, queueFunctionSharded
      (queueFunction (fun name => if name = "C" then some (.composition forwardOnce) else some .function)
        constantFunction (queueFunctionSharded constantFunction) order fuel)
      "C" [some (.all, CompositionSet.ofKeys [] (by decide))] ([], []) [some 5] = .ok [(5, none)] := by
  have hindex : ∀ id index, forwardOnce.outputMap.get? id = some index → id = 1 ∧ index = 0 := by
    intro id index h
    have hmem := (OrderedMap.get?_eq_some_iff _ _ _).mp h
    cases List.mem_singleton.mp hmem
    exact ⟨rfl, rfl⟩
  have hcut : Cut forwardOnce.dependencies 1 (forwardDependencies 0 1) :=
    ⟨_, List.mem_singleton_self _, rfl, .parameter Nat.one_pos⟩
  refine (queueFunctionSharded_nested_skips constantFunction constantFunction rfl ?_
    ⟨?_, ?_, ?_, ?_⟩ _ _ _).mpr ⟨fun _ => 0, 2, _, rfl, rfl⟩
  · intro setOption hset
    obtain rfl := List.mem_singleton.mp hset
    rfl
  · intro deps hdeps _ _ _
    obtain rfl := List.mem_singleton.mp hdeps
    exact hcut
  · intro deps hdeps _ _ _
    obtain rfl := List.mem_singleton.mp hdeps
    exact hcut
  · intro id index hid h
    obtain ⟨rfl, rfl⟩ := hindex id index h
    refine ⟨Nat.one_pos, fun id' h' => ?_⟩
    obtain ⟨rfl, -⟩ := hindex id' 0 h'
    exact hid
  · intro id index set h
    obtain ⟨rfl, rfl⟩ := hindex id index h
    exact fun hset => by cases hset

/-- What is registered for `composition C(A) => (B) { F(x = optional all A) => (B = y); }` -/
def optionalOnce : Composition where
  dependencies := [⟨"F", [some ⟨0, .all, true⟩], ([], []), [some 1]⟩]
  outputMap := .single 1 0

/-- Called directly the composition runs its function without the optional set, but not when it
is called from a composition. -/
theorem optional_parameter_not_nested :
    FunctionRegistry.compositionFromModule ⟨fun name => name = "F", fun _ => true⟩
        [.functionDecl forwardDecl,
          .composition ⟨"C", ["A"], ["B"], [.functionApplication
            ⟨"F", [⟨"x", "A", .all, true⟩], [⟨"B", "y"⟩], none⟩]⟩] =
      .ok [("C", optionalOnce, ⟨["A"], ["B"]⟩)] ∧
    (∃ state, queueComposition (queueFunctionSharded constantFunction) optionalOnce [none]
        (fun _ => 0) 2 = .ok state ∧
      associate [some 5] state.outputSets = [(5, some (CompositionSet.ofKeys [1] (by decide)))]) ∧
    ∀ order fuel report, queueFunctionSharded
        (queueFunction
          (fun name => if name = "C" then some (.composition optionalOnce) else some .function)
          constantFunction (queueFunctionSharded constantFunction) order fuel)
        "C" [none] ([], []) [some 5] = .ok report → report = [(5, none)] := by
  refine ⟨by decide, ⟨_, rfl, rfl⟩, fun order fuel report h => ?_⟩
  cases fuel with
  | zero => cases h
  | succ fuel =>
    cases h
    rfl

end Dandelion
