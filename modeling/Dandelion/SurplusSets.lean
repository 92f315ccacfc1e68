import Dandelion.CompositionMeaning
import Dandelion.ReportedSets

/-!
# Surplus input sets

The input sets of a composition and its other sets share one numbering, and the dispatcher
takes every set of the inputs for the one with its number. A run with more sets than the
composition has parameters goes alike the run without them if no application takes a set with a
surplus number, and every returned set with such a number is reported.
-/

namespace Dandelion

open Outcome

section Surplus

variable {Ctx : Type} {outputMap : OrderedMap Nat Nat} {surplus : Nat → Prop}

/-- The outputs agree but for surplus sets whose number has not arrived. -/
structure OutputsAgree (outputMap : OrderedMap Nat Nat) (surplus : Nat → Prop) (arrived : List Nat)
    (outputSets outputSets' : List (Option (CompositionSet Ctx))) : Prop where
  length : outputSets.length = outputMap.len
  length' : outputSets'.length = outputMap.len
  agree : ∀ index, (∃ id, surplus id ∧ outputMap.get? id = some index ∧ id ∉ arrived) ∨
    outputSets'[index]? = outputSets[index]?
  inside : ∀ id ∈ arrived, ∀ index, outputMap.get? id = some index → index < outputMap.len

theorem writeOutput_ok {outputSets written : List (Option (CompositionSet Ctx))} {id : Nat}
    {setOption : Option (CompositionSet Ctx)}
    (hok : writeOutput outputMap outputSets id setOption = .ok written) :
    written.length = outputSets.length ∧
      (∀ index, outputMap.get? id ≠ some index → written[index]? = outputSets[index]?) ∧
      ∀ index, outputMap.get? id = some index → index < outputSets.length := by
  unfold writeOutput at hok
  cases hget : outputMap.get? id with
  | none =>
    rw [hget] at hok
    cases hok
    exact ⟨rfl, fun _ _ => rfl, fun _ h => by cases h⟩
  | some index =>
    simp only [hget, setAt] at hok
    split at hok
    · next hlt =>
      cases hok
      refine ⟨List.length_set, fun index' hne => List.getElem?_set_ne fun heq => hne (by rw [heq]), ?_⟩
      intro index' heq
      cases heq
      exact hlt
    · cases hok

theorem writeOutput_alike {arrived : List Nat}
    {outputSets outputSets' : List (Option (CompositionSet Ctx))}
    (h : OutputsAgree outputMap surplus arrived outputSets outputSets') (id : Nat)
    (setOption : Option (CompositionSet Ctx)) :
    Alike (OutputsAgree outputMap surplus (id :: arrived))
      (writeOutput outputMap outputSets id setOption)
      (writeOutput outputMap outputSets' id setOption) := by
  unfold writeOutput
  cases hget : outputMap.get? id with
  | none =>
    refine .ok ⟨h.length, h.length',
      fun index => (h.agree index).imp_left fun ⟨other, hother, hindex, hnew⟩ => ?_,
      List.forall_mem_cons.mpr ⟨fun index hindex => by simp [hget] at hindex, h.inside⟩⟩
    refine ⟨other, hother, hindex, List.not_mem_cons_of_ne_of_not_mem ?_ hnew⟩
    rintro rfl
    rw [hget] at hindex
    cases hindex
  | some index =>
    have hsame : outputSets'.length = outputSets.length := h.length'.trans h.length.symm
    by_cases hlt : index < outputSets.length
    · have hlt' : index < outputSets'.length := hsame ▸ hlt
      simp only [setAt_of_lt hlt, setAt_of_lt hlt']
      refine .ok ⟨by rw [List.length_set, h.length], by rw [List.length_set, h.length'],
        fun index' => ?_, List.forall_mem_cons.mpr ⟨fun index' hindex' => ?_, h.inside⟩⟩
      · by_cases heq : index = index'
        · subst heq
          right
          rw [List.getElem?_set_self hlt, List.getElem?_set_self hlt']
        · rw [List.getElem?_set_ne heq, List.getElem?_set_ne heq]
          refine (h.agree index').imp_left fun ⟨other, hother, hindex, hnew⟩ => ?_
          refine ⟨other, hother, hindex, List.not_mem_cons_of_ne_of_not_mem ?_ hnew⟩
          rintro rfl
          rw [hget] at hindex
          exact heq (Option.some.inj hindex)
      · rw [hget] at hindex'
        cases hindex'
        exact h.length ▸ hlt
    · simp only [setAt, if_neg hlt, if_neg (hsame ▸ hlt)]
      exact .stop _

variable {call : ShardedCall Ctx} {dependencies : List FunctionDependencies} {count : Nat}

/-- Two runs in step: they differ in the outputs only. -/
structure InStep (call : ShardedCall Ctx) (dependencies : List FunctionDependencies)
    (outputMap : OrderedMap Nat Nat) (count : Nat) (surplus : Nat → Prop) (arrived : List Nat)
    (pending : NewCompositions Ctx) (state state' : DispatchState Ctx) : Prop where
  inputsArrived : ∀ id < count, id ∈ arrived
  tracks : Tracks call dependencies arrived pending state.nonReadyFunctions state.awaitedSets
  nonReady : state'.nonReadyFunctions = state.nonReadyFunctions
  awaited : state'.awaitedSets = state.awaitedSets
  outputs : OutputsAgree outputMap surplus arrived state.outputSets state'.outputSets

theorem deliver_alike {arrived : List Nat} {new : Nat × Option (CompositionSet Ctx)}
    {pending : NewCompositions Ctx} {state state' : DispatchState Ctx}
    (h : InStep call dependencies outputMap count surplus arrived (new :: pending) state state') :
    Alike (InStep call dependencies outputMap count surplus (new.1 :: arrived) pending)
      (deliver call outputMap state new) (deliver call outputMap state' new) := by
  rw [deliver, deliver, h.nonReady]
  refine (writeOutput_alike h.outputs new.1 new.2).bind fun outputSets outputSets' houtputs => ?_
  cases hreceive : receiveAll call new.1 new.2 state.nonReadyFunctions with
  | error stop => exact .stop stop
  | ok received =>
    exact .ok ⟨fun id hid => List.mem_cons_of_mem _ (h.inputsArrived id hid),
      h.tracks.arrive hreceive, rfl, by rw [h.awaited], houtputs⟩

theorem deliverAll_alike (pending : NewCompositions Ctx) {arrived : List Nat}
    {state state' : DispatchState Ctx}
    (h : InStep call dependencies outputMap count surplus arrived pending state state') :
    Alike (fun t t' => ∃ arrived,
        InStep call dependencies outputMap count surplus arrived [] t t')
      (deliverAll call outputMap pending state) (deliverAll call outputMap pending state') := by
  induction pending generalizing arrived state state' with
  | nil => exact .ok ⟨arrived, h⟩
  | cons new pending ih =>
    rw [deliverAll, deliverAll]
    exact (deliver_alike h).bind fun t t' ht => ih ht

theorem awaitNext_alike {arrived : List Nat} {state state' : DispatchState Ctx}
    (h : InStep call dependencies outputMap count surplus arrived [] state state')
    (order : Nat → Nat) :
    Alike (Sum.LiftRel
        (fun s s' => s'.2 = s.2 ∧ ∃ arrived,
          InStep call dependencies outputMap count surplus arrived [] s.1 s'.1)
        (fun t t' => t.awaitedSets = [] ∧ ∃ arrived,
          InStep call dependencies outputMap count surplus arrived [] t t'))
      (awaitNext call outputMap (state, order)) (awaitNext call outputMap (state', order)) := by
  rw [awaitNext, awaitNext, h.awaited]
  cases hget : state.awaitedSets[order 0 % state.awaitedSets.length]? with
  | none => exact .ok (.inr ⟨awaited_nil_of_getElem? hget, arrived, h⟩)
  | some result =>
    cases result with
    | error stop => exact .stop stop
    | ok report =>
      have htaken : InStep call dependencies outputMap count surplus arrived report
          { state with awaitedSets :=
            state.awaitedSets.eraseIdx (order 0 % state.awaitedSets.length) }
          { state' with awaitedSets :=
            state.awaitedSets.eraseIdx (order 0 % state.awaitedSets.length) } :=
        ⟨h.inputsArrived, h.tracks.finish hget, h.nonReady, rfl, h.outputs⟩
      exact (deliverAll_alike report htaken).bind fun t t' ht => .ok (.inl ⟨rfl, ht⟩)

/-- When nothing is awaited any more, every surplus number has been reported. -/
theorem InStep.outputSets_eq {arrived : List Nat} {state state' : DispatchState Ctx}
    (h : InStep call dependencies outputMap count surplus arrived [] state state')
    (hdone : state.awaitedSets = [])
    (hreplaced : ∀ id index, surplus id → outputMap.get? id = some index →
      Computed call dependencies count id) :
    state'.outputSets = state.outputSets := by
  have htracks := h.tracks
  rw [hdone] at htracks
  apply List.ext_getElem?
  intro index
  rcases h.outputs.agree index with ⟨id, hid, hindex, hnew⟩ | heq
  · exact absurd (htracks.complete h.inputsArrived (hreplaced id index hid hindex)) hnew
  · exact heq

section Start

variable {inputs extra : List (Option (CompositionSet Ctx))}

theorem presetOutputs_append (first : Nat) (outputSets : List (Option (CompositionSet Ctx))) :
    presetOutputs outputMap (inputs ++ extra) first outputSets =
      presetOutputs outputMap inputs first outputSets >>= fun outputSets =>
        presetOutputs outputMap extra (first + inputs.length) outputSets := by
  induction inputs generalizing first outputSets with
  | nil => rfl
  | cons input inputs ih =>
    rw [List.cons_append, presetOutputs, presetOutputs, List.length_cons,
      Nat.add_comm inputs.length 1, ← Nat.add_assoc, bind_assoc]
    congr 1
    funext written
    exact ih (first + 1) written

/-- Writing surplus sets changes the outputs with their numbers only. -/
theorem presetOutputs_surplus {first : Nat} {outputSets written : List (Option (CompositionSet Ctx))}
    (hok : presetOutputs outputMap extra first outputSets = .ok written) {arrived : List Nat}
    (harrived : ∀ id ∈ arrived, id < first) (hlength : outputSets.length = outputMap.len)
    (hinside : ∀ id ∈ arrived, ∀ index, outputMap.get? id = some index → index < outputMap.len) :
    OutputsAgree outputMap (fun id => first ≤ id ∧ id < first + extra.length) arrived outputSets
      written := by
  induction extra generalizing first outputSets with
  | nil =>
    cases hok
    exact ⟨hlength, hlength, fun _ => .inr rfl, hinside⟩
  | cons input extra ih =>
    rw [presetOutputs] at hok
    obtain ⟨next, hwrite, hrest⟩ := (bind_eq_ok_iff _ _ _).mp hok
    obtain ⟨hsame, hnext, -⟩ := writeOutput_ok hwrite
    have hagree := ih hrest (fun id hid => Nat.lt_succ_of_lt (harrived id hid)) (hsame.trans hlength)
    refine ⟨hlength, hagree.length', fun index => ?_, hinside⟩
    rcases hagree.agree index with ⟨id, hid, hindex, hnew⟩ | heq
    · refine .inl ⟨id, ⟨by omega, ?_⟩, hindex, hnew⟩
      rw [List.length_cons]
      omega
    · by_cases hfirst : outputMap.get? first = some index
      · refine .inl ⟨first, ⟨Nat.le_refl _, ?_⟩, hfirst, fun hin => Nat.lt_irrefl _ (harrived _ hin)⟩
        rw [List.length_cons]
        omega
      · exact .inr (heq.trans (hnext index hfirst))

theorem presetOutputs_inside {first : Nat} {outputSets written : List (Option (CompositionSet Ctx))}
    (hok : presetOutputs outputMap inputs first outputSets = .ok written) :
    written.length = outputSets.length ∧ ∀ id index, first ≤ id → id < first + inputs.length →
      outputMap.get? id = some index → index < outputSets.length := by
  induction inputs generalizing first outputSets with
  | nil =>
    cases hok
    refine ⟨rfl, fun id index hle hlt => ?_⟩
    rw [List.length_nil] at hlt
    omega
  | cons input inputs ih =>
    rw [presetOutputs] at hok
    obtain ⟨next, hwrite, hrest⟩ := (bind_eq_ok_iff _ _ _).mp hok
    obtain ⟨hlength, -, hfirst⟩ := writeOutput_ok hwrite
    obtain ⟨hlength', hlater⟩ := ih hrest
    refine ⟨hlength'.trans hlength, fun id index hle hlt hindex => ?_⟩
    rw [List.length_cons] at hlt
    rcases Nat.eq_or_lt_of_le hle with rfl | hlt'
    · exact hfirst index hindex
    · exact hlength ▸ hlater id index hlt' (by omega) hindex

theorem presetOutputs_total (extra : List (Option (CompositionSet Ctx))) {first : Nat}
    {outputSets : List (Option (CompositionSet Ctx))}
    (hinside : ∀ id index, first ≤ id → id < first + extra.length →
      outputMap.get? id = some index → index < outputSets.length) :
    ∃ written, presetOutputs outputMap extra first outputSets = .ok written := by
  induction extra generalizing first outputSets with
  | nil => exact ⟨outputSets, rfl⟩
  | cons input extra ih =>
    rw [List.length_cons] at hinside
    have hwrite : ∃ next, writeOutput outputMap outputSets first input = .ok next := by
      unfold writeOutput
      cases hget : outputMap.get? first with
      | none => exact ⟨outputSets, rfl⟩
      | some index =>
        exact ⟨_, setAt_of_lt (hinside first index (Nat.le_refl _) (by omega) hget) _⟩
    obtain ⟨next, hnext⟩ := hwrite
    obtain ⟨written, hwritten⟩ : ∃ written, presetOutputs outputMap extra (first + 1) next =
        .ok written := by
      apply ih
      intro id index hle hlt hget
      rw [(writeOutput_ok hnext).1]
      exact hinside id index (by omega) (by omega) hget
    refine ⟨written, ?_⟩
    rw [presetOutputs, hnext]
    exact hwritten

theorem readyInputs_cases (inputs : List (Option (CompositionSet Ctx))) (deps : FunctionDependencies) :
    (readyInputs inputs deps.inputSetIds 0 .empty (List.replicate deps.inputSetIds.length none) =
        .ok none ∧ LacksItems (List.range inputs.length) (fun id => (inputs[id]?).join) deps) ∨
      ∃ missingSets inputSets,
        readyInputs inputs deps.inputSetIds 0 .empty (List.replicate deps.inputSetIds.length none) =
          .ok (some (missingSets, inputSets)) ∧
        ∀ application, Waiting (List.range inputs.length) (fun id => (inputs[id]?).join) deps
          { application, functionId := deps.function, inputSets, joinInfo := deps.joinInfo,
            outputMapping := deps.outputSetIds, missingSets } := by
  have hvalue : ∀ (id : Nat) v, inputs[id]? = some v → (inputs[id]?).join = v := by
    intro id v hid
    rw [hid]
    rfl
  rcases readyInputs_spec (fun id => List.mem_range) hvalue deps.inputSetIds (Nat.zero_le _)
    List.drop_zero (prepared_zero (List.range inputs.length) deps) with
    hskip | ⟨missingSets, inputSets, hok, hprepared⟩
  · exact .inl hskip
  · exact .inr ⟨missingSets, inputSets, hok, fun application => hprepared.waiting application⟩

/-- An application that is not skipped for one of the inputs takes the set. -/
def TakesInput (inputs : List (Option (CompositionSet Ctx))) (deps : FunctionDependencies) (id : Nat) :
    Prop :=
  ¬ LacksItems (List.range inputs.length) (fun id => (inputs[id]?).join) deps ∧
    ∃ descriptor, some descriptor ∈ deps.inputSetIds ∧ descriptor.compositionId = id

theorem readyInputs_lacking {deps : FunctionDependencies}
    (h : LacksItems (List.range inputs.length) (fun id => (inputs[id]?).join) deps) :
    readyInputs inputs deps.inputSetIds 0 .empty (List.replicate deps.inputSetIds.length none) =
      .ok none := by
  rcases readyInputs_cases inputs deps with ⟨hskip, -⟩ | ⟨_, _, -, hwaiting⟩
  · exact hskip
  · obtain ⟨descriptor, hdescriptor, hin, hoptional, hlacks⟩ := h
    rw [(hwaiting 0).supplied descriptor hdescriptor hin hoptional] at hlacks
    cases hlacks

/-- What lacks items in the inputs does so with more sets behind them. -/
theorem LacksItems.append {deps : FunctionDependencies}
    (h : LacksItems (List.range inputs.length) (fun id => (inputs[id]?).join) deps) :
    LacksItems (List.range (inputs ++ extra).length) (fun id => ((inputs ++ extra)[id]?).join) deps := by
  obtain ⟨descriptor, hdescriptor, hin, hoptional, hlacks⟩ := h
  have hlt := List.mem_range.mp hin
  refine ⟨descriptor, hdescriptor, List.mem_range.mpr ?_, hoptional, ?_⟩
  · rw [List.length_append]
    exact Nat.lt_add_right _ hlt
  · change noItems ((inputs ++ extra)[descriptor.compositionId]?).join = true
    rw [List.getElem?_append_left hlt]
    exact hlacks

/-- An application that reads no surplus number finds the same inputs. -/
theorem readyInputs_append {descriptors : List (Option InputSetDescriptor)}
    (hunread : ∀ descriptor, some descriptor ∈ descriptors →
      descriptor.compositionId < inputs.length ∨ inputs.length + extra.length ≤ descriptor.compositionId)
    (count : Nat) (missingMap : OrderedMap (Nat ×ₗ Nat) (ShardingMode × Bool))
    (ready : FunctionInputs Ctx) :
    readyInputs (inputs ++ extra) descriptors count missingMap ready =
      readyInputs inputs descriptors count missingMap ready := by
  induction descriptors generalizing count missingMap ready with
  | nil => rfl
  | cons descriptorOption descriptors ih =>
    have hrest := ih fun descriptor hin => hunread descriptor (List.mem_cons_of_mem _ hin)
    cases descriptorOption with
    | none => exact hrest _ _ _
    | some descriptor =>
      have hinput : (inputs ++ extra)[descriptor.compositionId]? =
          inputs[descriptor.compositionId]? := by
        rcases hunread descriptor List.mem_cons_self with hlt | hle
        · exact List.getElem?_append_left hlt
        · rw [List.getElem?_eq_none (by rw [List.length_append]; exact hle),
            List.getElem?_eq_none (by omega)]
      simp only [readyInputs, hinput, hrest]

theorem prepareFunctions_append {rest : List FunctionDependencies}
    (hunread : ∀ deps ∈ rest, ∀ id, TakesInput inputs deps id →
      id < inputs.length ∨ inputs.length + extra.length ≤ id) (application : Nat) :
    prepareFunctions (inputs ++ extra) rest application = prepareFunctions inputs rest application := by
  induction rest generalizing application with
  | nil => rfl
  | cons deps rest ih =>
    have hready : readyInputs (inputs ++ extra) deps.inputSetIds 0 .empty
          (List.replicate deps.inputSetIds.length none) =
        readyInputs inputs deps.inputSetIds 0 .empty (List.replicate deps.inputSetIds.length none) := by
      by_cases hlacks : LacksItems (List.range inputs.length) (fun id => (inputs[id]?).join) deps
      · rw [readyInputs_lacking hlacks, readyInputs_lacking hlacks.append]
      · refine readyInputs_append (fun descriptor hdescriptor => ?_) 0 .empty _
        exact hunread deps List.mem_cons_self _ ⟨hlacks, descriptor, hdescriptor, rfl⟩
    rw [prepareFunctions, prepareFunctions, hready,
      ih fun deps' hdeps' => hunread deps' (List.mem_cons_of_mem _ hdeps')]

end Start

section Extra

variable {composition : Composition} {inputs extra : List (Option (CompositionSet Ctx))}

theorem initialState_alike {outputSets outputSets' : List (Option (CompositionSet Ctx))}
    (hpreset : presetOutputs composition.outputMap inputs 0
      (List.replicate composition.outputMap.len none) = .ok outputSets)
    (hextra : presetOutputs composition.outputMap extra inputs.length outputSets = .ok outputSets')
    (hunread : ∀ deps ∈ composition.dependencies, ∀ id, TakesInput inputs deps id →
      id < inputs.length ∨ inputs.length + extra.length ≤ id) :
    Alike (InStep call composition.dependencies composition.outputMap inputs.length
        (fun id => inputs.length ≤ id ∧ id < inputs.length + extra.length)
        (List.range inputs.length) [])
      (initialState call composition inputs) (initialState call composition (inputs ++ extra)) := by
  have hpreset' : presetOutputs composition.outputMap (inputs ++ extra) 0
      (List.replicate composition.outputMap.len none) = .ok outputSets' := by
    rw [presetOutputs_append, hpreset, Nat.zero_add]
    exact hextra
  obtain ⟨hlength, hinside⟩ := presetOutputs_inside hpreset
  rw [List.length_replicate] at hlength hinside
  have hagree := presetOutputs_surplus hextra (fun id hid => List.mem_range.mp hid) hlength
    fun id hid index => hinside id index (Nat.zero_le _) (by simpa using hid)
  cases hprepare : prepareFunctions inputs composition.dependencies 0 with
  | error stop =>
    rw [initialState, initialState, hpreset, hpreset', prepareFunctions_append hunread]
    change Alike _ (prepareFunctions _ _ _ >>= _) (prepareFunctions _ _ _ >>= _)
    rw [hprepare]
    exact .stop stop
  | ok prepared =>
    obtain ⟨functions, skipped⟩ := prepared
    have hplain := initialState_eq call hpreset hprepare
    rw [hplain, initialState_eq call hpreset' ((prepareFunctions_append hunread 0).trans hprepare)]
    exact .ok ⟨fun id hid => List.mem_range.mpr hid, initialState_tracks hplain, rfl, rfl, hagree⟩

variable (call extra) in
theorem queueComposition_alike {outputSets outputSets' : List (Option (CompositionSet Ctx))}
    (hpreset : presetOutputs composition.outputMap inputs 0
      (List.replicate composition.outputMap.len none) = .ok outputSets)
    (hextra : presetOutputs composition.outputMap extra inputs.length outputSets = .ok outputSets')
    (hunread : ∀ deps ∈ composition.dependencies, ∀ id, TakesInput inputs deps id →
      id < inputs.length ∨ inputs.length + extra.length ≤ id) (order : Nat → Nat) (fuel : Nat) :
    Alike (fun t t' => t.awaitedSets = [] ∧ ∃ arrived,
        InStep call composition.dependencies composition.outputMap inputs.length
          (fun id => inputs.length ≤ id ∧ id < inputs.length + extra.length) arrived [] t t')
      (queueComposition call composition inputs order fuel)
      (queueComposition call composition (inputs ++ extra) order fuel) := by
  refine (initialState_alike hpreset hextra hunread).bind fun state state' h => ?_
  refine loop_alike (I := fun s s' => s'.2 = s.2 ∧ ∃ arrived,
    InStep call composition.dependencies composition.outputMap inputs.length
      (fun id => inputs.length ≤ id ∧ id < inputs.length + extra.length) arrived [] s.1 s'.1)
    (fun s s' hs => ?_) fuel ⟨rfl, List.range inputs.length, h⟩
  obtain ⟨state, order⟩ := s
  obtain ⟨state', order'⟩ := s'
  obtain ⟨rfl, arrived, hstep⟩ := hs
  exact awaitNext_alike hstep order'

/-- No application takes a set with one of the `surplus` numbers behind the inputs, and the returned
sets with such a number are reported. -/
structure SurplusUnused (call : ShardedCall Ctx) (composition : Composition)
    (inputs : List (Option (CompositionSet Ctx))) (surplus : Nat) : Prop where
  unread : ∀ deps ∈ composition.dependencies, ∀ id, TakesInput inputs deps id →
    id < inputs.length ∨ inputs.length + surplus ≤ id
  replaced : ∀ id index, inputs.length ≤ id → id < inputs.length + surplus →
    composition.outputMap.get? id = some index →
      Computed call composition.dependencies inputs.length id

theorem inside_of_queueComposition {outputSets : List (Option (CompositionSet Ctx))}
    (hpreset : presetOutputs composition.outputMap inputs 0
      (List.replicate composition.outputMap.len none) = .ok outputSets)
    {order : Nat → Nat} {fuel : Nat} {state : DispatchState Ctx}
    (hok : queueComposition call composition inputs order fuel = .ok state) {id index : Nat}
    (hid : Computed call composition.dependencies inputs.length id)
    (hindex : composition.outputMap.get? id = some index) : index < composition.outputMap.len := by
  have hunread : ∀ deps ∈ composition.dependencies, ∀ id, TakesInput inputs deps id →
      id < inputs.length ∨ inputs.length + ([] : List (Option (CompositionSet Ctx))).length ≤ id :=
    fun _ _ id _ => Nat.lt_or_ge id inputs.length
  have hself := queueComposition_alike call [] hpreset rfl hunread order fuel
  obtain ⟨state', -, hdone, arrived, hstep⟩ := hself.exists_ok hok
  have htracks := hstep.tracks
  rw [hdone] at htracks
  exact hstep.outputs.inside id (htracks.complete hstep.inputsArrived hid) index hindex

/-- Surplus sets that are not used do not change what is returned. -/
theorem queueComposition_surplusUnused
    (h : SurplusUnused call composition inputs extra.length) (order : Nat → Nat) (fuel : Nat)
    (outputs : List (Option (CompositionSet Ctx))) :
    (∃ state, queueComposition call composition (inputs ++ extra) order fuel = .ok state ∧
        state.outputSets = outputs) ↔
      ∃ state, queueComposition call composition inputs order fuel = .ok state ∧
        state.outputSets = outputs := by
  have hreplaced : ∀ id index, inputs.length ≤ id ∧ id < inputs.length + extra.length →
      composition.outputMap.get? id = some index →
        Computed call composition.dependencies inputs.length id :=
    fun id index hid => h.replaced id index hid.1 hid.2
  constructor
  · rintro ⟨state', hok, rfl⟩
    obtain ⟨first, hinit, -⟩ := (bind_eq_ok_iff _ _ _).mp hok
    obtain ⟨outputSets', hpreset', -⟩ := (bind_eq_ok_iff _ _ _).mp hinit
    rw [presetOutputs_append, bind_eq_ok_iff, Nat.zero_add] at hpreset'
    obtain ⟨outputSets, hpreset, hextra⟩ := hpreset'
    have halike := queueComposition_alike call extra hpreset hextra h.unread order fuel
    obtain ⟨state, hplain, hdone, arrived, hstep⟩ := halike.exists_ok' hok
    exact ⟨state, hplain, (hstep.outputSets_eq hdone hreplaced).symm⟩
  · rintro ⟨state, hok, rfl⟩
    obtain ⟨first, hinit, -⟩ := (bind_eq_ok_iff _ _ _).mp hok
    obtain ⟨outputSets, hpreset, -⟩ := (bind_eq_ok_iff _ _ _).mp hinit
    have hinside : ∀ id index, inputs.length ≤ id → id < inputs.length + extra.length →
        composition.outputMap.get? id = some index → index < outputSets.length := by
      intro id index hle hlt hindex
      rw [(presetOutputs_inside hpreset).1, List.length_replicate]
      exact inside_of_queueComposition hpreset hok (hreplaced id index ⟨hle, hlt⟩ hindex) hindex
    obtain ⟨outputSets', hextra⟩ := presetOutputs_total extra hinside
    have halike := queueComposition_alike call extra hpreset hextra h.unread order fuel
    obtain ⟨state', hsurplus, hdone, arrived, hstep⟩ := halike.exists_ok hok
    exact ⟨state', hsurplus, hstep.outputSets_eq hdone hreplaced⟩

end Extra

end Surplus

/-- `function F(x) => (y)` -/
def forwardDecl : Dparser.FunctionDecl := ⟨"F", ["x"], ["y"]⟩

/-- `F(x = all from) => (to = y)` -/
def forwardApplication (source target : String) : Dparser.Statement :=
  .functionApplication ⟨"F", [⟨"x", source, .all, false⟩], [⟨target, "y"⟩], none⟩

/-- What such an application becomes. -/
def forwardDependencies (source target : Nat) : FunctionDependencies :=
  ⟨"F", [some ⟨source, .all, false⟩], ([], []), [some target]⟩

/-- What is registered for `composition C(A) => (B) { F(x = all A) => (B = y); }` -/
def forwardOnce : Composition where
  dependencies := [forwardDependencies 0 1]
  outputMap := .single 1 0

/-- A request with one set too many: its second set has the number of the returned one. -/
theorem forwardOnce_surplus :
    FunctionRegistry.compositionFromModule ⟨fun name => name = "F", fun _ => true⟩
        [.functionDecl forwardDecl,
          .composition ⟨"C", ["A"], ["B"], [forwardApplication "A" "B"]⟩] =
      .ok [("C", forwardOnce, ⟨["A"], ["B"]⟩)] ∧
    ∃ state, queueComposition forwardFirst forwardOnce
        ([some (CompositionSet.ofKeys [1] (by decide))] ++
          [some (CompositionSet.ofKeys [2] (by decide))]) (fun _ => 0) 3 = .ok state ∧
      state.outputSets = [some (CompositionSet.ofKeys [1] (by decide))] := by
  refine ⟨by decide, (queueComposition_surplusUnused ⟨?_, ?_⟩ (fun _ => 0) 3 _).mpr ⟨_, rfl, rfl⟩⟩
  · intro deps hdeps id hid
    obtain rfl := List.mem_singleton.mp hdeps
    obtain ⟨-, descriptor, hdescriptor, rfl⟩ := hid
    obtain rfl := Option.some.inj (List.mem_singleton.mp hdescriptor)
    exact .inl Nat.one_pos
  · intro id index hle hlt hindex
    obtain rfl : id = 1 := Nat.le_antisymm (Nat.le_of_lt_succ hlt) hle
    have hdeps : forwardDependencies 0 1 ∈ forwardOnce.dependencies := List.mem_singleton_self _
    refine .output hdeps (fun descriptor hdescriptor => ?_) ⟨List.mem_singleton_self _, ?_⟩
    · obtain rfl := Option.some.inj (List.mem_singleton.mp hdescriptor)
      exact .input Nat.one_pos
    · intro inputSets report hreport
      cases hreport
      simp [forwardDependencies]

/-- What is registered for
`composition C(A) => (T, B) { F(x = all A) => (T = y); F(x = all T) => (B = y); }` -/
def forwardThrough : Composition where
  dependencies := [forwardDependencies 0 1, forwardDependencies 1 2]
  outputMap := ⟨[(1, 0), (2, 1)], by decide⟩

/-- A second set in the request is taken for the set between the two applications. -/
theorem surplus_set_taken :
    FunctionRegistry.compositionFromModule ⟨fun name => name = "F", fun _ => true⟩
        [.functionDecl forwardDecl, .composition
          ⟨"C", ["A"], ["T", "B"], [forwardApplication "A" "T", forwardApplication "T" "B"]⟩] =
      .ok [("C", forwardThrough, ⟨["A"], ["T", "B"]⟩)] ∧
    ∃ state state', queueComposition forwardFirst forwardThrough
        [some (CompositionSet.ofKeys [1] (by decide))] (fun _ => 0) 4 = .ok state ∧
      queueComposition forwardFirst forwardThrough
        ([some (CompositionSet.ofKeys [1] (by decide))] ++
          [some (CompositionSet.ofKeys [2] (by decide))]) (fun _ => 0) 4 = .ok state' ∧
      state.outputSets = [some (CompositionSet.ofKeys [1] (by decide)),
        some (CompositionSet.ofKeys [1] (by decide))] ∧
      state'.outputSets = [some (CompositionSet.ofKeys [1] (by decide)),
        some (CompositionSet.ofKeys [2] (by decide))] ∧
      state'.outputSets ≠ state.outputSets := by
  refine ⟨by decide, _, _, rfl, rfl, rfl, rfl, fun h => ?_⟩
  cases h

end Dandelion
