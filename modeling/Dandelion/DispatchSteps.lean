import Dandelion.Dataflow

/-!
# One application while its input sets arrive

What the dispatcher does with one application, for a fixed assignment of values and
the ids that have arrived so far. A waiting application has its arrived inputs filled
in and the others missing; the arrival of one more id leaves it waiting, starts it
with all of its inputs, or skips it.
-/

namespace Dandelion

open Outcome

section Steps

variable {Ctx : Type} {value : Nat → Option (CompositionSet Ctx)}

@[simp] theorem setAt_of_lt {α : Type} {xs : List α} {index : Nat} (h : index < xs.length) (x : α) :
    setAt xs index x = .ok (xs.set index x) := by
  rw [setAt, if_pos h]
  rfl

/-- The futures are picked by their position, so that a round without one has none. -/
theorem awaited_nil_of_getElem? {awaited : List (DandelionResult (NewCompositions Ctx))} {pick : Nat}
    (h : awaited[pick % awaited.length]? = none) : awaited = [] := by
  by_contra hne
  have hlt := Nat.mod_lt pick (List.length_pos_iff.mpr hne)
  have hle := List.getElem?_eq_none_iff.mp h
  change awaited.length ≤ _ at hle
  omega

section Equations

variable {inputs : List (Option (CompositionSet Ctx))} {deps : FunctionDependencies}
  {rest : List FunctionDependencies} {application : Nat} {functions : List (FunctionArgs Ctx)}
  {skipped : List (NewCompositions Ctx)}

theorem prepareFunctions_skip
    (hrest : prepareFunctions inputs rest (application + 1) = .ok (functions, skipped))
    (hready : readyInputs inputs deps.inputSetIds 0 .empty
      (List.replicate deps.inputSetIds.length none) = .ok none) :
    prepareFunctions inputs (deps :: rest) application =
      .ok (functions, skippedSets deps.outputSetIds :: skipped) := by
  rw [prepareFunctions, hready]
  change (prepareFunctions _ _ _ >>= _) = _
  rw [hrest]
  rfl

theorem prepareFunctions_wait
    (hrest : prepareFunctions inputs rest (application + 1) = .ok (functions, skipped))
    {missingSets : OrderedMap (Nat ×ₗ Nat) (ShardingMode × Bool)} {inputSets : FunctionInputs Ctx}
    (hready : readyInputs inputs deps.inputSetIds 0 .empty
      (List.replicate deps.inputSetIds.length none) = .ok (some (missingSets, inputSets))) :
    prepareFunctions inputs (deps :: rest) application = .ok
      ({ application, functionId := deps.function, inputSets, joinInfo := deps.joinInfo,
         outputMapping := deps.outputSetIds, missingSets } :: functions, skipped) := by
  rw [prepareFunctions, hready]
  change (prepareFunctions _ _ _ >>= _) = _
  rw [hrest]
  rfl

variable {call : ShardedCall Ctx} {id : Nat} {setOption : Option (CompositionSet Ctx)}
  {nonReady : List (FunctionArgs Ctx)} {awaited awaited' : List (DandelionResult (NewCompositions Ctx))}
  {started started' : List (Nat × FunctionInputs Ctx)}

theorem receiveAll_cons {args : FunctionArgs Ctx} {kept : Option (FunctionArgs Ctx)}
    (hfirst : receiveSet call id setOption args = .ok (kept, awaited, started))
    (hrest : receiveAll call id setOption functions = .ok (nonReady, awaited', started')) :
    receiveAll call id setOption (args :: functions) =
      .ok (kept.toList ++ nonReady, awaited ++ awaited', started ++ started') := by
  rw [receiveAll, hfirst]
  change (receiveAll _ _ _ _ >>= _) = _
  rw [hrest]
  rfl

theorem deliver_eq {outputMap : OrderedMap Nat Nat} {state : DispatchState Ctx}
    {written : List (Option (CompositionSet Ctx))}
    (hwrite : writeOutput outputMap state.outputSets id setOption = .ok written)
    (hreceive : receiveAll call id setOption state.nonReadyFunctions =
      .ok (nonReady, awaited, started)) :
    deliver call outputMap state (id, setOption) = .ok
      ⟨written, nonReady, state.awaitedSets ++ awaited, state.started ++ started⟩ := by
  rw [deliver, hwrite]
  change (receiveAll _ _ _ _ >>= _) = _
  rw [hreceive]
  rfl

end Equations

/-- The input sets of an application as far as their ids have arrived. -/
def filledInputs (deps : FunctionDependencies) (arrived : List Nat)
    (value : Nat → Option (CompositionSet Ctx)) : FunctionInputs Ctx :=
  deps.inputSetIds.map fun descriptorOption => descriptorOption.bind fun descriptor =>
    if descriptor.compositionId ∈ arrived then
      (value descriptor.compositionId).map fun set => (descriptor.sharding, set)
    else none

structure Waiting (arrived : List Nat) (value : Nat → Option (CompositionSet Ctx))
    (deps : FunctionDependencies) (args : FunctionArgs Ctx) : Prop where
  functionId : args.functionId = deps.function
  joinInfo : args.joinInfo = deps.joinInfo
  outputMapping : args.outputMapping = deps.outputSetIds
  inputSets : args.inputSets = filledInputs deps arrived value
  missing : ∀ key entry, args.missingSets.get? key = some entry ↔
    ∃ descriptor, deps.inputSetIds[(ofLex key).2]? = some (some descriptor) ∧
      descriptor.compositionId = (ofLex key).1 ∧ descriptor.compositionId ∉ arrived ∧
      entry = (descriptor.sharding, descriptor.optional)
  supplied : ∀ descriptor, some descriptor ∈ deps.inputSetIds →
    descriptor.compositionId ∈ arrived → descriptor.optional = false →
    noItems (value descriptor.compositionId) = false

/-- A set that is not optional has arrived without items. -/
def LacksItems (arrived : List Nat) (value : Nat → Option (CompositionSet Ctx))
    (deps : FunctionDependencies) : Prop :=
  ∃ descriptor, some descriptor ∈ deps.inputSetIds ∧ descriptor.compositionId ∈ arrived ∧
    descriptor.optional = false ∧ noItems (value descriptor.compositionId) = true

/-- What the arrival of an id can do to a waiting application. -/
inductive Received (call : ShardedCall Ctx) (arrived : List Nat)
    (value : Nat → Option (CompositionSet Ctx)) (deps : FunctionDependencies)
    (args : FunctionArgs Ctx) :
    Option (FunctionArgs Ctx) × List (DandelionResult (NewCompositions Ctx)) ×
      List (Nat × FunctionInputs Ctx) → Prop where
  | kept {args' : FunctionArgs Ctx} (happlication : args'.application = args.application)
      (hwaiting : Waiting arrived value deps args') (hmissing : args'.missingSets.entries ≠ [])
      (hle : args'.missingSets.len ≤ args.missingSets.len) :
      Received call arrived value deps args (some args', [], [])
  | started (harrived : ∀ descriptor, some descriptor ∈ deps.inputSetIds →
        descriptor.compositionId ∈ arrived) (hsupplied : Supplied deps value) :
      Received call arrived value deps args
        (none, [call deps.function (suppliedInputs deps value) deps.joinInfo deps.outputSetIds],
          [(args.application, suppliedInputs deps value)])
  | skipped {count : Nat} (hlacks : LacksItems arrived value deps) (hpos : 0 < count)
      (hle : count ≤ args.missingSets.len) :
      Received call arrived value deps args
        (none, List.replicate count (.ok (skippedSets deps.outputSetIds)), [])

theorem filledInputs_all {deps : FunctionDependencies} {arrived : List Nat}
    (h : ∀ descriptor, some descriptor ∈ deps.inputSetIds → descriptor.compositionId ∈ arrived) :
    filledInputs deps arrived value = suppliedInputs deps value := by
  apply List.map_congr_left
  intro descriptorOption hmem
  cases descriptorOption with
  | none => rfl
  | some descriptor => simp only [Option.bind_some, if_pos (h descriptor hmem)]

/-- Entries that agree with a target at their positions, and cover the positions where the
inputs differ from it, turn the inputs into the target. -/
theorem fillMissing_eq {setOption : Option (CompositionSet Ctx)}
    {entries : List ((Nat ×ₗ Nat) × (ShardingMode × Bool))} {inputSets target : FunctionInputs Ctx}
    (hlen : inputSets.length = target.length)
    (hitems : ∀ entry ∈ entries, entry.2.2 = false → noItems setOption = false)
    (htarget : ∀ entry ∈ entries, target[(ofLex entry.1).2]? =
      some (setOption.map fun set => (entry.2.1, set)))
    (hcover : ∀ j, inputSets[j]? = target[j]? ∨ ∃ entry ∈ entries, (ofLex entry.1).2 = j) :
    fillMissing setOption entries inputSets =
      .ok (target, entries.map fun entry => some entry.1) := by
  induction entries generalizing inputSets with
  | nil =>
    have heq : inputSets = target := by
      apply List.ext_getElem?
      intro j
      rcases hcover j with h | ⟨entry, hentry, -⟩
      · exact h
      · exact absurd hentry List.not_mem_nil
    rw [heq]
    rfl
  | cons entry entries ih =>
    obtain ⟨key, mode, optional⟩ := entry
    have hkey := htarget _ List.mem_cons_self
    obtain ⟨hlt, -⟩ := List.getElem?_eq_some_iff.mp hkey
    have hnot : ¬ (!optional && noItems setOption) = true := by
      intro h
      rw [Bool.and_eq_true, Bool.not_eq_true'] at h
      have hfalse := hitems _ List.mem_cons_self h.1
      rw [h.2] at hfalse
      cases hfalse
    rw [fillMissing, if_neg hnot, setAt_of_lt (by rw [hlen]; exact hlt)]
    set filled := inputSets.set (ofLex key).2 (setOption.map fun set => (mode, set)) with hfilled
    have hcover' : ∀ j, filled[j]? = target[j]? ∨ ∃ e ∈ entries, (ofLex e.1).2 = j := by
      intro j
      by_cases hj : (ofLex key).2 = j
      · left
        rw [← hj, hkey, hfilled, List.getElem?_set_self (by rw [hlen]; exact hlt)]
      · rw [hfilled, List.getElem?_set_ne hj]
        rcases hcover j with h | ⟨e, he, hej⟩
        · exact .inl h
        · rcases List.mem_cons.mp he with rfl | he
          · exact absurd hej hj
          · exact .inr ⟨e, he, hej⟩
    have hrest : fillMissing setOption entries filled =
        .ok (target, entries.map fun entry => some entry.1) :=
      ih (by rw [hfilled, List.length_set, hlen]) (fun e he => hitems e (List.mem_cons_of_mem _ he))
        (fun e he => htarget e (List.mem_cons_of_mem _ he)) hcover'
    change (fillMissing _ _ _ >>= _) = _
    rw [hrest]
    rfl

theorem fillMissing_total {setOption : Option (CompositionSet Ctx)}
    {entries : List ((Nat ×ₗ Nat) × (ShardingMode × Bool))} {inputSets : FunctionInputs Ctx}
    (hlt : ∀ entry ∈ entries, (ofLex entry.1).2 < inputSets.length) :
    ∃ filled keys, fillMissing setOption entries inputSets = .ok (filled, keys) ∧
      keys.length = entries.length ∧
      (noItems setOption = true → ∀ entry ∈ entries, entry.2.2 = false → none ∈ keys) := by
  induction entries generalizing inputSets with
  | nil => exact ⟨inputSets, [], rfl, rfl, fun _ entry hentry => absurd hentry List.not_mem_nil⟩
  | cons entry entries ih =>
    obtain ⟨key, mode, optional⟩ := entry
    rw [fillMissing]
    by_cases hskip : (!optional && noItems setOption) = true
    · obtain ⟨filled, keys, hok, hlen, -⟩ := ih fun e he => hlt e (List.mem_cons_of_mem _ he)
      refine ⟨filled, none :: keys, ?_, by simp [hlen], fun _ _ _ _ => List.mem_cons_self⟩
      rw [if_pos hskip, hok]
      rfl
    · have hlt' : ∀ e ∈ entries, (ofLex e.1).2 <
          (inputSets.set (ofLex key).2 (setOption.map fun set => (mode, set))).length := by
        intro e he
        rw [List.length_set]
        exact hlt e (List.mem_cons_of_mem _ he)
      obtain ⟨filled, keys, hok, hlen, hnone⟩ := ih hlt'
      refine ⟨filled, some key :: keys, ?_, by simp [hlen], fun hempty e he hoptional => ?_⟩
      · rw [if_neg hskip, setAt_of_lt (hlt _ List.mem_cons_self)]
        change (fillMissing _ _ _ >>= _) = _
        rw [hok]
        rfl
      · rcases List.mem_cons.mp he with rfl | he
        · rw [Bool.not_eq_true, Bool.and_eq_false_iff] at hskip
          rcases hskip with h | h
          · rw [show optional = false from hoptional] at h
            cases h
          · rw [hempty] at h
            cases h
        · exact List.mem_cons_of_mem _ (hnone hempty e he hoptional)

theorem removeKeys_none {keys : List (Option (Nat ×ₗ Nat))} (h : none ∈ keys)
    (missingSets : OrderedMap (Nat ×ₗ Nat) (ShardingMode × Bool)) :
    removeKeys keys missingSets = none := by
  induction keys generalizing missingSets with
  | nil => exact absurd h List.not_mem_nil
  | cons key keys ih =>
    cases key with
    | none => rfl
    | some key =>
      rw [removeKeys]
      exact ih (by simpa using h) _

theorem removeKeys_some (keys : List (Nat ×ₗ Nat))
    (missingSets : OrderedMap (Nat ×ₗ Nat) (ShardingMode × Bool)) :
    ∃ rest, removeKeys (keys.map some) missingSets = some rest ∧ rest.len ≤ missingSets.len ∧
      ∀ key entry, rest.get? key = some entry ↔ key ∉ keys ∧ missingSets.get? key = some entry := by
  induction keys generalizing missingSets with
  | nil => exact ⟨missingSets, rfl, Nat.le_refl _, fun key entry => by simp⟩
  | cons k keys ih =>
    obtain ⟨rest, hrest, hle, hget⟩ := ih (missingSets.remove k)
    refine ⟨rest, hrest, hle.trans (List.length_filter_le _ _), fun key entry => ?_⟩
    rw [hget, OrderedMap.get?_remove_eq_some_iff, List.mem_cons, not_or]
    exact ⟨fun h => ⟨⟨h.2.1, h.1⟩, h.2.2⟩, fun h => ⟨h.1.2, h.1.1, h.2⟩⟩

theorem mem_missing_iff (args : FunctionArgs Ctx) (id : Nat)
    (entry : (Nat ×ₗ Nat) × (ShardingMode × Bool)) :
    entry ∈ args.missing id ↔
      args.missingSets.get? entry.1 = some entry.2 ∧ (ofLex entry.1).1 = id := by
  rw [FunctionArgs.missing, List.mem_filter, decide_eq_true_eq, OrderedMap.get?_eq_some_iff]

/-- Waiting for a set that has just arrived: its positions are known to the application. -/
theorem Waiting.mem_missing {arrived : List Nat} {deps : FunctionDependencies}
    {args : FunctionArgs Ctx} (h : Waiting arrived value deps args) {id : Nat}
    {entry : (Nat ×ₗ Nat) × (ShardingMode × Bool)} (hentry : entry ∈ args.missing id) :
    ∃ descriptor, deps.inputSetIds[(ofLex entry.1).2]? = some (some descriptor) ∧
      descriptor.compositionId = id ∧ entry.2 = (descriptor.sharding, descriptor.optional) := by
  obtain ⟨hget, rfl⟩ := (mem_missing_iff args id entry).mp hentry
  obtain ⟨descriptor, hdescriptor, hid, -, heq⟩ := (h.missing entry.1 entry.2).mp hget
  exact ⟨descriptor, hdescriptor, hid, heq⟩

theorem Waiting.missing_of_descriptor {arrived : List Nat} {deps : FunctionDependencies}
    {args : FunctionArgs Ctx} (h : Waiting arrived value deps args) {j : Nat}
    {descriptor : InputSetDescriptor} (hj : deps.inputSetIds[j]? = some (some descriptor))
    (hnew : descriptor.compositionId ∉ arrived) :
    (toLex (descriptor.compositionId, j), (descriptor.sharding, descriptor.optional)) ∈
      args.missing descriptor.compositionId := by
  apply (mem_missing_iff _ _ _).mpr
  exact ⟨(h.missing _ _).mpr ⟨descriptor, hj, rfl, hnew, rfl⟩, rfl⟩

theorem Waiting.filled_cases {arrived : List Nat} {deps : FunctionDependencies}
    {args : FunctionArgs Ctx} (h : Waiting arrived value deps args) (id j : Nat) :
    args.inputSets[j]? = (filledInputs deps (id :: arrived) value)[j]? ∨
      ∃ entry ∈ args.missing id, (ofLex entry.1).2 = j := by
  rw [h.inputSets, filledInputs, filledInputs, List.getElem?_map, List.getElem?_map]
  cases hj : deps.inputSetIds[j]? with
  | none => exact .inl rfl
  | some descriptorOption =>
    cases descriptorOption with
    | none => exact .inl rfl
    | some descriptor =>
      by_cases hnew : descriptor.compositionId ∈ arrived
      · left
        simp [hnew]
      · by_cases hid : descriptor.compositionId = id
        · subst hid
          exact .inr ⟨_, h.missing_of_descriptor hj hnew, rfl⟩
        · left
          simp [hnew, hid]

/-- The application after a set has been put in all of its positions. -/
theorem Waiting.step {arrived : List Nat} {deps : FunctionDependencies} {args : FunctionArgs Ctx}
    (h : Waiting arrived value deps args) {id : Nat}
    (hitems : ∀ entry ∈ args.missing id, entry.2.2 = false → noItems (value id) = false)
    {rest : OrderedMap (Nat ×ₗ Nat) (ShardingMode × Bool)}
    (hrest : ∀ key entry, rest.get? key = some entry ↔
      key ∉ (args.missing id).map Prod.fst ∧ args.missingSets.get? key = some entry) :
    Waiting (id :: arrived) value deps
      { args with inputSets := filledInputs deps (id :: arrived) value, missingSets := rest } where
  functionId := h.functionId
  joinInfo := h.joinInfo
  outputMapping := h.outputMapping
  inputSets := rfl
  missing := by
    intro key entry
    rw [hrest, h.missing]
    constructor
    · rintro ⟨hkey, descriptor, hdescriptor, hid, hnew, rfl⟩
      refine ⟨descriptor, hdescriptor, hid, ?_, rfl⟩
      rw [List.mem_cons, not_or]
      refine ⟨fun heq => hkey ?_, hnew⟩
      have hmem := h.missing_of_descriptor hdescriptor hnew
      rw [heq] at hmem hid
      refine List.mem_map.mpr ⟨_, hmem, ?_⟩
      rw [hid]
      rfl
    · rintro ⟨descriptor, hdescriptor, hid, hnew, rfl⟩
      rw [List.mem_cons, not_or] at hnew
      refine ⟨fun hkey => hnew.1 ?_, descriptor, hdescriptor, hid, hnew.2, rfl⟩
      obtain ⟨e, he, hekey⟩ := List.mem_map.mp hkey
      rw [hid, ← hekey]
      exact ((mem_missing_iff _ _ _).mp he).2
  supplied := by
    intro descriptor hdescriptor harrived hoptional
    by_cases hold : descriptor.compositionId ∈ arrived
    · exact h.supplied descriptor hdescriptor hold hoptional
    · obtain rfl := (List.mem_cons.mp harrived).resolve_right hold
      obtain ⟨j, hj⟩ := List.mem_iff_getElem?.mp hdescriptor
      exact hitems _ (h.missing_of_descriptor hj hold) hoptional

/-- A waiting application without missing sets has all of its inputs. -/
theorem Waiting.arrived_of_empty {arrived : List Nat} {deps : FunctionDependencies}
    {args : FunctionArgs Ctx} (h : Waiting arrived value deps args)
    (hempty : args.missingSets.entries = []) (descriptor : InputSetDescriptor)
    (hdescriptor : some descriptor ∈ deps.inputSetIds) : descriptor.compositionId ∈ arrived := by
  by_contra hnew
  obtain ⟨j, hj⟩ := List.mem_iff_getElem?.mp hdescriptor
  have hmem := h.missing_of_descriptor hj hnew
  rw [FunctionArgs.missing, hempty] at hmem
  exact absurd hmem List.not_mem_nil

theorem Waiting.exists_missing {arrived : List Nat} {deps : FunctionDependencies}
    {args : FunctionArgs Ctx} (h : Waiting arrived value deps args)
    (hmissing : args.missingSets.entries ≠ []) :
    ∃ descriptor, some descriptor ∈ deps.inputSetIds ∧ descriptor.compositionId ∉ arrived := by
  obtain ⟨⟨key, entry⟩, hmem⟩ := List.exists_mem_of_ne_nil _ hmissing
  have hget := (OrderedMap.get?_eq_some_iff args.missingSets key entry).mpr hmem
  obtain ⟨descriptor, hdescriptor, -, hnew, -⟩ := (h.missing key entry).mp hget
  exact ⟨descriptor, List.mem_of_getElem? hdescriptor, hnew⟩

theorem Waiting.start_eq (call : ShardedCall Ctx) {arrived : List Nat} {deps : FunctionDependencies}
    {args : FunctionArgs Ctx} (h : Waiting arrived value deps args)
    (hempty : args.missingSets.entries = []) :
    args.start call =
        call deps.function (suppliedInputs deps value) deps.joinInfo deps.outputSetIds ∧
      args.inputSets = suppliedInputs deps value ∧ Supplied deps value := by
  have hall := h.arrived_of_empty hempty
  have hinputs : args.inputSets = suppliedInputs deps value := by
    rw [h.inputSets, filledInputs_all hall]
  refine ⟨?_, hinputs, fun descriptor hdescriptor =>
    h.supplied descriptor hdescriptor (hall descriptor hdescriptor)⟩
  rw [FunctionArgs.start, h.functionId, h.joinInfo, h.outputMapping, hinputs]

theorem receiveSet_filled (call : ShardedCall Ctx) {args : FunctionArgs Ctx} {id : Nat}
    {setOption : Option (CompositionSet Ctx)} {filled : FunctionInputs Ctx}
    {keys : List (Nat ×ₗ Nat)} {rest : OrderedMap (Nat ×ₗ Nat) (ShardingMode × Bool)}
    (hfill : fillMissing setOption (args.missing id) args.inputSets = .ok (filled, keys.map some))
    (hremove : removeKeys (keys.map some) args.missingSets = some rest) :
    receiveSet call id setOption args =
      .ok (if rest.entries.isEmpty then
        (none, [FunctionArgs.start call { args with inputSets := filled, missingSets := rest }],
          [(args.application, filled)])
      else (some { args with inputSets := filled, missingSets := rest }, [], [])) := by
  have hnone : (keys.map some).filter Option.isNone = [] := by
    rw [List.filter_map]
    simp
  rw [receiveSet, hfill, ok_bind]
  dsimp only
  rw [hremove, hnone]
  by_cases hrest : rest.entries.isEmpty
  · simp only [hrest, if_true]
    rfl
  · simp only [hrest]
    rfl

theorem receiveSet_spec (call : ShardedCall Ctx) {arrived : List Nat} {deps : FunctionDependencies}
    {args : FunctionArgs Ctx} (h : Waiting arrived value deps args) (id : Nat) :
    ∃ result, receiveSet call id (value id) args = .ok result ∧
      Received call (id :: arrived) value deps args result := by
  have hlen : args.inputSets.length = (filledInputs deps (id :: arrived) value).length := by
    rw [h.inputSets, filledInputs, filledInputs, List.length_map, List.length_map]
  by_cases hskip : noItems (value id) = true ∧ ∃ entry ∈ args.missing id, entry.2.2 = false
  · obtain ⟨hempty, entry, hentry, hoptional⟩ := hskip
    obtain ⟨descriptor, hdescriptor, rfl, heq⟩ := h.mem_missing hentry
    have hlt : ∀ e ∈ args.missing descriptor.compositionId,
        (ofLex e.1).2 < args.inputSets.length := by
      intro e he
      obtain ⟨d, hd, -⟩ := h.mem_missing he
      rw [hlen, filledInputs, List.length_map]
      exact (List.getElem?_eq_some_iff.mp hd).1
    obtain ⟨filled, keys, hok, hkeys, hnone⟩ := fillMissing_total hlt
    have hmem := hnone hempty entry hentry hoptional
    refine ⟨(none, List.replicate (keys.filter Option.isNone).length
      (.ok (skippedSets deps.outputSetIds)), []), ?_, ?_⟩
    · rw [receiveSet, hok, ok_bind]
      dsimp only
      rw [removeKeys_none hmem, List.map_const', h.outputMapping]
      rfl
    · rw [heq] at hoptional
      refine .skipped ⟨descriptor, List.mem_of_getElem? hdescriptor, List.mem_cons_self, hoptional,
        hempty⟩ ?_ ?_
      · exact List.length_pos_of_mem (List.mem_filter.mpr ⟨hmem, rfl⟩)
      · exact (List.length_filter_le _ _).trans (hkeys.trans_le (List.length_filter_le _ _))
  · have hitems : ∀ entry ∈ args.missing id, entry.2.2 = false → noItems (value id) = false := by
      intro entry hentry hoptional
      by_contra hne
      exact hskip ⟨Bool.of_not_eq_false hne, entry, hentry, hoptional⟩
    have hfill : fillMissing (value id) (args.missing id) args.inputSets =
        .ok (filledInputs deps (id :: arrived) value,
          ((args.missing id).map Prod.fst).map some) := by
      rw [List.map_map]
      refine fillMissing_eq hlen hitems (fun entry hentry => ?_) (h.filled_cases id)
      obtain ⟨descriptor, hdescriptor, hid, heq⟩ := h.mem_missing hentry
      rw [filledInputs, List.getElem?_map, hdescriptor, heq]
      simp [hid]
    obtain ⟨rest, hremove, hle, hget⟩ :=
      removeKeys_some ((args.missing id).map Prod.fst) args.missingSets
    have hstep := h.step hitems hget
    refine ⟨_, receiveSet_filled call hfill hremove, ?_⟩
    by_cases hrest : rest.entries = []
    · obtain ⟨hstart, hinputs, hsupplied⟩ := hstep.start_eq call hrest
      rw [if_pos (List.isEmpty_iff.mpr hrest), hstart, show filledInputs deps _ value = _ from hinputs]
      exact .started (hstep.arrived_of_empty hrest) hsupplied
    · rw [if_neg (mt List.isEmpty_iff.mp hrest)]
      exact .kept rfl hstep hrest hle

/-- The missing sets and ready inputs after the first `count` positions. -/
structure Prepared (arrived : List Nat) (value : Nat → Option (CompositionSet Ctx))
    (deps : FunctionDependencies) (count : Nat)
    (missingMap : OrderedMap (Nat ×ₗ Nat) (ShardingMode × Bool)) (ready : FunctionInputs Ctx) :
    Prop where
  length : ready.length = deps.inputSetIds.length
  filled : ∀ j < count, ready[j]? = (filledInputs deps arrived value)[j]?
  blank : ∀ j, count ≤ j → j < deps.inputSetIds.length → ready[j]? = some none
  missing : ∀ key entry, missingMap.get? key = some entry ↔ (ofLex key).2 < count ∧
    ∃ descriptor, deps.inputSetIds[(ofLex key).2]? = some (some descriptor) ∧
      descriptor.compositionId = (ofLex key).1 ∧ descriptor.compositionId ∉ arrived ∧
      entry = (descriptor.sharding, descriptor.optional)
  supplied : ∀ j < count, ∀ descriptor, deps.inputSetIds[j]? = some (some descriptor) →
    descriptor.compositionId ∈ arrived → descriptor.optional = false →
    noItems (value descriptor.compositionId) = false
  len_le : missingMap.len ≤ count

theorem prepared_zero (arrived : List Nat) (deps : FunctionDependencies) :
    Prepared arrived value deps 0 .empty (List.replicate deps.inputSetIds.length none) where
  length := List.length_replicate
  filled := fun j hj => absurd hj (Nat.not_lt_zero j)
  blank := fun j _ hj => by simp [hj]
  missing := fun key entry => by simp
  supplied := fun j hj => absurd hj (Nat.not_lt_zero j)
  len_le := Nat.le_refl _

theorem getElem?_filledInputs {deps : FunctionDependencies} {j : Nat}
    {descriptorOption : Option InputSetDescriptor} (h : deps.inputSetIds[j]? = some descriptorOption)
    (arrived : List Nat) :
    (filledInputs deps arrived value)[j]? = some (descriptorOption.bind fun descriptor =>
      if descriptor.compositionId ∈ arrived then
        (value descriptor.compositionId).map fun set => (descriptor.sharding, set)
      else none) := by
  rw [filledInputs, List.getElem?_map, h]
  rfl

section Position

variable {arrived : List Nat} {deps : FunctionDependencies} {count : Nat}
  {missingMap : OrderedMap (Nat ×ₗ Nat) (ShardingMode × Bool)} {ready : FunctionInputs Ctx}
  (h : Prepared arrived value deps count missingMap ready)
include h

theorem Prepared.fill {descriptorOption : Option InputSetDescriptor}
    (hcount : deps.inputSetIds[count]? = some descriptorOption)
    (harrived : ∀ descriptor, descriptorOption = some descriptor →
      descriptor.compositionId ∈ arrived ∧ (descriptor.optional = false →
        noItems (value descriptor.compositionId) = false))
    {ready' : FunctionInputs Ctx} (hlength : ready'.length = ready.length)
    (hset : ready'[count]? = some (descriptorOption.bind fun descriptor =>
      (value descriptor.compositionId).map fun set => (descriptor.sharding, set)))
    (hother : ∀ j, j ≠ count → ready'[j]? = ready[j]?) :
    Prepared arrived value deps (count + 1) missingMap ready' where
  length := hlength.trans h.length
  filled := by
    intro j hj
    by_cases heq : j = count
    · rw [heq, hset, getElem?_filledInputs hcount]
      cases descriptorOption with
      | none => rfl
      | some descriptor => simp [(harrived descriptor rfl).1]
    · rw [hother j heq]
      exact h.filled j (by omega)
  blank := by
    intro j hj hlt
    rw [hother j (by omega)]
    exact h.blank j (by omega) hlt
  missing := by
    intro key entry
    rw [h.missing]
    constructor
    · exact fun hkey => ⟨by omega, hkey.2⟩
    · rintro ⟨hlt, descriptor, hdescriptor, hid, hnew, hentry⟩
      refine ⟨?_, descriptor, hdescriptor, hid, hnew, hentry⟩
      by_contra hge
      rw [show (ofLex key).2 = count by omega, hcount] at hdescriptor
      exact hnew (harrived descriptor (Option.some.inj hdescriptor)).1
  supplied := by
    intro j hj descriptor hdescriptor hin hoptional
    by_cases heq : j = count
    · rw [heq, hcount] at hdescriptor
      exact (harrived descriptor (Option.some.inj hdescriptor)).2 hoptional
    · exact h.supplied j (by omega) descriptor hdescriptor hin hoptional
  len_le := h.len_le.trans (Nat.le_succ _)

theorem Prepared.miss {descriptor : InputSetDescriptor}
    (hcount : deps.inputSetIds[count]? = some (some descriptor))
    (hnew : descriptor.compositionId ∉ arrived) :
    Prepared arrived value deps (count + 1)
      (missingMap.insert (toLex (descriptor.compositionId, count))
        (descriptor.sharding, descriptor.optional)) ready where
  length := h.length
  filled := by
    intro j hj
    by_cases heq : j = count
    · rw [heq, h.blank count (Nat.le_refl _) (List.getElem?_eq_some_iff.mp hcount).1,
        getElem?_filledInputs hcount]
      simp [hnew]
    · exact h.filled j (by omega)
  blank := fun j hj => h.blank j (by omega)
  missing := by
    intro key entry
    rw [OrderedMap.get?_insert_eq_some_iff, h.missing]
    constructor
    · rintro (⟨rfl, rfl⟩ | ⟨hne, hlt, hkey⟩)
      · exact ⟨Nat.lt_succ_self _, descriptor, hcount, rfl, hnew, rfl⟩
      · exact ⟨by omega, hkey⟩
    · rintro ⟨hlt, d, hd, hid, hdnew, rfl⟩
      by_cases heq : (ofLex key).2 = count
      · left
        rw [heq, hcount] at hd
        cases hd
        exact ⟨by rw [hid, ← heq]; rfl, rfl⟩
      · refine .inr ⟨fun hkey => heq ?_, by omega, d, hd, hid, hdnew, rfl⟩
        rw [hkey]
        rfl
  supplied := by
    intro j hj d hd hin hoptional
    by_cases heq : j = count
    · rw [heq, hcount] at hd
      cases hd
      exact absurd hin hnew
    · exact h.supplied j (by omega) d hd hin hoptional
  len_le := (OrderedMap.len_insert_le _ _ _).trans (Nat.succ_le_succ h.len_le)

end Position

theorem Prepared.waiting {arrived : List Nat} {deps : FunctionDependencies}
    {missingMap : OrderedMap (Nat ×ₗ Nat) (ShardingMode × Bool)} {ready : FunctionInputs Ctx}
    (h : Prepared arrived value deps deps.inputSetIds.length missingMap ready) (application : Nat) :
    Waiting arrived value deps
      { application, functionId := deps.function, inputSets := ready, joinInfo := deps.joinInfo,
        outputMapping := deps.outputSetIds, missingSets := missingMap } where
  functionId := rfl
  joinInfo := rfl
  outputMapping := rfl
  inputSets := by
    apply List.ext_getElem?
    intro j
    by_cases hj : j < deps.inputSetIds.length
    · exact h.filled j hj
    · have hlen : (filledInputs deps arrived value).length = deps.inputSetIds.length :=
        List.length_map ..
      change ready[j]? = _
      rw [List.getElem?_eq_none (by rw [h.length]; omega), List.getElem?_eq_none (by omega)]
  missing := by
    intro key entry
    change missingMap.get? key = some entry ↔ _
    rw [h.missing]
    refine ⟨fun hkey => hkey.2, fun hkey => ⟨?_, hkey⟩⟩
    obtain ⟨descriptor, hdescriptor, -⟩ := hkey
    exact (List.getElem?_eq_some_iff.mp hdescriptor).1
  supplied := by
    intro descriptor hdescriptor
    obtain ⟨j, hj⟩ := List.mem_iff_getElem?.mp hdescriptor
    exact h.supplied j (List.getElem?_eq_some_iff.mp hj).1 descriptor hj

section Inputs

variable {inputs : List (Option (CompositionSet Ctx))} {arrived : List Nat}
  (harrived : ∀ id, id ∈ arrived ↔ id < inputs.length)
  (hvalue : ∀ id v, inputs[id]? = some v → value id = v)
include harrived hvalue

/-- The first look at an application: it lacks items, or it waits for the sets that are
not inputs. -/
theorem readyInputs_spec {deps : FunctionDependencies}
    (descriptors : List (Option InputSetDescriptor)) {count : Nat}
    (hcount : count ≤ deps.inputSetIds.length) (hdrop : deps.inputSetIds.drop count = descriptors)
    {missingMap : OrderedMap (Nat ×ₗ Nat) (ShardingMode × Bool)} {ready : FunctionInputs Ctx}
    (h : Prepared arrived value deps count missingMap ready) :
    (readyInputs inputs descriptors count missingMap ready = .ok none ∧
        LacksItems arrived value deps) ∨
      ∃ missingMap' ready', readyInputs inputs descriptors count missingMap ready =
          .ok (some (missingMap', ready')) ∧
        Prepared arrived value deps deps.inputSetIds.length missingMap' ready' := by
  induction descriptors generalizing count missingMap ready with
  | nil =>
    have hlast : count = deps.inputSetIds.length :=
      Nat.le_antisymm hcount (List.drop_eq_nil_iff.mp hdrop)
    exact .inr ⟨missingMap, ready, rfl, hlast ▸ h⟩
  | cons descriptorOption descriptors ih =>
    obtain ⟨hhead, htail⟩ := drop_eq_cons hdrop
    have hlt : count < deps.inputSetIds.length := (List.getElem?_eq_some_iff.mp hhead).1
    cases descriptorOption with
    | none =>
      rw [readyInputs]
      refine ih hlt htail (h.fill hhead (fun d hd => by cases hd) rfl ?_ (fun _ _ => rfl))
      exact h.blank count (Nat.le_refl _) hlt
    | some descriptor =>
      rw [readyInputs]
      cases hinput : inputs[descriptor.compositionId]? with
      | none =>
        have hnew : descriptor.compositionId ∉ arrived := by
          rw [harrived, Nat.not_lt]
          exact List.getElem?_eq_none_iff.mp hinput
        exact ih hlt htail (h.miss hhead hnew)
      | some compSet =>
        have hold : descriptor.compositionId ∈ arrived :=
          (harrived _).mpr (List.getElem?_eq_some_iff.mp hinput).1
        have hval := hvalue _ _ hinput
        by_cases hskip : (!descriptor.optional && noItems compSet) = true
        · left
          simp only [hskip, if_true]
          rw [Bool.and_eq_true, Bool.not_eq_true'] at hskip
          exact ⟨rfl, descriptor, List.mem_of_getElem? hhead, hold, hskip.1, hval ▸ hskip.2⟩
        · have hitems : descriptor.optional = false →
              noItems (value descriptor.compositionId) = false := by
            intro hoptional
            rw [hval]
            simpa [hoptional] using hskip
          have hthere : ∀ d, some descriptor = some d → d.compositionId ∈ arrived ∧
              (d.optional = false → noItems (value d.compositionId) = false) := by
            intro d hd
            cases hd
            exact ⟨hold, hitems⟩
          simp only [hskip]
          cases compSet with
          | none =>
            refine ih hlt htail (h.fill hhead hthere rfl ?_ (fun _ _ => rfl))
            rw [h.blank count (Nat.le_refl _) hlt, Option.bind_some, hval]
            rfl
          | some set =>
            have hset : count < ready.length := by rw [h.length]; exact hlt
            simp only [setAt_of_lt hset]
            refine ih hlt htail (h.fill hhead hthere (List.length_set ..) ?_
              (fun j hj => List.getElem?_set_ne (Ne.symm hj)))
            rw [List.getElem?_set_self hset, Option.bind_some, hval]
            rfl

end Inputs

end Steps
end Dandelion
