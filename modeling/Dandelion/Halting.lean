import Dandelion.DispatchRuns
import Dandelion.CompositionMeaning
import Dandelion.NestedCompositions
import Dandelion.ShardOrigins

/-!
# Calls that come to an end

The dispatcher has no bound on its loops: neither the iterators that shard the inputs of a function
nor the rounds of a composition count their steps. They end all the same, for any inputs, with a
value, an error or a panic. For a composition the functions that it calls have to end.
-/

namespace Outcome

universe u v
variable {ε : Type u} {α β : Type v}

/-- The computation comes to an end, in one way or another. -/
def Halts (x : Outcome ε α) : Prop := Meets x (fun _ => True) (· ≠ .diverge)

@[simp] theorem halts_pure (a : α) : Halts (pure a : Outcome ε α) := trivial

@[simp] theorem halts_crash : Halts (crash : Outcome ε α) := fun h => by cases h

@[simp] theorem halts_fail (e : ε) : Halts (fail e : Outcome ε α) := fun h => by cases h

theorem Halts.bind {x : Outcome ε α} {f : α → Outcome ε β} (hx : Halts x)
    (hf : ∀ a, x = .ok a → Halts (f a)) : Halts (x >>= f) := by
  cases x with
  | ok a => exact hf a rfl
  | error stop => exact hx

theorem foldlM_halts {f : β → α → Outcome ε β} (hf : ∀ b a, Halts (f b a)) (as : List α) (b : β) :
    Halts (as.foldlM f b) := by
  induction as generalizing b with
  | nil => exact halts_pure b
  | cons a as ih =>
    rw [List.foldlM_cons]
    exact (hf b a).bind fun b' _ => ih b'

theorem mapM_id_halts {results : List (Outcome ε α)} (h : ∀ result ∈ results, Halts result) :
    Halts (results.mapM id) := by
  induction results with
  | nil => exact halts_pure []
  | cons result results ih =>
    obtain ⟨hfirst, hrest⟩ := List.forall_mem_cons.mp h
    rw [List.mapM_cons]
    exact hfirst.bind fun a _ => (ih hrest).bind fun as _ => halts_pure _

/-- Loops whose bodies agree on the states that the first one comes to. -/
theorem loop_congr {σ : Type v} {body body' : σ → Outcome ε (σ ⊕ α)} (I : σ → Prop)
    (hbody : ∀ s, I s → body s = body' s) (hkeeps : ∀ s s', I s → body s = .ok (.inl s') → I s')
    (fuel : Nat) {s : σ} (hs : I s) : loop body fuel s = loop body' fuel s := by
  induction fuel generalizing s with
  | zero => rfl
  | succ fuel ih =>
    rw [loop_succ, loop_succ, ← hbody s hs]
    cases hround : body s with
    | error stop => rfl
    | ok r =>
      cases r with
      | inl s' => exact ih (hkeeps s s' hs hround)
      | inr a => rfl

end Outcome

namespace Dandelion

open Outcome JoinIterator

variable {Ctx : Type}

/-! ## Sharding -/

section Sharding

theorem live_nil : Live ([] : JoinIterator Ctx) :=
  ⟨fun _ h => absurd h List.not_mem_nil, fun _ h => by cases h⟩

theorem innerPanic_ne_diverge {it : JoinIterator Ctx} {stop : Stop Empty} (h : InnerPanic it stop) :
    stop ≠ .diverge := by
  rintro rfl
  cases h.1

/-- An inner node's search for its first match: each round moves one of the two sides on. -/
theorem matchRound_halts {right : List (CompositionSet Ctx)} (hr : Shards right)
    {left : JoinIterator Ctx} (hlive : Live left) (hne : left ≠ []) {fuel index key : Nat}
    (hfuel : moves left + (right.length - index) < fuel) :
    Meets (loop (matchRound right) fuel (index, key, left)) (fun r => shape r.2.2 = shape left)
      (· ≠ .diverge) := by
  apply loop_meets (fun s : Nat × Nat × JoinIterator Ctx => shape s.2.2 = shape left)
    (fun s => moves s.2.2 + (right.length - s.1))
  · rintro ⟨index, key, left'⟩ (hs : shape left' = shape left)
    rw [matchRound]
    split
    · next hcond =>
      split
      · split
        · next hlt =>
          rw [hr.keyAt_lt hlt]
          exact ⟨hs, by dsimp only; omega⟩
        · exact ⟨hs, by dsimp only; omega⟩
      · have hsteps := advance_steps (hlive.of_shape hs) (ne_nil_of_shape hs hne)
        apply (hsteps.mono (fun _ h => h) fun _ => innerPanic_ne_diverge).bind
        rintro ⟨moved, left''⟩ hstep
        have hle := hstep.moves_le
        cases moved with
        | true =>
          have hlt := hstep.moves_lt
          exact ⟨hstep.1.trans hs, by dsimp only; omega⟩
        | false => exact ⟨hstep.1.trans hs, by dsimp only; omega⟩
    · exact hs
  · rfl
  · exact hfuel

theorem new_halts {left : JoinIterator Ctx} (h : Live left) (mode : JoinStrategy)
    (rightOpt : Option (ShardingMode × CompositionSet Ctx)) (writeIndex : Nat) :
    Meets (JoinIterator.new mode left rightOpt writeIndex) Live (· ≠ .diverge) := by
  rcases rightOpt with _ | ⟨setMode, set⟩
  · exact h
  by_cases hs : set.itemList = []
  · rw [new_empty mode left setMode hs]
    exact h
  have hr := Shards.of_shard set setMode hs
  rw [new_shards mode left hs (hr.keyAt_lt hr.length_pos)]
  cases left with
  | nil =>
    by_cases hroot : mode = .inner ∨ mode = .left
    · simp only [if_pos hroot]
      exact h
    · simp only [if_neg hroot]
      exact h.cons hr fun _ => not_or.mp hroot
  | cons l ls =>
    have hne : l :: ls ≠ [] := List.cons_ne_nil l ls
    cases mode with
    | inner =>
      apply (matchRound_halts hr h hne (by omega)).bind
      rintro ⟨index, key, left⟩ hshape
      have hleft := ne_nil_of_shape hshape hne
      change Meets (if index = (set.shard setMode).length then _ else _) _ _
      split
      · exact live_nil
      · exact (h.of_shape hshape).cons hr fun hnil => absurd hnil hleft
    | left =>
      apply ((skipBelow_meets hr l.key 0).mono (fun _ h => h) fun _ hstop => hstop.elim).bind
      intro index _
      split
      · exact h
      · exact h.cons hr fun hnil => absurd hnil hne
    | right => exact h.cons hr fun hnil => absurd hnil hne
    | outer => exact h.cons hr fun hnil => absurd hnil hne
    | cross => exact h.cons hr fun hnil => absurd hnil hne

theorem takeSet_halts (sets : ShardedInputs Ctx) (index : Nat) : Halts (takeSet sets index) := by
  rw [takeSet]
  cases sets[index]? with
  | none => exact halts_crash
  | some set => exact halts_pure _

theorem joinAll_halts {it : JoinIterator Ctx} (h : Live it) (sets : ShardedInputs Ctx)
    (order : List Nat) (strategies : List JoinStrategy) :
    Meets (joinAll it sets order strategies) Live (· ≠ .diverge) := by
  induction order generalizing it sets strategies with
  | nil =>
    cases strategies with
    | nil => exact h
    | cons strategy strategies => exact fun hstop => by cases hstop
  | cons index order ih =>
    cases strategies with
    | nil => exact fun hstop => by cases hstop
    | cons strategy strategies =>
      rw [joinAll]
      apply Meets.bind (takeSet_halts sets index)
      rintro ⟨set, rest⟩ -
      apply (new_halts h strategy set index).bind
      intro it' h'
      exact ih h' rest strategies

theorem keyAt_halts (right : List (CompositionSet Ctx)) (index : Nat) : Halts (keyAt right index) := by
  rw [keyAt]
  cases right[index]? with
  | none => exact halts_crash
  | some set =>
    dsimp only
    split
    · exact halts_crash
    · exact halts_pure _

theorem fillIn_halts (it : JoinIterator Ctx) (toFill : Entry Ctx) : Halts (fillIn it toFill) := by
  induction it with
  | nil => exact halts_pure _
  | cons node left ih =>
    rw [fillIn]
    refine ih.bind ?_
    rintro ⟨leftFilled, entry⟩ -
    dsimp only
    cases node.right[node.rightIndex]? with
    | none => exact halts_pure _
    | some shard =>
      refine (keyAt_halts node.right node.rightIndex).bind fun key _ => ?_
      split
      · split
        · exact halts_pure _
        · exact halts_crash
      · exact halts_pure _

theorem enumerate_halts {setNum : Nat} {it : JoinIterator Ctx} (h : Live it) :
    Halts (enumerate setNum it) := by
  cases it with
  | nil => exact halts_pure _
  | cons node left =>
    rw [enumerate]
    refine (fillIn_halts (node :: left) _).bind ?_
    rintro ⟨filled, entry⟩ -
    have hne : node :: left ≠ [] := List.cons_ne_nil _ _
    apply loop_meets (fun s : JoinIterator Ctx × List (Entry Ctx) => shape s.1 = shape (node :: left))
      (fun s => moves s.1) ?_ _ _ rfl (Nat.lt_succ_self _)
    rintro ⟨it', entries⟩ hs
    rw [enumerateRound]
    have hsteps := advance_steps (h.of_shape hs) (ne_nil_of_shape hs hne)
    apply (hsteps.mono (fun _ h => h) fun _ => innerPanic_ne_diverge).bind
    rintro ⟨moved, it''⟩ hstep
    cases moved with
    | false => trivial
    | true =>
      apply Meets.bind (fillIn_halts it'' _)
      rintro ⟨filled', entry'⟩ -
      exact ⟨hstep.1.trans hs, hstep.moves_lt⟩

theorem markJoined_halts (missing : List (Option Nat)) (order : List Nat) :
    Halts (markJoined missing order) := by
  induction order generalizing missing with
  | nil => exact halts_pure _
  | cons index order ih =>
    rw [markJoined]
    split
    · exact ih _
    · exact halts_crash

/-- Whatever the sets, the order and the strategies are, the sharding comes to an end. -/
theorem getSharding_halts (sets : ShardedInputs Ctx) (joinOrder : List Nat)
    (joinStrategies : List JoinStrategy) : Halts (getSharding sets joinOrder joinStrategies) := by
  rw [getSharding]
  dsimp only
  split
  · exact halts_pure _
  · refine (markJoined_halts _ joinOrder).bind fun missingSets _ => ?_
    cases joinOrder ++ missingSets.filterMap id with
    | nil => exact halts_crash
    | cons first rest =>
      refine (takeSet_halts sets first).bind ?_
      rintro ⟨set, sets'⟩ -
      apply Meets.bind (new_halts live_nil .outer set first)
      intro it hit
      apply (joinAll_halts hit sets' rest _).bind
      exact fun it' hit' => enumerate_halts hit'

end Sharding

/-! ## Calling a function once for each shard -/

section Shards

theorem joinAllResults_halts {α : Type} {results : List (DandelionResult α)}
    (h : ∀ result ∈ results, Halts result) : Halts (joinAllResults results) := by
  rw [joinAllResults]
  split
  · next stop hfind => exact h _ (List.mem_of_find?_eq_some hfind)
  · exact mapM_id_halts h

theorem accumulate_halts (accumulator elemVec : List (Option (CompositionSet Ctx))) :
    Halts (accumulate accumulator elemVec) := by
  induction accumulator generalizing elemVec with
  | nil => cases elemVec <;> exact halts_pure _
  | cons accumulatorSet accumulator ih =>
    cases elemVec with
    | nil => exact halts_pure _
    | cons elemSet elemVec =>
      rw [accumulate.eq_def]
      have hrest : ∀ first, Halts (accumulate accumulator elemVec >>= fun rest =>
          (pure (first :: rest) : DandelionResult (List (Option (CompositionSet Ctx))))) :=
        fun first => (ih elemVec).bind fun rest _ => halts_pure _
      cases accumulatorSet with
      | none => cases elemSet <;> exact hrest _
      | some oldSet =>
        cases elemSet with
        | none => exact hrest _
        | some newSet =>
          dsimp only
          cases oldSet.combine newSet with
          | ok set => exact hrest _
          | error stop => exact halts_crash

theorem queueFunctionSharded_halts {queueFunction : FunctionCall Ctx} {functionId : String}
    (h : ∀ inputs, Halts (queueFunction functionId inputs)) (inputSets : FunctionInputs Ctx)
    (joinInfo : List Nat × List JoinStrategy) (outputMapping : List (Option Nat)) :
    Halts (queueFunctionSharded queueFunction functionId inputSets joinInfo outputMapping) := by
  have hresults : Halts (compositionResults queueFunction functionId inputSets joinInfo) := by
    rw [compositionResults]
    split
    · have hsharding := getSharding_halts inputSets joinInfo.1 joinInfo.2
      cases hrun : getSharding inputSets joinInfo.1 joinInfo.2 with
      | ok sharded =>
        refine joinAllResults_halts fun result hresult => ?_
        obtain ⟨entry, -, rfl⟩ := List.mem_map.mp hresult
        exact h entry
      | error stop =>
        rw [hrun] at hsharding
        cases stop with
        | error e => exact e.elim
        | panic => exact halts_crash
        | diverge => exact absurd rfl hsharding
    · exact (h []).bind fun result _ => halts_pure _
  rw [queueFunctionSharded]
  refine hresults.bind fun results _ => Halts.bind ?_ fun sets _ => halts_pure _
  cases results with
  | nil => exact halts_pure _
  | cons first rest => exact foldlM_halts accumulate_halts rest first

theorem queueFunctionSharded_congr {queueFunction queueFunction' : FunctionCall Ctx}
    {functionId : String} (h : queueFunction functionId = queueFunction' functionId) :
    queueFunctionSharded queueFunction functionId = queueFunctionSharded queueFunction' functionId := by
  funext inputSets joinInfo outputMapping
  rw [queueFunctionSharded, queueFunctionSharded, compositionResults, compositionResults, h]

end Shards

/-! ## The rounds of a composition -/

section Rounds

variable {call : ShardedCall Ctx} {outputMap : OrderedMap Nat Nat}

/-- The functions that wait lack a set and are among the given ones. -/
def WaitsFor (names : String → Prop) (functions : List (FunctionArgs Ctx)) : Prop :=
  ∀ args ∈ functions, names args.functionId ∧ args.missingSets.entries ≠ []

theorem setAt_halts {α : Type} (xs : List α) (index : Nat) (x : α) : Halts (setAt xs index x) := by
  rw [setAt]
  split
  · exact halts_pure _
  · exact halts_crash

theorem writeOutput_halts (outputSets : List (Option (CompositionSet Ctx))) (setIndex : Nat)
    (setOption : Option (CompositionSet Ctx)) :
    Halts (writeOutput outputMap outputSets setIndex setOption) := by
  rw [writeOutput]
  cases outputMap.get? setIndex with
  | none => exact halts_pure _
  | some outputIndex => exact setAt_halts _ _ _

theorem presetOutputs_halts (inputs : List (Option (CompositionSet Ctx))) (inputIndex : Nat)
    (outputSets : List (Option (CompositionSet Ctx))) :
    Halts (presetOutputs outputMap inputs inputIndex outputSets) := by
  induction inputs generalizing inputIndex outputSets with
  | nil => exact halts_pure _
  | cons inputSet inputs ih =>
    rw [presetOutputs]
    exact (writeOutput_halts _ _ _).bind fun written _ => ih _ written

theorem readyInputs_halts (inputs : List (Option (CompositionSet Ctx)))
    (descriptors : List (Option InputSetDescriptor)) (functionIndex : Nat)
    (missingMap : OrderedMap (Nat ×ₗ Nat) (ShardingMode × Bool)) (ready : FunctionInputs Ctx) :
    Meets (readyInputs inputs descriptors functionIndex missingMap ready)
      (fun prepared => ∀ missing filled, prepared = some (missing, filled) →
        missing.len ≤ missingMap.len + descriptors.length) (· ≠ .diverge) := by
  induction descriptors generalizing functionIndex missingMap ready with
  | nil =>
    intro missing filled heq
    cases heq
    exact Nat.le_refl _
  | cons descriptorOption descriptors ih =>
    have hlater : ∀ ready', Meets (readyInputs inputs descriptors (functionIndex + 1) missingMap ready')
        (fun prepared => ∀ missing filled, prepared = some (missing, filled) →
          missing.len ≤ missingMap.len + (descriptors.length + 1)) (· ≠ .diverge) :=
      fun ready' => (ih _ missingMap ready').imp fun prepared h missing filled heq =>
        (h missing filled heq).trans (by omega)
    cases descriptorOption with
    | none => exact hlater ready
    | some descriptor =>
      rw [readyInputs]
      cases inputs[descriptor.compositionId]? with
      | none =>
        refine (ih _ _ ready).imp fun prepared h missing filled heq => ?_
        have hle := h missing filled heq
        have hinsert := missingMap.len_insert_le (toLex (descriptor.compositionId, functionIndex))
          (descriptor.sharding, descriptor.optional)
        rw [List.length_cons]
        omega
      | some compSet =>
        dsimp only
        split
        · exact fun missing filled heq => by cases heq
        · cases compSet with
          | none => exact hlater ready
          | some set =>
            dsimp only
            apply Meets.bind (setAt_halts ready functionIndex (some (descriptor.sharding, set)))
            exact fun ready' _ => hlater ready'

variable (call) in
theorem prepareFunctions_halts (inputs : List (Option (CompositionSet Ctx)))
    (dependencies : List FunctionDependencies) (application : Nat) :
    Meets (prepareFunctions inputs dependencies application) (fun prepared =>
      (∀ args ∈ prepared.1, ∃ deps ∈ dependencies, args.functionId = deps.function) ∧
      rounds (notReady prepared.1)
        (prepared.2.map pure ++ (readyFunctions prepared.1).map (FunctionArgs.start call)) ≤
          maxRounds dependencies) (· ≠ .diverge) := by
  induction dependencies generalizing application with
  | nil => exact ⟨fun args hargs => absurd hargs List.not_mem_nil, Nat.zero_le _⟩
  | cons deps dependencies ih =>
    rw [prepareFunctions]
    apply (readyInputs_halts inputs deps.inputSetIds 0 .empty _).bind
    intro prepared hprepared
    apply (ih (application + 1)).bind
    rintro ⟨functions, skipped⟩ ⟨hnames, hle⟩
    have hmax : maxRounds (deps :: dependencies) = deps.inputSetIds.length + 1 + maxRounds dependencies := by
      simp [maxRounds]
    have hmem : ∀ args ∈ functions, ∃ deps' ∈ deps :: dependencies, args.functionId = deps'.function := by
      intro args hargs
      obtain ⟨deps', hdeps', heq⟩ := hnames args hargs
      exact ⟨deps', List.mem_cons_of_mem _ hdeps', heq⟩
    rw [hmax]
    cases prepared with
    | none =>
      refine ⟨hmem, ?_⟩
      simp only [rounds, List.map_cons, List.cons_append, List.length_cons] at hle ⊢
      omega
    | some prepared =>
      obtain ⟨missingSets, inputSets⟩ := prepared
      have hlen := hprepared missingSets inputSets rfl
      refine ⟨List.forall_mem_cons.mpr ⟨⟨deps, List.mem_cons_self, rfl⟩, hmem⟩, ?_⟩
      refine (rounds_cons_function _ _ _).trans (Nat.add_le_add ?_ hle)
      have hempty : (OrderedMap.empty : OrderedMap (Nat ×ₗ Nat) (ShardingMode × Bool)).len = 0 := rfl
      rw [hempty] at hlen
      dsimp only
      omega

theorem fillMissing_halts (setOption : Option (CompositionSet Ctx))
    (entries : List ((Nat ×ₗ Nat) × (ShardingMode × Bool))) (inputSets : FunctionInputs Ctx) :
    Meets (fillMissing setOption entries inputSets) (fun r => r.2.length = entries.length)
      (· ≠ .diverge) := by
  induction entries generalizing inputSets with
  | nil => rfl
  | cons first entries ih =>
    obtain ⟨key, mode, optional⟩ := first
    rw [fillMissing]
    have hlater : ∀ inputSets' (keyOption : Option (Nat ×ₗ Nat)),
        Meets (fillMissing setOption entries inputSets' >>= fun r =>
          (pure (r.1, keyOption :: r.2) : DandelionResult (FunctionInputs Ctx × _)))
          (fun r => r.2.length = entries.length + 1) (· ≠ .diverge) := by
      intro inputSets' keyOption
      apply (ih inputSets').bind
      intro r hr
      exact congrArg (· + 1) hr
    split
    · exact hlater inputSets none
    · apply Meets.bind (setAt_halts inputSets (ofLex key).2 (setOption.map fun set => (mode, set)))
      exact fun filled _ => hlater filled (some key)

theorem removeKeys_len_le {keys : List (Option (Nat ×ₗ Nat))}
    {missingSets left : OrderedMap (Nat ×ₗ Nat) (ShardingMode × Bool)}
    (h : removeKeys keys missingSets = some left) : left.len ≤ missingSets.len := by
  induction keys generalizing missingSets with
  | nil =>
    cases h
    exact Nat.le_refl _
  | cons keyOption keys ih =>
    cases keyOption with
    | none => cases h
    | some key =>
      rw [removeKeys] at h
      exact (ih h).trans (List.length_filter_le _ _)

section Awaited

variable {names : String → Prop} {P : DandelionResult (NewCompositions Ctx) → Prop}

/-- Between the rounds: who waits is among the given functions, and the awaited results are as
those of these functions. -/
structure Underway (names : String → Prop) (P : DandelionResult (NewCompositions Ctx) → Prop)
    (state : DispatchState Ctx) : Prop where
  waits : WaitsFor names state.nonReadyFunctions
  awaited : ∀ result ∈ state.awaitedSets, P result

theorem Underway.finish {state : DispatchState Ctx} (h : Underway names P state) (i : Nat) :
    Underway names P { state with awaitedSets := state.awaitedSets.eraseIdx i } :=
  ⟨h.waits, fun result hresult => h.awaited result (List.mem_of_mem_eraseIdx hresult)⟩

variable (hpure : ∀ new, P (pure new))
  (hcall : ∀ args : FunctionArgs Ctx, names args.functionId → P (args.start call))
include hpure hcall

/-- A set that arrives at a waiting function: what is left of the function and of its rounds. -/
theorem receiveSet_keeps {id : Nat} {setOption : Option (CompositionSet Ctx)} {args : FunctionArgs Ctx}
    (hname : names args.functionId) (hmissing : args.missingSets.entries ≠ []) :
    Meets (receiveSet call id setOption args) (fun r =>
      WaitsFor names r.1.toList ∧ (∀ result ∈ r.2.1, P result) ∧
      rounds r.1.toList r.2.1 ≤ args.missingSets.len) (· ≠ .diverge) := by
  rw [receiveSet]
  apply (fillMissing_halts setOption (args.missing id) args.inputSets).bind
  rintro ⟨inputSets, keys⟩ hkeys
  have hlen : keys.length ≤ args.missingSets.len := by
    rw [hkeys]
    exact List.length_filter_le _ _
  have hskipped : ∀ result ∈ (keys.filter Option.isNone).map fun _ =>
      (pure (skippedSets args.outputMapping) : DandelionResult (NewCompositions Ctx)), P result := by
    intro result hresult
    obtain ⟨-, -, rfl⟩ := List.mem_map.mp hresult
    exact hpure _
  dsimp only
  cases hremove : removeKeys keys args.missingSets with
  | none =>
    refine ⟨fun args' hargs' => absurd hargs' List.not_mem_nil, hskipped, ?_⟩
    have hfilter := List.length_filter_le Option.isNone keys
    simp only [rounds, Option.toList_none, List.map_nil, List.sum_nil, List.length_map]
    omega
  | some missingSets =>
    have hnone : keys.filter Option.isNone = [] := by
      rw [List.filter_eq_nil_iff]
      intro key hkey hisNone
      rw [Option.isNone_iff_eq_none.mp hisNone] at hkey
      rw [removeKeys_none hkey] at hremove
      cases hremove
    rw [hnone]
    dsimp only
    split
    · refine ⟨fun args' hargs' => absurd hargs' List.not_mem_nil, fun result hresult => ?_, ?_⟩
      · rw [List.mem_singleton.mp hresult]
        exact hcall _ hname
      · exact List.length_pos_iff.mpr hmissing
    · next hleft =>
      refine ⟨fun args' hargs' => ?_, fun result hresult => absurd hresult List.not_mem_nil, ?_⟩
      · rw [Option.toList_some, List.mem_singleton] at hargs'
        subst hargs'
        exact ⟨hname, fun hempty => hleft (List.isEmpty_iff.mpr hempty)⟩
      · simpa [rounds] using removeKeys_len_le hremove

theorem receiveAll_keeps (id : Nat) (setOption : Option (CompositionSet Ctx))
    {functions : List (FunctionArgs Ctx)} (h : WaitsFor names functions) :
    Meets (receiveAll call id setOption functions) (fun r =>
      WaitsFor names r.1 ∧ (∀ result ∈ r.2.1, P result) ∧ rounds r.1 r.2.1 ≤ rounds functions [])
      (· ≠ .diverge) := by
  induction functions with
  | nil => exact ⟨h, fun result hresult => absurd hresult List.not_mem_nil, Nat.le_refl _⟩
  | cons args functions ih =>
    obtain ⟨⟨hname, hmissing⟩, hrest⟩ := List.forall_mem_cons.mp h
    rw [receiveAll]
    apply (receiveSet_keeps hpure hcall hname hmissing).bind
    rintro ⟨kept, awaited, started⟩ ⟨hkept, hawaited, hle⟩
    apply (ih hrest).bind
    rintro ⟨nonReady, awaited', started'⟩ ⟨hnonReady, hawaited', hle'⟩
    refine ⟨List.forall_mem_append.mpr ⟨hkept, hnonReady⟩,
      List.forall_mem_append.mpr ⟨hawaited, hawaited'⟩, ?_⟩
    simp only [rounds, List.length_append, List.map_append, List.sum_append, List.map_cons,
      List.sum_cons, List.length_nil] at hle hle' ⊢
    omega

theorem deliver_keeps {state : DispatchState Ctx} (h : Underway names P state)
    (new : Nat × Option (CompositionSet Ctx)) :
    Meets (deliver call outputMap state new)
      (fun next => Underway names P next ∧ next.rounds ≤ state.rounds) (· ≠ .diverge) := by
  rw [deliver]
  apply Meets.bind (writeOutput_halts state.outputSets new.1 new.2)
  intro outputSets _
  apply (receiveAll_keeps hpure hcall new.1 new.2 h.waits).bind
  rintro ⟨nonReady, awaited, started⟩ ⟨hwaits, hawaited, hle⟩
  refine ⟨⟨hwaits, List.forall_mem_append.mpr ⟨h.awaited, hawaited⟩⟩, ?_⟩
  simp only [DispatchState.rounds, rounds, List.length_append, List.length_nil] at hle ⊢
  omega

theorem deliverAll_keeps (new : NewCompositions Ctx) {state : DispatchState Ctx}
    (h : Underway names P state) :
    Meets (deliverAll call outputMap new state)
      (fun next => Underway names P next ∧ next.rounds ≤ state.rounds) (· ≠ .diverge) := by
  induction new generalizing state with
  | nil => exact ⟨h, Nat.le_refl _⟩
  | cons first new ih =>
    rw [deliverAll]
    apply (deliver_keeps hpure hcall h first).bind
    rintro next ⟨hnext, hle⟩
    exact (ih hnext).imp fun last hlast => ⟨hlast.1, hlast.2.trans hle⟩

theorem initialState_keeps {composition : Composition}
    (hnames : ∀ deps ∈ composition.dependencies, names deps.function)
    (inputs : List (Option (CompositionSet Ctx))) :
    Meets (initialState call composition inputs) (fun state =>
      Underway names P state ∧ state.rounds ≤ maxRounds composition.dependencies) (· ≠ .diverge) := by
  rw [initialState]
  apply Meets.bind (presetOutputs_halts inputs 0 _)
  intro outputSets _
  apply (prepareFunctions_halts call inputs composition.dependencies 0).bind
  rintro ⟨functions, skipped⟩ ⟨hfunctions, hle⟩
  have hmem : ∀ args ∈ functions, names args.functionId := by
    intro args hargs
    obtain ⟨deps, hdeps, heq⟩ := hfunctions args hargs
    rw [heq]
    exact hnames deps hdeps
  simp only [List.partition_eq_filter_filter]
  refine ⟨⟨fun args hargs => ?_, List.forall_mem_append.mpr ⟨fun result hresult => ?_, ?_⟩⟩, hle⟩
  · obtain ⟨hargs, hmissing⟩ := List.mem_filter.mp hargs
    refine ⟨hmem args hargs, fun hempty => ?_⟩
    rw [Function.comp_apply, hempty] at hmissing
    cases hmissing
  · obtain ⟨new, -, rfl⟩ := List.mem_map.mp hresult
    exact hpure new
  · intro result hresult
    obtain ⟨args, hargs, rfl⟩ := List.mem_map.mp hresult
    exact hcall args (hmem args (List.mem_filter.mp hargs).1)

end Awaited

theorem awaitNext_halts {names : String → Prop}
    (hcall : ∀ args : FunctionArgs Ctx, names args.functionId → Halts (args.start call)) :
    Round (awaitNext call outputMap) (fun s => Underway names Halts s.1) (fun s => s.1.rounds)
      (fun _ => True) (· ≠ .diverge) := by
  intro s hs
  obtain ⟨state, order⟩ := s
  rw [awaitNext]
  cases hget : state.awaitedSets[order 0 % state.awaitedSets.length]? with
  | none => trivial
  | some result =>
    obtain ⟨hlt, -⟩ := List.getElem?_eq_some_iff.mp hget
    apply Meets.bind (hs.awaited result (List.mem_of_getElem? hget))
    intro new _
    apply (deliverAll_keeps halts_pure hcall new (hs.finish _)).bind
    rintro next ⟨hnext, hle⟩
    refine ⟨hnext, hle.trans_lt ?_⟩
    simp only [DispatchState.rounds, rounds, List.length_eraseIdx_of_lt hlt]
    omega

/-- A composition comes to an end in as many rounds as its applications have inputs, and one more
for each, if the functions that it calls do. -/
theorem queueComposition_halts {names : String → Prop}
    (hcall : ∀ args : FunctionArgs Ctx, names args.functionId → Halts (args.start call))
    {composition : Composition} (hnames : ∀ deps ∈ composition.dependencies, names deps.function)
    (inputs : List (Option (CompositionSet Ctx))) (order : Nat → Nat) {fuel : Nat}
    (hfuel : maxRounds composition.dependencies < fuel) :
    Halts (queueComposition call composition inputs order fuel) := by
  rw [queueComposition]
  apply Meets.bind (initialState_keeps halts_pure hcall hnames inputs)
  rintro state ⟨hstate, hle⟩
  exact loop_meets _ _ (awaitNext_halts hcall) fuel (state, order) hstate (hle.trans_lt hfuel)

/-! ### Which calls a composition makes -/

section Callees

variable {call' : ShardedCall Ctx} {names : String → Prop}

theorem deliver_waits {state next : DispatchState Ctx} {new : Nat × Option (CompositionSet Ctx)}
    (h : WaitsFor names state.nonReadyFunctions) (hnext : deliver call outputMap state new = .ok next) :
    WaitsFor names next.nonReadyFunctions := by
  have hstate : Underway names (fun _ => True) state := ⟨h, fun _ _ => trivial⟩
  have hkeeps : Meets (deliver call outputMap state new) _ _ :=
    deliver_keeps (fun _ => trivial) (fun _ _ => trivial) hstate new
  rw [hnext] at hkeeps
  exact hkeeps.1.waits

theorem deliverAll_waits {new : NewCompositions Ctx} {state next : DispatchState Ctx}
    (h : WaitsFor names state.nonReadyFunctions)
    (hnext : deliverAll call outputMap new state = .ok next) : WaitsFor names next.nonReadyFunctions := by
  induction new generalizing state with
  | nil =>
    cases hnext
    exact h
  | cons first new ih =>
    obtain ⟨middle, hfirst, hrest⟩ := (bind_eq_ok_iff _ _ _).mp hnext
    exact ih (deliver_waits h hfirst) hrest

theorem awaitNext_waits {s t : DispatchState Ctx × (Nat → Nat)}
    (h : WaitsFor names s.1.nonReadyFunctions) (hnext : awaitNext call outputMap s = .ok (.inl t)) :
    WaitsFor names t.1.nonReadyFunctions := by
  obtain ⟨state, order⟩ := s
  rw [awaitNext] at hnext
  cases hget : state.awaitedSets[order 0 % state.awaitedSets.length]? with
  | none =>
    rw [hget] at hnext
    cases hnext
  | some result =>
    rw [hget] at hnext
    obtain ⟨new, -, hnext⟩ := (bind_eq_ok_iff _ _ _).mp hnext
    obtain ⟨next, hdeliver, hnext⟩ := (bind_eq_ok_iff _ _ _).mp hnext
    cases hnext
    change WaitsFor names next.nonReadyFunctions
    refine deliverAll_waits ?_ hdeliver
    exact h

variable (hcall : ∀ functionId, names functionId → call functionId = call' functionId)
include hcall

theorem receiveAll_congr (id : Nat) (setOption : Option (CompositionSet Ctx))
    {functions : List (FunctionArgs Ctx)} (h : WaitsFor names functions) :
    receiveAll call id setOption functions = receiveAll call' id setOption functions := by
  induction functions with
  | nil => rfl
  | cons args functions ih =>
    obtain ⟨⟨hname, -⟩, hrest⟩ := List.forall_mem_cons.mp h
    have hfirst : receiveSet call id setOption args = receiveSet call' id setOption args := by
      simp only [receiveSet, FunctionArgs.start, hcall args.functionId hname]
    rw [receiveAll, receiveAll, ih hrest, hfirst]

theorem deliverAll_congr (new : NewCompositions Ctx) {state : DispatchState Ctx}
    (h : WaitsFor names state.nonReadyFunctions) :
    deliverAll call outputMap new state = deliverAll call' outputMap new state := by
  induction new generalizing state with
  | nil => rfl
  | cons first new ih =>
    have hfirst : deliver call outputMap state first = deliver call' outputMap state first := by
      rw [deliver, deliver, receiveAll_congr hcall first.1 first.2 h]
    rw [deliverAll, deliverAll, ← hfirst]
    cases hnext : deliver call outputMap state first with
    | error stop => rfl
    | ok next => exact ih (deliver_waits h hnext)

theorem awaitNext_congr {s : DispatchState Ctx × (Nat → Nat)}
    (h : WaitsFor names s.1.nonReadyFunctions) :
    awaitNext call outputMap s = awaitNext call' outputMap s := by
  obtain ⟨state, order⟩ := s
  rw [awaitNext, awaitNext]
  cases state.awaitedSets[order 0 % state.awaitedSets.length]? with
  | none => rfl
  | some result =>
    refine congrArg (result >>= ·) (funext fun new => ?_)
    exact congrArg (· >>= _) (deliverAll_congr hcall new h)

theorem initialState_congr {composition : Composition}
    (hnames : ∀ deps ∈ composition.dependencies, names deps.function)
    (inputs : List (Option (CompositionSet Ctx))) :
    initialState call composition inputs = initialState call' composition inputs := by
  rw [initialState, initialState]
  refine congrArg (_ >>= ·) (funext fun outputSets => ?_)
  have hprepare := prepareFunctions_halts call inputs composition.dependencies 0
  cases hok : prepareFunctions inputs composition.dependencies 0 with
  | error stop => rfl
  | ok prepared =>
    rw [hok] at hprepare
    have hstart : ∀ args ∈ prepared.1, args.start call = args.start call' := by
      intro args hargs
      obtain ⟨deps, hdeps, heq⟩ := hprepare.1 args hargs
      rw [FunctionArgs.start, FunctionArgs.start, hcall args.functionId (heq ▸ hnames deps hdeps)]
    have hmap : (prepared.1.filter fun args => args.missingSets.entries.isEmpty).map
        (FunctionArgs.start call) = (prepared.1.filter fun args => args.missingSets.entries.isEmpty).map
        (FunctionArgs.start call') :=
      List.map_congr_left fun args hargs => hstart args (List.mem_filter.mp hargs).1
    simp only [ok_bind, List.partition_eq_filter_filter, hmap]

/-- A composition makes no other calls than those of its applications. -/
theorem queueComposition_congr {composition : Composition}
    (hnames : ∀ deps ∈ composition.dependencies, names deps.function)
    (inputs : List (Option (CompositionSet Ctx))) (order : Nat → Nat) (fuel : Nat) :
    queueComposition call composition inputs order fuel =
      queueComposition call' composition inputs order fuel := by
  rw [queueComposition, queueComposition, ← initialState_congr hcall hnames inputs]
  have hinitial : Meets (initialState call composition inputs) _ _ :=
    initialState_keeps (fun _ => trivial) (fun _ _ => trivial) hnames inputs (P := fun _ => True)
  cases hok : initialState call composition inputs with
  | error stop => rfl
  | ok state =>
    rw [hok] at hinitial
    exact loop_congr (fun s => WaitsFor names s.1.nonReadyFunctions)
      (fun s => awaitNext_congr hcall) (fun s t hs hnext => awaitNext_waits hs hnext) fuel
      hinitial.1.waits

end Callees

end Rounds

end Dandelion
