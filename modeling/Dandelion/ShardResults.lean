import Dandelion.GuestOutput
import Dandelion.ShardedCalls

/-!
# What the runs of a function return together

`queue_function_sharded` adds the sets of each run to those of the first one, slot by slot.
The sets of one slot must be for the same set of their contexts, or the addition panics. Both
`zip`s of the source stop at the shorter side: slots beyond those of the first run are dropped,
and positions of the output mapping beyond them are not reported.
-/

namespace Dandelion

open Outcome

section Returned

variable {Ctx : Type} (content : Ctx → List (Option DataSet))

/-- The items of one data set of a context. -/
def contextItems (setIndex : Nat) (context : Ctx) : List (SetItem Ctx) :=
  match (content context)[setIndex]? with
  | some (some set) => set.buffers.zipIdx.map fun entry => (entry.1.key, entry.2, context)
  | _ => []

/-- `From<(usize, Vec<Arc<Context>>)>` -/
def CompositionSet.fromContexts (setIndex : Nat) (contexts : List Ctx) : CompositionSet Ctx :=
  ⟨(contexts.flatMap (contextItems content setIndex)).mergeSort (fun a b => a.1 ≤ b.1), setIndex,
    pairwise_mergeSort_key _⟩

/-- The sets that `queue_function` makes of the context of a function that was run. -/
def functionSets (context : Ctx) : List (Option (CompositionSet Ctx)) :=
  (content context).mapIdx fun functionSetId dataOption =>
    dataOption.map fun _ => CompositionSet.fromContexts content functionSetId [context]

end Returned

section Slots

variable {Ctx : Type}

/-- The set that a run returned at a slot; `none` also beyond its last one. -/
def slotSet (result : List (Option (CompositionSet Ctx))) (slot : Nat) :
    Option (CompositionSet Ctx) := result[slot]?.join

/-- The items of a set that may be absent. -/
def itemsOf (setOption : Option (CompositionSet Ctx)) : List (SetItem Ctx) :=
  (setOption.map CompositionSet.itemList).getD []

@[simp] theorem itemsOf_none : itemsOf (none : Option (CompositionSet Ctx)) = [] := rfl

@[simp] theorem itemsOf_some (set : CompositionSet Ctx) : itemsOf (some set) = set.itemList := rfl

@[simp] theorem slotSet_nil (slot : Nat) :
    slotSet ([] : List (Option (CompositionSet Ctx))) slot = none := rfl

@[simp] theorem slotSet_cons_zero (setOption : Option (CompositionSet Ctx))
    (result : List (Option (CompositionSet Ctx))) : slotSet (setOption :: result) 0 = setOption := rfl

@[simp] theorem slotSet_cons_succ (setOption : Option (CompositionSet Ctx))
    (result : List (Option (CompositionSet Ctx))) (slot : Nat) :
    slotSet (setOption :: result) (slot + 1) = slotSet result slot := rfl

theorem getElem?_of_slotSet {result : List (Option (CompositionSet Ctx))} {slot : Nat}
    {set : CompositionSet Ctx} (h : slotSet result slot = some set) :
    result[slot]? = some (some set) := Option.join_eq_some_iff.mp h

theorem lt_of_slotSet {result : List (Option (CompositionSet Ctx))} {slot : Nat}
    {set : CompositionSet Ctx} (h : slotSet result slot = some set) : slot < result.length :=
  (List.getElem?_eq_some_iff.mp (getElem?_of_slotSet h)).1

/-- What becomes of one slot when the set of another run is added. -/
inductive Joined : Option (CompositionSet Ctx) → Option (CompositionSet Ctx) →
    Option (CompositionSet Ctx) → Prop
  | absent (accumulatorSet : Option (CompositionSet Ctx)) : Joined accumulatorSet none accumulatorSet
  | insert (set : CompositionSet Ctx) : Joined none (some set) (some set)
  | combine {oldSet newSet set : CompositionSet Ctx} (h : oldSet.combine newSet = .ok set) :
      Joined (some oldSet) (some newSet) (some set)

/-- Two sets of a slot agree on the set of their contexts. -/
def SameIndex (first second : Option (CompositionSet Ctx)) : Prop :=
  ∀ oldSet newSet, first = some oldSet → second = some newSet → oldSet.setIndex = newSet.setIndex

theorem combine_eq_ok {oldSet newSet set : CompositionSet Ctx}
    (h : oldSet.combine newSet = .ok set) :
    oldSet.setIndex = newSet.setIndex ∧ set.setIndex = oldSet.setIndex ∧
      set.itemList.Perm (oldSet.itemList ++ newSet.itemList) := by
  rw [CompositionSet.combine] at h
  split at h
  · cases h
  · next hindex =>
    cases h
    exact ⟨not_not.mp hindex, rfl, List.mergeSort_perm _ _⟩

theorem combine_of_setIndex_eq {oldSet newSet : CompositionSet Ctx}
    (h : oldSet.setIndex = newSet.setIndex) : ∃ set, oldSet.combine newSet = .ok set := by
  rw [CompositionSet.combine, if_neg (not_not.mpr h)]
  exact ⟨_, rfl⟩

theorem Joined.items {accumulatorSet elemSet setOption : Option (CompositionSet Ctx)}
    (h : Joined accumulatorSet elemSet setOption) :
    (itemsOf setOption).Perm (itemsOf accumulatorSet ++ itemsOf elemSet) := by
  cases h with
  | absent => simp
  | insert => simp
  | combine h => exact (combine_eq_ok h).2.2

theorem Joined.sameIndex {accumulatorSet elemSet setOption : Option (CompositionSet Ctx)}
    (h : Joined accumulatorSet elemSet setOption) : SameIndex accumulatorSet elemSet := by
  intro oldSet newSet hold hnew
  cases h with
  | absent => cases hnew
  | insert => cases hold
  | combine h =>
    cases hold
    cases hnew
    exact (combine_eq_ok h).1

/-- The set of either run is there, for the same set of its contexts. -/
theorem Joined.setIndex {accumulatorSet elemSet setOption : Option (CompositionSet Ctx)}
    (h : Joined accumulatorSet elemSet setOption) {set : CompositionSet Ctx}
    (hset : accumulatorSet = some set ∨ elemSet = some set) :
    ∃ joined, setOption = some joined ∧ joined.setIndex = set.setIndex := by
  cases h with
  | absent =>
    rcases hset with rfl | hset
    · exact ⟨set, rfl, rfl⟩
    · cases hset
  | insert =>
    rcases hset with hset | hset
    · cases hset
    · cases hset
      exact ⟨set, rfl, rfl⟩
  | combine h =>
    obtain ⟨hsame, hindex, -⟩ := combine_eq_ok h
    rcases hset with hset | hset
    · cases hset
      exact ⟨_, rfl, hindex⟩
    · cases hset
      exact ⟨_, rfl, hindex.trans hsame⟩

theorem Joined.eq_none {setOption : Option (CompositionSet Ctx)} (h : Joined none none setOption) :
    setOption = none := by
  cases h
  rfl

theorem SameIndex.joined {accumulatorSet elemSet : Option (CompositionSet Ctx)}
    (h : SameIndex accumulatorSet elemSet) : ∃ setOption, Joined accumulatorSet elemSet setOption := by
  cases elemSet with
  | none => exact ⟨_, .absent _⟩
  | some newSet =>
    cases accumulatorSet with
    | none => exact ⟨_, .insert _⟩
    | some oldSet =>
      obtain ⟨set, hset⟩ := combine_of_setIndex_eq (h oldSet newSet rfl rfl)
      exact ⟨_, .combine hset⟩

theorem accumulate_cons_iff (accumulatorSet elemSet : Option (CompositionSet Ctx))
    (accumulator elemVec sets : List (Option (CompositionSet Ctx))) :
    accumulate (accumulatorSet :: accumulator) (elemSet :: elemVec) = .ok sets ↔
      ∃ first rest, Joined accumulatorSet elemSet first ∧ accumulate accumulator elemVec = .ok rest ∧
        sets = first :: rest := by
  have hrest : ∀ first, (accumulate accumulator elemVec >>= fun rest => pure (first :: rest)) =
      .ok sets ↔ ∃ rest, accumulate accumulator elemVec = .ok rest ∧ sets = first :: rest := by
    intro first
    rw [bind_eq_ok_iff]
    refine exists_congr fun rest => and_congr_right fun _ => ⟨fun h => ?_, fun h => ?_⟩
    · cases h
      rfl
    · rw [h]
      rfl
  constructor
  · intro h
    cases elemSet with
    | none => exact ⟨accumulatorSet, ((hrest _).mp h).imp fun rest h => ⟨.absent _, h⟩⟩
    | some newSet =>
      cases accumulatorSet with
      | none => exact ⟨_, ((hrest (some newSet)).mp h).imp fun rest h => ⟨.insert _, h⟩⟩
      | some oldSet =>
        cases hcombine : oldSet.combine newSet with
        | error stop =>
          simp only [accumulate, hcombine] at h
          cases h
        | ok set =>
          simp only [accumulate, hcombine] at h
          exact ⟨some set, ((hrest _).mp h).imp fun rest h => ⟨.combine hcombine, h⟩⟩
  · rintro ⟨first, rest, hjoined, hsets⟩
    cases hjoined with
    | absent => exact (hrest accumulatorSet).mpr ⟨rest, hsets⟩
    | insert set => exact (hrest (some set)).mpr ⟨rest, hsets⟩
    | @combine oldSet newSet set hcombine =>
      simp only [accumulate, hcombine]
      exact (hrest (some set)).mpr ⟨rest, hsets⟩

/-- Adding a run: the slots of the accumulator, each joined with the slot of the run. -/
theorem accumulate_eq_ok {accumulator elemVec sets : List (Option (CompositionSet Ctx))}
    (h : accumulate accumulator elemVec = .ok sets) :
    sets.length = accumulator.length ∧ ∀ slot < accumulator.length,
      Joined (slotSet accumulator slot) (slotSet elemVec slot) (slotSet sets slot) := by
  induction accumulator generalizing elemVec sets with
  | nil =>
    refine ⟨?_, fun slot hslot => absurd hslot (Nat.not_lt_zero slot)⟩
    cases elemVec <;> cases h <;> rfl
  | cons accumulatorSet accumulator ih =>
    cases elemVec with
    | nil =>
      cases h
      exact ⟨rfl, fun slot _ => .absent _⟩
    | cons elemSet elemVec =>
      obtain ⟨first, rest, hfirst, hrest, rfl⟩ := (accumulate_cons_iff _ _ _ _ _).mp h
      obtain ⟨hlength, hslots⟩ := ih hrest
      refine ⟨by rw [List.length_cons, hlength, List.length_cons], fun slot hslot => ?_⟩
      cases slot with
      | zero => exact hfirst
      | succ slot => exact hslots slot (Nat.lt_of_succ_lt_succ hslot)

/-- The addition does not panic when the sets of every slot agree. -/
theorem accumulate_of_sameIndex {accumulator elemVec : List (Option (CompositionSet Ctx))}
    (h : ∀ slot, SameIndex (slotSet accumulator slot) (slotSet elemVec slot)) :
    ∃ sets, accumulate accumulator elemVec = .ok sets := by
  induction accumulator generalizing elemVec with
  | nil => cases elemVec <;> exact ⟨_, rfl⟩
  | cons accumulatorSet accumulator ih =>
    cases elemVec with
    | nil => exact ⟨_, rfl⟩
    | cons elemSet elemVec =>
      obtain ⟨first, hfirst⟩ := (h 0).joined
      obtain ⟨rest, hrest⟩ := ih fun slot => h (slot + 1)
      exact ⟨_, (accumulate_cons_iff _ _ _ _ _).mpr ⟨first, rest, hfirst, hrest, rfl⟩⟩

end Slots

section Results

variable {Ctx : Type}

/-- The sets that two runs return at a slot agree. -/
def AgreeAt (results : List (List (Option (CompositionSet Ctx)))) (slot : Nat) : Prop :=
  ∀ result ∈ results, ∀ result' ∈ results, SameIndex (slotSet result slot) (slotSet result' slot)

/-- The items that the runs return at a slot, run by run. -/
def returnedItems (results : List (List (Option (CompositionSet Ctx)))) (slot : Nat) :
    List (SetItem Ctx) := results.flatMap fun result => itemsOf (slotSet result slot)

/-- The sets of the runs so far; `length` is the number of sets of the first one. -/
structure Accumulated (length : Nat) (results : List (List (Option (CompositionSet Ctx))))
    (sets : List (Option (CompositionSet Ctx))) : Prop where
  length_eq : sets.length = length
  items : ∀ slot < length, (itemsOf (slotSet sets slot)).Perm (returnedItems results slot)
  index : ∀ slot < length, ∀ result ∈ results, ∀ set, slotSet result slot = some set →
    ∃ joined, slotSet sets slot = some joined ∧ joined.setIndex = set.setIndex
  absent : ∀ slot < length, (∀ result ∈ results, slotSet result slot = none) →
    slotSet sets slot = none

theorem accumulated_first (first : List (Option (CompositionSet Ctx))) :
    Accumulated first.length [first] first := by
  refine ⟨rfl, fun slot _ => ?_, fun slot _ result hresult set hset => ?_, fun slot _ h => ?_⟩
  · rw [returnedItems, List.flatMap_singleton]
  · obtain rfl := List.mem_singleton.mp hresult
    exact ⟨set, hset, rfl⟩
  · exact h first (List.mem_singleton_self first)

theorem Accumulated.step {length : Nat} {results : List (List (Option (CompositionSet Ctx)))}
    {accumulator elemVec sets : List (Option (CompositionSet Ctx))}
    (h : Accumulated length results accumulator) (hstep : accumulate accumulator elemVec = .ok sets) :
    Accumulated length (results ++ [elemVec]) sets := by
  obtain ⟨hlength, hjoined⟩ := accumulate_eq_ok hstep
  rw [h.length_eq] at hlength hjoined
  refine ⟨hlength, fun slot hslot => ?_, fun slot hslot result hresult set hset => ?_,
    fun slot hslot hnone => ?_⟩
  · rw [returnedItems, List.flatMap_append, List.flatMap_singleton]
    exact (hjoined slot hslot).items.trans ((h.items slot hslot).append_right _)
  · rcases List.mem_append.mp hresult with hresult | hresult
    · obtain ⟨old, hold, hindex⟩ := h.index slot hslot result hresult set hset
      obtain ⟨joined, hsets, hsame⟩ := (hjoined slot hslot).setIndex (.inl hold)
      exact ⟨joined, hsets, hsame.trans hindex⟩
    · obtain rfl := List.mem_singleton.mp hresult
      exact (hjoined slot hslot).setIndex (.inr hset)
  · have hold := h.absent slot hslot fun result hresult =>
      hnone result (List.mem_append_left _ hresult)
    have hnew := hnone elemVec (List.mem_append_right _ (List.mem_singleton_self _))
    have hslots := hjoined slot hslot
    rw [hold, hnew] at hslots
    exact hslots.eq_none

theorem Accumulated.agreeAt {length : Nat} {results : List (List (Option (CompositionSet Ctx)))}
    {sets : List (Option (CompositionSet Ctx))} (h : Accumulated length results sets) {slot : Nat}
    (hslot : slot < length) : AgreeAt results slot := by
  intro result hresult result' hresult' oldSet newSet hold hnew
  obtain ⟨joined, hjoined, hindex⟩ := h.index slot hslot result hresult oldSet hold
  obtain ⟨joined', hjoined', hindex'⟩ := h.index slot hslot result' hresult' newSet hnew
  rw [hjoined] at hjoined'
  cases hjoined'
  exact hindex.symm.trans hindex'

/-- What is there so far agrees with a run that agrees with the runs so far. -/
theorem Accumulated.sameIndex {length : Nat} {results : List (List (Option (CompositionSet Ctx)))}
    {accumulator elemVec : List (Option (CompositionSet Ctx))}
    (h : Accumulated length results accumulator)
    (hagree : ∀ slot < length, ∀ result ∈ results,
      SameIndex (slotSet result slot) (slotSet elemVec slot)) (slot : Nat) :
    SameIndex (slotSet accumulator slot) (slotSet elemVec slot) := by
  intro oldSet newSet hold hnew
  have hslot := h.length_eq ▸ lt_of_slotSet hold
  by_cases hnone : ∀ result ∈ results, slotSet result slot = none
  · rw [h.absent slot hslot hnone] at hold
    cases hold
  · simp only [not_forall] at hnone
    obtain ⟨result, hresult, hsome⟩ := hnone
    obtain ⟨set, hset⟩ := Option.ne_none_iff_exists'.mp hsome
    obtain ⟨joined, hjoined, hindex⟩ := h.index slot hslot result hresult set hset
    rw [hjoined] at hold
    cases hold
    exact hindex.trans (hagree slot hslot result hresult set newSet hset hnew)

theorem Accumulated.foldlM {length : Nat} {results : List (List (Option (CompositionSet Ctx)))}
    {accumulator sets : List (Option (CompositionSet Ctx))}
    {rest : List (List (Option (CompositionSet Ctx)))} (h : Accumulated length results accumulator)
    (hfold : rest.foldlM accumulate accumulator = .ok sets) :
    Accumulated length (results ++ rest) sets := by
  induction rest generalizing results accumulator with
  | nil =>
    cases hfold
    rwa [List.append_nil]
  | cons elemVec rest ih =>
    rw [List.foldlM_cons] at hfold
    obtain ⟨next, hnext, hfold⟩ := (bind_eq_ok_iff _ _ _).mp hfold
    rw [List.append_cons]
    exact ih (h.step hnext) hfold

theorem Accumulated.foldlM_ok {length : Nat} {results : List (List (Option (CompositionSet Ctx)))}
    {accumulator : List (Option (CompositionSet Ctx))}
    (rest : List (List (Option (CompositionSet Ctx)))) (h : Accumulated length results accumulator)
    (hagree : ∀ slot < length, AgreeAt (results ++ rest) slot) :
    ∃ sets, rest.foldlM accumulate accumulator = .ok sets := by
  induction rest generalizing results accumulator with
  | nil => exact ⟨accumulator, rfl⟩
  | cons elemVec rest ih =>
    have hsame := h.sameIndex fun slot hslot result hresult =>
      hagree slot hslot result (List.mem_append_left _ hresult) elemVec
        (List.mem_append_right results List.mem_cons_self)
    obtain ⟨next, hnext⟩ := accumulate_of_sameIndex hsame
    rw [List.append_cons] at hagree
    obtain ⟨sets, hsets⟩ := ih (h.step hnext) hagree
    exact ⟨sets, by rw [List.foldlM_cons, hnext]; exact hsets⟩

/-- The sets of all runs can be put together exactly when the runs agree at every slot of the
first one. -/
theorem compositionSetVecs_ok_iff (outputLength : Nat) (first : List (Option (CompositionSet Ctx)))
    (rest : List (List (Option (CompositionSet Ctx)))) :
    (∃ sets, compositionSetVecs outputLength (first :: rest) = .ok sets) ↔
      ∀ slot < first.length, AgreeAt (first :: rest) slot := by
  constructor
  · rintro ⟨sets, hsets⟩ slot hslot
    exact ((accumulated_first first).foldlM hsets).agreeAt hslot
  · intro hagree
    exact (accumulated_first first).foldlM_ok rest hagree

theorem compositionSetVecs_accumulated {outputLength : Nat}
    {first : List (Option (CompositionSet Ctx))} {rest : List (List (Option (CompositionSet Ctx)))}
    {sets : List (Option (CompositionSet Ctx))}
    (h : compositionSetVecs outputLength (first :: rest) = .ok sets) :
    Accumulated first.length (first :: rest) sets :=
  (accumulated_first first).foldlM h

end Results

section Mapping

variable {Ctx : Type}

/-- The positions of an output mapping that have a composition id, in their order. -/
def mappedSlots (outputMapping : List (Option Nat)) : List (Nat × Nat) :=
  outputMapping.zipIdx.filterMap fun entry => entry.1.map fun id => (entry.2, id)

theorem mem_mappedSlots (outputMapping : List (Option Nat)) (slot id : Nat) :
    (slot, id) ∈ mappedSlots outputMapping ↔ outputMapping[slot]? = some (some id) := by
  rw [mappedSlots, List.mem_filterMap]
  constructor
  · rintro ⟨⟨idOption, position⟩, hentry, hid⟩
    obtain ⟨id', hid', heq⟩ := Option.map_eq_some_iff.mp hid
    cases heq
    rw [List.mem_zipIdx_iff_getElem?] at hentry
    rw [hentry]
    exact congrArg some hid'
  · intro hslot
    exact ⟨(some id, slot), List.mem_zipIdx_iff_getElem?.mpr hslot, rfl⟩

theorem zip_drop_eq {α β : Type} (xs : List α) (ys : List β) (first : Nat) :
    xs.zip (ys.drop first) =
      (xs.zipIdx first).filterMap fun entry => ys[entry.2]?.map fun y => (entry.1, y) := by
  induction xs generalizing first with
  | nil => rfl
  | cons x xs ih =>
    rw [List.zipIdx_cons, List.filterMap_cons]
    cases hget : ys[first]? with
    | none =>
      have hlength := List.getElem?_eq_none_iff.mp hget
      rw [List.drop_eq_nil_of_le hlength, List.zip_nil_right, Option.map_none]
      have hrest := ih (first + 1)
      rw [List.drop_eq_nil_of_le (Nat.le_succ_of_le hlength), List.zip_nil_right] at hrest
      exact hrest
    | some y =>
      obtain ⟨hlt, rfl⟩ := List.getElem?_eq_some_iff.mp hget
      rw [List.drop_eq_getElem_cons hlt, List.zip_cons_cons, ih (first + 1), Option.map_some]

theorem associate_eq (outputMapping : List (Option Nat)) (sets : List (Option (CompositionSet Ctx))) :
    associate outputMapping sets =
      (mappedSlots outputMapping).filterMap fun slot =>
        sets[slot.1]?.map fun setOption => (slot.2, setOption) := by
  have hzip := zip_drop_eq outputMapping sets 0
  rw [List.drop_zero] at hzip
  rw [associate, hzip, mappedSlots, List.filterMap_filterMap, List.filterMap_filterMap]
  congr 1
  funext entry
  obtain ⟨idOption, slot⟩ := entry
  change (Option.map _ sets[slot]?).bind _ = (Option.map _ idOption).bind _
  cases idOption with
  | none => cases sets[slot]? <;> rfl
  | some id =>
    change (Option.map _ sets[slot]?).bind _ = Option.map _ sets[slot]?
    cases sets[slot]? <;> rfl

/-- Every mapped position is reported, in the order of the mapping, with the items that the runs
returned there. -/
def ReportsAll (outputMapping : List (Option Nat))
    (results : List (List (Option (CompositionSet Ctx)))) (report : NewCompositions Ctx) : Prop :=
  List.Forall₂ (fun slot new => new.1 = slot.2 ∧
      ∀ item, item ∈ itemsOf new.2 ↔ ∃ result ∈ results, item ∈ itemsOf (slotSet result slot.1))
    (mappedSlots outputMapping) report

/-- The first run has a slot for every mapped position, and the runs agree at its slots. -/
def CoversMapping (outputMapping : List (Option Nat))
    (results : List (List (Option (CompositionSet Ctx)))) : Prop :=
  ∀ first ∈ results.head?, (∀ slot id, outputMapping[slot]? = some (some id) → slot < first.length) ∧
    ∀ slot < first.length, AgreeAt results slot

/-- All mapped positions are reported only if there is a set for each of them. -/
theorem ReportsAll.lt_length {outputMapping : List (Option Nat)}
    {results : List (List (Option (CompositionSet Ctx)))} {sets : List (Option (CompositionSet Ctx))}
    (h : ReportsAll outputMapping results (associate outputMapping sets)) {slot id : Nat}
    (hslot : outputMapping[slot]? = some (some id)) : slot < sets.length := by
  by_contra hlt
  have hlength := List.Forall₂.length_eq h
  rw [associate_eq] at hlength
  refine absurd hlength (Nat.ne_of_gt (List.length_filterMap_lt_length_iff_exists.mpr
    ⟨(slot, id), (mem_mappedSlots _ _ _).mpr hslot, ?_⟩))
  rw [List.getElem?_eq_none (Nat.le_of_not_lt hlt), Option.map_none]

/-- A set for each mapped position, with the items of the runs, is all that is to be reported. -/
theorem reportsAll_associate {outputMapping : List (Option Nat)}
    {results : List (List (Option (CompositionSet Ctx)))} {sets : List (Option (CompositionSet Ctx))}
    (h : ∀ slot id, outputMapping[slot]? = some (some id) → slot < sets.length ∧
      ∀ item, item ∈ itemsOf (slotSet sets slot) ↔
        ∃ result ∈ results, item ∈ itemsOf (slotSet result slot)) :
    ReportsAll outputMapping results (associate outputMapping sets) := by
  have hmap : associate outputMapping sets =
      (mappedSlots outputMapping).map fun slot => (slot.2, slotSet sets slot.1) := by
    rw [associate_eq, ← List.filterMap_eq_map]
    refine List.filterMap_congr fun slot hslot => ?_
    have hlt := (h slot.1 slot.2 ((mem_mappedSlots _ _ _).mp hslot)).1
    rw [Function.comp_apply, slotSet, List.getElem?_eq_getElem hlt]
    rfl
  rw [ReportsAll, hmap, List.forall₂_map_right_iff, List.forall₂_same]
  exact fun slot hslot => ⟨rfl, (h slot.1 slot.2 ((mem_mappedSlots _ _ _).mp hslot)).2⟩

theorem mem_returnedItems (results : List (List (Option (CompositionSet Ctx)))) (slot : Nat)
    (item : SetItem Ctx) :
    item ∈ returnedItems results slot ↔ ∃ result ∈ results, item ∈ itemsOf (slotSet result slot) :=
  List.mem_flatMap

/-- The sets of the runs are reported as the mapping says exactly when the first run covers the
mapping. -/
theorem reports_iff_coversMapping (outputMapping : List (Option Nat))
    (results : List (List (Option (CompositionSet Ctx)))) :
    (∃ sets, compositionSetVecs outputMapping.length results = .ok sets ∧
        ReportsAll outputMapping results (associate outputMapping sets)) ↔
      CoversMapping outputMapping results := by
  cases results with
  | nil =>
    refine iff_of_true ⟨_, rfl, reportsAll_associate fun slot id hslot => ?_⟩
      fun first hfirst => by cases hfirst
    have hlt := (List.getElem?_eq_some_iff.mp hslot).1
    rw [List.length_replicate, slotSet, List.getElem?_replicate_of_lt hlt]
    refine ⟨hlt, fun item => iff_of_false List.not_mem_nil ?_⟩
    rintro ⟨result, hresult, -⟩
    exact List.not_mem_nil hresult
  | cons first rest =>
    constructor
    · rintro ⟨sets, hsets, hreports⟩ first' hfirst
      cases hfirst
      have haccumulated := compositionSetVecs_accumulated hsets
      refine ⟨fun slot id hslot => ?_, fun slot hslot => haccumulated.agreeAt hslot⟩
      rw [← haccumulated.length_eq]
      exact hreports.lt_length hslot
    · intro hcovers
      obtain ⟨hmapped, hagree⟩ := hcovers first rfl
      obtain ⟨sets, hsets⟩ := (compositionSetVecs_ok_iff outputMapping.length first rest).mpr hagree
      have haccumulated := compositionSetVecs_accumulated hsets
      refine ⟨sets, hsets, reportsAll_associate fun slot id hslot => ?_⟩
      have hlt := hmapped slot id hslot
      refine ⟨haccumulated.length_eq ▸ hlt, fun item => ?_⟩
      rw [(haccumulated.items slot hlt).mem_iff, mem_returnedItems]

variable {queueFunction : FunctionCall Ctx} {functionId : String} {inputSets : FunctionInputs Ctx}
  {joinInfo : List Nat × List JoinStrategy} {results : List (List (Option (CompositionSet Ctx)))}

theorem queueFunctionSharded_of_results
    (hresults : compositionResults queueFunction functionId inputSets joinInfo = .ok results)
    (outputMapping : List (Option Nat)) (report : NewCompositions Ctx) :
    queueFunctionSharded queueFunction functionId inputSets joinInfo outputMapping = .ok report ↔
      ∃ sets, compositionSetVecs outputMapping.length results = .ok sets ∧
        associate outputMapping sets = report := by
  rw [queueFunctionSharded, hresults, ok_bind, bind_eq_ok_iff]
  refine exists_congr fun sets => and_congr_right fun _ => ⟨fun h => ?_, fun h => ?_⟩
  · cases h
    rfl
  · rw [h]
    rfl

/-- Every mapped output is reported, whatever the runs return, exactly when the first run has a
slot for each of them and the runs agree. -/
theorem sharded_call_reports_all
    (hresults : compositionResults queueFunction functionId inputSets joinInfo = .ok results)
    (outputMapping : List (Option Nat)) :
    (∃ report, queueFunctionSharded queueFunction functionId inputSets joinInfo outputMapping =
        .ok report ∧ ReportsAll outputMapping results report) ↔
      CoversMapping outputMapping results := by
  rw [← reports_iff_coversMapping]
  constructor
  · rintro ⟨report, hok, hreports⟩
    obtain ⟨sets, hsets, rfl⟩ := (queueFunctionSharded_of_results hresults _ _).mp hok
    exact ⟨sets, hsets, hreports⟩
  · rintro ⟨sets, hsets, hreports⟩
    exact ⟨_, (queueFunctionSharded_of_results hresults _ _).mpr ⟨sets, hsets, rfl⟩, hreports⟩

end Mapping

/-- A function that returns its inputs. -/
def identityFunction : FunctionCall Unit := fun _ inputs => pure inputs

theorem identity_reports_all : ∃ results,
    compositionResults identityFunction "F" [some (.key, CompositionSet.ofKeys [1, 2] (by decide))]
      ([], []) = .ok results ∧ results.length = 2 ∧
    ∃ report, queueFunctionSharded identityFunction "F"
        [some (.key, CompositionSet.ofKeys [1, 2] (by decide))] ([], []) [some 5] = .ok report ∧
      ReportsAll [some 5] results report := by
  refine ⟨_, rfl, rfl, (sharded_call_reports_all rfl [some 5]).mpr fun first hfirst => ?_⟩
  cases hfirst
  refine ⟨fun slot id hslot => (List.getElem?_eq_some_iff.mp hslot).1, fun slot hslot => ?_⟩
  obtain rfl := Nat.lt_one_iff.mp hslot
  intro result hresult result' hresult' oldSet newSet hold hnew
  rcases List.mem_pair.mp hresult with rfl | rfl <;> rcases List.mem_pair.mp hresult' with rfl | rfl <;>
    cases hold <;> cases hnew <;> rfl

/-- A guest that reports no output sets: its context has no content. -/
def silentFunction : FunctionCall Unit := fun _ _ => pure (functionSets (fun _ => []) ())

/-- The composition set that the function is to produce is never reported. -/
theorem silent_function_not_reported :
    compositionResults silentFunction "F" [] ([], []) = .ok [[]] ∧
    queueFunctionSharded silentFunction "F" [] ([], []) [some 0] = .ok [] ∧
    ¬ ReportsAll [some 0] [[]] ([] : NewCompositions Unit) := by
  refine ⟨rfl, rfl, fun h => ?_⟩
  cases h.length_eq

end Dandelion
