import Dandelion.JoinChain

/-!
# The order in which `get_sharding` joins the sets

The join order given by the composition is completed with the sets it leaves
out. When it names no set twice the completed order is a permutation of all
indices, every `take` finds its set in place, and `get_sharding` is a fold of
`JoinIterator::new` over the order followed by one enumeration of the chain.
A join order that repeats an index always panics: the completed order is then
longer than the strategies `zip_eq` pairs it with.
-/

namespace Dandelion

open Outcome JoinIterator

variable {Ctx : Type}

/-- The join order followed by the indices it does not name. -/
def fullOrder (setNum : Nat) (joinOrder : List Nat) : List Nat :=
  joinOrder ++ (List.range setNum).filter (fun i => i ∉ joinOrder)

theorem markJoined_eq (missing : List (Option Nat)) (order : List Nat)
    (h : ∀ i ∈ order, i < missing.length) :
    markJoined missing order =
      pure (missing.mapIdx (fun i m => if i ∈ order then none else m)) := by
  induction order generalizing missing with
  | nil =>
    have hid : (fun (i : Nat) (m : Option Nat) => if i ∈ ([] : List Nat) then none else m) =
        fun _ m => m := by simp
    rw [markJoined, hid, List.mapIdx_eq_zipIdx_map]
    simp
  | cons index order ih =>
    have hi : index < missing.length := h index List.mem_cons_self
    have hrest : ∀ i ∈ order, i < (missing.set index none).length := by
      intro i hi
      rw [List.length_set]
      exact h i (List.mem_cons_of_mem _ hi)
    rw [markJoined, if_pos hi, ih _ hrest]
    congr 1
    apply List.ext_getElem?
    intro i
    simp only [List.getElem?_mapIdx, List.getElem?_set, List.mem_cons]
    by_cases hind : index = i
    · subst hind
      simp [hi]
    · simp [hind, Ne.symm hind]

theorem filterMap_missing (setNum : Nat) (order : List Nat) :
    (((List.range setNum).map some).mapIdx (fun i m => if i ∈ order then none else m)).filterMap id =
      (List.range setNum).filter (fun i => i ∉ order) := by
  induction setNum with
  | zero => rfl
  | succ n ih =>
    rw [List.range_succ, List.map_append, List.mapIdx_append, List.filterMap_append, ih,
      List.filter_append]
    congr 1
    by_cases hn : n ∈ order <;> simp [hn]

theorem mem_fullOrder {setNum : Nat} {order : List Nat} (h : ∀ i ∈ order, i < setNum) (i : Nat) :
    i ∈ fullOrder setNum order ↔ i < setNum := by
  simp only [fullOrder, List.mem_append, List.mem_filter, List.mem_range, decide_eq_true_eq]
  constructor
  · rintro (hi | ⟨hi, -⟩)
    · exact h i hi
    · exact hi
  · intro hi
    by_cases ho : i ∈ order
    · exact Or.inl ho
    · exact Or.inr ⟨hi, ho⟩

theorem fullOrder_nodup (setNum : Nat) {order : List Nat} (hn : order.Nodup) :
    (fullOrder setNum order).Nodup := by
  apply List.Nodup.append hn (List.nodup_range.filter _)
  intro i hi hi'
  simp only [List.mem_filter, decide_eq_true_eq] at hi'
  exact hi'.2 hi

theorem fullOrder_perm {setNum : Nat} {order : List Nat} (hn : order.Nodup)
    (h : ∀ i ∈ order, i < setNum) : (fullOrder setNum order).Perm (List.range setNum) := by
  apply (List.perm_ext_iff_of_nodup (fullOrder_nodup setNum hn) List.nodup_range).mpr
  intro i
  rw [mem_fullOrder h, List.mem_range]

theorem length_fullOrder {setNum : Nat} {order : List Nat} (hn : order.Nodup)
    (h : ∀ i ∈ order, i < setNum) : (fullOrder setNum order).length = setNum := by
  rw [(fullOrder_perm hn h).length_eq, List.length_range]

theorem length_fullOrder_of_not_nodup {setNum : Nat} {order : List Nat} (hn : ¬ order.Nodup)
    (h : ∀ i ∈ order, i < setNum) : setNum < (fullOrder setNum order).length := by
  have hlt : order.dedup.length < order.length := by
    rcases Nat.lt_or_eq_of_le (List.dedup_sublist order).length_le with hlt | heq
    · exact hlt
    · exact absurd ((List.dedup_sublist order).eq_of_length heq ▸ List.nodup_dedup order) hn
  have hd : (fullOrder setNum order.dedup).length = setNum :=
    length_fullOrder (List.nodup_dedup order) (fun i hi => h i (List.mem_dedup.mp hi))
  have hf : (List.range setNum).filter (fun i => i ∉ order.dedup) =
      (List.range setNum).filter (fun i => i ∉ order) := by
    simp only [List.mem_dedup]
  simp only [fullOrder, List.length_append, hf] at hd ⊢
  omega

@[simp] theorem length_resize {α : Type} (l : List α) (n : Nat) (value : α) :
    (resize l n value).length = n := by
  simp only [resize, List.length_append, List.length_take, List.length_replicate]
  omega

/-- The chain built from `it` by joining the listed sets in turn. -/
def joinFrom (sets : ShardedInputs Ctx) : JoinIterator Ctx → List (Nat × JoinStrategy) →
    Join (JoinIterator Ctx)
  | it, [] => pure it
  | it, (index, strategy) :: rest => do
    let it ← JoinIterator.new strategy it (sets[index]?.getD none) index
    joinFrom sets it rest

theorem takeSet_eq {sets : ShardedInputs Ctx} {index : Nat} (h : index < sets.length) :
    takeSet sets index = pure (sets[index]?.getD none, sets.set index none) := by
  simp [takeSet, List.getElem?_eq_getElem h]

/-- Sets already taken are not named again, so each `take` sees the given set. -/
theorem joinAll_eq (sets taken : ShardedInputs Ctx) (it : JoinIterator Ctx) (order : List Nat)
    (strategies : List JoinStrategy) (hlen : order.length = strategies.length)
    (hn : order.Nodup) (hlt : ∀ i ∈ order, i < taken.length)
    (hsame : ∀ i ∈ order, taken[i]? = sets[i]?) :
    joinAll it taken order strategies = joinFrom sets it (order.zip strategies) := by
  induction order generalizing taken it strategies with
  | nil =>
    cases strategies with
    | nil => rfl
    | cons strategy strategies => simp at hlen
  | cons index order ih =>
    cases strategies with
    | nil => simp at hlen
    | cons strategy strategies =>
      obtain ⟨hindex, hn⟩ := List.nodup_cons.mp hn
      simp only [joinAll, takeSet_eq (hlt index List.mem_cons_self), pure_bind, List.zip_cons_cons,
        joinFrom, hsame index List.mem_cons_self]
      congr 1
      funext it'
      apply ih _ _ _ (by simpa using hlen) hn
      · intro i hi
        rw [List.length_set]
        exact hlt i (List.mem_cons_of_mem _ hi)
      · intro i hi
        have hne : index ≠ i := fun he => hindex (he ▸ hi)
        rw [List.getElem?_set_ne hne, hsame i (List.mem_cons_of_mem _ hi)]

/-- The strategies `get_sharding` uses along the completed order. -/
def fullStrategies (setNum : Nat) (joinStrategies : List JoinStrategy) : List JoinStrategy :=
  .outer :: resize joinStrategies (setNum - 1) .cross

/-- With a join order of distinct indices the call is one fold over the
completed order and one enumeration. -/
theorem getSharding_eq (sets : ShardedInputs Ctx) (joinOrder : List Nat)
    (joinStrategies : List JoinStrategy) (hpos : 0 < sets.length) (hn : joinOrder.Nodup)
    (hlt : ∀ i ∈ joinOrder, i < sets.length) :
    getSharding sets joinOrder joinStrategies =
      joinFrom sets [] ((fullOrder sets.length joinOrder).zip
        (fullStrategies sets.length joinStrategies)) >>= enumerate sets.length := by
  have hmark : markJoined ((List.range sets.length).map some) joinOrder = _ :=
    markJoined_eq _ joinOrder (by simpa using hlt)
  have hlen := length_fullOrder hn hlt
  have hnodup := fullOrder_nodup sets.length hn
  have hmem := mem_fullOrder hlt
  rw [getSharding, if_neg (by omega), hmark, pure_bind, filterMap_missing]
  dsimp only
  rw [← fullOrder]
  cases hfull : fullOrder sets.length joinOrder with
  | nil => rw [hfull, List.length_nil] at hlen; omega
  | cons first rest =>
    rw [hfull] at hlen hnodup hmem
    obtain ⟨hfirst, hnodup⟩ := List.nodup_cons.mp hnodup
    have hf : first < sets.length := (hmem first).mp List.mem_cons_self
    have hjoin : ∀ it : JoinIterator Ctx,
        joinAll it (sets.set first none) rest (resize joinStrategies (sets.length - 1) .cross) =
          joinFrom sets it (rest.zip (resize joinStrategies (sets.length - 1) .cross)) := by
      intro it
      apply joinAll_eq _ _ _ _ _ (by simp only [List.length_cons, length_resize] at hlen ⊢; omega)
        hnodup
      · intro i hi
        rw [List.length_set]
        exact (hmem i).mp (List.mem_cons_of_mem _ hi)
      · intro i hi
        have hne : first ≠ i := fun he => hfirst (he ▸ hi)
        exact List.getElem?_set_ne hne
    simp only [takeSet_eq hf, pure_bind, fullStrategies, List.zip_cons_cons, joinFrom, bind_assoc,
      hjoin]

end Dandelion
