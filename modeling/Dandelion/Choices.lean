import Mathlib.Data.List.Sections
import Mathlib.Data.Multiset.Bind

/-!
# Choosing one option for each position

A vector is filled in position by position, with every option a position has.
Whatever the order of the positions, the vectors obtained are the sections of
the list of options, each with the same multiplicity.
-/

namespace Choices

variable {α : Type*}

/-- Every vector of `vs` with every option at position `i`. -/
def fill (options : List α) (i : Nat) (vs : List (List α)) : List (List α) :=
  vs.flatMap fun v => options.map (v.set i)

/-- `fill` at the positions of `order`, in turn. -/
def fillAll (options : Nat → List α) (order : List Nat) (vs : List (List α)) : List (List α) :=
  order.foldl (fun vs i => fill (options i) i vs) vs

theorem fillAll_append (options : Nat → List α) (order order' : List Nat) (vs : List (List α)) :
    fillAll options (order ++ order') vs = fillAll options order' (fillAll options order vs) :=
  List.foldl_append

/-- `fill` on multisets, where its order does not matter. -/
def fillMultiset (options : List α) (i : Nat) (vs : Multiset (List α)) : Multiset (List α) :=
  vs.bind fun v => (options : Multiset α).map (v.set i)

theorem coe_fill (options : List α) (i : Nat) (vs : List (List α)) :
    (fill options i vs : Multiset (List α)) = fillMultiset options i vs := by
  rw [fillMultiset, fill, ← Multiset.coe_bind]
  rfl

theorem coe_fillAll (options : Nat → List α) (order : List Nat) (vs : List (List α)) :
    (fillAll options order vs : Multiset (List α)) =
      order.foldl (fun vs i => fillMultiset (options i) i vs) vs := by
  induction order generalizing vs with
  | nil => rfl
  | cons i order ih =>
    rw [List.foldl_cons, ← coe_fill]
    exact ih _

theorem fillMultiset_comm (options options' : List α) {i j : Nat} (h : i ≠ j)
    (vs : Multiset (List α)) :
    fillMultiset options' j (fillMultiset options i vs) =
      fillMultiset options i (fillMultiset options' j vs) := by
  simp only [fillMultiset, Multiset.bind_assoc, Multiset.bind_map]
  congr 1
  funext v
  rw [Multiset.bind_map_comm]
  congr 1
  funext b
  apply Multiset.map_congr rfl
  intro a _
  exact List.set_comm _ _ h

theorem fillAll_perm (options : Nat → List α) {order order' : List Nat} (h : order.Perm order')
    (vs : List (List α)) : (fillAll options order vs).Perm (fillAll options order' vs) := by
  rw [← Multiset.coe_eq_coe, coe_fillAll, coe_fillAll]
  apply h.foldl_eq'
  intro i _ j _ vs
  by_cases hij : i = j
  · rw [hij]
  · exact fillMultiset_comm _ _ hij vs

theorem fillAll_map_succ (options : Nat → List α) (order : List Nat) (a : α) (vs : List (List α)) :
    fillAll options (order.map Nat.succ) (vs.map (a :: ·)) =
      (fillAll (fun i => options (i + 1)) order vs).map (a :: ·) := by
  induction order generalizing vs with
  | nil => rfl
  | cons i order ih =>
    have hfill : fill (options (i + 1)) (i + 1) (vs.map (a :: ·)) =
        (fill (options (i + 1)) i vs).map (a :: ·) := by
      simp only [fill, List.flatMap_map, List.map_flatMap, List.map_map]
      rfl
    rw [fillAll, List.map_cons, List.foldl_cons]
    change fillAll options (order.map Nat.succ) (fill (options (i + 1)) (i + 1) _) = _
    rw [hfill, ih]
    rfl

/-- Filling all positions of a vector gives the sections of the options. -/
theorem fillAll_range (a : α) (options : List (List α)) (f : Nat → List α)
    (hf : ∀ i < options.length, options[i]? = some (f i)) :
    (fillAll f (List.range options.length) [List.replicate options.length a]).Perm
      options.sections := by
  induction options generalizing f with
  | nil => exact List.Perm.refl _
  | cons head rest ih =>
    have hrest := ih (fun i => f (i + 1)) (fun i hi => hf (i + 1) (Nat.succ_lt_succ hi))
    have hhead : head = f 0 := Option.some.inj (hf 0 (Nat.succ_pos _))
    have hperm : (List.range (rest.length + 1)).Perm
        ((List.range rest.length).map Nat.succ ++ [0]) := by
      rw [List.range_succ_eq_map]
      exact (List.perm_append_singleton 0 _).symm
    refine (fillAll_perm f hperm _).trans ?_
    rw [fillAll_append]
    change (fill (f 0) 0 (fillAll f _ ([List.replicate rest.length a].map (a :: ·)))).Perm _
    rw [fillAll_map_succ, ← hhead, fill, List.flatMap_map]
    exact hrest.flatMap_right _

theorem fillAll_sections (a : α) (options : List (List α)) (f : Nat → List α)
    (hf : ∀ i < options.length, options[i]? = some (f i)) {order : List Nat}
    (h : order.Perm (List.range options.length)) :
    (fillAll f order [List.replicate options.length a]).Perm options.sections :=
  (fillAll_perm f h _).trans (fillAll_range a options f hf)

theorem fillAll_default (f : Nat → List α) (order : List Nat) (n : Nat) (a : α)
    (h : ∀ i ∈ order, f i = [a]) :
    fillAll f order [List.replicate n a] = [List.replicate n a] := by
  induction order with
  | nil => rfl
  | cons i order ih =>
    have hset : (List.replicate n a).set i a = List.replicate n a := List.set_replicate_self
    have hfill : fill (f i) i [List.replicate n a] = [List.replicate n a] := by
      rw [h i List.mem_cons_self, fill]
      simp [hset]
    rw [fillAll, List.foldl_cons, hfill]
    exact ih (fun j hj => h j (List.mem_cons_of_mem _ hj))

end Choices
