import Mathlib.Data.List.Nodup
import Mathlib.Data.List.Forall2

/-!
# Values written at positions of a list

A list of optional values is filled by writing values at positions, one after the other. A
value stays if no later one is written at its position, and all of them stay if and only if
there are as many values in the list as have been written.
-/

namespace PositionWrites

variable {α : Type*}

def writeAll : List (Nat × α) → List (Option α) → List (Option α)
  | [], xs => xs
  | write :: writes, xs => writeAll writes (xs.set write.1 (some write.2))

theorem length_writeAll (writes : List (Nat × α)) (xs : List (Option α)) :
    (writeAll writes xs).length = xs.length := by
  induction writes generalizing xs with
  | nil => rfl
  | cons write writes ih => rw [writeAll, ih, List.length_set]

theorem getElem?_writeAll_iff {writes : List (Nat × α)} {xs : List (Option α)}
    (hinside : ∀ write ∈ writes, write.1 < xs.length) (j : Nat) (a : α) :
    (writeAll writes xs)[j]? = some (some a) ↔
      (∃ before after, writes = before ++ (j, a) :: after ∧ ∀ write ∈ after, write.1 ≠ j) ∨
        (∀ write ∈ writes, write.1 ≠ j) ∧ xs[j]? = some (some a) := by
  induction writes generalizing xs with
  | nil => simp [writeAll]
  | cons write writes ih =>
    obtain ⟨hlt, hinside⟩ := List.forall_mem_cons.mp hinside
    rw [writeAll, ih (by simpa using hinside), List.forall_mem_cons]
    constructor
    · rintro (⟨before, after, rfl, hlast⟩ | ⟨hnone, hj⟩)
      · exact .inl ⟨write :: before, after, rfl, hlast⟩
      · by_cases heq : write.1 = j
        · left
          subst heq
          rw [List.getElem?_set_self hlt] at hj
          cases hj
          exact ⟨[], writes, rfl, hnone⟩
        · rw [List.getElem?_set_ne heq] at hj
          exact .inr ⟨⟨heq, hnone⟩, hj⟩
    · rintro (⟨before, after, heq, hlast⟩ | ⟨⟨hne, hnone⟩, hj⟩)
      · cases before with
        | nil =>
          obtain ⟨rfl, rfl⟩ := List.cons.inj heq
          exact .inr ⟨hlast, List.getElem?_set_self hlt⟩
        | cons first before =>
          obtain ⟨rfl, rfl⟩ := List.cons.inj heq
          exact .inl ⟨before, after, rfl, hlast⟩
      · exact .inr ⟨hnone, by rwa [List.getElem?_set_ne hne]⟩

/-- A write to a blank position fills one more, a write to another position none. -/
theorem countP_set_cases (xs : List (Option α)) {i : Nat} (hlt : i < xs.length) (a : α) :
    (xs[i]? = some none ∧
        (xs.set i (some a)).countP Option.isSome = xs.countP Option.isSome + 1) ∨
      xs[i]? ≠ some none ∧ (xs.set i (some a)).countP Option.isSome = xs.countP Option.isSome := by
  have hpos : xs[i].isSome = true → 0 < xs.countP Option.isSome :=
    fun h => List.countP_pos_iff.mpr ⟨xs[i], List.getElem_mem hlt, h⟩
  rw [List.countP_set hlt, List.getElem?_eq_getElem hlt]
  cases hx : xs[i] with
  | none => exact .inl ⟨rfl, by simp⟩
  | some x =>
    have hpos := hpos (by rw [hx]; rfl)
    refine .inr ⟨by simp, ?_⟩
    simp only [Option.isSome_some, if_true]
    omega

theorem countP_writeAll_le {writes : List (Nat × α)} {xs : List (Option α)}
    (hinside : ∀ write ∈ writes, write.1 < xs.length) :
    (writeAll writes xs).countP Option.isSome ≤ xs.countP Option.isSome + writes.length := by
  induction writes generalizing xs with
  | nil => exact Nat.le_refl _
  | cons write writes ih =>
    obtain ⟨hlt, hinside⟩ := List.forall_mem_cons.mp hinside
    have hle : (writeAll writes (xs.set write.1 (some write.2))).countP Option.isSome ≤ _ :=
      ih (by simpa using hinside)
    rw [writeAll, List.length_cons]
    rcases countP_set_cases xs hlt write.2 with ⟨-, hcount⟩ | ⟨-, hcount⟩
    · omega
    · omega

/-- Every write counts if and only if it is the only one at a blank position. -/
theorem countP_writeAll_eq_iff {writes : List (Nat × α)} {xs : List (Option α)}
    (hinside : ∀ write ∈ writes, write.1 < xs.length) :
    (writeAll writes xs).countP Option.isSome = xs.countP Option.isSome + writes.length ↔
      (writes.map Prod.fst).Nodup ∧ ∀ write ∈ writes, xs[write.1]? = some none := by
  induction writes generalizing xs with
  | nil => simp [writeAll]
  | cons write writes ih =>
    obtain ⟨hlt, hinside⟩ := List.forall_mem_cons.mp hinside
    have hinside' : ∀ w ∈ writes, w.1 < (xs.set write.1 (some write.2)).length := by
      simpa using hinside
    rw [writeAll, List.map_cons, List.nodup_cons, List.forall_mem_cons, List.length_cons]
    rcases countP_set_cases xs hlt write.2 with ⟨hblank, hcount⟩ | ⟨hfilled, hcount⟩
    · rw [Nat.add_comm writes.length 1, ← Nat.add_assoc, ← hcount, ih hinside']
      constructor
      · rintro ⟨hnodup, hrest⟩
        refine ⟨⟨?_, hnodup⟩, hblank, fun w hw => ?_⟩
        · intro hmem
          obtain ⟨w, hw, heq⟩ := List.mem_map.mp hmem
          have hw' := hrest w hw
          rw [heq, List.getElem?_set_self hlt] at hw'
          cases hw'
        · have hw' := hrest w hw
          by_cases heq : write.1 = w.1
          · exact heq ▸ hblank
          · rwa [List.getElem?_set_ne heq] at hw'
      · rintro ⟨⟨hnew, hnodup⟩, -, hrest⟩
        refine ⟨hnodup, fun w hw => ?_⟩
        have hne : write.1 ≠ w.1 := fun heq => hnew (List.mem_map.mpr ⟨w, hw, heq.symm⟩)
        rw [List.getElem?_set_ne hne]
        exact hrest w hw
    · have hle := countP_writeAll_le hinside'
      constructor
      · intro h
        omega
      · exact fun h => absurd h.2.1 hfilled

section Blank

variable {writes : List (Nat × α)} {n : Nat} (hinside : ∀ write ∈ writes, write.1 < n)
include hinside

theorem countP_writeAll_blank_iff :
    (writeAll writes (List.replicate n none)).countP Option.isSome = writes.length ↔
      (writes.map Prod.fst).Nodup := by
  have hinside' : ∀ write ∈ writes, write.1 < (List.replicate n (none : Option α)).length := by
    simpa using hinside
  have hiff := countP_writeAll_eq_iff hinside'
  have hblank : ∀ write ∈ writes, (List.replicate n (none : Option α))[write.1]? = some none :=
    fun write hwrite => List.getElem?_replicate_of_lt (hinside write hwrite)
  rw [and_iff_left hblank] at hiff
  simpa [List.countP_replicate] using hiff

theorem getElem?_writeAll_blank_iff (j : Nat) (a : α) :
    (writeAll writes (List.replicate n none))[j]? = some (some a) ↔
      ∃ before after, writes = before ++ (j, a) :: after ∧ ∀ write ∈ after, write.1 ≠ j := by
  rw [getElem?_writeAll_iff (by simpa using hinside)]
  constructor
  · rintro (hwrite | ⟨-, hj⟩)
    · exact hwrite
    · rw [List.getElem?_replicate] at hj
      split at hj
      · cases hj
      · cases hj
  · exact .inl

end Blank

section Related

variable {β γ : Type*} {R : β → γ → Prop} {xs : List β} {ys : List γ}

theorem exists_right_of_mem (h : List.Forall₂ R xs ys) {x : β} (hx : x ∈ xs) :
    ∃ y ∈ ys, R x y := by
  induction h with
  | nil => exact absurd hx List.not_mem_nil
  | cons hfirst _ ih =>
    rcases List.mem_cons.mp hx with rfl | hx
    · exact ⟨_, List.mem_cons_self, hfirst⟩
    · obtain ⟨y, hy, hR⟩ := ih hx
      exact ⟨y, List.mem_cons_of_mem _ hy, hR⟩

theorem exists_left_of_mem (h : List.Forall₂ R xs ys) {y : γ} (hy : y ∈ ys) : ∃ x ∈ xs, R x y :=
  exists_right_of_mem h.flip hy

end Related

section Keyed

variable {β κ : Type*} {R : β → Nat × α → Prop} {place : κ → Nat → Prop} {key : β → κ}
  {xs : List β} {writes : List (Nat × α)} {n : Nat}

/-- Each element is written at the place of its key. -/
structure KeyedWrites (R : β → Nat × α → Prop) (place : κ → Nat → Prop) (key : β → κ) (n : Nat) :
    Prop where
  unique : Relator.BiUnique place
  placed : ∀ x write, R x write → place (key x) write.1
  value : ∀ x write write', R x write → R x write' → write = write'
  inside : ∀ x write, R x write → write.1 < n

variable (hkeyed : KeyedWrites R place key n) (h : List.Forall₂ R xs writes)
include hkeyed h

theorem KeyedWrites.inside_of_mem : ∀ write ∈ writes, write.1 < n := by
  intro write hwrite
  obtain ⟨x, -, hx⟩ := exists_left_of_mem h hwrite
  exact hkeyed.inside x write hx

theorem KeyedWrites.nodup_iff : (writes.map Prod.fst).Nodup ↔ (xs.map key).Nodup := by
  have hplaces : List.Forall₂ place (xs.map key) (writes.map Prod.fst) := by
    rw [List.forall₂_map_left_iff, List.forall₂_map_right_iff]
    exact h.imp hkeyed.placed
  exact (List.rel_nodup hkeyed.unique hplaces).symm

/-- There are as many values as have been written if and only if no key is used twice. -/
theorem KeyedWrites.countP_iff :
    (writeAll writes (List.replicate n none)).countP Option.isSome = xs.length ↔
      (xs.map key).Nodup := by
  rw [h.length_eq, countP_writeAll_blank_iff (hkeyed.inside_of_mem h), hkeyed.nodup_iff h]

theorem KeyedWrites.getElem?_of_nodup (hnodup : (xs.map key).Nodup) {x : β} (hx : x ∈ xs) :
    ∃ write, R x write ∧
      (writeAll writes (List.replicate n none))[write.1]? = some (some write.2) := by
  obtain ⟨write, hwrite, hR⟩ := exists_right_of_mem h hx
  refine ⟨write, hR, (getElem?_writeAll_blank_iff (hkeyed.inside_of_mem h) _ _).mpr ?_⟩
  obtain ⟨before, after, rfl⟩ := List.append_of_mem hwrite
  refine ⟨before, after, rfl, fun later hlater heq => ?_⟩
  rw [← hkeyed.nodup_iff h, List.map_append, List.map_cons] at hnodup
  have hrest := (List.nodup_cons.mp (List.Nodup.of_append_right hnodup)).1
  exact hrest (heq ▸ List.mem_map_of_mem hlater)

theorem KeyedWrites.getElem?_iff (j : Nat) (a : α) :
    (writeAll writes (List.replicate n none))[j]? = some (some a) ↔
      ∃ before x after, xs = before ++ x :: after ∧ R x (j, a) ∧ ∀ y ∈ after, key y ≠ key x := by
  rw [getElem?_writeAll_blank_iff (hkeyed.inside_of_mem h)]
  constructor
  · rintro ⟨before, after, rfl, hlast⟩
    have hrest := List.forall₂_drop_append xs before ((j, a) :: after) h
    obtain ⟨x, later, hx, hlater, hdrop⟩ := List.forall₂_cons_right_iff.mp hrest
    refine ⟨xs.take before.length, x, later, ?_, hx, fun y hy heq => ?_⟩
    · rw [← hdrop, List.take_append_drop]
    · obtain ⟨write, hwrite, hy⟩ := exists_right_of_mem hlater hy
      exact hlast write hwrite (hkeyed.unique.2 (heq ▸ hkeyed.placed y write hy)
        (hkeyed.placed x _ hx))
  · rintro ⟨before, x, after, rfl, hx, hlast⟩
    have hrest := List.forall₂_drop_append writes before (x :: after) h.flip
    obtain ⟨write, later, hwrite, hlater, hdrop⟩ := List.forall₂_cons_right_iff.mp hrest
    obtain rfl := hkeyed.value x _ _ hx hwrite
    refine ⟨writes.take before.length, later, ?_, fun write hlast' heq => ?_⟩
    · rw [← hdrop, List.take_append_drop]
    · obtain ⟨y, hy, hR⟩ := exists_left_of_mem hlater.flip hlast'
      have hplaced := hkeyed.placed y write hR
      rw [heq] at hplaced
      exact hlast y hy (hkeyed.unique.1 hplaced (hkeyed.placed x _ hx))

end Keyed

end PositionWrites
