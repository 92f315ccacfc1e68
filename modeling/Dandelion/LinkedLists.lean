import Mathlib.Data.List.Basic
import Mathlib.Data.List.Nodup

/-!
# Linked lists in a memory

The list of cells that is reached from a pointer. A cell may hold something else than a
pointer to the next one; then no list goes through it.
-/

namespace LinkedLists

variable {α : Type*}

/-- The cells `list` are the ones reached from `pointer` by `next`, the last one pointing nowhere. -/
def Linked (next : α → Option (Option α)) : Option α → List α → Prop
  | pointer, [] => pointer = none
  | pointer, cell :: list => pointer = some cell ∧ ∃ rest, next cell = some rest ∧ Linked next rest list

variable {next next' : α → Option (Option α)} {pointer : Option α} {cell : α} {list list' : List α}

theorem Linked.cons {rest : Option α} (hnext : next cell = some rest) (h : Linked next rest list) :
    Linked next (some cell) (cell :: list) :=
  ⟨rfl, rest, hnext, h⟩

theorem Linked.eq_nil (h : Linked next none list) : list = [] := by
  cases list with
  | nil => rfl
  | cons cell list =>
    obtain ⟨hcell, -⟩ := h
    cases hcell

theorem Linked.exists_cons (h : Linked next (some cell) list) :
    ∃ rest tail, list = cell :: tail ∧ next cell = some rest ∧ Linked next rest tail := by
  cases list with
  | nil => cases h
  | cons first tail =>
    obtain ⟨hfirst, rest, hnext, htail⟩ := h
    cases hfirst
    exact ⟨rest, tail, rfl, hnext, htail⟩

theorem Linked.unique (h : Linked next pointer list) (h' : Linked next pointer list') :
    list = list' := by
  induction list generalizing pointer list' with
  | nil =>
    obtain rfl : pointer = none := h
    exact h'.eq_nil.symm
  | cons cell list ih =>
    obtain ⟨rfl, rest, hnext, hrest⟩ := h
    obtain ⟨rest', tail, rfl, hnext', hrest'⟩ := h'.exists_cons
    obtain rfl : rest = rest' := Option.some.inj (hnext ▸ hnext')
    rw [ih hrest hrest']

theorem Linked.congr (hcells : ∀ cell ∈ list, next' cell = next cell)
    (h : Linked next pointer list) : Linked next' pointer list := by
  induction list generalizing pointer with
  | nil => exact h
  | cons cell list ih =>
    obtain ⟨rfl, rest, hnext, hrest⟩ := h
    exact .cons ((hcells cell List.mem_cons_self).trans hnext)
      (ih (fun other hother => hcells other (List.mem_cons_of_mem _ hother)) hrest)

theorem Linked.suffix (h : Linked next pointer list) (hcell : cell ∈ list) :
    ∃ before after, list = before ++ cell :: after ∧ Linked next (some cell) (cell :: after) := by
  induction list generalizing pointer with
  | nil => cases hcell
  | cons first list ih =>
    obtain ⟨rfl, rest, hnext, hrest⟩ := h
    rcases List.mem_cons.mp hcell with rfl | hmem
    · exact ⟨[], list, rfl, .cons hnext hrest⟩
    · obtain ⟨before, after, rfl, hafter⟩ := ih hrest hmem
      exact ⟨first :: before, after, rfl, hafter⟩

/-- A pointer that reaches the same cells as another one is the same pointer. -/
theorem Linked.pointer_eq {pointer' : Option α} (h : Linked next pointer list)
    (h' : Linked next pointer' list') (hnodup : list.Nodup)
    (hnodup' : list'.Nodup) (hmem : ∀ cell, cell ∈ list' ↔ cell ∈ list) : pointer' = pointer := by
  have hperm : list'.Perm list := (List.perm_ext_iff_of_nodup hnodup' hnodup).mpr hmem
  cases list' with
  | nil =>
    obtain rfl : list = [] := hperm.nil_eq.symm
    exact h'.trans h.symm
  | cons cell tail =>
    obtain rfl : pointer' = some cell := h'.1
    obtain ⟨before, after, rfl, hafter⟩ := h.suffix ((hmem cell).mp List.mem_cons_self)
    obtain rfl : tail = after := List.tail_eq_of_cons_eq (h'.unique hafter)
    have hlength := hperm.length_eq
    obtain rfl : before = [] := by
      apply List.eq_nil_of_length_eq_zero
      simp only [List.length_append, List.length_cons] at hlength
      omega
    obtain ⟨hpointer, -⟩ := h
    exact hpointer.symm

end LinkedLists
