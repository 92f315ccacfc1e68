import Mathlib.Data.List.Basic

/-!
# Lists up to some elements

Two lists agree up to elements of one kind: without them they are the same list. The
elements they share are of another kind.
-/

namespace ListsUpTo

variable {α β : Type*}

inductive UpTo (shared extra : α → Prop) : List α → List α → Prop
  | nil : UpTo shared extra [] []
  | both {x : α} {l l' : List α} (hx : shared x) (h : UpTo shared extra l l') :
      UpTo shared extra (x :: l) (x :: l')
  | left {x : α} {l l' : List α} (hx : extra x) (h : UpTo shared extra l l') :
      UpTo shared extra (x :: l) l'
  | right {x : α} {l l' : List α} (hx : extra x) (h : UpTo shared extra l l') :
      UpTo shared extra l (x :: l')

variable {shared extra : α → Prop} {l l' m m' : List α}

theorem UpTo.symm (h : UpTo shared extra l l') : UpTo shared extra l' l := by
  induction h with
  | nil => exact .nil
  | both hx _ ih => exact .both hx ih
  | left hx _ ih => exact .right hx ih
  | right hx _ ih => exact .left hx ih

theorem UpTo.append (h : UpTo shared extra l l') (h' : UpTo shared extra m m') :
    UpTo shared extra (l ++ m) (l' ++ m') := by
  induction h with
  | nil => exact h'
  | both hx _ ih => exact .both hx ih
  | left hx _ ih => exact .left hx ih
  | right hx _ ih => exact .right hx ih

theorem upTo_refl (h : ∀ x ∈ l, shared x) : UpTo shared extra l l := by
  induction l with
  | nil => exact .nil
  | cons x l ih =>
    obtain ⟨hx, hl⟩ := List.forall_mem_cons.mp h
    exact .both hx (ih hl)

theorem upTo_extra (h : ∀ x ∈ l, extra x) : UpTo shared extra l [] := by
  induction l with
  | nil => exact .nil
  | cons x l ih =>
    obtain ⟨hx, hl⟩ := List.forall_mem_cons.mp h
    exact .left hx (ih hl)

theorem UpTo.forall_extra (h : UpTo shared extra l []) : ∀ x ∈ l, extra x := by
  generalize hnil : ([] : List α) = l' at h
  induction h with
  | nil => exact fun x hx => absurd hx List.not_mem_nil
  | both _ _ _ => cases hnil
  | left hx _ ih => exact List.forall_mem_cons.mpr ⟨hx, ih hnil⟩
  | right _ _ _ => cases hnil

theorem UpTo.eraseIdx (h : UpTo shared extra l l') {i : Nat} {x : α} (hi : l[i]? = some x) :
    (extra x ∧ UpTo shared extra (l.eraseIdx i) l') ∨
      shared x ∧ ∃ j, l'[j]? = some x ∧ UpTo shared extra (l.eraseIdx i) (l'.eraseIdx j) := by
  induction h generalizing i with
  | nil => cases hi
  | both hy hrest ih =>
    cases i with
    | zero =>
      cases hi
      exact .inr ⟨hy, 0, rfl, hrest⟩
    | succ i =>
      rcases ih hi with ⟨hx, herased⟩ | ⟨hx, j, hj, herased⟩
      · exact .inl ⟨hx, .both hy herased⟩
      · exact .inr ⟨hx, j + 1, hj, .both hy herased⟩
  | left hy hrest ih =>
    cases i with
    | zero =>
      cases hi
      exact .inl ⟨hy, hrest⟩
    | succ i =>
      rcases ih hi with ⟨hx, herased⟩ | ⟨hx, j, hj, herased⟩
      · exact .inl ⟨hx, .left hy herased⟩
      · exact .inr ⟨hx, j, hj, .left hy herased⟩
  | right hy hrest ih =>
    rcases ih hi with ⟨hx, herased⟩ | ⟨hx, j, hj, herased⟩
    · exact .inl ⟨hx, .right hy herased⟩
    · exact .inr ⟨hx, j + 1, hj, .right hy herased⟩

theorem UpTo.map {shared' extra' : β → Prop} (f : α → β) (hshared : ∀ x, shared x → shared' (f x))
    (hextra : ∀ x, extra x → extra' (f x)) (h : UpTo shared extra l l') :
    UpTo shared' extra' (l.map f) (l'.map f) := by
  induction h with
  | nil => exact .nil
  | both hx _ ih => exact .both (hshared _ hx) ih
  | left hx _ ih => exact .left (hextra _ hx) ih
  | right hx _ ih => exact .right (hextra _ hx) ih

theorem UpTo.mono {shared' extra' : α → Prop} (hshared : ∀ x, shared x → shared' x)
    (hextra : ∀ x, extra x → extra' x) (h : UpTo shared extra l l') : UpTo shared' extra' l l' := by
  have hmap := h.map id hshared hextra
  rwa [List.map_id, List.map_id] at hmap

theorem UpTo.filter (p : α → Bool) (h : UpTo shared extra l l') :
    UpTo (fun x => shared x ∧ p x = true) (fun x => extra x ∧ p x = true) (l.filter p)
      (l'.filter p) := by
  induction h with
  | nil => exact .nil
  | @both x l l' hx _ ih =>
    cases hp : p x with
    | true =>
      rw [List.filter_cons_of_pos hp, List.filter_cons_of_pos hp]
      exact .both ⟨hx, hp⟩ ih
    | false =>
      rw [List.filter_cons_of_neg (by simp [hp]), List.filter_cons_of_neg (by simp [hp])]
      exact ih
  | @left x l l' hx _ ih =>
    cases hp : p x with
    | true =>
      rw [List.filter_cons_of_pos hp]
      exact .left ⟨hx, hp⟩ ih
    | false =>
      rw [List.filter_cons_of_neg (by simp [hp])]
      exact ih
  | @right x l l' hx _ ih =>
    cases hp : p x with
    | true =>
      rw [List.filter_cons_of_pos hp]
      exact .right ⟨hx, hp⟩ ih
    | false =>
      rw [List.filter_cons_of_neg (by simp [hp])]
      exact ih

end ListsUpTo
