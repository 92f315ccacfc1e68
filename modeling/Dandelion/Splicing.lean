import Mathlib.Algebra.GroupWithZero.Nat
import Mathlib.Data.List.Basic
import Mathlib.Tactic.Cases

/-!
# Splicing blocks into a list

A list and blocks that belong at offsets of it, in order. Both may be cut at the same position: the
spliced list is then that of the two parts, one behind the other.
-/

namespace Splicing

variable {α ι : Type*} (offset : ι → Nat) (block : ι → List α)

/-- The list from `position` on, with every block in front of what is at its offset. -/
def splice : Nat → List α → List ι → List α
  | _, base, [] => base
  | position, base, i :: is =>
    base.take (offset i - position) ++
      (block i ++ splice (offset i) (base.drop (offset i - position)) is)

/-- The offsets are in order and between the two positions. -/
def Within : Nat → Nat → List ι → Prop
  | start, stop, [] => start ≤ stop
  | start, stop, i :: is => start ≤ offset i ∧ Within (offset i) stop is

variable {offset block}

theorem Within.le {start stop : Nat} {is : List ι} (h : Within offset start stop is) :
    start ≤ stop := by
  induction is generalizing start with
  | nil => exact h
  | cons i is ih => exact Nat.le_trans h.1 (ih h.2)

theorem Within.offset_le {start stop : Nat} {is : List ι} (h : Within offset start stop is) :
    ∀ i ∈ is, offset i ≤ stop := by
  induction is generalizing start with
  | nil => exact fun _ hi => absurd hi List.not_mem_nil
  | cons i is ih => exact List.forall_mem_cons.mpr ⟨h.2.le, ih h.2⟩

theorem Within.mono {start start' stop : Nat} {is : List ι} (h : Within offset start' stop is)
    (hle : start ≤ start') : Within offset start stop is := by
  cases is with
  | nil => exact Nat.le_trans hle h
  | cons i is => exact ⟨Nat.le_trans hle h.1, h.2⟩

theorem Within.append {start middle stop : Nat} {is is' : List ι} (h : Within offset start middle is)
    (h' : Within offset middle stop is') : Within offset start stop (is ++ is') := by
  induction is generalizing start with
  | nil => exact h'.mono h
  | cons i is ih => exact ⟨h.1, ih h.2⟩

theorem length_splice (position : Nat) (base : List α) (is : List ι) :
    (splice offset block position base is).length = base.length + (is.map fun i => (block i).length).sum := by
  induction is generalizing position base with
  | nil => rfl
  | cons i is ih =>
    rw [splice, List.length_append, List.length_append, ih, List.length_take, List.length_drop,
      List.map_cons, List.sum_cons]
    omega

theorem splice_front {position : Nat} {front base : List α} {is : List ι} {stop : Nat}
    (h : Within offset (position + front.length) stop is) :
    splice offset block position (front ++ base) is =
      front ++ splice offset block (position + front.length) base is := by
  cases is with
  | nil => rfl
  | cons i is =>
    have hle := h.1
    have htake : (front ++ base).take (offset i - position) =
        front ++ base.take (offset i - (position + front.length)) := by
      rw [List.take_append, List.take_of_length_le (by omega), Nat.sub_sub]
    have hdrop : (front ++ base).drop (offset i - position) =
        base.drop (offset i - (position + front.length)) := by
      rw [List.drop_append, List.drop_of_length_le (by omega), List.nil_append, Nat.sub_sub]
    rw [splice, splice, htake, hdrop, List.append_assoc]

theorem splice_append {position stop : Nat} {base base' : List α} {is is' : List ι}
    (h : Within offset position (position + base.length) is)
    (h' : Within offset (position + base.length) stop is') :
    splice offset block position (base ++ base') (is ++ is') =
      splice offset block position base is ++ splice offset block (position + base.length) base' is' := by
  induction is generalizing position base with
  | nil => exact splice_front h'
  | cons i is ih =>
    have hle := h.1
    have hle' := h.2.le
    have hlength : offset i + (base.drop (offset i - position)).length = position + base.length := by
      rw [List.length_drop]
      omega
    have hwithin : Within offset (offset i) (offset i + (base.drop (offset i - position)).length) is := by
      rw [hlength]
      exact h.2
    have hrest := ih hwithin (by rw [hlength]; exact h')
    rw [hlength] at hrest
    rw [List.cons_append, splice, splice, List.take_append_of_le_length (by omega),
      List.drop_append_of_le_length (by omega), hrest, List.append_assoc, List.append_assoc]

end Splicing
