import Dandelion.PagedMachine

/-!
# What a machine has not stored to

A processor changes its memory by its stores alone: a word that is not among those it has stored to is
as it was. `Relates` is for such facts: whatever the outcome of a computation, the states before and
after it are related.
-/

universe u

open Outcome

namespace Stateful

variable {ε σ α β : Type u} {R : σ → σ → Prop}

/-- The states before and after the computation are related, however it stops. -/
def Relates (R : σ → σ → Prop) (m : Stateful ε σ α) : Prop := ∀ s, R s (exec m s).2

section Rules

variable [Std.Refl R]

theorem relates_pure (a : α) : Relates R (pure a : Stateful ε σ α) := fun s => Std.Refl.refl s

theorem relates_lift (x : Outcome ε α) : Relates R (lift x : Stateful ε σ α) := fun s => Std.Refl.refl s

end Rules

theorem relates_get_bind {f : σ → Stateful ε σ β} (h : ∀ s, R s (exec (f s) s).2) :
    Relates R (get >>= f) := by
  intro s
  rw [exec_get_bind]
  exact h s

theorem Relates.bind [IsTrans σ R] {m : Stateful ε σ α} {f : α → Stateful ε σ β} (hm : Relates R m)
    (hf : ∀ a, Relates R (f a)) : Relates R (m >>= f) := by
  intro s
  have hfirst := hm s
  rw [exec_bind]
  cases hexec : exec m s with
  | mk r t =>
    rw [hexec] at hfirst
    cases r with
    | ok a => exact Trans.trans hfirst (hf a t)
    | error stop => exact hfirst

theorem relates_times [Std.Refl R] [IsTrans σ R] {body : Nat → Stateful ε σ PUnit}
    (hbody : ∀ k, Relates R (body k)) (n : Nat) : Relates R (times body n) := by
  induction n with
  | zero => exact relates_pure _
  | succ n ih => exact ih.bind fun _ => hbody n

end Stateful

namespace PagedMachine

open Stateful Paging

/-- The stores are kept, and the words that are not among them are as they were. -/
structure Recorded (machine machine' : Machine) : Prop where
  kept : ∀ w ∈ machine.stores, w ∈ machine'.stores
  other : ∀ w, w ∉ machine'.stores → machine'.memory w = machine.memory w

theorem Recorded.refl (machine : Machine) : Recorded machine machine :=
  ⟨fun _ hw => hw, fun _ _ => rfl⟩

theorem Recorded.trans {machine machine' machine'' : Machine} (h : Recorded machine machine')
    (h' : Recorded machine' machine'') : Recorded machine machine'' where
  kept w hw := h'.kept w (h.kept w hw)
  other w hw := (h'.other w hw).trans (h.other w fun hold => hw (h'.kept w hold))

instance : Std.Refl Recorded := ⟨Recorded.refl⟩

instance : IsTrans Machine Recorded := ⟨fun _ _ _ => Recorded.trans⟩

section Access

variable {ε : Type} (fault : ε) (root : Nat)

theorem recorded_loadWords (address n : Nat) : Relates Recorded (loadWords fault root address n) := by
  apply relates_get_bind
  intro machine
  cases translate machine.memory root address with
  | none => exact .refl machine
  | some t => exact .refl machine

theorem recorded_load (address : Nat) : Relates Recorded (load fault root address) :=
  (recorded_loadWords fault root address 1).bind fun _ => relates_pure _

theorem recorded_storeWords (address : Nat) (values : List Nat) :
    Relates Recorded (storeWords fault root address values) := by
  apply relates_get_bind
  intro machine
  cases ht : translate machine.memory root address with
  | none => exact .refl machine
  | some t =>
    dsimp only
    split_ifs with hwritable
    · refine ⟨fun w hw => List.mem_append_right _ hw, fun w hw => if_neg ?_⟩
      rintro ⟨hmin, hmax⟩
      apply hw
      apply List.mem_append_left
      exact List.mem_map.mpr ⟨_, List.mem_range.mpr (by omega), Nat.add_sub_cancel' hmin⟩
    · exact .refl machine

theorem recorded_loadVectors (address n : Nat) :
    Relates Recorded (loadVectors fault root address n) := by
  induction n with
  | zero => exact relates_pure _
  | succ n ih =>
    refine ih.bind fun vectors => ?_
    refine (recorded_loadWords fault root _ 4).bind fun vector => ?_
    exact relates_pure _

theorem recorded_storeVectors (address : Nat) (vectors : List (List Nat)) (n : Nat) :
    Relates Recorded (storeVectors fault root address vectors n) :=
  relates_times (fun _ => recorded_storeWords fault root _ _) n

end Access

end PagedMachine
