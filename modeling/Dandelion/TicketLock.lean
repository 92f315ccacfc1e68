import Mathlib.Logic.Function.Basic
import Mathlib.Logic.ExistsUnique

/-!
# Ticket locks

Clients take numbered tickets and have their turn in the order of the numbers. As long as a ticket
is only taken by a client without one, and given back by the client that has its turn, the tickets
that are out are those between two counters, each in the hands of one client.
-/

namespace TicketLock

variable {Client : Type*}

/-- The ticket `start` has its turn, and `stop` is the next ticket to be taken. -/
structure Lock (Client : Type*) where
  start : Nat
  stop : Nat
  held : Client → Option Nat

/-- Every ticket from `start` to `stop` is held by one client, and no other ticket is held. -/
structure Fair (s : Lock Client) : Prop where
  le : s.start ≤ s.stop
  range : ∀ client ticket, s.held client = some ticket → s.start ≤ ticket ∧ ticket < s.stop
  holder : ∀ ticket, s.start ≤ ticket → ticket < s.stop → ∃ client, s.held client = some ticket
  unique : ∀ client other ticket, s.held client = some ticket → s.held other = some ticket →
    client = other

def HasTurn (s : Lock Client) (client : Client) : Prop := s.held client = some s.start

section Operations

variable [DecidableEq Client]

def Lock.take (s : Lock Client) (client : Client) : Lock Client :=
  { s with stop := s.stop + 1, held := Function.update s.held client (some s.stop) }

def Lock.pass (s : Lock Client) (client : Client) : Lock Client :=
  { s with start := s.start + 1, held := Function.update s.held client none }

theorem held_take (s : Lock Client) (client other : Client) :
    (s.take client).held other = if other = client then some s.stop else s.held other :=
  Function.update_apply _ _ _ _

theorem held_pass (s : Lock Client) (client other : Client) :
    (s.pass client).held other = if other = client then none else s.held other :=
  Function.update_apply _ _ _ _

end Operations

theorem fair_unused (start : Nat) : Fair (⟨start, start, fun _ => none⟩ : Lock Client) where
  le := Nat.le_refl start
  range _ _ h := by cases h
  holder ticket hle hlt := absurd hlt (Nat.not_lt.mpr hle)
  unique _ _ _ h := by cases h

section Fair

variable {s : Lock Client} (h : Fair s)
include h

theorem Fair.existsUnique {ticket : Nat} (hle : s.start ≤ ticket) (hlt : ticket < s.stop) :
    ∃! client, s.held client = some ticket := by
  obtain ⟨client, hclient⟩ := h.holder ticket hle hlt
  exact ⟨client, hclient, fun other hother => h.unique other client ticket hother hclient⟩

theorem Fair.turn_unique {client other : Client} (hclient : HasTurn s client)
    (hother : HasTurn s other) : client = other :=
  h.unique client other s.start hclient hother

theorem Fair.start_eq_stop_iff : s.start = s.stop ↔ ∀ client, ¬ HasTurn s client := by
  constructor
  · intro heq client hclient
    have hlt := (h.range client s.start hclient).2
    exact absurd heq (Nat.ne_of_lt hlt)
  · intro hnone
    by_contra hne
    obtain ⟨client, hclient⟩ := h.holder s.start (Nat.le_refl _) (Nat.lt_of_le_of_ne h.le hne)
    exact hnone client hclient

/-- A number that was `start` once and is `stop` now is `start` still. -/
theorem Fair.stop_eq_start {seen : Nat} (hseen : seen ≤ s.start) (hstop : s.stop = seen) :
    s.start = seen :=
  Nat.le_antisymm (hstop ▸ h.le) hseen

variable [DecidableEq Client]

theorem Fair.take {client : Client} (hclient : s.held client = none) : Fair (s.take client) where
  le := Nat.le_succ_of_le h.le
  range other ticket hheld := by
    rw [held_take] at hheld
    split at hheld
    · cases hheld
      exact ⟨h.le, Nat.lt_succ_self _⟩
    · obtain ⟨hle, hlt⟩ := h.range other ticket hheld
      exact ⟨hle, Nat.lt_succ_of_lt hlt⟩
  holder ticket hle hlt := by
    rcases Nat.lt_succ_iff_lt_or_eq.mp hlt with hlt | rfl
    · obtain ⟨other, hother⟩ := h.holder ticket hle hlt
      have hne : other ≠ client := fun heq => by
        rw [heq, hclient] at hother
        cases hother
      exact ⟨other, by rw [held_take, if_neg hne, hother]⟩
    · exact ⟨client, by rw [held_take, if_pos rfl]⟩
  unique i j ticket hi hj := by
    -- the new ticket is held by nobody else
    have hnew : ∀ other, s.held other ≠ some s.stop := fun other hother =>
      absurd (h.range other s.stop hother).2 (Nat.lt_irrefl _)
    rw [held_take] at hi hj
    split at hi
    · next hic =>
      cases hi
      split at hj
      · next hjc => rw [hic, hjc]
      · exact absurd hj (hnew j)
    · split at hj
      · cases hj
        exact absurd hi (hnew i)
      · exact h.unique i j ticket hi hj

theorem Fair.pass {client : Client} (hclient : HasTurn s client) : Fair (s.pass client) where
  le := (h.range client s.start hclient).2
  range other ticket hheld := by
    rw [held_pass] at hheld
    split at hheld
    · cases hheld
    · next hne =>
      obtain ⟨hle, hlt⟩ := h.range other ticket hheld
      have hother : ticket ≠ s.start := fun heq =>
        hne (h.unique other client s.start (heq ▸ hheld) hclient)
      exact ⟨Nat.lt_of_le_of_ne hle (Ne.symm hother), hlt⟩
  holder ticket hle hlt := by
    obtain ⟨other, hother⟩ := h.holder ticket (Nat.le_of_succ_le hle) hlt
    have hne : other ≠ client := fun heq => by
      rw [heq, hclient] at hother
      exact absurd (Option.some.inj hother) (Nat.ne_of_lt hle)
    exact ⟨other, by rw [held_pass, if_neg hne, hother]⟩
  unique i j ticket hi hj := by
    rw [held_pass] at hi hj
    split at hi
    · cases hi
    · split at hj
      · cases hj
      · exact h.unique i j ticket hi hj

end Fair

end TicketLock
