import Mathlib.Data.List.Chain
import Mathlib.Logic.Relation

/-!
# Nested calls

Procedures that are looked up by name and call one another, to a bounded depth. When every
procedure has a rank above those that it calls, a bound above its rank is as good as none: the call
never meets it. What a procedure does is given by what the calls from within it do, so two tables
of procedures that agree on a set of names, closed under calls, do the same for these names.
-/

namespace CallTrees

variable {ν α β : Type*}

/-- A call nested to the given depth; `body` is told the depth that is left, and what the calls
from within do. -/
def callAt (body : Nat → (ν → α → β) → ν → α → β) (tooDeep : ν → α → β) : Nat → ν → α → β
  | 0 => tooDeep
  | depth + 1 => body depth (callAt body tooDeep depth)

/-- Every procedure of the table calls procedures of the table only, all of a lower rank. -/
structure Ranked (calls : ν → ν → Prop) (table : ν → Prop) (rank : ν → Nat) : Prop where
  closed : ∀ caller callee, table caller → calls caller callee → table callee
  descends : ∀ caller callee, table caller → calls caller callee → rank callee < rank caller

/-- A body looks at no other calls. -/
def Reads (calls : ν → ν → Prop) (table : ν → Prop) (body : (ν → α → β) → ν → α → β) : Prop :=
  ∀ f g name, table name → (∀ callee, calls name callee → f callee = g callee) → body f name = body g name

variable {calls : ν → ν → Prop} {table : ν → Prop} {rank : ν → Nat}

/-- What the bodies establish from their calls holds of every call that is nested deeply enough. -/
theorem Ranked.callAt_induction (h : Ranked calls table rank) {P : ν → (α → β) → Prop}
    {body : Nat → (ν → α → β) → ν → α → β}
    (hbody : ∀ depth f name, table name → (∀ callee, calls name callee → P callee (f callee)) →
      P name (body depth f name)) (tooDeep : ν → α → β) {depth : Nat} {name : ν} (hname : table name)
    (hdepth : rank name < depth) : P name (callAt body tooDeep depth name) := by
  induction depth generalizing name with
  | zero => exact absurd hdepth (Nat.not_lt_zero _)
  | succ depth ih =>
    refine hbody depth _ name hname fun callee hcallee => ih (h.closed name callee hname hcallee) ?_
    exact Nat.lt_of_lt_of_le (h.descends name callee hname hcallee) (Nat.le_of_lt_succ hdepth)

/-- Neither the depth nor what the bodies do for other names matters. -/
theorem Ranked.callAt_eq (h : Ranked calls table rank) {body : Nat → (ν → α → β) → ν → α → β}
    {body' : (ν → α → β) → ν → α → β} (hreads : Reads calls table body')
    (hagree : ∀ depth f name, table name → body depth f name = body' f name) (tooDeep tooDeep' : ν → α → β)
    {depth depth' : Nat} {name : ν} (hname : table name) (hdepth : rank name < depth)
    (hdepth' : rank name < depth') :
    callAt body tooDeep depth name = callAt (fun _ => body') tooDeep' depth' name := by
  induction depth generalizing name depth' with
  | zero => exact absurd hdepth (Nat.not_lt_zero _)
  | succ depth ih =>
    cases depth' with
    | zero => exact absurd hdepth' (Nat.not_lt_zero _)
    | succ depth' =>
      rw [callAt, callAt, hagree depth _ name hname]
      refine hreads _ _ name hname fun callee hcallee => ?_
      have hlt := h.descends name callee hname hcallee
      exact ih (h.closed name callee hname hcallee) (by omega) (by omega)

/-- No procedure calls itself, through whatever others. -/
theorem Ranked.acyclic (h : Ranked calls table rank) {name : ν} (hname : table name) :
    ¬ Relation.TransGen calls name name := by
  have hlower : ∀ callee, Relation.TransGen calls name callee → table callee ∧ rank callee < rank name := by
    intro callee hcalls
    induction hcalls with
    | single hcall => exact ⟨h.closed _ _ hname hcall, h.descends _ _ hname hcall⟩
    | tail _ hcall ih =>
      exact ⟨h.closed _ _ ih.1 hcall, (h.descends _ _ ih.1 hcall).trans ih.2⟩
  exact fun hcycle => Nat.lt_irrefl _ (hlower name hcycle).2

/-- A chain of calls is no longer than the rank of its first procedure. -/
theorem Ranked.chain_length_le (h : Ranked calls table rank) {name : ν} (hname : table name)
    {chain : List ν} (hchain : (name :: chain).IsChain calls) : chain.length ≤ rank name := by
  induction chain generalizing name with
  | nil => exact Nat.zero_le _
  | cons callee chain ih =>
    rw [List.isChain_cons_cons] at hchain
    have hle := ih (h.closed name callee hname hchain.1) hchain.2
    exact Nat.lt_of_le_of_lt hle (h.descends name callee hname hchain.1)

end CallTrees
