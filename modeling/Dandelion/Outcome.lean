import Mathlib.Data.Sum.Basic

/-!
# Outcomes of partial computations

A computation ends with a value, with a reported error, with a panic, or not at
all. `Outcome` keeps the four apart, `loop` runs a loop body under an explicit
bound on the number of rounds, and `Meets` is the judgement used for both: a
postcondition on the value and a condition on every other way to stop.
-/

/-- The ways a computation stops without a value. `diverge` stands for a loop
that used up the bound its caller gave. -/
inductive Stop (ε : Type*) where
  | error (e : ε)
  | panic
  | diverge
deriving DecidableEq, Repr

abbrev Outcome (ε α : Type*) := Except (Stop ε) α

namespace Outcome

universe u v w
variable {ε : Type u} {α β σ : Type v}

def crash : Outcome ε α := .error .panic

def fail (e : ε) : Outcome ε α := .error (.error e)

@[simp] theorem ok_bind (a : α) (f : α → Outcome ε β) : ((.ok a : Outcome ε α) >>= f) = f a := rfl

theorem bind_eq_ok_iff (x : Outcome ε α) (f : α → Outcome ε β) (b : β) :
    x >>= f = .ok b ↔ ∃ a, x = .ok a ∧ f a = .ok b := by
  cases x with
  | ok a =>
    constructor
    · exact fun h => ⟨a, rfl, h⟩
    · rintro ⟨a', ha, h⟩
      cases ha
      exact h
  | error stop =>
    constructor
    · exact fun h => by cases h
    · rintro ⟨a, ha, -⟩
      cases ha

theorem exists_ok_bind (x : Outcome ε α) (f : α → Outcome ε β) :
    (∃ b, x >>= f = .ok b) ↔ ∃ a, x = .ok a ∧ ∃ b, f a = .ok b := by
  constructor
  · rintro ⟨b, h⟩
    obtain ⟨a, ha, hb⟩ := (bind_eq_ok_iff _ _ _).mp h
    exact ⟨a, ha, b, hb⟩
  · rintro ⟨a, ha, b, hb⟩
    exact ⟨b, (bind_eq_ok_iff _ _ _).mpr ⟨a, ha, hb⟩⟩

/-- The computation ends with a value or with a reported error. -/
def Returns (x : Outcome ε α) : Prop := ∀ stop, x = .error stop → ∃ e, stop = .error e

@[simp] theorem returns_pure (a : α) : Returns (pure a : Outcome ε α) := by
  intro stop h
  cases h

@[simp] theorem returns_ok (a : α) : Returns (.ok a : Outcome ε α) := by
  intro stop h
  cases h

@[simp] theorem returns_fail (e : ε) : Returns (fail e : Outcome ε α) := by
  intro stop h
  cases h
  exact ⟨e, rfl⟩

@[simp] theorem not_returns_crash : ¬ Returns (crash : Outcome ε α) := by
  intro h
  obtain ⟨e, he⟩ := h .panic rfl
  cases he

@[simp] theorem not_returns_diverge : ¬ Returns (.error .diverge : Outcome ε α) := by
  intro h
  obtain ⟨e, he⟩ := h .diverge rfl
  cases he

theorem returns_bind (x : Outcome ε α) (f : α → Outcome ε β) :
    Returns (x >>= f) ↔ Returns x ∧ ∀ a, x = .ok a → Returns (f a) := by
  cases x with
  | ok a =>
    constructor
    · intro h
      refine ⟨returns_ok a, fun a' ha' => ?_⟩
      cases ha'
      exact h
    · exact fun h => h.2 a rfl
  | error stop =>
    constructor
    · intro h
      refine ⟨fun stop' h' => h stop' (by cases h'; rfl), fun a ha => by cases ha⟩
    · exact fun h stop' h' => h.1 stop' (by cases h'; rfl)

/-- `Q` holds of the value, or `E` of the way the computation stopped. -/
def Meets (x : Outcome ε α) (Q : α → Prop) (E : Stop ε → Prop) : Prop :=
  match x with
  | .ok a => Q a
  | .error stop => E stop

@[simp] theorem meets_pure (a : α) (Q : α → Prop) (E : Stop ε → Prop) :
    Meets (pure a : Outcome ε α) Q E ↔ Q a := Iff.rfl

@[simp] theorem meets_ok (a : α) (Q : α → Prop) (E : Stop ε → Prop) :
    Meets (.ok a : Outcome ε α) Q E ↔ Q a := Iff.rfl

@[simp] theorem meets_fail (e : ε) (Q : α → Prop) (E : Stop ε → Prop) :
    Meets (fail e : Outcome ε α) Q E ↔ E (.error e) := Iff.rfl

@[simp] theorem meets_crash (Q : α → Prop) (E : Stop ε → Prop) :
    Meets (crash : Outcome ε α) Q E ↔ E .panic := Iff.rfl

theorem meets_of_ok {x : Outcome ε α} {Q : α → Prop} (h : ∀ a, x = .ok a → Q a) :
    Meets x Q (fun _ => True) := by
  cases x with
  | ok a => exact h a rfl
  | error stop => trivial

theorem Meets.mono {x : Outcome ε α} {Q R : α → Prop} {E F : Stop ε → Prop} (h : Meets x Q E)
    (hQ : ∀ a, Q a → R a) (hE : ∀ e, E e → F e) : Meets x R F := by
  cases x with
  | ok a => exact hQ a h
  | error stop => exact hE stop h

theorem Meets.imp {x : Outcome ε α} {Q R : α → Prop} {E : Stop ε → Prop} (h : Meets x Q E)
    (hQ : ∀ a, Q a → R a) : Meets x R E :=
  h.mono hQ (fun _ he => he)

theorem Meets.bind {x : Outcome ε α} {f : α → Outcome ε β} {Q : α → Prop} {R : β → Prop}
    {E : Stop ε → Prop} (h : Meets x Q E) (hf : ∀ a, Q a → Meets (f a) R E) :
    Meets (x >>= f) R E := by
  cases x with
  | ok a => exact hf a h
  | error stop => exact h

theorem meets_total_iff (x : Outcome ε α) (Q : α → Prop) :
    Meets x Q (fun _ => False) ↔ ∃ a, x = .ok a ∧ Q a := by
  constructor
  · intro h
    cases x with
    | ok a => exact ⟨a, rfl, h⟩
    | error stop => exact h.elim
  · rintro ⟨a, rfl, h⟩
    exact h

theorem meets_returns_iff (x : Outcome ε α) (Q : α → Prop) :
    Meets x Q (fun stop => ∃ e, stop = .error e) ↔ Returns x ∧ ∀ a, x = .ok a → Q a := by
  cases x with
  | ok a => simp
  | error stop => simp [Meets, Returns]

theorem meets_bind_iff (x : Outcome ε α) (f : α → Outcome ε β) (Q : β → Prop) (E : Stop ε → Prop) :
    Meets (x >>= f) Q E ↔ Meets x (fun a => Meets (f a) Q E) E := by
  cases x with
  | ok a => exact Iff.rfl
  | error stop => exact Iff.rfl

/-- Run `body` until it leaves the loop with `.inr`, at most `fuel` rounds. -/
def loop (body : σ → Outcome ε (σ ⊕ α)) : Nat → σ → Outcome ε α
  | 0, _ => .error .diverge
  | fuel + 1, s => do
    match ← body s with
    | .inl s' => loop body fuel s'
    | .inr a => pure a

theorem loop_succ (body : σ → Outcome ε (σ ⊕ α)) (fuel : Nat) (s : σ) :
    loop body (fuel + 1) s = (body s >>= fun r => Sum.elim (loop body fuel) pure r) := by
  cases h : body s with
  | error e => simp only [loop, h, bind, Except.bind]
  | ok r => cases r <;> simp only [loop, h, bind, Except.bind, Sum.elim_inl, Sum.elim_inr]

/-- One round of a loop keeps the invariant and lowers the variant, or leaves. -/
def Round (body : σ → Outcome ε (σ ⊕ α)) (I : σ → Prop) (variant : σ → Nat) (Q : α → Prop)
    (E : Stop ε → Prop) : Prop :=
  ∀ s, I s → Meets (body s)
    (Sum.elim (fun s' => I s' ∧ variant s' < variant s) Q) E

/-- Total correctness of `loop`: with an invariant and a variant below the
bound, the loop ends with the postcondition or as a round may stop; it never
uses up its bound. -/
theorem loop_meets {body : σ → Outcome ε (σ ⊕ α)} (I : σ → Prop) (variant : σ → Nat)
    {Q : α → Prop} {E : Stop ε → Prop} (h : Round body I variant Q E) (fuel : Nat) (s : σ)
    (hI : I s) (hs : variant s < fuel) : Meets (loop body fuel s) Q E := by
  induction fuel generalizing s with
  | zero => omega
  | succ fuel ih =>
    rw [loop_succ]
    apply (h s hI).bind
    rintro (s' | a) hr
    · exact ih s' hr.1 (by have := hr.2; omega)
    · exact hr

/-- Partial correctness of `loop`: an invariant is enough where using up the bound is one of
the ways the loop may stop. -/
theorem loop_meets_partial {body : σ → Outcome ε (σ ⊕ α)} (I : σ → Prop) {Q : α → Prop}
    {E : Stop ε → Prop} (hE : E .diverge) (h : ∀ s, I s → Meets (body s) (Sum.elim I Q) E)
    (fuel : Nat) (s : σ) (hI : I s) : Meets (loop body fuel s) Q E := by
  induction fuel generalizing s with
  | zero => exact hE
  | succ fuel ih =>
    rw [loop_succ]
    apply (h s hI).bind
    rintro (s' | a) hr
    · exact ih s' hr
    · exact hr

section MapM

theorem mapM_congr_of_mem {f f' : α → Outcome ε β} {as : List α} (h : ∀ a ∈ as, f a = f' a) :
    as.mapM f = as.mapM f' := by
  induction as with
  | nil => rfl
  | cons a as ih =>
    rw [List.mapM_cons, List.mapM_cons, h a List.mem_cons_self,
      ih fun b hb => h b (List.mem_cons_of_mem _ hb)]

theorem mapM_eq_ok_map {f : α → Outcome ε β} {g : α → β} {as : List α}
    (h : ∀ a ∈ as, f a = .ok (g a)) : as.mapM f = .ok (as.map g) := by
  induction as with
  | nil => rfl
  | cons a as ih =>
    rw [List.mapM_cons, h a List.mem_cons_self, ok_bind,
      ih fun b hb => h b (List.mem_cons_of_mem _ hb)]
    rfl

theorem mapM_ok_getElem? {f : α → Outcome ε β} {as : List α} {bs : List β} (h : as.mapM f = .ok bs)
    {i : Nat} {a : α} (ha : as[i]? = some a) : ∃ b, bs[i]? = some b ∧ f a = .ok b := by
  induction as generalizing bs i with
  | nil => cases ha
  | cons a' as ih =>
    rw [List.mapM_cons] at h
    obtain ⟨b, hb, h⟩ := (bind_eq_ok_iff _ _ _).mp h
    obtain ⟨rest, hrest, h⟩ := (bind_eq_ok_iff _ _ _).mp h
    cases h
    cases i with
    | zero =>
      cases ha
      exact ⟨b, rfl, hb⟩
    | succ i => exact ih hrest ha

/-- A loop in which some round panics, and none stops otherwise. -/
theorem mapM_eq_crash {f : α → Outcome ε β} {as : List α}
    (h : ∀ a ∈ as, f a = crash ∨ ∃ b, f a = .ok b) (hcrash : ∃ a ∈ as, f a = crash) :
    as.mapM f = crash := by
  induction as with
  | nil =>
    obtain ⟨a, ha, -⟩ := hcrash
    cases ha
  | cons a as ih =>
    rw [List.mapM_cons]
    rcases h a List.mem_cons_self with hfirst | ⟨b, hfirst⟩
    · rw [hfirst]
      rfl
    · obtain ⟨a', ha', hstop⟩ := hcrash
      rcases List.mem_cons.mp ha' with rfl | hmem
      · rw [hfirst] at hstop
        cases hstop
      · rw [hfirst, ok_bind, ih (fun c hc => h c (List.mem_cons_of_mem _ hc)) ⟨a', hmem, hstop⟩]
        rfl

theorem exists_mapM_ok {f : α → Outcome ε β} {as : List α} (h : ∀ a ∈ as, ∃ b, f a = .ok b) :
    ∃ bs, as.mapM f = .ok bs := by
  induction as with
  | nil => exact ⟨[], rfl⟩
  | cons a as ih =>
    obtain ⟨b, hb⟩ := h a List.mem_cons_self
    obtain ⟨bs, hbs⟩ := ih fun a' ha => h a' (List.mem_cons_of_mem _ ha)
    refine ⟨b :: bs, ?_⟩
    rw [List.mapM_cons, hb, ok_bind, hbs]
    rfl

end MapM

section Alike

variable {α' β' σ' : Type v}

/-- Two computations end with related values, or stop in the same way. -/
inductive Alike (R : α → α' → Prop) : Outcome ε α → Outcome ε α' → Prop
  | ok {a : α} {a' : α'} (h : R a a') : Alike R (.ok a) (.ok a')
  | stop (stop : Stop ε) : Alike R (.error stop) (.error stop)

variable {R : α → α' → Prop} {S : β → β' → Prop}

theorem Alike.bind {x : Outcome ε α} {x' : Outcome ε α'} {f : α → Outcome ε β}
    {f' : α' → Outcome ε β'} (h : Alike R x x') (hf : ∀ a a', R a a' → Alike S (f a) (f' a')) :
    Alike S (x >>= f) (x' >>= f') := by
  cases h with
  | ok h => exact hf _ _ h
  | stop stop => exact .stop stop

theorem Alike.exists_ok {x : Outcome ε α} {x' : Outcome ε α'} (h : Alike R x x') {a : α}
    (hx : x = .ok a) : ∃ a', x' = .ok a' ∧ R a a' := by
  cases h with
  | ok h =>
    cases hx
    exact ⟨_, rfl, h⟩
  | stop stop => cases hx

theorem Alike.exists_ok' {x : Outcome ε α} {x' : Outcome ε α'} (h : Alike R x x') {a' : α'}
    (hx' : x' = .ok a') : ∃ a, x = .ok a ∧ R a a' := by
  cases h with
  | ok h =>
    cases hx'
    exact ⟨_, rfl, h⟩
  | stop stop => cases hx'

theorem loop_alike {body : σ → Outcome ε (σ ⊕ α)} {body' : σ' → Outcome ε (σ' ⊕ α')}
    {I : σ → σ' → Prop} (h : ∀ s s', I s s' → Alike (Sum.LiftRel I R) (body s) (body' s'))
    (fuel : Nat) {s : σ} {s' : σ'} (hs : I s s') : Alike R (loop body fuel s) (loop body' fuel s') := by
  induction fuel generalizing s s' with
  | zero => exact .stop _
  | succ fuel ih =>
    rw [loop_succ, loop_succ]
    refine (h s s' hs).bind fun r r' hr => ?_
    cases hr with
    | inl hnext => exact ih hnext
    | inr hdone => exact .ok hdone

end Alike

end Outcome
