import Dandelion.Outcome

/-!
# Computations that change a state

The state is what the computation left behind, however it stopped. `Runs` is the
judgement for them: a postcondition on the value and the state, a condition on the
state after a reported error, and no panic.
-/

open Outcome

universe u

abbrev Stateful (ε σ : Type u) := ExceptT (Stop ε) (StateM σ)

namespace Stateful

variable {ε σ α β : Type u}

def lift (x : Outcome ε α) : Stateful ε σ α := ExceptT.mk (pure x)

/-- The outcome and the state afterwards. -/
def exec (m : Stateful ε σ α) (s : σ) : Outcome ε α × σ := StateT.run (ExceptT.run m) s

theorem lift_ok_bind (a : α) (f : α → Stateful ε σ β) : (lift (.ok a) >>= f) = f a := rfl

theorem lift_crash_bind (f : α → Stateful ε σ β) : (lift crash >>= f) = lift crash := rfl

theorem exec_bind (m : Stateful ε σ α) (f : α → Stateful ε σ β) (s : σ) :
    exec (m >>= f) s = match exec m s with
      | (.ok a, s') => exec (f a) s'
      | (.error stop, s') => (.error stop, s') := by
  cases hm : exec m s with
  | mk r s' =>
    have hrun : StateT.run (ExceptT.run m) s = (r, s') := hm
    change StateT.run (ExceptT.run (m >>= f)) s = _
    rw [ExceptT.run_bind, StateT.run_bind, hrun]
    cases r with
    | ok a => rfl
    | error stop => rfl

section Exec

variable {s : σ}

@[simp] theorem exec_get_bind (f : σ → Stateful ε σ β) : exec (get >>= f) s = exec (f s) s := by
  rw [exec_bind]
  rfl

@[simp] theorem exec_lift_ok_bind (a : α) (f : α → Stateful ε σ β) :
    exec (lift (.ok a) >>= f) s = exec (f a) s := by
  rw [exec_bind]
  rfl

@[simp] theorem exec_set_bind (s' : σ) (f : PUnit → Stateful ε σ β) :
    exec (set s' >>= f) s = exec (f ⟨⟩) s' := by
  rw [exec_bind]
  rfl

@[simp] theorem exec_modify_bind (g : σ → σ) (f : PUnit → Stateful ε σ β) :
    exec (modify g >>= f) s = exec (f ⟨⟩) (g s) := by
  rw [exec_bind]
  rfl

theorem exec_bind_ok {m : Stateful ε σ α} {a : α} {s' : σ} (h : exec m s = (.ok a, s'))
    (f : α → Stateful ε σ β) : exec (m >>= f) s = exec (f a) s' := by
  rw [exec_bind, h]

theorem exec_bind_error {m : Stateful ε σ α} {stop : Stop ε} {s' : σ}
    (h : exec m s = (.error stop, s')) (f : α → Stateful ε σ β) :
    exec (m >>= f) s = (.error stop, s') := by
  rw [exec_bind, h]

theorem exec_bind_eq_ok_iff (m : Stateful ε σ α) (f : α → Stateful ε σ β) (b : β) (u : σ) :
    exec (m >>= f) s = (.ok b, u) ↔ ∃ a t, exec m s = (.ok a, t) ∧ exec (f a) t = (.ok b, u) := by
  rw [exec_bind]
  cases hm : exec m s with
  | mk r t =>
    cases r with
    | ok a =>
      constructor
      · exact fun h => ⟨a, t, rfl, h⟩
      · rintro ⟨a', t', heq, h⟩
        cases heq
        exact h
    | error stop =>
      constructor
      · exact fun h => by cases h
      · rintro ⟨a', t', heq, -⟩
        cases heq

end Exec

/-- From the state `s` the computation ends with `Q`, or reports an error with `E`. -/
def Runs (m : Stateful ε σ α) (s : σ) (Q : α → σ → Prop) (E : σ → Prop) : Prop :=
  match exec m s with
  | (.ok a, s') => Q a s'
  | (.error stop, s') => (∃ e, stop = .error e) ∧ E s'

variable {s : σ} {Q R : α → σ → Prop} {E F : σ → Prop}

@[simp] theorem runs_pure (a : α) : Runs (pure a : Stateful ε σ α) s Q E ↔ Q a s := Iff.rfl

@[simp] theorem runs_fail (e : ε) : Runs (lift (fail e) : Stateful ε σ α) s Q E ↔ E s :=
  ⟨fun h => h.2, fun h => ⟨⟨e, rfl⟩, h⟩⟩

@[simp] theorem runs_lift_ok (a : α) : Runs (lift (.ok a) : Stateful ε σ α) s Q E ↔ Q a s := Iff.rfl

theorem runs_lift {x : Outcome ε α} (hx : Returns x) (hQ : ∀ a, x = .ok a → Q a s) (hE : E s) :
    Runs (lift x) s Q E := by
  cases x with
  | ok a => exact hQ a rfl
  | error stop => exact ⟨hx stop rfl, hE⟩

theorem Runs.mono {m : Stateful ε σ α} (h : Runs m s Q E) (hQ : ∀ a s', Q a s' → R a s')
    (hE : ∀ s', E s' → F s') : Runs m s R F := by
  unfold Runs at h ⊢
  cases hm : exec m s with
  | mk r s' =>
    rw [hm] at h
    cases r with
    | ok a => exact hQ a s' h
    | error stop => exact ⟨h.1, hE s' h.2⟩

theorem runs_congr {m m' : Stateful ε σ α} {s' : σ} (h : exec m s = exec m' s') :
    Runs m s Q E ↔ Runs m' s' Q E := by
  rw [Runs, h]
  rfl

/-- A computation that cannot fail ends. -/
theorem Runs.exists_ok {m : Stateful ε σ α} (h : Runs m s Q fun _ => False) :
    ∃ a s', exec m s = (.ok a, s') ∧ Q a s' := by
  unfold Runs at h
  cases hm : exec m s with
  | mk r s' =>
    rw [hm] at h
    cases r with
    | ok a => exact ⟨a, s', rfl, h⟩
    | error stop => exact h.2.elim

theorem Runs.imp {m : Stateful ε σ α} (h : Runs m s Q E) (hQ : ∀ a s', Q a s' → R a s') :
    Runs m s R E :=
  h.mono hQ (fun _ he => he)

theorem Runs.bind {m : Stateful ε σ α} {f : α → Stateful ε σ β} {R : β → σ → Prop}
    (h : Runs m s Q E) (hf : ∀ a s', Q a s' → Runs (f a) s' R E) : Runs (m >>= f) s R E := by
  unfold Runs at h ⊢
  rw [exec_bind]
  cases hm : exec m s with
  | mk r s' =>
    rw [hm] at h
    cases r with
    | ok a => exact hf a s' h
    | error stop => exact h

section Bind

variable {R : β → σ → Prop}

theorem runs_bind_ok {m : Stateful ε σ α} {f : α → Stateful ε σ β} {a : α} {s' : σ}
    (h : exec m s = (.ok a, s')) : Runs (m >>= f) s R E ↔ Runs (f a) s' R E := by
  rw [Runs, exec_bind, h]
  rfl

@[simp] theorem runs_lift_ok_bind (a : α) (f : α → Stateful ε σ β) :
    Runs (lift (.ok a) >>= f) s R E ↔ Runs (f a) s R E := by
  rw [Runs, exec_bind]
  rfl

@[simp] theorem runs_get_bind (f : σ → Stateful ε σ β) :
    Runs (get >>= f) s R E ↔ Runs (f s) s R E := by
  rw [Runs, exec_bind]
  rfl

@[simp] theorem runs_set_bind (s' : σ) (f : PUnit → Stateful ε σ β) :
    Runs (set s' >>= f) s R E ↔ Runs (f ⟨⟩) s' R E := by
  rw [Runs, exec_bind]
  rfl

@[simp] theorem runs_modify_bind (g : σ → σ) (f : PUnit → Stateful ε σ β) :
    Runs (modify g >>= f) s R E ↔ Runs (f ⟨⟩) (g s) R E := by
  rw [Runs, exec_bind]
  rfl

end Bind

/-- Run `body 0`, `body 1` and so on, `n` bodies in all. -/
def times (body : Nat → Stateful ε σ PUnit) : Nat → Stateful ε σ PUnit
  | 0 => pure ⟨⟩
  | n + 1 => do
    times body n
    body n

/-- A loop with a counter, by an invariant of the counter and the state. -/
theorem runs_times {body : Nat → Stateful ε σ PUnit} {n : Nat} (I : Nat → σ → Prop) (h : I 0 s)
    (hbody : ∀ k < n, ∀ t, I k t → Runs (body k) t (fun _ => I (k + 1)) E) :
    Runs (times body n) s (fun _ => I n) E := by
  induction n with
  | zero => exact h
  | succ n ih =>
    rw [times]
    apply (ih fun k hk => hbody k (by omega)).bind
    exact fun _ t ht => hbody n (by omega) t ht

theorem exec_times_error {body : Nat → Stateful ε σ PUnit} {n : Nat} {stop : Stop ε} {s' : σ}
    (hn : 0 < n) (h : exec (body 0) s = (.error stop, s')) :
    exec (times body n) s = (.error stop, s') := by
  induction n with
  | zero => omega
  | succ n ih =>
    rw [times]
    rcases Nat.eq_zero_or_pos n with rfl | hpos
    · have hstart : exec (times body 0) s = (.ok ⟨⟩, s) := rfl
      rw [exec_bind_ok hstart, h]
    · rw [exec_bind_error (ih hpos)]

/-- Go on in the same way after a value and after a reported error. -/
def ignoreError (m : Stateful ε σ α) : Stateful ε σ PUnit :=
  ExceptT.mk do
    match ← ExceptT.run m with
    | .ok _ => pure (.ok ⟨⟩)
    | .error (.error _) => pure (.ok ⟨⟩)
    | .error stop => pure (.error stop)

theorem exec_ignoreError_ok {m : Stateful ε σ α} {a : α} {t : σ} (h : exec m s = (.ok a, t)) :
    exec (ignoreError m) s = (.ok ⟨⟩, t) := by
  have hrun : StateT.run (ExceptT.run m) s = (.ok a, t) := h
  change StateT.run (ExceptT.run m >>= _) s = _
  rw [StateT.run_bind, hrun]
  rfl

theorem exec_ignoreError_fail {m : Stateful ε σ α} {e : ε} {t : σ} (h : exec m s = (fail e, t)) :
    exec (ignoreError m) s = (.ok ⟨⟩, t) := by
  have hrun : StateT.run (ExceptT.run m) s = (fail e, t) := h
  change StateT.run (ExceptT.run m >>= _) s = _
  rw [StateT.run_bind, hrun]
  rfl

theorem exec_ignoreError_stop {m : Stateful ε σ α} {stop : Stop ε} {t : σ}
    (h : exec m s = (.error stop, t)) (hstop : ∀ e, stop ≠ .error e) :
    exec (ignoreError m) s = (.error stop, t) := by
  have hrun : StateT.run (ExceptT.run m) s = (.error stop, t) := h
  change StateT.run (ExceptT.run m >>= _) s = _
  rw [StateT.run_bind, hrun]
  cases stop with
  | error e => exact absurd rfl (hstop e)
  | panic => rfl
  | diverge => rfl

/-- The computation ends with a value or with a reported error. -/
def Answers (m : Stateful ε σ α) (s : σ) : Prop := Returns (exec m s).1

section Answers

variable {m : Stateful ε σ α} {f : α → Stateful ε σ β} {s' : σ}

theorem answers_pure (a : α) : Answers (pure a : Stateful ε σ α) s := returns_pure a

theorem answers_bind_ok {a : α} (h : exec m s = (.ok a, s')) :
    Answers (m >>= f) s ↔ Answers (f a) s' := by
  rw [Answers, exec_bind, h, Answers]

theorem answers_bind_fail {e : ε} (h : exec m s = (fail e, s')) : Answers (m >>= f) s := by
  rw [Answers, exec_bind, h]
  exact returns_fail e

theorem not_answers_bind (h : ¬ Answers m s) : ¬ Answers (m >>= f) s := by
  intro hbind
  apply h
  rw [Answers, exec_bind] at hbind
  rw [Answers]
  cases hm : exec m s with
  | mk r s' =>
    rw [hm] at hbind
    cases r with
    | ok a => exact returns_ok a
    | error stop => exact fun stop' hstop => hbind stop' (by cases hstop; rfl)

@[simp] theorem answers_get_bind {f : σ → Stateful ε σ β} :
    Answers (get >>= f) s ↔ Answers (f s) s :=
  answers_bind_ok rfl

@[simp] theorem answers_lift_ok_bind {a : α} : Answers (lift (.ok a) >>= f) s ↔ Answers (f a) s :=
  answers_bind_ok rfl

theorem not_answers_ignoreError (h : ¬ Answers m s) : ¬ Answers (ignoreError m) s := by
  cases hm : exec m s with
  | mk outcome t =>
    rw [Answers, hm] at h
    cases outcome with
    | ok a => exact absurd (returns_ok a) h
    | error stop =>
      cases stop with
      | error e => exact absurd (returns_fail e) h
      | panic =>
        rw [Answers, exec_ignoreError_stop hm nofun]
        exact not_returns_crash
      | diverge =>
        rw [Answers, exec_ignoreError_stop hm nofun]
        exact not_returns_diverge

end Answers

end Stateful
