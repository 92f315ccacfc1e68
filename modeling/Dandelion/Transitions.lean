import Mathlib.Logic.Relation

/-!
# Transition systems

Runs of a system that is given by a relation on its states. What one step keeps, a run
keeps; and what holds at every state of a run is what holds at its first state and along
the runs from the states after it.
-/

namespace Transitions

variable {σ : Type*} {step : σ → σ → Prop}

/-- A run of any number of steps. -/
def Reaches (step : σ → σ → Prop) : σ → σ → Prop := Relation.ReflTransGen step

theorem Reaches.refl (s : σ) : Reaches step s s := Relation.ReflTransGen.refl

theorem Reaches.tail {s t u : σ} (h : Reaches step s t) (hstep : step t u) : Reaches step s u :=
  Relation.ReflTransGen.tail h hstep

theorem Reaches.invariant {I : σ → Prop} (hstep : ∀ s t, I s → step s t → I t) {s t : σ}
    (h : Reaches step s t) (hs : I s) : I t := by
  induction h with
  | refl => exact hs
  | tail _ hlast ih => exact hstep _ _ ih hlast

/-- Steps that another system follows in any number of steps are followed along runs. -/
theorem Reaches.follow {τ : Type*} {step' : τ → τ → Prop} {R : σ → τ → Prop}
    (hstep : ∀ s s' t, R s t → step s s' → ∃ t', Reaches step' t t' ∧ R s' t') {s s' : σ} {t : τ}
    (h : Reaches step s s') (hR : R s t) : ∃ t', Reaches step' t t' ∧ R s' t' := by
  induction h with
  | refl => exact ⟨t, .refl t, hR⟩
  | tail _ hlast ih =>
    obtain ⟨u, hu, hRu⟩ := ih
    obtain ⟨v, hv, hRv⟩ := hstep _ _ _ hRu hlast
    exact ⟨v, Relation.ReflTransGen.trans hu hv, hRv⟩

/-- While a state is not done it makes a step to a lower rank; then some run is done. -/
theorem exists_reaches_done {I done : σ → Prop} (rank : σ → Nat)
    (h : ∀ s, I s → done s ∨ ∃ t, step s t ∧ I t ∧ rank t < rank s) {s : σ} (hs : I s) :
    ∃ t, Reaches step s t ∧ I t ∧ done t := by
  induction hn : rank s using Nat.strongRecOn generalizing s with
  | ind n ih =>
    rcases h s hs with hdone | ⟨t, hst, ht, hlt⟩
    · exact ⟨s, .refl s, hs, hdone⟩
    · obtain ⟨u, htu, hu, hdone⟩ := ih (rank t) (hn ▸ hlt) ht rfl
      exact ⟨u, Relation.ReflTransGen.head hst htu, hu, hdone⟩

/-- Every state that is reached is safe. -/
def SafeFrom (step : σ → σ → Prop) (safe : σ → Prop) (s : σ) : Prop :=
  ∀ t, Reaches step s t → safe t

theorem safeFrom_iff {safe : σ → Prop} (s : σ) :
    SafeFrom step safe s ↔ safe s ∧ ∀ t, step s t → SafeFrom step safe t := by
  constructor
  · intro h
    exact ⟨h s (.refl s), fun t hst u htu => h u (Relation.ReflTransGen.head hst htu)⟩
  · rintro ⟨hs, hnext⟩ t ht
    rcases Relation.ReflTransGen.cases_head ht with rfl | ⟨u, hsu, hut⟩
    · exact hs
    · exact hnext u hsu t hut

section Actions

variable {α : Type*} (act : σ → α → Option σ)

/-- A run through the given actions. -/
def run : σ → List α → Option σ
  | s, [] => some s
  | s, action :: actions => (act s action).bind fun t => run t actions

theorem reaches_of_run {s t : σ} (actions : List α) (h : run act s actions = some t) :
    Reaches (fun s t => ∃ action, act s action = some t) s t := by
  induction actions generalizing s with
  | nil =>
    cases h
    exact .refl _
  | cons action actions ih =>
    obtain ⟨u, hstep, hrun⟩ := Option.bind_eq_some_iff.mp h
    exact Relation.ReflTransGen.head ⟨action, hstep⟩ (ih hrun)

/-- Every state of a run is safe. -/
def SafeAlong (safe : σ → Prop) : σ → List α → Prop
  | s, [] => safe s
  | s, action :: actions => safe s ∧ ∀ t, act s action = some t → SafeAlong safe t actions

/-- Every step of a run is made in a state that meets the guard of its action. -/
def GuardedAlong (guard : σ → α → Prop) : σ → List α → Prop
  | _, [] => True
  | s, action :: actions =>
    ∀ t, act s action = some t → guard s action ∧ GuardedAlong guard t actions

variable {act}

theorem guardedAlong_of_forall {guard : σ → α → Prop} {actions : List α}
    (h : ∀ action ∈ actions, ∀ s, guard s action) (s : σ) : GuardedAlong act guard s actions := by
  induction actions generalizing s with
  | nil => trivial
  | cons action actions ih =>
    intro t _
    exact ⟨h action List.mem_cons_self s,
      ih (fun later hlater => h later (List.mem_cons_of_mem action hlater)) t⟩

theorem GuardedAlong.invariant {guard : σ → α → Prop} {I : σ → Prop}
    (hstep : ∀ s action t, I s → act s action = some t → guard s action → I t) {s t : σ}
    {actions : List α} (h : GuardedAlong act guard s actions) (hrun : run act s actions = some t)
    (hs : I s) : I t := by
  induction actions generalizing s with
  | nil =>
    cases hrun
    exact hs
  | cons action actions ih =>
    obtain ⟨u, hact, hrest⟩ := Option.bind_eq_some_iff.mp hrun
    obtain ⟨hguard, hnext⟩ := h u hact
    exact ih hnext hrest (hstep s action u hs hact hguard)

theorem SafeAlong.last {safe : σ → Prop} {s t : σ} {actions : List α}
    (h : SafeAlong act safe s actions) (hrun : run act s actions = some t) : safe t := by
  induction actions generalizing s with
  | nil =>
    cases hrun
    exact h
  | cons action actions ih =>
    obtain ⟨u, hact, hrest⟩ := Option.bind_eq_some_iff.mp hrun
    exact ih (h.2 u hact) hrest

theorem guardedAlong_of_invariant {guard : σ → α → Prop} {I : σ → Prop} {A : α → Prop}
    (hstep : ∀ s action t, I s → A action → act s action = some t → guard s action ∧ I t)
    {actions : List α} (hactions : ∀ action ∈ actions, A action) {s : σ} (hs : I s) :
    GuardedAlong act guard s actions := by
  induction actions generalizing s with
  | nil => trivial
  | cons action actions ih =>
    intro t ht
    obtain ⟨hguard, hI⟩ := hstep s action t hs (hactions action List.mem_cons_self) ht
    exact ⟨hguard, ih (fun later hlater => hactions later (List.mem_cons_of_mem action hlater)) hI⟩

theorem safeAlong_of_guarded {guard : σ → α → Prop} {I safe : σ → Prop}
    (hstep : ∀ s action t, I s → act s action = some t → guard s action → I t)
    (hsafe : ∀ s, I s → safe s) {s : σ} (actions : List α) (hs : I s)
    (h : GuardedAlong act guard s actions) : SafeAlong act safe s actions := by
  induction actions generalizing s with
  | nil => exact hsafe s hs
  | cons action actions ih =>
    refine ⟨hsafe s hs, fun t ht => ?_⟩
    obtain ⟨hguard, hrest⟩ := h t ht
    exact ih (hstep s action t hs ht hguard) hrest

/-- A run that is safe is guarded, if an unguarded step from a state of the invariant `J` is
not safe. -/
theorem guarded_of_safeAlong {guard : σ → α → Prop} {J safe : σ → Prop}
    (hJ : ∀ s action t, J s → act s action = some t → J t)
    (hstep : ∀ s action t, J s → safe s → act s action = some t → safe t → guard s action) {s : σ}
    (actions : List α) (hs : J s) (h : SafeAlong act safe s actions) :
    GuardedAlong act guard s actions := by
  induction actions generalizing s with
  | nil => trivial
  | cons action actions ih =>
    intro t ht
    have hrest := h.2 t ht
    have ht' : safe t := by
      cases actions with
      | nil => exact hrest
      | cons next actions => exact hrest.1
    exact ⟨hstep s action t hs h.1 ht ht', ih (hJ s action t hs ht) hrest⟩

end Actions

end Transitions
