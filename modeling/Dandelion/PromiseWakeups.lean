import Dandelion.PromiseSlot

/-!
# What a promise is told

Every interleaving of one promise and its debt. The content of the slot is counted from the
value that `fulfill` stores to the poll that returns it, and the waker of a poll that goes
pending is followed to the cell that `fulfill` takes a waker from.
-/

namespace Dandelion.PromiseSlot

open Transitions

variable {ω W : Type}

/-- What the atomic operations and memory accesses of the two sides can do. The branch of
`Debt::drop` that pays the debt is kept apart: nothing leads into it. -/
inductive Move (s : Slot ω W) : Slot ω W → Prop
  | load (waker : W) (hpromise : s.promise = .idle) :
    Move s { s with
      promise := .loaded s.flags ⟨s.polls, waker⟩
      polls := s.polls + 1
      lastPoll := .running }
  | setWaker (flags : FlagByte) (waker : TaskWaker W) (hpromise : s.promise = .loaded flags waker) :
    Move s { s with
      wakers := Function.update s.wakers (cell ((flags &&& wakerIndex) ^^^ wakerIndex)) (some waker)
      promise := .wakerStored flags waker }
  | exchange (waker : TaskWaker W) (hpromise : s.promise = .wakerStored s.flags waker) :
    Move s { s with flags := s.flags.taken, promise := .exchanged (.ok s.flags) waker }
  | exchangeFails (flags : FlagByte) (waker : TaskWaker W)
    (hpromise : s.promise = .wakerStored flags waker) (hflags : s.flags ≠ flags) :
    Move s { s with promise := .exchanged (.error s.flags) waker }
  | ready (result : Except FlagByte FlagByte) (waker : TaskWaker W)
    (hpromise : s.promise = .exchanged result waker)
    (hcontent : (currentFlags result).has contentSet = true) :
    Move s { s with
      results := .error (.promiseError .takenPromise)
      promise := .idle
      lastPoll := .ready s.results
      ready := s.results :: s.ready }
  | pending (result : Except FlagByte FlagByte) (waker : TaskWaker W)
    (hpromise : s.promise = .exchanged result waker)
    (hcontent : (currentFlags result).has contentSet = false) :
    Move s { s with promise := .idle, lastPoll := .pending waker }
  | abort (hpromise : s.promise = .idle) :
    Move s { s with abortHandle := false, promise := .releasing }
  | releasePromise (pc : PromisePc W) (hpromise : s.promise = .releasing)
    (hpc : s.flags &&& ~~~promiseAlive &&& alive = 0 ∧ pc = .reclaiming
      ∨ s.flags &&& ~~~promiseAlive &&& alive ≠ 0 ∧ pc = .dropped) :
    Move s { s with flags := s.flags &&& ~~~promiseAlive, promise := pc }
  | reclaimPromise (hpromise : s.promise = .reclaiming) :
    Move s { s with promise := .dropped, reclaimed := s.reclaimed + 1 }
  | install (hdebt : s.debt = .idle) : Move s { s with abortHandle := true }
  | fulfill (results : Except DandelionError ω) (hdebt : s.debt = .idle) :
    Move s { s with abortHandle := false, debt := .fulfilling results, fulfilled := some results }
  | setResults (results : Except DandelionError ω) (hdebt : s.debt = .fulfilling results) :
    Move s { s with results, debt := .resultsSet }
  | setContent (hdebt : s.debt = .resultsSet) :
    Move s { s with
      flags := s.flags ||| contentSet
      debt := .contentFlagged (cell (s.flags &&& wakerIndex)) }
  | wake (index : Bool) (hdebt : s.debt = .contentFlagged index) :
    Move s { s with
      wakers := Function.update s.wakers index none
      woken := (s.wakers index).toList ++ s.woken
      debt := .dropping
      fulfillDone := true }
  | dropDebt (hdebt : s.debt = .idle) : Move s { s with debt := .dropping }
  | clearHandle (hdebt : s.debt = .dropping) :
    Move s { s with abortHandle := false, debt := .handleCleared }
  | skipPayment (hdebt : s.debt = .handleCleared) : Move s { s with debt := .releasing }
  | releaseDebt (pc : DebtPc ω) (hdebt : s.debt = .releasing)
    (hpc : s.flags &&& ~~~debtAlive &&& alive = 0 ∧ pc = .reclaiming
      ∨ s.flags &&& ~~~debtAlive &&& alive ≠ 0 ∧ pc = .dropped) :
    Move s { s with flags := s.flags &&& ~~~debtAlive, debt := pc }
  | reclaimDebt (hdebt : s.debt = .reclaiming) :
    Move s { s with debt := .dropped, reclaimed := s.reclaimed + 1 }
  | pay (t : Slot ω W)
    (hdebt : s.debt = .paying ∨ s.debt = .paid ∨ s.debt = .waking ∨ ∃ index, s.debt = .taking index) :
    Move s t

theorem promiseStep_move {s t : Slot ω W} (h : promiseStep s = some t) : Move s t := by
  unfold promiseStep at h
  cases hpromise : s.promise with
  | idle => simp [hpromise] at h
  | dropped => simp [hpromise] at h
  | loaded flags waker =>
    simp only [hpromise, Option.some.injEq] at h
    subst h
    exact .setWaker flags waker hpromise
  | wakerStored flags waker =>
    simp only [hpromise] at h
    split at h
    · next hflags =>
      cases h
      subst hflags
      exact .exchange waker hpromise
    · next hflags =>
      cases h
      exact .exchangeFails flags waker hpromise hflags
  | exchanged result waker =>
    simp only [hpromise] at h
    split at h
    · next hcontent =>
      cases h
      exact .ready result waker hpromise hcontent
    · next hcontent =>
      cases h
      exact .pending result waker hpromise (by simpa using hcontent)
  | releasing =>
    simp only [hpromise, Option.some.injEq] at h
    subst h
    refine .releasePromise _ hpromise ?_
    split
    · next hgone => exact .inl ⟨hgone, rfl⟩
    · next hgone => exact .inr ⟨hgone, rfl⟩
  | reclaiming =>
    simp only [hpromise, Option.some.injEq] at h
    subst h
    exact .reclaimPromise hpromise

theorem debtStep_move {s t : Slot ω W} (h : debtStep s = some t) : Move s t := by
  unfold debtStep at h
  cases hdebt : s.debt with
  | idle => simp [hdebt] at h
  | dropped => simp [hdebt] at h
  | fulfilling results =>
    simp only [hdebt, Option.some.injEq] at h
    subst h
    exact .setResults results hdebt
  | resultsSet =>
    simp only [hdebt, Option.some.injEq] at h
    subst h
    exact .setContent hdebt
  | contentFlagged index =>
    simp only [hdebt, Option.some.injEq] at h
    subst h
    exact .wake index hdebt
  | dropping =>
    simp only [hdebt, Option.some.injEq] at h
    subst h
    exact .clearHandle hdebt
  | handleCleared =>
    -- the test of `Debt::drop` fails for every flag byte
    simp only [hdebt, if_neg (and_promiseAlive_ne_one s.flags), Option.some.injEq] at h
    subst h
    exact .skipPayment hdebt
  | paying => exact .pay t (.inl hdebt)
  | paid => exact .pay t (.inr (.inl hdebt))
  | waking => exact .pay t (.inr (.inr (.inl hdebt)))
  | taking index => exact .pay t (.inr (.inr (.inr ⟨index, hdebt⟩)))
  | releasing =>
    simp only [hdebt, Option.some.injEq] at h
    subst h
    refine .releaseDebt _ hdebt ?_
    split
    · next hgone => exact .inl ⟨hgone, rfl⟩
    · next hgone => exact .inr ⟨hgone, rfl⟩
  | reclaiming =>
    simp only [hdebt, Option.some.injEq] at h
    subst h
    exact .reclaimDebt hdebt

theorem Step.move {s t : Slot ω W} (h : Step s t) : Move s t := by
  obtain ⟨action, haction⟩ := h
  cases action with
  | promise => exact promiseStep_move haction
  | debt => exact debtStep_move haction
  | poll waker =>
    simp only [step] at haction
    split at haction
    · next hpromise =>
      cases haction
      exact .load waker hpromise
    · cases haction
  | dropPromise =>
    simp only [step] at haction
    split at haction
    · next hpromise =>
      cases haction
      exact .abort hpromise
    · cases haction
  | installAbortHandle =>
    simp only [step] at haction
    split at haction
    · next hdebt =>
      cases haction
      exact .install hdebt
    · cases haction
  | fulfill results =>
    simp only [step] at haction
    split at haction
    · next hdebt =>
      cases haction
      exact .fulfill results hdebt
    · cases haction
  | dropDebt =>
    simp only [step] at haction
    split at haction
    · next hdebt =>
      cases haction
      exact .dropDebt hdebt
    · cases haction

/-- The debt has not set the content flag, but may still do it. -/
def DebtPc.early : DebtPc ω → Prop
  | .idle => True
  | .fulfilling _ => True
  | .resultsSet => True
  | _ => False

/-- What `fulfill` was called with, by where the debt is. -/
def DebtPc.Expects (fulfilled : Option (Except DandelionError ω)) : DebtPc ω → Prop
  | .idle => fulfilled = none
  | .fulfilling results => fulfilled = some results
  | .resultsSet => fulfilled.isSome = true
  | .contentFlagged _ => fulfilled.isSome = true
  | .paying => False
  | .paid => False
  | .waking => False
  | .taking _ => False
  | _ => True

def PromisePc.polling : PromisePc W → Prop
  | .loaded _ _ => True
  | .wakerStored _ _ => True
  | .exchanged _ _ => True
  | _ => False

/-- The last poll has returned pending, or is about to. -/
def Waits (s : Slot ω W) (waker : TaskWaker W) : Prop :=
  s.lastPoll = .pending waker ∨
    ∃ result, s.promise = .exchanged result waker ∧ (currentFlags result).has contentSet = false

/-- A poll has taken the content flag and not returned yet. -/
def Taken (s : Slot ω W) : Prop :=
  ∃ flags waker, s.promise = .exchanged (.ok flags) waker ∧ flags.has contentSet = true

/-- Where the two sides stand tells what they have been called with. -/
structure Sides (s : Slot ω W) : Prop where
  expected : s.debt.Expects s.fulfilled
  done : s.fulfillDone = true → ¬ s.debt.early ∧ s.fulfilled.isSome = true
  running : s.promise.polling → s.lastPoll = .running

theorem Sides.not_pay {s : Slot ω W} (hs : Sides s)
    (hdebt : s.debt = .paying ∨ s.debt = .paid ∨ s.debt = .waking ∨ ∃ index, s.debt = .taking index) :
    False := by
  have hexpected := hs.expected
  rcases hdebt with h | h | h | ⟨index, h⟩ <;> rw [h] at hexpected <;> exact hexpected

theorem sides_step (s t : Slot ω W) (hs : Sides s) (h : Step s t) : Sides t := by
  have hexpected := hs.expected
  have hrunning := hs.running
  have hdone := hs.done
  cases h.move with
  | load waker hpromise => exact { hs with running := fun _ => rfl }
  | setWaker flags waker hpromise =>
    exact { hs with running := fun _ => hrunning (hpromise ▸ trivial) }
  | exchange waker hpromise => exact { hs with running := fun _ => hrunning (hpromise ▸ trivial) }
  | exchangeFails flags waker hpromise hflags =>
    exact { hs with running := fun _ => hrunning (hpromise ▸ trivial) }
  | ready result waker hpromise hcontent => exact { hs with running := False.elim }
  | pending result waker hpromise hcontent => exact { hs with running := False.elim }
  | abort hpromise => exact { hs with running := False.elim }
  | releasePromise pc hpromise hpc =>
    rcases hpc with ⟨-, rfl⟩ | ⟨-, rfl⟩ <;> exact { hs with running := False.elim }
  | reclaimPromise hpromise => exact { hs with running := False.elim }
  | install hdebt => exact { hs with }
  | fulfill results hdebt =>
    rw [hdebt] at hdone
    exact { hs with expected := rfl, done := fun hd => absurd trivial (hdone hd).1 }
  | setResults results hdebt =>
    rw [hdebt] at hexpected hdone
    exact { hs with
      expected := Option.isSome_iff_exists.mpr ⟨results, hexpected⟩
      done := fun hd => absurd trivial (hdone hd).1 }
  | setContent hdebt =>
    rw [hdebt] at hexpected hdone
    exact { hs with expected := hexpected, done := fun hd => absurd trivial (hdone hd).1 }
  | wake index hdebt =>
    rw [hdebt] at hexpected
    exact { hs with expected := trivial, done := fun _ => ⟨id, hexpected⟩ }
  | dropDebt hdebt =>
    rw [hdebt] at hdone
    exact { hs with expected := trivial, done := fun hd => absurd trivial (hdone hd).1 }
  | clearHandle hdebt => exact { hs with expected := trivial, done := fun hd => ⟨id, (hdone hd).2⟩ }
  | skipPayment hdebt => exact { hs with expected := trivial, done := fun hd => ⟨id, (hdone hd).2⟩ }
  | releaseDebt pc hdebt hpc =>
    rcases hpc with ⟨-, rfl⟩ | ⟨-, rfl⟩ <;>
      exact { hs with expected := trivial, done := fun hd => ⟨id, (hdone hd).2⟩ }
  | reclaimDebt hdebt => exact { hs with expected := trivial, done := fun hd => ⟨id, (hdone hd).2⟩ }
  | pay t hdebt => exact (hs.not_pay hdebt).elim

/-- `fulfill` has set the content flag. -/
def Published (s : Slot ω W) : Prop := ¬ s.debt.early ∧ s.fulfilled.isSome = true

theorem not_published_of_early {s : Slot ω W} (h : s.debt.early) : ¬ Published s :=
  fun hpublished => hpublished.1 h

/-- The content of the slot, until a poll returns it. -/
structure Contents (s : Slot ω W) : Prop where
  unset : ¬ Published s → s.flags.has contentSet = false ∧ s.ready = []
  unseen : ¬ Published s → ∀ result waker, s.promise = .exchanged result waker →
    (currentFlags result).has contentSet = false
  stored : s.debt = .resultsSet → s.fulfilled = some s.results
  set : Published s → s.ready = [] →
    s.fulfilled = some s.results ∧ (s.flags.has contentSet = true ∨ Taken s)
  taken : Taken s → s.flags.has contentSet = false
  returned : ∀ results, s.ready.getLast? = some results → s.fulfilled = some results

/-- Without a poll past its exchange, published content is in the slot. -/
theorem Contents.set_of_not_exchanged {s : Slot ω W} (hs : Contents s) (hpublished : Published s)
    (hready : s.ready = []) (hpromise : ∀ result waker, s.promise ≠ .exchanged result waker) :
    s.fulfilled = some s.results ∧ s.flags.has contentSet = true := by
  obtain ⟨hresults, hcontent | ⟨flags, waker, htaken, -⟩⟩ := hs.set hpublished hready
  · exact ⟨hresults, hcontent⟩
  · exact absurd htaken (hpromise _ _)

/-- A step of the promise that ends in a state without an exchanged poll. -/
theorem Contents.of_not_exchanged {s : Slot ω W} (hs : Contents s) (t : Slot ω W)
    (hdebt : t.debt = s.debt) (hfulfilled : t.fulfilled = s.fulfilled)
    (hresults : t.results = s.results) (hready : t.ready = s.ready)
    (hflags : t.flags.has contentSet = s.flags.has contentSet)
    (hbefore : ¬ Taken s) (hafter : ∀ result waker, t.promise ≠ .exchanged result waker) :
    Contents t := by
  have hpublished : Published t ↔ Published s := by rw [Published, Published, hdebt, hfulfilled]
  have htaken : ¬ Taken t := fun ⟨flags, waker, h, _⟩ => hafter _ _ h
  exact {
    unset := fun hn => by rw [hflags, hready]; exact hs.unset (mt hpublished.mpr hn)
    unseen := fun _ result waker h => absurd h (hafter result waker)
    stored := fun h => by rw [hfulfilled, hresults]; exact hs.stored (hdebt ▸ h)
    set := fun hp hn => by
      rw [hfulfilled, hresults, hflags]
      have hset := hs.set (hpublished.mp hp) (hready ▸ hn)
      exact ⟨hset.1, .inl (hset.2.resolve_right hbefore)⟩
    taken := fun h => absurd h htaken
    returned := fun results h => by rw [hfulfilled]; exact hs.returned results (hready ▸ h) }

/-- A step of the debt after `fulfill`, or without one. -/
theorem Contents.of_late {s : Slot ω W} (hs : Contents s) (t : Slot ω W)
    (hpublished : Published t ↔ Published s)
    (hdebt : t.debt ≠ .resultsSet) (hpromise : t.promise = s.promise)
    (hfulfilled : t.fulfilled = s.fulfilled)
    (hresults : t.results = s.results) (hready : t.ready = s.ready)
    (hflags : t.flags.has contentSet = s.flags.has contentSet) : Contents t := by
  have htaken : Taken t ↔ Taken s := by rw [Taken, Taken, hpromise]
  exact {
    unset := fun hn => by rw [hflags, hready]; exact hs.unset (mt hpublished.mpr hn)
    unseen := fun hn => by rw [hpromise]; exact hs.unseen (mt hpublished.mpr hn)
    stored := fun h => absurd h hdebt
    set := fun hp hn => by
      rw [hfulfilled, hresults, hflags, htaken]
      exact hs.set (hpublished.mp hp) (hready ▸ hn)
    taken := fun h => by rw [hflags]; exact hs.taken (htaken.mp h)
    returned := fun results h => by rw [hfulfilled]; exact hs.returned results (hready ▸ h) }

theorem contents_step (s t : Slot ω W) (hsides : Sides s) (hs : Contents s) (h : Step s t) :
    Contents t := by
  have hmove := h.move
  cases hmove with
  | load waker hpromise =>
    exact hs.of_not_exchanged _ rfl rfl rfl rfl rfl (by simp [Taken, hpromise]) nofun
  | setWaker flags waker hpromise =>
    exact hs.of_not_exchanged _ rfl rfl rfl rfl rfl (by simp [Taken, hpromise]) nofun
  | exchange waker hpromise =>
    exact { hs with
      unset := fun hn => ⟨has_taken _, (hs.unset hn).2⟩
      unseen := fun hn result waker' h => by
        cases h
        exact (hs.unset hn).1
      set := fun hp hn => by
        have hset := hs.set_of_not_exchanged hp hn (by simp [hpromise])
        exact ⟨hset.1, .inr ⟨s.flags, waker, rfl, hset.2⟩⟩
      taken := fun _ => has_taken _ }
  | exchangeFails flags waker hpromise hflags =>
    exact { hs with
      unseen := fun hn result waker' h => by
        cases h
        exact (hs.unset hn).1
      set := fun hp hn => by
        have hset := hs.set_of_not_exchanged hp hn (by simp [hpromise])
        exact ⟨hset.1, .inl hset.2⟩
      taken := nofun }
  | ready result waker hpromise hcontent =>
    have hpublished : Published s := by
      by_contra hn
      simp [hs.unseen hn result waker hpromise] at hcontent
    exact {
      unset := fun hn => absurd hpublished hn
      unseen := nofun
      stored := fun (hdebt : s.debt = .resultsSet) =>
        absurd hpublished (not_published_of_early (hdebt ▸ trivial))
      set := nofun
      taken := nofun
      returned := fun results hlast => by
        cases hready : s.ready with
        | nil =>
          obtain rfl : s.results = results := by simpa [hready] using hlast
          exact (hs.set hpublished hready).1
        | cons first rest =>
          rw [hready, List.getLast?_cons_cons] at hlast
          exact hs.returned results (hready ▸ hlast) }
  | pending result waker hpromise hcontent =>
    refine hs.of_not_exchanged _ rfl rfl rfl rfl rfl ?_ nofun
    rintro ⟨flags, waker', h, hhas⟩
    rw [hpromise] at h
    cases h
    simp [currentFlags, hhas] at hcontent
  | abort hpromise =>
    exact hs.of_not_exchanged _ rfl rfl rfl rfl rfl (by simp [Taken, hpromise]) nofun
  | releasePromise pc hpromise hpc =>
    refine hs.of_not_exchanged _ rfl rfl rfl rfl (by simp) (by simp [Taken, hpromise]) ?_
    rcases hpc with ⟨-, rfl⟩ | ⟨-, rfl⟩ <;> nofun
  | reclaimPromise hpromise =>
    exact hs.of_not_exchanged _ rfl rfl rfl rfl rfl (by simp [Taken, hpromise]) nofun
  | install hdebt => exact { hs with }
  | fulfill results hdebt =>
    have hnot : ¬ Published s := not_published_of_early (hdebt ▸ trivial)
    exact { hs with
      unset := fun _ => hs.unset hnot
      unseen := fun _ => hs.unseen hnot
      stored := nofun
      set := fun hp => absurd trivial hp.1
      returned := fun results hlast => by simp [(hs.unset hnot).2] at hlast }
  | setResults results hdebt =>
    have hnot : ¬ Published s := not_published_of_early (hdebt ▸ trivial)
    exact { hs with
      unset := fun _ => hs.unset hnot
      unseen := fun _ => hs.unseen hnot
      stored := fun _ => by simpa [hdebt, DebtPc.Expects] using hsides.expected
      set := fun hp => absurd trivial hp.1 }
  | setContent hdebt =>
    have hnot : ¬ Published s := not_published_of_early (hdebt ▸ trivial)
    have hsome : s.fulfilled.isSome = true := by
      simpa [hdebt, DebtPc.Expects] using hsides.expected
    exact { hs with
      unset := fun hn => absurd ⟨id, hsome⟩ hn
      unseen := fun hn => absurd ⟨id, hsome⟩ hn
      stored := nofun
      set := fun _ _ => ⟨hs.stored hdebt, .inl (has_or_contentSet _)⟩
      taken := fun ⟨flags, waker, hpromise, hhas⟩ => by
        have hunseen : flags.has contentSet = false := hs.unseen hnot _ waker hpromise
        simp [hunseen] at hhas }
  | wake index hdebt =>
    exact hs.of_late _ (by simp [Published, hdebt, DebtPc.early]) nofun rfl rfl rfl rfl rfl
  | dropDebt hdebt =>
    have hnone : s.fulfilled = none := by simpa [hdebt, DebtPc.Expects] using hsides.expected
    exact hs.of_late _ (by simp [Published, hnone]) nofun rfl rfl rfl rfl rfl
  | clearHandle hdebt =>
    exact hs.of_late _ (by simp [Published, hdebt, DebtPc.early]) nofun rfl rfl rfl rfl rfl
  | skipPayment hdebt =>
    exact hs.of_late _ (by simp [Published, hdebt, DebtPc.early]) nofun rfl rfl rfl rfl rfl
  | releaseDebt pc hdebt hpc =>
    rcases hpc with ⟨-, rfl⟩ | ⟨-, rfl⟩ <;>
      exact hs.of_late _ (by simp [Published, hdebt, DebtPc.early]) nofun rfl rfl rfl rfl (by simp)
  | reclaimDebt hdebt =>
    exact hs.of_late _ (by simp [Published, hdebt, DebtPc.early]) nofun rfl rfl rfl rfl rfl
  | pay t hdebt => exact (hsides.not_pay hdebt).elim

/-- The waker of a poll that goes pending lies where `fulfill` looks for it. -/
structure Wakers (s : Slot ω W) : Prop where
  loaded : s.debt.early → ∀ flags waker, s.promise = .loaded flags waker → flags = s.flags
  stored : s.debt.early → ∀ flags waker, s.promise = .wakerStored flags waker →
    flags = s.flags ∧ s.wakers (cell ((flags &&& wakerIndex) ^^^ wakerIndex)) = some waker
  waits : s.debt.early → ∀ waker, Waits s waker →
    s.wakers (cell (s.flags &&& wakerIndex)) = some waker
  flagged : ∀ index, s.debt = .contentFlagged index → s.ready = [] → ∀ waker, Waits s waker →
    s.wakers index = some waker
  woken : s.fulfillDone = true → s.ready = [] → ∀ waker, Waits s waker → waker ∈ s.woken

/-- While no poll waits, only the flags and the waker of a running poll matter. -/
theorem Wakers.of_not_waits {t : Slot ω W} (hwaits : ∀ waker, ¬ Waits t waker)
    (hloaded : t.debt.early → ∀ flags waker, t.promise = .loaded flags waker → flags = t.flags)
    (hstored : t.debt.early → ∀ flags waker, t.promise = .wakerStored flags waker →
      flags = t.flags ∧ t.wakers (cell ((flags &&& wakerIndex) ^^^ wakerIndex)) = some waker) :
    Wakers t where
  loaded := hloaded
  stored := hstored
  waits := fun _ waker h => absurd h (hwaits waker)
  flagged := fun _ _ _ waker h => absurd h (hwaits waker)
  woken := fun _ _ waker h => absurd h (hwaits waker)

/-- After an exchange the poll waits only while nothing is published. -/
theorem Wakers.of_exchanged {s t : Slot ω W} (hsides : Sides s) (hcontents : Contents s)
    (result : Except FlagByte FlagByte) (waker : TaskWaker W)
    (hbefore : ∀ result waker, s.promise ≠ .exchanged result waker)
    (hcurrent : currentFlags result = s.flags) (hpromise : t.promise = .exchanged result waker)
    (hrunning : t.lastPoll = .running) (hdebt : t.debt = s.debt) (hready : t.ready = s.ready)
    (hdone : t.fulfillDone = s.fulfillDone)
    (hwaker : s.debt.early → t.wakers (cell (t.flags &&& wakerIndex)) = some waker) : Wakers t := by
  have hwaits : ∀ waker', Waits t waker' → waker' = waker ∧ s.flags.has contentSet = false := by
    rintro waker' (h | ⟨result', h, hhas⟩)
    · rw [hrunning] at h
      cases h
    · rw [hpromise] at h
      cases h
      exact ⟨rfl, hcurrent ▸ hhas⟩
  have hnot : Published s → t.ready = [] → ∀ waker', ¬ Waits t waker' := by
    intro hpublished hn waker' hw
    have hset := hcontents.set_of_not_exchanged hpublished (hready ▸ hn) hbefore
    simp [(hwaits waker' hw).2] at hset
  exact {
    loaded := fun _ flags waker' h => by simp [hpromise] at h
    stored := fun _ flags waker' h => by simp [hpromise] at h
    waits := fun he waker' hw => by
      obtain ⟨rfl, -⟩ := hwaits waker' hw
      exact hwaker (hdebt ▸ he)
    flagged := fun index h hn waker' hw => by
      have hexpected := hsides.expected
      rw [← hdebt, h] at hexpected
      have hpublished : Published s := ⟨by rw [← hdebt, h]; exact id, hexpected⟩
      exact absurd hw (hnot hpublished hn waker')
    woken := fun hd hn waker' hw => absurd hw (hnot (hsides.done (hdone ▸ hd)) hn waker') }

/-- A step of the debt after `fulfill`, or without one. -/
theorem Wakers.of_late {s : Slot ω W} (hs : Wakers s) (t : Slot ω W) (hearly : ¬ t.debt.early)
    (hflagged : ∀ index, t.debt ≠ .contentFlagged index) (hpromise : t.promise = s.promise)
    (hlast : t.lastPoll = s.lastPoll) (hready : t.ready = s.ready)
    (hdone : t.fulfillDone = s.fulfillDone) (hwoken : t.woken = s.woken) : Wakers t where
  loaded := fun he => absurd he hearly
  stored := fun he => absurd he hearly
  waits := fun he => absurd he hearly
  flagged := fun index h => absurd h (hflagged index)
  woken := fun hd hn waker hw => by
    rw [hwoken]
    rw [Waits, hpromise, hlast] at hw
    exact hs.woken (hdone ▸ hd) (hready ▸ hn) waker hw

theorem Wakers.of_dropping {s : Slot ω W} (hs : Wakers s) (t : Slot ω W)
    (hloaded : ∀ flags waker, t.promise ≠ .loaded flags waker)
    (hstored : ∀ flags waker, t.promise ≠ .wakerStored flags waker)
    (hexchanged : ∀ result waker, t.promise ≠ .exchanged result waker)
    (hlast : t.lastPoll = s.lastPoll) (hdebt : t.debt = s.debt) (hready : t.ready = s.ready)
    (hdone : t.fulfillDone = s.fulfillDone) (hwoken : t.woken = s.woken)
    (hwakers : t.wakers = s.wakers)
    (hcell : cell (t.flags &&& wakerIndex) = cell (s.flags &&& wakerIndex)) : Wakers t := by
  have hwaits : ∀ waker, Waits t waker → Waits s waker := by
    rintro waker (h | ⟨result, h, -⟩)
    · exact .inl (hlast ▸ h)
    · exact absurd h (hexchanged result waker)
  exact {
    loaded := fun _ flags waker h => absurd h (hloaded flags waker)
    stored := fun _ flags waker h => absurd h (hstored flags waker)
    waits := fun he waker hw => by
      rw [hwakers, hcell]
      exact hs.waits (hdebt ▸ he) waker (hwaits waker hw)
    flagged := fun index hd hn waker hw => by
      rw [hwakers]
      exact hs.flagged index (hdebt ▸ hd) (hready ▸ hn) waker (hwaits waker hw)
    woken := fun hd hn waker hw => by
      rw [hwoken]
      exact hs.woken (hdone ▸ hd) (hready ▸ hn) waker (hwaits waker hw) }

theorem wakers_step (s t : Slot ω W) (hsides : Sides s) (hcontents : Contents s) (hs : Wakers s)
    (h : Step s t) : Wakers t := by
  cases h.move with
  | load waker hpromise =>
    refine .of_not_waits (by simp [Waits]) ?_ nofun
    intro _ flags waker' hloaded
    cases hloaded
    rfl
  | setWaker flags waker hpromise =>
    have hrunning : s.lastPoll = .running := hsides.running (hpromise ▸ trivial)
    refine .of_not_waits (by simp [Waits, hrunning]) nofun ?_
    intro he flags' waker' hstored
    cases hstored
    exact ⟨hs.loaded he flags waker hpromise, Function.update_self ..⟩
  | exchange waker hpromise =>
    refine .of_exchanged hsides hcontents (.ok s.flags) waker (by simp [hpromise]) rfl rfl
      (hsides.running (hpromise ▸ trivial)) rfl rfl rfl fun he => ?_
    rw [cell_taken]
    exact (hs.stored he _ waker hpromise).2
  | exchangeFails flags waker hpromise hflags =>
    refine .of_exchanged hsides hcontents (.error s.flags) waker (by simp [hpromise]) rfl rfl
      (hsides.running (hpromise ▸ trivial)) rfl rfl rfl fun he => ?_
    exact absurd (hs.stored he flags waker hpromise).1.symm hflags
  | ready result waker hpromise hcontent => exact .of_not_waits (by simp [Waits]) nofun nofun
  | pending result waker hpromise hcontent =>
    have hwaits : ∀ waker', Waits { s with promise := .idle, lastPoll := .pending waker } waker' →
        Waits s waker' := by
      rintro waker' (h | ⟨result', h, -⟩)
      · cases h
        exact .inr ⟨result, hpromise, hcontent⟩
      · cases h
    exact {
      loaded := nofun
      stored := nofun
      waits := fun he waker' hw => hs.waits he waker' (hwaits waker' hw)
      flagged := fun index hd hn waker' hw => hs.flagged index hd hn waker' (hwaits waker' hw)
      woken := fun hd hn waker' hw => hs.woken hd hn waker' (hwaits waker' hw) }
  | abort hpromise =>
    exact hs.of_dropping _ nofun nofun nofun rfl rfl rfl rfl rfl rfl rfl
  | releasePromise pc hpromise hpc =>
    rcases hpc with ⟨-, rfl⟩ | ⟨-, rfl⟩ <;>
      exact hs.of_dropping _ nofun nofun nofun rfl rfl rfl rfl rfl rfl (cell_and_promiseAlive _)
  | reclaimPromise hpromise =>
    exact hs.of_dropping _ nofun nofun nofun rfl rfl rfl rfl rfl rfl rfl
  | install hdebt => exact { hs with }
  | fulfill results hdebt =>
    have he : s.debt.early := hdebt ▸ trivial
    exact { hs with
      loaded := fun _ => hs.loaded he
      stored := fun _ => hs.stored he
      waits := fun _ => hs.waits he
      flagged := nofun }
  | setResults results hdebt =>
    have he : s.debt.early := hdebt ▸ trivial
    exact { hs with
      loaded := fun _ => hs.loaded he
      stored := fun _ => hs.stored he
      waits := fun _ => hs.waits he
      flagged := nofun }
  | setContent hdebt =>
    exact { hs with
      loaded := fun he => he.elim
      stored := fun he => he.elim
      waits := fun he => he.elim
      flagged := fun index h _ waker hw => by
        cases h
        exact hs.waits (hdebt ▸ trivial) waker hw }
  | wake index hdebt =>
    exact {
      loaded := fun he => he.elim
      stored := fun he => he.elim
      waits := fun he => he.elim
      flagged := nofun
      woken := fun _ hn waker hw => by
        simp [hs.flagged index hdebt hn waker hw] }
  | dropDebt hdebt => exact hs.of_late _ id nofun rfl rfl rfl rfl rfl
  | clearHandle hdebt => exact hs.of_late _ id nofun rfl rfl rfl rfl rfl
  | skipPayment hdebt => exact hs.of_late _ id nofun rfl rfl rfl rfl rfl
  | releaseDebt pc hdebt hpc =>
    rcases hpc with ⟨-, rfl⟩ | ⟨-, rfl⟩ <;> exact hs.of_late _ id nofun rfl rfl rfl rfl rfl
  | reclaimDebt hdebt => exact hs.of_late _ id nofun rfl rfl rfl rfl rfl
  | pay t hdebt => exact (hsides.not_pay hdebt).elim

/-- The slot and its two owners agree. -/
structure Agree (s : Slot ω W) : Prop where
  sides : Sides s
  contents : Contents s
  wakers : Wakers s

theorem agree_step (s t : Slot ω W) (hs : Agree s) (h : Step s t) : Agree t where
  sides := sides_step s t hs.sides h
  contents := contents_step s t hs.sides hs.contents h
  wakers := wakers_step s t hs.sides hs.contents hs.wakers h

theorem agree_initial : Agree (initial : Slot ω W) where
  sides := { expected := rfl, done := nofun, running := False.elim }
  contents := {
    unset := fun _ => ⟨by simp [initial, FlagByte.has, debtAlive, promiseAlive, contentSet], rfl⟩
    unseen := nofun
    stored := nofun
    set := fun hpublished => absurd trivial hpublished.1
    taken := nofun
    returned := nofun }
  wakers := .of_not_waits (by simp [Waits, initial]) nofun nofun

theorem Reachable.agree {s : Slot ω W} (h : Reachable s) : Agree s :=
  Reaches.invariant agree_step h agree_initial

/-- The promise learns of a dropped debt just if the debt was fulfilled before: the branch
of `Debt::drop` that would pay it is never taken. A poll between its exchange and its return
holds the content instead of the slot. -/
theorem debt_paid_iff_fulfilled {s : Slot ω W} (hreachable : Reachable s)
    (hdebt : s.debt = .dropped) (hready : s.ready = []) :
    (s.flags.has contentSet = true ∧
      (s.fulfilled = some s.results ∨ s.results = .error (.promiseError .droppedDebt))) ↔
      s.fulfilled.isSome = true ∧ ¬ Taken s := by
  have hcontents := hreachable.agree.contents
  have hlate : ¬ s.debt.early := by
    rw [hdebt]
    exact id
  constructor
  · rintro ⟨hcontent, -⟩
    have hpublished : Published s := by
      by_contra hnot
      simp [(hcontents.unset hnot).1] at hcontent
    refine ⟨hpublished.2, fun htaken => ?_⟩
    simp [hcontents.taken htaken] at hcontent
  · rintro ⟨hfulfilled, htaken⟩
    obtain ⟨hresults, hset⟩ := hcontents.set ⟨hlate, hfulfilled⟩ hready
    exact ⟨hset.resolve_right htaken, .inl hresults⟩

/-- A debt that is fulfilled and dropped, before its promise is polled. -/
theorem debt_paid_before_poll :
    ∃ s : Slot Nat Unit, run step initial
        [.fulfill (.ok 7), .debt, .debt, .debt, .debt, .debt, .debt] = some s ∧
      s.debt = .dropped ∧ s.flags.has contentSet = true ∧
        (s.fulfilled = some s.results ∨ s.results = .error (.promiseError .droppedDebt)) := by
  have hreachable := reaches_of_run step (s := (initial : Slot Nat Unit))
    [.fulfill (.ok 7), .debt, .debt, .debt, .debt, .debt, .debt] rfl
  exact ⟨_, rfl, rfl, (debt_paid_iff_fulfilled hreachable rfl rfl).mpr ⟨rfl, nofun⟩⟩

/-- A debt that is dropped without a result leaves its promise waiting. -/
theorem dropped_debt_unpaid :
    ∃ s : Slot Nat Unit, run step initial [.dropDebt, .debt, .debt, .debt] = some s ∧
      s.debt = .dropped ∧ s.flags.has promiseAlive = true ∧ s.ready = [] ∧
      ¬ (s.flags.has contentSet = true ∧
        (s.fulfilled = some s.results ∨ s.results = .error (.promiseError .droppedDebt))) := by
  refine ⟨_, rfl, rfl, rfl, rfl, ?_⟩
  rintro ⟨hcontent, -⟩
  cases hcontent

/-- A poll that went pending before `fulfill` was done is woken by it, and the first result
that a poll returns is the one of `fulfill`. -/
theorem fulfill_wakes_pending {s : Slot ω W} (hreachable : Reachable s) :
    (s.fulfillDone = true → s.ready = [] → ∀ waker, s.lastPoll = .pending waker →
      waker ∈ s.woken) ∧
    ∀ results, s.ready.getLast? = some results → s.fulfilled = some results := by
  have hagree := hreachable.agree
  exact ⟨fun hdone hready waker hlast => hagree.wakers.woken hdone hready waker (.inl hlast),
    hagree.contents.returned⟩

/-- A poll whose exchange happens just before the content flag is set. -/
theorem fulfill_wakes_second_poll :
    ∃ s : Slot Nat Unit, run step initial
        [.poll (), .promise, .promise, .promise, .poll (), .promise, .fulfill (.ok 7), .debt,
          .promise, .debt, .promise, .debt] = some s ∧
      s.lastPoll = .pending ⟨1, ()⟩ ∧ ⟨1, ()⟩ ∈ s.woken := by
  have hreachable := reaches_of_run step (s := (initial : Slot Nat Unit))
    [.poll (), .promise, .promise, .promise, .poll (), .promise, .fulfill (.ok 7), .debt,
      .promise, .debt, .promise, .debt] rfl
  exact ⟨_, rfl, rfl, (fulfill_wakes_pending hreachable).1 rfl rfl _ rfl⟩

/-- A poll after the one that returned the results goes pending and is not woken. -/
theorem poll_after_ready_not_woken :
    ∃ s : Slot Nat Unit, run step initial
        [.fulfill (.ok 7), .debt, .debt, .debt, .poll (), .promise, .promise, .promise,
          .poll (), .promise, .promise, .promise] = some s ∧
      s.fulfillDone = true ∧ s.lastPoll = .pending ⟨1, ()⟩ ∧ s.woken = [] :=
  ⟨_, rfl, rfl, rfl, rfl⟩

end Dandelion.PromiseSlot
