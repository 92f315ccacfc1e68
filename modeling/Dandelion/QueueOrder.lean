import Dandelion.WorkQueue

/-!
# The order of the work

What the queue is for: every element that is pushed is handed to one engine whose flags it has, the
elements with equal flags in the order in which they were pushed; and what an engine has taken its
call returns. A consumer that waits for its turn gets it after the consumers with earlier tickets,
none of which can hold it up for more than three steps of its own.
-/

namespace Transitions

variable {σ α β : Type*} {act : σ → α → Option σ} (emit : σ → α → List β)

/-- What the steps of a run emit, in their order. -/
def emitted (act : σ → α → Option σ) : σ → List α → List β
  | _, [] => []
  | s, action :: actions =>
    match act s action with
    | none => []
    | some t => emit s action ++ emitted act t actions

/-- What one step keeps of a state and of what has been emitted before it, a run keeps. -/
theorem emitted_invariant {I : List β → σ → Prop}
    (hstep : ∀ before s action t, I before s → act s action = some t → I (before ++ emit s action) t)
    {before : List β} {s t : σ} {actions : List α} (hs : I before s)
    (hrun : run act s actions = some t) : I (before ++ emitted emit act s actions) t := by
  induction actions generalizing s before with
  | nil =>
    cases hrun
    rw [emitted, List.append_nil]
    exact hs
  | cons action actions ih =>
    obtain ⟨u, hact, hrest⟩ := Option.bind_eq_some_iff.mp hrun
    rw [emitted, hact]
    dsimp only
    rw [← List.append_assoc]
    exact ih (hstep before s action u hs hact) hrest

end Transitions

namespace Dandelion.WorkQueue

open TicketLock Transitions

variable {Consumer Work : Type}

/-! ## Elements with equal flags -/

/-- What is found first among the elements that `p` accepts is the first of all that `q` accepts, if
it is one of these and `p` accepts them. -/
theorem filter_find?_eraseP {α : Type} {p q : α → Bool} {x : α} {xs : List α}
    (hfind : xs.find? p = some x) (hq : q x = true → ∀ y, q y = true → p y = true) :
    (x :: xs.eraseP p).filter q = xs.filter q := by
  induction xs with
  | nil => cases hfind
  | cons y xs ih =>
    rw [List.find?_cons] at hfind
    cases hy : p y with
    | true =>
      rw [hy] at hfind
      cases hfind
      rw [List.eraseP_cons_of_pos hy]
    | false =>
      rw [hy] at hfind
      have hrest := ih hfind
      rw [List.eraseP_cons_of_neg (by rw [hy]; exact Bool.false_ne_true)]
      cases hx : q x with
      | false =>
        rw [List.filter_cons_of_neg (by rw [hx]; exact Bool.false_ne_true)] at hrest ⊢
        rw [List.filter_cons, List.filter_cons, hrest]
      | true =>
        have hqy : ¬ q y = true := by
          intro hqy
          rw [hq hx y hqy] at hy
          cases hy
        rw [List.filter_cons_of_pos hx] at hrest ⊢
        rw [List.filter_cons_of_neg hqy, List.filter_cons_of_neg hqy, hrest]

theorem filterMap_concat {α β : Type} (f : α → Option β) (xs : List α) (x : α) :
    (xs ++ [x]).filterMap f = xs.filterMap f ++ (f x).toList := by
  rw [List.filterMap_append, List.filterMap_cons]
  cases f x with
  | none => rfl
  | some y => rfl

/-- What happens to the work. -/
inductive Event (Consumer Work : Type) where
  | pushed (element : QueueElement Work)
  | taken (consumer : Consumer) (engineFlags : BitVec 32) (element : QueueElement Work)
  | returned (consumer : Consumer) (work : Work)

namespace Event

def pushed? : Event Consumer Work → Option (QueueElement Work)
  | .pushed element => some element
  | _ => none

def taken? : Event Consumer Work → Option (QueueElement Work)
  | .taken _ _ element => some element
  | _ => none

variable [DecidableEq Consumer]

def takenBy? (consumer : Consumer) : Event Consumer Work → Option Work
  | .taken other _ element => if other = consumer then some element.work else none
  | _ => none

/-- What a call of the consumer has returned. -/
def returnedTo? (consumer : Consumer) : Event Consumer Work → Option Work
  | .returned other work => if other = consumer then some work else none
  | _ => none

end Event

def found (s : WorkQueue Consumer Work) (engineFlags : BitVec 32) : Option (QueueElement Work) :=
  s.inner.find? (matchesFlags engineFlags)

/-- The events of a step of a consumer. -/
def Pc.events (s : WorkQueue Consumer Work) (consumer : Consumer) : Pc Work → List (Event Consumer Work)
  | .turn _ engineFlags _ => ((s.found engineFlags).map (Event.taken consumer engineFlags)).toList
  | .searched _ _ _ (some work) => [.returned consumer work]
  | _ => []

def events (s : WorkQueue Consumer Work) : Action Consumer Work → List (Event Consumer Work)
  | .push element => [.pushed element]
  | .advance consumer => (s.consumers consumer).events s consumer
  | _ => []

/-- Work on the way from the search to the end of the call. -/
def Pc.carried : Pc Work → List Work
  | .searched _ _ _ (some work) => [work]
  | _ => []

/-- Everything that was pushed has been taken or is still in the queue, in its order among the
elements with equal flags; who takes an element has the flags for it; and everything that a consumer
has taken was returned to it, but for what it carries. -/
structure InOrder [DecidableEq Consumer] (history : List (Event Consumer Work))
    (s : WorkQueue Consumer Work) : Prop where
  order : ∀ flags, (history.filterMap Event.taken? ++ s.inner).filter (·.flags == flags)
    = (history.filterMap Event.pushed?).filter (·.flags == flags)
  allowed : ∀ consumer engineFlags element, .taken consumer engineFlags element ∈ history →
    matchesFlags engineFlags element = true
  delivered : ∀ consumer, history.filterMap (Event.takenBy? consumer)
    = history.filterMap (Event.returnedTo? consumer) ++ (s.consumers consumer).carried

section Steps

variable [DecidableEq Consumer] {s t : WorkQueue Consumer Work} {history : List (Event Consumer Work)}
  {consumer : Consumer}

theorem InOrder.of_quiet (h : InOrder history s) {pc : Pc Work}
    (hinner : t.inner = s.inner) (hconsumers : t.consumers = Function.update s.consumers consumer pc)
    (hold : (s.consumers consumer).carried = []) (hnew : pc.carried = []) : InOrder (history ++ []) t := by
  rw [List.append_nil]
  refine ⟨fun flags => by rw [hinner]; exact h.order flags, h.allowed, fun other => ?_⟩
  rw [h.delivered other, hconsumers, Function.update_apply]
  by_cases heq : other = consumer
  · rw [if_pos heq, heq, hold, hnew]
  · rw [if_neg heq]

theorem InOrder.push (h : InOrder history s) (element : QueueElement Work) :
    InOrder (history ++ [.pushed element]) { s with inner := s.inner ++ [element] } where
  order flags := by
    rw [filterMap_concat, filterMap_concat]
    change ((history.filterMap Event.taken? ++ []) ++ (s.inner ++ [element])).filter _
      = (history.filterMap Event.pushed? ++ [element]).filter _
    rw [List.append_nil, ← List.append_assoc, List.filter_append, h.order flags, ← List.filter_append]
  allowed other engineFlags e he := by
    rcases List.mem_append.mp he with hold | hnew
    · exact h.allowed other engineFlags e hold
    · cases List.mem_singleton.mp hnew
  delivered other := by
    rw [filterMap_concat, filterMap_concat]
    change history.filterMap (Event.takenBy? other) ++ []
      = (history.filterMap (Event.returnedTo? other) ++ []) ++ (s.consumers other).carried
    rw [List.append_nil, List.append_nil]
    exact h.delivered other

theorem InOrder.take (h : InOrder history s) {call : Call} {engineFlags : BitVec 32} {ticket : Nat}
    {element : QueueElement Work} (hpc : s.consumers consumer = .turn call engineFlags ticket)
    (hfound : s.found engineFlags = some element) :
    InOrder (history ++ [.taken consumer engineFlags element])
      { s.setConsumer consumer (.searched call engineFlags ticket (some element.work)) with
        inner := s.inner.eraseP (matchesFlags engineFlags) } where
  order flags := by
    have hmatches : matchesFlags engineFlags element = true := List.find?_some hfound
    have hequal : (element.flags == flags) = true → ∀ y : QueueElement Work, (y.flags == flags) = true →
        matchesFlags engineFlags y = true := by
      intro helement y hy
      rw [matchesFlags] at hmatches ⊢
      rw [eq_of_beq hy, ← eq_of_beq helement]
      exact hmatches
    rw [filterMap_concat, filterMap_concat]
    change ((history.filterMap Event.taken? ++ [element]) ++ s.inner.eraseP _).filter _
      = (history.filterMap Event.pushed? ++ []).filter _
    rw [List.append_nil, List.append_assoc, List.singleton_append, List.filter_append,
      filter_find?_eraseP hfound hequal, ← List.filter_append]
    exact h.order flags
  allowed other flags e he := by
    rcases List.mem_append.mp he with hold | hnew
    · exact h.allowed other flags e hold
    · cases List.mem_singleton.mp hnew
      exact List.find?_some hfound
  delivered other := by
    have hdelivered := h.delivered other
    change _ = _ ++ (Function.update s.consumers consumer _ other).carried
    rw [Function.update_apply, filterMap_concat, filterMap_concat, hdelivered]
    by_cases heq : other = consumer
    · subst heq
      simp [Event.takenBy?, Event.returnedTo?, Pc.carried, hpc]
    · simp [Event.takenBy?, Event.returnedTo?, heq, Ne.symm heq]

theorem InOrder.leave (h : InOrder history s) {call : Call} {engineFlags : BitVec 32} {ticket : Nat}
    {work : Work} (hpc : s.consumers consumer = .searched call engineFlags ticket (some work)) :
    InOrder (history ++ [.returned consumer work])
      { s.setConsumer consumer (call.leave engineFlags (some work)) with start := s.start + 1 } where
  order flags := by
    rw [filterMap_concat, filterMap_concat]
    change ((history.filterMap Event.taken? ++ []) ++ s.inner).filter _
      = (history.filterMap Event.pushed? ++ []).filter _
    rw [List.append_nil, List.append_nil]
    exact h.order flags
  allowed other flags e he := by
    rcases List.mem_append.mp he with hold | hnew
    · exact h.allowed other flags e hold
    · cases List.mem_singleton.mp hnew
  delivered other := by
    have hdelivered := h.delivered other
    have hleft : (call.leave engineFlags (some work)).carried = [] := by
      cases call with
      | tryGetWork => rfl
      | getWork => rfl
    change _ = _ ++ (Function.update s.consumers consumer _ other).carried
    rw [Function.update_apply, filterMap_concat, filterMap_concat, hdelivered]
    by_cases heq : other = consumer
    · subst heq
      rw [if_pos rfl, hleft, hpc]
      simp [Event.takenBy?, Event.returnedTo?, Pc.carried]
    · simp [Event.takenBy?, Event.returnedTo?, heq, Ne.symm heq]

theorem carried_takeTicket (hconsumer : (s.consumers consumer).carried = []) (h : InOrder history s)
    (engineFlags : BitVec 32) : InOrder (history ++ []) (s.takeTicket consumer engineFlags) :=
  h.of_quiet rfl rfl hconsumer rfl

theorem InOrder.advance (h : InOrder history s) (hstep : WorkQueue.advance s consumer = some t) :
    InOrder (history ++ (s.consumers consumer).events s consumer) t := by
  rw [WorkQueue.advance] at hstep
  cases hpc : s.consumers consumer with
  | outside result =>
    rw [hpc] at hstep
    cases hstep
  | loaded engineFlags queueHead =>
    simp only [hpc] at hstep
    have hnone : (s.consumers consumer).carried = [] := by rw [hpc]; rfl
    split at hstep
    · cases hstep
      exact h.of_quiet rfl rfl hnone rfl
    · cases hstep
      exact h.of_quiet rfl rfl hnone rfl
  | looping engineFlags =>
    simp only [hpc] at hstep
    cases hstep
    exact carried_takeTicket (by rw [hpc]; rfl) h engineFlags
  | spinning engineFlags localTicket =>
    simp only [hpc] at hstep
    have hnone : (s.consumers consumer).carried = [] := by rw [hpc]; rfl
    split at hstep
    · cases hstep
      change InOrder (history ++ []) s
      rw [List.append_nil]
      exact h
    · cases hstep
      exact h.of_quiet rfl rfl hnone rfl
  | turn call engineFlags ticket =>
    simp only [hpc] at hstep
    cases hstep
    rw [Pc.events]
    cases hfound : s.found engineFlags with
    | none =>
      have herase : s.inner.eraseP (matchesFlags engineFlags) = s.inner :=
        List.eraseP_of_forall_not (List.find?_eq_none.mp hfound)
      rw [found] at hfound
      rw [hfound, herase]
      exact h.of_quiet rfl rfl (by rw [hpc]; rfl) rfl
    | some element =>
      have htake := h.take hpc hfound
      rw [found] at hfound
      rw [hfound]
      exact htake
  | searched call engineFlags ticket result =>
    simp only [hpc] at hstep
    cases hstep
    cases result with
    | some work => exact h.leave hpc
    | none =>
      have hleft : (call.leave engineFlags (none : Option Work)).carried = [] := by
        cases call with
        | tryGetWork => rfl
        | getWork => rfl
      exact h.of_quiet rfl rfl (by rw [hpc]; rfl) hleft

theorem InOrder.step {action : Action Consumer Work} (h : InOrder history s)
    (hstep : WorkQueue.step s action = some t) : InOrder (history ++ events s action) t := by
  cases action with
  | push element =>
    cases hstep
    exact h.push element
  | tryGetWork consumer engineFlags =>
    rw [WorkQueue.step] at hstep
    split at hstep
    · next result hpc =>
      cases hstep
      exact h.of_quiet rfl rfl (by rw [hpc]; rfl) rfl
    · cases hstep
  | getWork consumer engineFlags =>
    rw [WorkQueue.step] at hstep
    split at hstep
    · next result hpc =>
      cases hstep
      exact carried_takeTicket (by rw [hpc]; rfl) h engineFlags
    · cases hstep
  | advance consumer => exact h.advance hstep

/-- In every interleaving of producers and consumers, the work is handed out once and in order. -/
theorem work_in_order {actions : List (Action Consumer Work)}
    (hrun : run WorkQueue.step init actions = some s) :
    InOrder (emitted events WorkQueue.step init actions) s := by
  have hinit : InOrder [] (init : WorkQueue Consumer Work) :=
    ⟨fun _ => rfl, fun _ _ _ hmem => absurd hmem List.not_mem_nil, fun _ => rfl⟩
  have h := emitted_invariant events (fun before u action v hI hact => hI.step hact) hinit hrun
  rwa [List.nil_append] at h

end Steps

/-- Two elements for different engines; the engine of the second one takes it. -/
def secondTaken : List (Action Bool Nat) :=
  [.push ⟨1, 10⟩, .push ⟨2, 20⟩, .getWork true 2, .advance true, .advance true, .advance true]

theorem secondTaken_in_order : ∃ s : WorkQueue Bool Nat, run step init secondTaken = some s ∧
    InOrder (emitted events step init secondTaken) s ∧ s.inner = [⟨1, 10⟩] :=
  ⟨_, rfl, work_in_order rfl, rfl⟩

/-! ## Waiting for a turn -/

section Waiting

variable [DecidableEq Consumer] {s t : WorkQueue Consumer Work} {consumer holder : Consumer}

theorem start_le_of_step {action : Action Consumer Work} (hstep : step s action = some t) :
    s.start ≤ t.start := by
  cases action with
  | push element =>
    cases hstep
    exact Nat.le_refl _
  | tryGetWork consumer engineFlags =>
    rw [step] at hstep
    split at hstep
    · cases hstep
      exact Nat.le_refl _
    · cases hstep
  | getWork consumer engineFlags =>
    rw [step] at hstep
    split at hstep
    · cases hstep
      exact Nat.le_refl _
    · cases hstep
  | advance consumer =>
    rw [step, WorkQueue.advance] at hstep
    cases hpc : s.consumers consumer with
    | outside result =>
      rw [hpc] at hstep
      cases hstep
    | loaded engineFlags queueHead =>
      simp only [hpc] at hstep
      split at hstep
      · cases hstep
        exact Nat.le_refl _
      · cases hstep
        exact Nat.le_refl _
    | looping engineFlags =>
      simp only [hpc] at hstep
      cases hstep
      exact Nat.le_refl _
    | spinning engineFlags localTicket =>
      simp only [hpc] at hstep
      split at hstep
      · cases hstep
        exact Nat.le_refl _
      · cases hstep
        exact Nat.le_refl _
    | turn call engineFlags ticket =>
      simp only [hpc] at hstep
      cases hstep
      exact Nat.le_refl _
    | searched call engineFlags ticket result =>
      simp only [hpc] at hstep
      cases hstep
      exact Nat.le_succ _

/-- With `n` steps of its own the consumer ends its turn, and moves no other consumer. -/
def Passes (s : WorkQueue Consumer Work) (holder : Consumer) (n : Nat) : Prop :=
  ∃ t, run step s (List.replicate n (.advance holder)) = some t ∧ t.start = s.start + 1 ∧
    (t.consumers holder).ticket = none ∧
    ∀ other, other ≠ holder → t.consumers other = s.consumers other

theorem Passes.of_step {u : WorkQueue Consumer Work} {n : Nat} {pc : Pc Work}
    (hstep : step s (.advance holder) = some u) (hstart : u.start = s.start)
    (hconsumers : u.consumers = Function.update s.consumers holder pc) (h : Passes u holder n) :
    Passes s holder (n + 1) := by
  obtain ⟨t, hrun, hpassed, hdone, hothers⟩ := h
  refine ⟨t, ?_, by rw [hpassed, hstart], hdone, fun other hne => ?_⟩
  · rw [List.replicate_succ, run, hstep]
    exact hrun
  · rw [hothers other hne, hconsumers, Function.update_of_ne hne]

theorem passes_searched {call : Call} {engineFlags : BitVec 32} {ticket : Nat} {result : Option Work}
    (hpc : s.consumers holder = .searched call engineFlags ticket result) : Passes s holder 1 := by
  refine ⟨{ s.setConsumer holder (call.leave engineFlags result) with start := s.start + 1 }, ?_, rfl, ?_,
    fun other hne => Function.update_of_ne hne _ _⟩
  · rw [List.replicate_one, run, step, WorkQueue.advance, hpc]
    rfl
  · change (Function.update s.consumers holder _ holder).ticket = none
    rw [Function.update_self]
    cases call with
    | tryGetWork => rfl
    | getWork => cases result <;> rfl

theorem step_turn {call : Call} {engineFlags : BitVec 32} {ticket : Nat}
    (hpc : s.consumers holder = .turn call engineFlags ticket) :
    step s (.advance holder) = some { s.setConsumer holder
        (.searched call engineFlags ticket ((s.found engineFlags).map QueueElement.work)) with
      inner := s.inner.eraseP (matchesFlags engineFlags) } := by
  rw [step, WorkQueue.advance, hpc]
  rfl

theorem step_spinning {engineFlags : BitVec 32}
    (hpc : s.consumers holder = .spinning engineFlags s.start) :
    step s (.advance holder) = some (s.setConsumer holder (.turn .getWork engineFlags s.start)) := by
  rw [step, WorkQueue.advance, hpc]
  exact if_neg fun hne => hne rfl

theorem passes_turn {call : Call} {engineFlags : BitVec 32} {ticket : Nat}
    (hpc : s.consumers holder = .turn call engineFlags ticket) : Passes s holder 2 :=
  Passes.of_step (step_turn hpc) rfl rfl (passes_searched (Function.update_self _ _ _))

theorem passes_spinning {engineFlags : BitVec 32}
    (hpc : s.consumers holder = .spinning engineFlags s.start) : Passes s holder 3 :=
  Passes.of_step (step_spinning hpc) rfl rfl (passes_turn (Function.update_self _ _ _))

/-- Who has the ticket that is being served ends its turn in three steps at most. -/
theorem passes_of_hasTurn (hturn : HasTurn s.lock holder) : ∃ n ≤ 3, Passes s holder n := by
  have hticket : (s.consumers holder).ticket = some s.start := hturn
  cases hpc : s.consumers holder with
  | outside result =>
    rw [hpc] at hticket
    cases hticket
  | loaded engineFlags queueHead =>
    rw [hpc] at hticket
    cases hticket
  | looping engineFlags =>
    rw [hpc] at hticket
    cases hticket
  | spinning engineFlags localTicket =>
    rw [hpc] at hticket
    cases hticket
    exact ⟨3, Nat.le_refl 3, passes_spinning hpc⟩
  | turn call engineFlags ticket => exact ⟨2, by decide, passes_turn hpc⟩
  | searched call engineFlags ticket result => exact ⟨1, by decide, passes_searched hpc⟩

theorem Inv.of_run {actions : List (Action Consumer Work)} (h : Inv s)
    (hrun : run step s actions = some t) : Inv t := by
  refine (reaches_of_run step actions hrun).invariant (fun s t hinv hstep => ?_) h
  obtain ⟨action, hstep⟩ := hstep
  exact inv_step s action t hinv hstep

theorem run_append {actions later : List (Action Consumer Work)} {u : WorkQueue Consumer Work}
    (hrun : run step s actions = some t) (hlater : run step t later = some u) :
    run step s (actions ++ later) = some u := by
  induction actions generalizing s with
  | nil =>
    cases hrun
    exact hlater
  | cons action actions ih =>
    obtain ⟨v, hstep, hrest⟩ := Option.bind_eq_some_iff.mp hrun
    rw [List.cons_append, run, hstep]
    exact ih hrest

/-- The turn of a ticket comes after three steps at most of each consumer with a ticket before it. -/
theorem Inv.exists_turn (h : Inv s) {engineFlags : BitVec 32} {ticket : Nat}
    (hwaits : s.consumers consumer = .spinning engineFlags ticket) :
    ∃ earlier : List Consumer,
      (∀ holder ∈ earlier, ∃ held < ticket, (s.consumers holder).ticket = some held) ∧
      (∀ holder, earlier.count holder ≤ 3) ∧ earlier.length ≤ 3 * (ticket - s.start) ∧
      ∃ t, run step s ((earlier ++ [consumer]).map .advance) = some t ∧
        t.consumers consumer = .turn .getWork engineFlags ticket := by
  induction hn : ticket - s.start generalizing s with
  | zero =>
    have hrange := h.fair.range consumer ticket (congrArg Pc.ticket hwaits)
    have hle : s.start ≤ ticket := hrange.1
    obtain rfl : ticket = s.start := by omega
    refine ⟨[], List.forall_mem_nil _, fun _ => Nat.zero_le 3, Nat.zero_le _,
      s.setConsumer consumer (.turn .getWork engineFlags s.start), ?_, Function.update_self _ _ _⟩
    rw [List.nil_append, List.map_singleton, run, step_spinning hwaits]
    rfl
  | succ n ih =>
    have hrange := h.fair.range consumer ticket (congrArg Pc.ticket hwaits)
    have hlt : s.start < s.stop := by
      have hstop : ticket < s.stop := hrange.2
      omega
    obtain ⟨holder, hholder, -⟩ := h.fair.existsUnique (Nat.le_refl s.start) hlt
    have hne : consumer ≠ holder := by
      rintro rfl
      have heq : some ticket = some s.start := (congrArg Pc.ticket hwaits).symm.trans hholder
      cases heq
      omega
    obtain ⟨k, hk, t, hrun, hpassed, hdone, hothers⟩ := passes_of_hasTurn hholder
    obtain ⟨earlier, hearlier, hcount, hlength, u, hrest, hserved⟩ :=
      ih (h.of_run hrun) ((hothers consumer hne).trans hwaits) (by omega)
    -- the holder has no ticket any more, so it is not among those that are still before the consumer
    have hgone : holder ∉ earlier := by
      intro hmem
      obtain ⟨held, -, hheld⟩ := hearlier holder hmem
      rw [hdone] at hheld
      cases hheld
    refine ⟨List.replicate k holder ++ earlier, fun other hother => ?_, fun other => ?_, ?_, u, ?_, hserved⟩
    · rcases List.mem_append.mp hother with hfirst | hlater
      · rw [List.eq_of_mem_replicate hfirst]
        exact ⟨s.start, by omega, hholder⟩
      · obtain ⟨held, hheld, hticket⟩ := hearlier other hlater
        have hother : other ≠ holder := fun heq => hgone (heq ▸ hlater)
        exact ⟨held, hheld, hothers other hother ▸ hticket⟩
    · rw [List.count_append, List.count_replicate]
      by_cases heq : holder = other
      · rw [if_pos (beq_iff_eq.mpr heq), List.count_eq_zero_of_not_mem (heq ▸ hgone)]
        exact hk
      · rw [if_neg (by simpa using heq), Nat.zero_add]
        exact hcount other
    · rw [List.length_append, List.length_replicate]
      omega
    · rw [List.append_assoc, List.map_append, List.map_replicate]
      exact run_append hrun hrest

/-- A consumer that spins is brought to its turn by at most three steps of each consumer with an earlier
ticket and one of its own; no consumer with a later ticket is served before it; and as long as it
waits, the counter of the turns does not pass its ticket. -/
theorem waiting_gets_turn {ticket : Nat} {engineFlags : BitVec 32}
    (hreach : Reaches (fun s t => ∃ action : Action Consumer Work, step s action = some t) init s)
    (hwaits : s.consumers consumer = .spinning engineFlags ticket) :
    (∃ earlier : List Consumer,
      (∀ holder ∈ earlier, ∃ held < ticket, (s.consumers holder).ticket = some held) ∧
      (∀ holder, earlier.count holder ≤ 3) ∧ earlier.length ≤ 3 * (ticket - s.start) ∧
      ∃ t, run step s ((earlier ++ [consumer]).map .advance) = some t ∧
        t.consumers consumer = .turn .getWork engineFlags ticket) ∧
    (∀ other later, (s.consumers other).ticket = some later → ticket < later →
      ¬ (s.consumers other).InTurn) ∧
    ∀ (actions : List (Action Consumer Work)) t, run step s actions = some t →
      t.consumers consumer = .spinning engineFlags ticket → s.start ≤ t.start ∧ t.start ≤ ticket := by
  have h : Inv s := by
    refine hreach.invariant (fun s t hinv hstep => ?_) inv_init
    obtain ⟨action, hstep⟩ := hstep
    exact inv_step s action t hinv hstep
  refine ⟨h.exists_turn hwaits, fun other later hlater hlt hturn => ?_, fun actions t hrun hstill => ?_⟩
  · have hstart : some later = some s.start := hlater.symm.trans (h.turn other hturn)
    have hle := (h.fair.range consumer ticket (congrArg Pc.ticket hwaits)).1
    change s.start ≤ ticket at hle
    cases hstart
    omega
  · refine ⟨?_, ((h.of_run hrun).fair.range consumer ticket (congrArg Pc.ticket hstill)).1⟩
    refine (reaches_of_run step actions hrun).invariant (I := fun u => s.start ≤ u.start)
      (fun u v hle hstep => ?_) (Nat.le_refl _)
    obtain ⟨action, hstep⟩ := hstep
    exact Nat.le_trans hle (start_le_of_step hstep)

end Waiting

/-- Two consumers spin; the second one comes after the first. -/
theorem second_gets_turn : ∃ s : WorkQueue Bool Unit,
    run step init [.getWork false 1, .getWork true 1] = some s ∧
    (∃ earlier : List Bool, (∀ holder ∈ earlier, ∃ held < 1, (s.consumers holder).ticket = some held) ∧
      (∀ holder, earlier.count holder ≤ 3) ∧ earlier.length ≤ 3 * (1 - s.start) ∧
      ∃ t, run step s ((earlier ++ [true]).map .advance) = some t ∧
        t.consumers true = .turn .getWork 1 1) ∧
    (∀ other later, (s.consumers other).ticket = some later → 1 < later →
      ¬ (s.consumers other).InTurn) ∧
    ∀ (actions : List (Action Bool Unit)) t, run step s actions = some t →
      t.consumers true = .spinning 1 1 → s.start ≤ t.start ∧ t.start ≤ 1 :=
  ⟨_, rfl, waiting_gets_turn (reaches_of_run step [.getWork false 1, .getWork true 1] rfl) rfl⟩

end Dandelion.WorkQueue
