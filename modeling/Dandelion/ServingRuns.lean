import Dandelion.Serving

/-!
# What the server keeps

However the steps of the connections, of the loop and of the tasks come, the registry is that of the
registrations one after the other, in the order in which they were sent, and every reply is the one
that a client could have had by itself at some moment between its command and its reply.
-/

namespace Dandelion.Server

open Outcome Stateful Transitions Registry

variable {Ctx : Type}

section Later

/-- What may become of a connection that has sent its command, or that has not. -/
def Connection.Settles (connection connection' : Connection Ctx) : Prop :=
  connection' = connection ∨
    ∃ command, connection = .waiting command ∧ connection'.command? = some command

theorem Connection.Settles.command {connection connection' : Connection Ctx}
    (h : connection.Settles connection') {command : DispatcherCommand Ctx}
    (hcommand : connection.command? = some command) : connection'.command? = some command := by
  rcases h with rfl | ⟨other, rfl, hother⟩
  · exact hcommand
  · cases hcommand
    exact hother

theorem Connection.Settles.trans {connection connection' connection'' : Connection Ctx}
    (h : connection.Settles connection') (h' : connection'.Settles connection'') :
    connection.Settles connection'' := by
  rcases h with rfl | ⟨command, rfl, hcommand⟩
  · exact h'
  · exact .inr ⟨command, rfl, h'.command hcommand⟩

theorem settles_drop (connection : Connection Ctx) : connection.Settles connection.drop := by
  cases connection with
  | waiting command => exact .inr ⟨command, rfl, rfl⟩
  | _ => exact .inl rfl

theorem settles_reply (reply : Reply Ctx) (connection : Connection Ctx) :
    connection.Settles (connection.reply reply) := by
  cases connection with
  | waiting command => exact .inr ⟨command, rfl, rfl⟩
  | _ => exact .inl rfl

/-- A later state of the server. -/
structure Later (s t : Server Ctx) : Prop where
  connections : ∀ id, s.connections id ≠ .idle → (s.connections id).Settles (t.connections id)
  handled : s.handled <+: t.handled
  lookups : s.lookups <+: t.lookups
  sentBefore : ∀ id, s.connections id ≠ .idle → t.sentAfter id = s.sentAfter id
  sentSince : ∀ id, s.connections id = .idle →
    t.connections id = .idle ∨ s.handled.length ≤ t.sentAfter id

variable {s t u : Server Ctx}

theorem Later.refl (s : Server Ctx) : Later s s where
  connections _ _ := .inl rfl
  handled := List.prefix_refl _
  lookups := List.prefix_refl _
  sentBefore _ _ := rfl
  sentSince _ h := .inl h

theorem Later.command (h : Later s t) {id : Nat} {command : DispatcherCommand Ctx}
    (hid : (s.connections id).command? = some command) :
    (t.connections id).command? = some command :=
  (h.connections id fun hidle => by simp [hidle, Connection.command?] at hid).command hid

theorem Later.settled (h : Later s t) {id : Nat} (hidle : s.connections id ≠ .idle)
    (hwaiting : ∀ command, s.connections id ≠ .waiting command) :
    t.connections id = s.connections id := by
  rcases h.connections id hidle with hsame | ⟨command, hcommand, -⟩
  · exact hsame
  · exact absurd hcommand (hwaiting command)

theorem Later.notIdle (h : Later s t) {id : Nat} (hid : s.connections id ≠ .idle) :
    t.connections id ≠ .idle := by
  intro hidle
  rcases h.connections id hid with hsame | ⟨command, -, hcommand⟩
  · exact hid (hsame.symm.trans hidle)
  · simp [hidle, Connection.command?] at hcommand

theorem Later.trans (h : Later s t) (h' : Later t u) : Later s u where
  connections id hid := (h.connections id hid).trans (h'.connections id (h.notIdle hid))
  handled := h.handled.trans h'.handled
  lookups := h.lookups.trans h'.lookups
  sentBefore id hid := (h'.sentBefore id (h.notIdle hid)).trans (h.sentBefore id hid)
  sentSince id hid := by
    by_cases hidle : t.connections id = .idle
    · exact (h'.sentSince id hidle).imp_right fun hle => h.handled.length_le.trans hle
    · rw [h'.sentBefore id hidle]
      exact .inr ((h.sentSince id hid).resolve_left hidle)

theorem later_of_settles (hconnections : ∀ id, (s.connections id).Settles (t.connections id))
    (hhandled : s.handled <+: t.handled) (hlookups : s.lookups <+: t.lookups)
    (hsentAfter : t.sentAfter = s.sentAfter) : Later s t where
  connections id _ := hconnections id
  handled := hhandled
  lookups := hlookups
  sentBefore id _ := congrFun hsentAfter id
  sentSince id hid := by
    rcases hconnections id with hsame | ⟨command, hwaiting, -⟩
    · exact .inl (hsame.trans hid)
    · rw [hid] at hwaiting
      cases hwaiting

theorem later_of_sent {id : Nat} {connection : Connection Ctx} (hidle : s.connections id = .idle)
    (hconnections : t.connections = Function.update s.connections id connection)
    (hhandled : t.handled = s.handled) (hlookups : t.lookups = s.lookups)
    (hsentAfter : t.sentAfter = Function.update s.sentAfter id s.handled.length) : Later s t where
  connections other hother := by
    have hne : other ≠ id := fun heq => hother (heq ▸ hidle)
    rw [hconnections, Function.update_of_ne hne]
    exact .inl rfl
  handled := hhandled ▸ List.prefix_refl _
  lookups := hlookups ▸ List.prefix_refl _
  sentBefore other hother := by
    have hne : other ≠ id := fun heq => hother (heq ▸ hidle)
    rw [hsentAfter, Function.update_of_ne hne]
  sentSince other hother := by
    rw [hconnections, hsentAfter]
    by_cases heq : other = id
    · subst heq
      simp
    · rw [Function.update_of_ne heq, Function.update_of_ne heq]
      exact .inl hother

end Later

section Invariants

def RequestTask.request? : RequestTask Ctx → Option (String × List (Option (CompositionSet Ctx)))
  | .none => .none
  | .spawned name inputs | .running name inputs _ => some (name, inputs)

/-- The registry after the first registrations. -/
def registryAfter (fmap₀ : FunctionMap Ctx) (s : Server Ctx) (n : Nat) : FunctionMap Ctx :=
  runCalls fmap₀ ((s.handled.take n).map Prod.snd)

/-- A registration returns this result, run after the first registrations. -/
def ReturnsAfter (fmap₀ : FunctionMap Ctx) (s : Server Ctx) (n : Nat) (call : Call Ctx)
    (result : Except DandelionError Unit) : Prop :=
  (exec call.run (registryAfter fmap₀ s n)).1 = result.mapError Stop.error

/-- The registry is that of the handled registrations one after the other, and they are handled in
the order in which they were sent, each once. -/
structure InOrder (fmap₀ : FunctionMap Ctx) (s : Server Ctx) : Prop where
  sequential : s.fmap = runCalls fmap₀ (s.handled.map Prod.snd)
  sent : s.handled <+: s.sent
  queued : s.running = true → s.handled ++ s.channel.filterMap registrationOf = s.sent
  unique : (s.sent.map Prod.fst).Nodup

/-- The commands in the channel and in the tasks are those of their connections. -/
structure Commanded (s : Server Ctx) : Prop where
  pending : ∀ entry ∈ s.channel,
    s.connections entry.1 = .waiting entry.2 ∨ s.connections entry.1 = .left entry.2
  distinct : (s.channel.map Prod.fst).Nodup
  unspawned : ∀ entry ∈ s.channel, (s.tasks entry.1).request? = none
  tasks : ∀ id name inputs, (s.tasks id).request? = some (name, inputs) →
    (s.connections id).command? = some (.functionRequest name inputs)
  sent : ∀ entry ∈ s.sent, ∃ command, (s.connections entry.1).command? = some command ∧
    command.registration? = some entry.2

/-- A lookup finds what some registry between its request and now holds. -/
structure Lookup.Right (fmap₀ : FunctionMap Ctx) (s : Server Ctx) (lookup : Lookup Ctx) : Prop where
  sent : s.sentAfter lookup.id ≤ lookup.after
  handled : lookup.after ≤ s.handled.length
  found : ∃ name inputs, (s.connections lookup.id).command? = some (.functionRequest name inputs) ∧
    lookup.found = (registryAfter fmap₀ s lookup.after).get? name

/-- A reply is the right one: a registration is answered with its result after all those that were
handled before it, and a request by what its lookup has found. -/
inductive Answered (fmap₀ : FunctionMap Ctx) (s : Server Ctx) (id : Nat) :
    DispatcherCommand Ctx → Reply Ctx → Prop
  | inserted {command : DispatcherCommand Ctx} {call : Call Ctx} {n : Nat}
      {result : Except DandelionError Unit} (hcall : command.registration? = some call)
      (hhandled : s.handled[n]? = some (id, call)) (hsent : s.sentAfter id ≤ n)
      (hresult : ReturnsAfter fmap₀ s n call result) : Answered fmap₀ s id command (.inserted result)
  | output {name : String} {inputs : List (Option (CompositionSet Ctx))} {lookup : Lookup Ctx}
      {result : Except DandelionError (List (Option (CompositionSet Ctx)))}
      (hlookup : lookup ∈ s.lookups) (hid : lookup.id = id)
      (hresult : lookup.found = none → result = .error (.functionRegistry (.unknownFunction name))) :
      Answered fmap₀ s id (.functionRequest name inputs) (.output result)

/-- What was looked up and answered is right. -/
structure Answering (fmap₀ : FunctionMap Ctx) (s : Server Ctx) : Prop where
  sentAfter : ∀ id, s.sentAfter id ≤ s.handled.length
  lookups : ∀ lookup ∈ s.lookups, lookup.Right fmap₀ s
  running : ∀ id name inputs function, s.tasks id = .running name inputs function →
    ∃ lookup ∈ s.lookups, lookup.id = id ∧ lookup.found = some function
  answered : ∀ id command reply, s.connections id = .answered command reply →
    Answered fmap₀ s id command reply

/-- The registration of a connection was answered. -/
def Confirmed (s : Server Ctx) (entry : Nat × Call Ctx) : Prop :=
  ∃ command result, s.connections entry.1 = .answered command (.inserted result) ∧
    command.registration? = some entry.2

/-- The loop runs on while the registrations are answered, and ends by one that panics or whose
client has left. -/
structure Serving (fmap₀ : FunctionMap Ctx) (s : Server Ctx) : Prop where
  running : s.running = true → ∀ entry ∈ s.handled, Confirmed s entry
  stopped : s.running = false → ∃ before id call, s.handled = before ++ [(id, call)] ∧
    (¬ Returns (exec call.run (runCalls fmap₀ (before.map Prod.snd))).1 ∨
      ∃ command, s.connections id = .left command ∧ command.registration? = some call)

variable {fmap₀ : FunctionMap Ctx} {s t : Server Ctx}

theorem registryAfter_later (h : s.handled <+: t.handled) {n : Nat} (hn : n ≤ s.handled.length) :
    registryAfter fmap₀ t n = registryAfter fmap₀ s n := by
  obtain ⟨rest, hrest⟩ := h
  rw [registryAfter, registryAfter, ← hrest, List.take_append_of_le_length hn]

theorem InOrder.frame (h : InOrder fmap₀ s) (hfmap : t.fmap = s.fmap) (hrunning : t.running = s.running)
    (hchannel : t.channel.filterMap registrationOf = s.channel.filterMap registrationOf)
    (hsent : t.sent = s.sent) (hhandled : t.handled = s.handled) : InOrder fmap₀ t where
  sequential := by simp [hfmap, hhandled, h.sequential]
  sent := by simp [hhandled, hsent, h.sent]
  queued hrun := by simpa [hhandled, hchannel, hsent] using h.queued (hrunning ▸ hrun)
  unique := by simp [hsent, h.unique]

theorem Commanded.later (h : Commanded s) (hlater : Later s t) (hchannel : t.channel <:+ s.channel)
    (hpending : ∀ entry ∈ t.channel, t.connections entry.1 = s.connections entry.1 ∨
      t.connections entry.1 = .left entry.2)
    (htasks : ∀ id, (t.tasks id).request? = none ∨ (t.tasks id).request? = (s.tasks id).request?)
    (hsent : t.sent = s.sent) : Commanded t where
  pending entry hentry := by
    rcases hpending entry hentry with hsame | hleft
    · rw [hsame]
      exact h.pending entry (hchannel.subset hentry)
    · exact .inr hleft
  distinct := (hchannel.sublist.map Prod.fst).nodup h.distinct
  unspawned entry hentry := (htasks entry.1).elim (fun hnone => hnone) fun hsame =>
    hsame.trans (h.unspawned entry (hchannel.subset hentry))
  tasks id name inputs hrequest := by
    rcases htasks id with hnone | hsame
    · simp [hnone] at hrequest
    · exact hlater.command (h.tasks id name inputs (hsame ▸ hrequest))
  sent entry hentry := by
    obtain ⟨command, hcommand, hcall⟩ := h.sent entry (hsent ▸ hentry)
    exact ⟨command, hlater.command hcommand, hcall⟩

theorem Lookup.Right.later {lookup : Lookup Ctx} (h : lookup.Right fmap₀ s) (hlater : Later s t) :
    lookup.Right fmap₀ t := by
  obtain ⟨name, inputs, hcommand, hfound⟩ := h.found
  have hidle : s.connections lookup.id ≠ .idle := fun hidle => by
    simp [hidle, Connection.command?] at hcommand
  constructor
  · rw [hlater.sentBefore _ hidle]
    exact h.sent
  · exact h.handled.trans hlater.handled.length_le
  · refine ⟨name, inputs, hlater.command hcommand, ?_⟩
    rw [registryAfter_later hlater.handled h.handled]
    exact hfound

theorem Answered.later {id : Nat} {command : DispatcherCommand Ctx} {reply : Reply Ctx}
    (h : Answered fmap₀ s id command reply) (hlater : Later s t)
    (hidle : s.connections id ≠ .idle) : Answered fmap₀ t id command reply := by
  cases h with
  | inserted hcall hhandled hsent hresult =>
    obtain ⟨hlt, hget⟩ := List.getElem?_eq_some_iff.mp hhandled
    have hhandled' := List.prefix_iff_getElem?.mp hlater.handled _ hlt
    rw [hget] at hhandled'
    refine .inserted hcall hhandled' ?_ ?_
    · rw [hlater.sentBefore id hidle]
      exact hsent
    · rw [ReturnsAfter, registryAfter_later hlater.handled hlt.le]
      exact hresult
  | output hlookup hid hresult => exact .output (hlater.lookups.subset hlookup) hid hresult

theorem Answering.later (h : Answering fmap₀ s) (hlater : Later s t)
    (hsentAfter : ∀ id, t.sentAfter id ≤ t.handled.length)
    (hlookups : ∀ lookup ∈ t.lookups, lookup ∈ s.lookups ∨ lookup.Right fmap₀ t)
    (hrunning : ∀ id name inputs function, t.tasks id = .running name inputs function →
      s.tasks id = .running name inputs function ∨
        ∃ lookup ∈ t.lookups, lookup.id = id ∧ lookup.found = some function)
    (hanswered : ∀ id command reply, t.connections id = .answered command reply →
      s.connections id = .answered command reply ∨ Answered fmap₀ t id command reply) :
    Answering fmap₀ t where
  sentAfter := hsentAfter
  lookups lookup hlookup := by
    rcases hlookups lookup hlookup with hold | hnew
    · exact (h.lookups lookup hold).later hlater
    · exact hnew
  running id name inputs function htask := by
    rcases hrunning id name inputs function htask with hold | hnew
    · obtain ⟨lookup, hlookup, hid, hfound⟩ := h.running id name inputs function hold
      exact ⟨lookup, hlater.lookups.subset hlookup, hid, hfound⟩
    · exact hnew
  answered id command reply hconnection := by
    rcases hanswered id command reply hconnection with hold | hnew
    · exact (h.answered id command reply hold).later hlater (by simp [hold])
    · exact hnew

theorem Confirmed.later {entry : Nat × Call Ctx} (h : Confirmed s entry) (hlater : Later s t) :
    Confirmed t entry := by
  obtain ⟨command, result, hconnection, hcall⟩ := h
  refine ⟨command, result, ?_, hcall⟩
  rw [hlater.settled (by simp [hconnection]) (by simp [hconnection]), hconnection]

theorem Serving.later (h : Serving fmap₀ s) (hlater : Later s t) (hrunning : t.running = s.running)
    (hhandled : t.handled = s.handled) : Serving fmap₀ t where
  running hrun entry hentry := by
    rw [hhandled] at hentry
    exact (h.running (hrunning ▸ hrun) entry hentry).later hlater
  stopped hstop := by
    obtain ⟨before, id, call, hbefore, hcause⟩ := h.stopped (hrunning ▸ hstop)
    refine ⟨before, id, call, hhandled.trans hbefore, hcause.imp_right ?_⟩
    rintro ⟨command, hleft, hcall⟩
    refine ⟨command, ?_, hcall⟩
    rw [hlater.settled (by simp [hleft]) (by simp [hleft]), hleft]

end Invariants

/-- What holds of the server in every state of a run. -/
structure Consistent (fmap₀ : FunctionMap Ctx) (s : Server Ctx) : Prop where
  inOrder : InOrder fmap₀ s
  commanded : Commanded s
  answering : Answering fmap₀ s
  serving : Serving fmap₀ s

/-- A step keeps what holds of the server. -/
def Keeps (fmap₀ : FunctionMap Ctx) (s t : Server Ctx) : Prop := Later s t ∧ Consistent fmap₀ t

section Steps

variable {fmap₀ : FunctionMap Ctx} {s : Server Ctx} {id : Nat}

theorem consistent_initial (fmap : FunctionMap Ctx) : Consistent fmap (initial fmap) where
  inOrder := ⟨rfl, List.prefix_refl _, fun _ => rfl, List.nodup_nil⟩
  commanded := by
    constructor <;> simp [initial, RequestTask.request?]
  answering := by
    constructor <;> simp [initial]
  serving := by
    constructor <;> simp [initial]

theorem Commanded.notIdle (h : Commanded s) {entry : Nat × DispatcherCommand Ctx}
    (hentry : entry ∈ s.channel) : s.connections entry.1 ≠ .idle := by
  rcases h.pending entry hentry with hpending | hpending <;> simp [hpending]

theorem Commanded.notIdle_sent (h : Commanded s) {entry : Nat × Call Ctx} (hentry : entry ∈ s.sent) :
    s.connections entry.1 ≠ .idle := by
  obtain ⟨command, hcommand, -⟩ := h.sent entry hentry
  intro hidle
  simp [hidle, Connection.command?] at hcommand

theorem mem_registrationOf {entry : Nat × DispatcherCommand Ctx} {registration : Nat × Call Ctx} :
    registration ∈ (registrationOf entry).toList ↔
      registration.1 = entry.1 ∧ entry.2.registration? = some registration.2 := by
  rw [Option.mem_toList, registrationOf, Option.map_eq_some_iff]
  constructor
  · rintro ⟨call, hcall, rfl⟩
    exact ⟨rfl, hcall⟩
  · rintro ⟨hid, hcall⟩
    exact ⟨_, hcall, Prod.ext hid.symm rfl⟩

theorem InOrder.push (h : InOrder fmap₀ s) (hcommanded : Commanded s) (hidle : s.connections id = .idle)
    (hrunning : s.running = true) (command : DispatcherCommand Ctx) :
    InOrder fmap₀ (s.push id command) where
  sequential := h.sequential
  sent := h.sent.trans (List.prefix_append _ _)
  queued _ := by
    have hqueued := h.queued hrunning
    simp only [Server.push, setConnection, ← hqueued, List.filterMap_append, List.append_assoc]
    cases hentry : registrationOf (id, command) <;> simp [hentry]
  unique := by
    simp only [Server.push, setConnection, List.map_append, List.nodup_append]
    refine ⟨h.unique, ?_, ?_⟩
    · cases registrationOf (id, command) <;> simp
    · intro other hother last hlast heq
      obtain ⟨entry, hentry, rfl⟩ := List.mem_map.mp hother
      obtain ⟨registration, hregistration, rfl⟩ := List.mem_map.mp hlast
      have hid := (mem_registrationOf.mp hregistration).1
      apply hcommanded.notIdle_sent hentry
      rw [heq, hid]
      exact hidle

theorem Commanded.push (h : Commanded s) (hidle : s.connections id = .idle)
    (command : DispatcherCommand Ctx) : Commanded (s.push id command) := by
  have hself : (s.push id command).connections id = .waiting command := Function.update_self ..
  have hother : ∀ other, s.connections other ≠ .idle →
      (s.push id command).connections other = s.connections other := by
    intro other hne
    have hne' : other ≠ id := fun heq => hne (heq ▸ hidle)
    exact Function.update_of_ne hne' _ _
  constructor
  · intro entry hentry
    rcases List.mem_append.mp hentry with hold | hnew
    · rw [hother _ (h.notIdle hold)]
      exact h.pending entry hold
    · rw [List.mem_singleton.mp hnew]
      exact .inl hself
  · simp only [Server.push, setConnection, List.map_append, List.map_cons, List.map_nil]
    refine List.nodup_append.mpr ⟨h.distinct, List.nodup_singleton _, ?_⟩
    intro other hmem last hlast heq
    obtain ⟨entry, hentry, rfl⟩ := List.mem_map.mp hmem
    apply h.notIdle hentry
    rw [heq, List.mem_singleton.mp hlast]
    exact hidle
  · intro entry hentry
    rcases List.mem_append.mp hentry with hold | hnew
    · exact h.unspawned entry hold
    · rw [List.mem_singleton.mp hnew]
      cases hrequest : (s.tasks id).request? with
      | none => exact hrequest
      | some request =>
        have hcommand := h.tasks id request.1 request.2 hrequest
        simp [hidle, Connection.command?] at hcommand
  · intro other name inputs hrequest
    have hcommand := h.tasks other name inputs hrequest
    rw [hother other fun hnone => by simp [hnone, Connection.command?] at hcommand]
    exact hcommand
  · intro entry hentry
    rcases List.mem_append.mp hentry with hold | hnew
    · rw [hother _ (h.notIdle_sent hold)]
      exact h.sent entry hold
    · obtain ⟨hid, hcall⟩ := mem_registrationOf.mp hnew
      refine ⟨command, ?_, hcall⟩
      rw [show entry.1 = id from hid, hself]
      rfl

theorem sentAfter_update (h : Answering fmap₀ s) (other : Nat) :
    Function.update s.sentAfter id s.handled.length other ≤ s.handled.length := by
  by_cases heq : other = id
  · subst heq
    simp
  · rw [Function.update_of_ne heq]
    exact h.sentAfter other

theorem Consistent.push (h : Consistent fmap₀ s) (hidle : s.connections id = .idle)
    (hrunning : s.running = true) (command : DispatcherCommand Ctx) :
    Keeps fmap₀ s (s.push id command) := by
  have hlater : Later s (s.push id command) := later_of_sent hidle rfl rfl rfl rfl
  refine ⟨hlater, h.inOrder.push h.commanded hidle hrunning command, h.commanded.push hidle command, ?_,
    h.serving.later hlater rfl rfl⟩
  apply h.answering.later hlater (sentAfter_update h.answering)
  · exact fun lookup hlookup => .inl hlookup
  · exact fun other name inputs function htask => .inl htask
  · intro other command' reply hconnection
    by_cases heq : other = id
    · subst heq
      simp [Server.push, setConnection] at hconnection
    · exact .inl (by simpa [Server.push, setConnection, heq] using hconnection)

theorem Consistent.refuse (h : Consistent fmap₀ s) (hidle : s.connections id = .idle)
    (command : DispatcherCommand Ctx) : Keeps fmap₀ s (s.refuse id command) := by
  have hlater : Later s (s.refuse id command) := later_of_sent hidle rfl rfl rfl rfl
  have hother : ∀ other, s.connections other ≠ .idle →
      (s.refuse id command).connections other = s.connections other := by
    intro other hne
    have hne' : other ≠ id := fun heq => hne (heq ▸ hidle)
    exact Function.update_of_ne hne' _ _
  refine ⟨hlater, h.inOrder.frame rfl rfl rfl rfl rfl, ?_, ?_, h.serving.later hlater rfl rfl⟩
  · exact h.commanded.later hlater (List.suffix_refl _)
      (fun entry hentry => .inl (hother _ (h.commanded.notIdle hentry))) (fun _ => .inr rfl) rfl
  · apply h.answering.later hlater (sentAfter_update h.answering)
    · exact fun lookup hlookup => .inl hlookup
    · exact fun other name inputs function htask => .inl htask
    · intro other command' reply hconnection
      by_cases heq : other = id
      · subst heq
        simp [Server.refuse, setConnection] at hconnection
      · exact .inl (by simpa [Server.refuse, setConnection, heq] using hconnection)

/-- A step of one connection and its task. -/
structure Local (id : Nat) (s t : Server Ctx) : Prop where
  fmap : t.fmap = s.fmap
  running : t.running = s.running
  channel : t.channel = s.channel
  sent : t.sent = s.sent
  handled : t.handled = s.handled
  sentAfter : t.sentAfter = s.sentAfter
  lookups : s.lookups <+: t.lookups
  connections : ∀ other ≠ id, t.connections other = s.connections other
  tasks : ∀ other ≠ id, t.tasks other = s.tasks other

theorem local_setConnection (connection : Connection Ctx) :
    Local id s (s.setConnection id connection) := by
  constructor <;> simp +contextual [setConnection]

theorem local_setTask (task : RequestTask Ctx) : Local id s (s.setTask id task) := by
  constructor <;> simp +contextual [setTask]

theorem Local.trans {t u : Server Ctx} (h : Local id s t) (h' : Local id t u) : Local id s u where
  fmap := h'.fmap.trans h.fmap
  running := h'.running.trans h.running
  channel := h'.channel.trans h.channel
  sent := h'.sent.trans h.sent
  handled := h'.handled.trans h.handled
  sentAfter := h'.sentAfter.trans h.sentAfter
  lookups := h.lookups.trans h'.lookups
  connections other hne := (h'.connections other hne).trans (h.connections other hne)
  tasks other hne := (h'.tasks other hne).trans (h.tasks other hne)

theorem Consistent.step_local {t : Server Ctx} (h : Consistent fmap₀ s) (hlocal : Local id s t)
    (hsettles : (s.connections id).Settles (t.connections id))
    (hpending : ∀ entry ∈ s.channel, entry.1 = id → t.connections id = .left entry.2)
    (htask : (t.tasks id).request? = none ∨ (t.tasks id).request? = (s.tasks id).request?)
    (hlookups : Later s t → ∀ lookup ∈ t.lookups, lookup ∈ s.lookups ∨ lookup.Right fmap₀ t)
    (hrunning : ∀ name inputs function, t.tasks id = .running name inputs function →
      ∃ lookup ∈ t.lookups, lookup.id = id ∧ lookup.found = some function)
    (hanswered : ∀ command reply, t.connections id = .answered command reply →
      s.connections id = .answered command reply ∨ Answered fmap₀ t id command reply) :
    Keeps fmap₀ s t := by
  have hconnections : ∀ other, (s.connections other).Settles (t.connections other) := by
    intro other
    by_cases heq : other = id
    · exact heq ▸ hsettles
    · exact .inl (hlocal.connections other heq)
  have hlater : Later s t := later_of_settles hconnections (hlocal.handled ▸ List.prefix_refl _)
    hlocal.lookups hlocal.sentAfter
  refine ⟨hlater, h.inOrder.frame hlocal.fmap hlocal.running (by rw [hlocal.channel]) hlocal.sent
    hlocal.handled, ?_, ?_, h.serving.later hlater hlocal.running hlocal.handled⟩
  · apply h.commanded.later hlater (hlocal.channel ▸ List.suffix_refl _)
    · intro entry hentry
      by_cases heq : entry.1 = id
      · exact .inr (heq ▸ hpending entry (hlocal.channel ▸ hentry) heq)
      · exact .inl (hlocal.connections _ heq)
    · intro other
      by_cases heq : other = id
      · exact heq ▸ htask
      · exact .inr (by rw [hlocal.tasks other heq])
    · exact hlocal.sent
  · apply h.answering.later hlater
    · intro other
      rw [hlocal.sentAfter, hlocal.handled]
      exact h.answering.sentAfter other
    · exact hlookups hlater
    · intro other name inputs function hother
      by_cases heq : other = id
      · subst heq
        exact .inr (hrunning name inputs function hother)
      · exact .inl (hlocal.tasks other heq ▸ hother)
    · intro other command reply hother
      by_cases heq : other = id
      · subst heq
        exact hanswered command reply hother
      · exact .inl (hlocal.connections other heq ▸ hother)

theorem Commanded.ne_of_request (h : Commanded s) (htask : (s.tasks id).request? ≠ none)
    {entry : Nat × DispatcherCommand Ctx} (hentry : entry ∈ s.channel) : entry.1 ≠ id :=
  fun heq => htask (heq ▸ h.unspawned entry hentry)

theorem Consistent.disconnect (h : Consistent fmap₀ s) {command : DispatcherCommand Ctx}
    (hwaiting : s.connections id = .waiting command) :
    Keeps fmap₀ s (s.setConnection id (.left command)) := by
  have hself : (s.setConnection id (.left command)).connections id = .left command :=
    Function.update_self ..
  apply h.step_local (local_setConnection _)
  · rw [hself]
    exact .inr ⟨command, hwaiting, rfl⟩
  · intro entry hentry heq
    rw [hself]
    rcases h.commanded.pending entry hentry with hpending | hpending
    · rw [heq, hwaiting] at hpending
      cases hpending
      rfl
    · rw [heq, hwaiting] at hpending
      cases hpending
  · exact .inr rfl
  · exact fun _ lookup hlookup => .inl hlookup
  · exact fun name inputs function htask => h.answering.running id name inputs function htask
  · intro command' reply hanswered
    rw [hself] at hanswered
    cases hanswered

theorem Consistent.drop (h : Consistent fmap₀ s) (htask : (s.tasks id).request? ≠ none)
    {connection : Connection Ctx} (hsettles : (s.connections id).Settles connection)
    (hanswered : ∀ command reply, connection = .answered command reply →
      s.connections id = .answered command reply) :
    Keeps fmap₀ s ((s.setTask id .none).setConnection id connection) := by
  have hself : ((s.setTask id .none).setConnection id connection).connections id = connection :=
    Function.update_self ..
  have hnone : ((s.setTask id .none).setConnection id connection).tasks id = .none :=
    Function.update_self ..
  apply h.step_local ((local_setTask .none).trans (local_setConnection _))
  · rw [hself]
    exact hsettles
  · exact fun entry hentry heq => absurd heq (h.commanded.ne_of_request htask hentry)
  · rw [hnone]
    exact .inl rfl
  · exact fun _ lookup hlookup => .inl hlookup
  · intro name inputs function hrunning
    rw [hnone] at hrunning
    cases hrunning
  · rw [hself]
    exact fun command reply heq => .inl (hanswered command reply heq)

theorem answered_reply {connection : Connection Ctx} {command : DispatcherCommand Ctx}
    {reply reply' : Reply Ctx} (h : connection.reply reply' = .answered command reply) :
    connection = .answered command reply ∨ connection = .waiting command ∧ reply = reply' := by
  cases connection with
  | waiting other =>
    cases h
    exact .inr ⟨rfl, rfl⟩
  | _ => exact .inl h

theorem Consistent.answer {t : Server Ctx} (h : Consistent fmap₀ s) {name : String}
    {inputs : List (Option (CompositionSet Ctx))} (htask : (s.tasks id).request? = some (name, inputs))
    (hlocal : Local id s t) (hconnection : t.connections id = s.connections id)
    (hlookups : ∀ lookup ∈ t.lookups, lookup ∈ s.lookups ∨ lookup.Right fmap₀ s)
    {result : Except DandelionError (List (Option (CompositionSet Ctx)))}
    (hresult : ∃ lookup ∈ t.lookups, lookup.id = id ∧
      (lookup.found = none → result = .error (.functionRegistry (.unknownFunction name)))) :
    Keeps fmap₀ s ((t.setTask id .none).answer id result) := by
  have hself : ((t.setTask id .none).answer id result).connections id =
      (s.connections id).reply (.output result) := by
    rw [← hconnection]
    exact Function.update_self ..
  have hnone : ((t.setTask id .none).answer id result).tasks id = .none := Function.update_self ..
  apply h.step_local ((hlocal.trans (local_setTask .none)).trans (local_setConnection _))
  · exact hself ▸ settles_reply _ _
  · exact fun entry hentry heq => absurd heq (h.commanded.ne_of_request (by simp [htask]) hentry)
  · exact .inl (by rw [← Server.answer, hnone]; rfl)
  · exact fun hlater lookup hlookup => (hlookups lookup hlookup).imp_right fun hright =>
      hright.later hlater
  · intro name' inputs' function hrunning
    rw [← Server.answer, hnone] at hrunning
    cases hrunning
  · intro command reply hanswered
    rw [← Server.answer, hself] at hanswered
    rcases answered_reply hanswered with hold | ⟨hwaiting, rfl⟩
    · exact .inl hold
    · have hcommand := h.commanded.tasks id name inputs htask
      rw [hwaiting] at hcommand
      cases hcommand
      obtain ⟨lookup, hlookup, hid, hfound⟩ := hresult
      exact .inr (.output hlookup hid hfound)

theorem Consistent.finish (h : Consistent fmap₀ s) {name : String}
    {inputs : List (Option (CompositionSet Ctx))} {function : Registry.FunctionType Ctx}
    (htask : s.tasks id = .running name inputs function)
    (result : Except DandelionError (List (Option (CompositionSet Ctx)))) :
    Keeps fmap₀ s ((s.setTask id .none).answer id result) := by
  obtain ⟨lookup, hlookup, hid, hfound⟩ := h.answering.running id name inputs function htask
  have hlocal : Local id s s := by constructor <;> simp
  refine h.answer (by rw [htask]; rfl) hlocal rfl (fun lookup hlookup => .inl hlookup)
    ⟨lookup, hlookup, hid, fun hnone => ?_⟩
  rw [hfound] at hnone
  cases hnone

theorem Consistent.right_lookUp (h : Consistent fmap₀ s) {name : String}
    {inputs : List (Option (CompositionSet Ctx))}
    (htask : (s.tasks id).request? = some (name, inputs)) :
    (⟨id, s.handled.length, s.fmap.get? name⟩ : Lookup Ctx).Right fmap₀ s where
  sent := h.answering.sentAfter id
  handled := le_refl _
  found := by
    refine ⟨name, inputs, h.commanded.tasks id name inputs htask, ?_⟩
    rw [registryAfter, List.take_length, ← h.inOrder.sequential]

theorem Consistent.lookUp (h : Consistent fmap₀ s) {name : String}
    {inputs : List (Option (CompositionSet Ctx))} (htask : s.tasks id = .spawned name inputs) :
    Keeps fmap₀ s (s.lookUp id name inputs) := by
  have hrequest : (s.tasks id).request? = some (name, inputs) := by rw [htask]; rfl
  have hlocal : Local id s { s with
      lookups := s.lookups ++ [⟨id, s.handled.length, s.fmap.get? name⟩] } := by
    constructor <;> simp
  have hlookups : ∀ lookup ∈ s.lookups ++ [⟨id, s.handled.length, s.fmap.get? name⟩],
      lookup ∈ s.lookups ∨ lookup.Right fmap₀ s := by
    intro lookup hlookup
    rcases List.mem_append.mp hlookup with hold | hnew
    · exact .inl hold
    · rw [List.mem_singleton.mp hnew]
      exact .inr (h.right_lookUp hrequest)
  rw [Server.lookUp]
  cases hfound : s.fmap.get? name with
  | none =>
    rw [hfound] at hlocal hlookups
    exact h.answer hrequest hlocal rfl hlookups
      ⟨⟨id, s.handled.length, none⟩, by simp, rfl, fun _ => rfl⟩
  | some function =>
    rw [hfound] at hlocal hlookups
    have hself : (setTask { s with lookups := s.lookups ++ [⟨id, s.handled.length, some function⟩] } id
        (.running name inputs function)).tasks id = .running name inputs function :=
      Function.update_self ..
    apply h.step_local (hlocal.trans (local_setTask _))
    · exact .inl rfl
    · exact fun entry hentry heq => absurd heq (h.commanded.ne_of_request (by simp [hrequest]) hentry)
    · exact .inr (by rw [hself, hrequest]; rfl)
    · exact fun hlater lookup hlookup => (hlookups lookup hlookup).imp_right fun hright =>
        hright.later hlater
    · intro name' inputs' function' hrunning
      rw [hself] at hrunning
      cases hrunning
      exact ⟨⟨id, s.handled.length, some function⟩, by simp [setTask], rfl, rfl⟩
    · exact fun command reply hanswered => .inl hanswered

/-- The connections of the commands behind the first one are others. -/
theorem Commanded.ne_of_tail (h : Commanded s) {command : DispatcherCommand Ctx}
    {channel : List (Nat × DispatcherCommand Ctx)} (hchannel : s.channel = (id, command) :: channel)
    {entry : Nat × DispatcherCommand Ctx} (hentry : entry ∈ channel) : entry.1 ≠ id := by
  have hdistinct := h.distinct
  rw [hchannel, List.map_cons, List.nodup_cons] at hdistinct
  intro heq
  exact hdistinct.1 (List.mem_map.mpr ⟨entry, hentry, heq⟩)

/-- A function request is taken from the channel, and its task is spawned. -/
theorem Consistent.spawn (h : Consistent fmap₀ s) {name : String}
    {inputs : List (Option (CompositionSet Ctx))} {channel : List (Nat × DispatcherCommand Ctx)}
    (hchannel : s.channel = (id, .functionRequest name inputs) :: channel) :
    Keeps fmap₀ s { s.setTask id (.spawned name inputs) with channel } := by
  have hlater : Later s { s.setTask id (.spawned name inputs) with channel } :=
    later_of_settles (fun _ => .inl rfl) (List.prefix_refl _) (List.prefix_refl _) rfl
  have hsuffix : channel <:+ s.channel := hchannel ▸ List.suffix_cons _ _
  have hfirst := h.commanded.pending (id, .functionRequest name inputs) (hchannel ▸ List.mem_cons_self)
  refine ⟨hlater, ?_, ⟨?_, ?_, ?_, ?_, ?_⟩, ?_, h.serving.later hlater rfl rfl⟩
  · exact h.inOrder.frame rfl rfl (by rw [hchannel]; rfl) rfl rfl
  · exact fun entry hentry => h.commanded.pending entry (hsuffix.subset hentry)
  · exact (hsuffix.sublist.map Prod.fst).nodup h.commanded.distinct
  · intro entry hentry
    have hne := h.commanded.ne_of_tail hchannel hentry
    simpa [setTask, hne] using h.commanded.unspawned entry (hsuffix.subset hentry)
  · intro other name' inputs' hrequest
    by_cases heq : other = id
    · subst heq
      simp only [setTask, Function.update_self, RequestTask.request?, Option.some.injEq,
        Prod.mk.injEq] at hrequest
      rw [← hrequest.1, ← hrequest.2]
      rcases hfirst with hwaiting | hleft
      · exact congrArg Connection.command? hwaiting
      · exact congrArg Connection.command? hleft
    · exact h.commanded.tasks other name' inputs' (by simpa [setTask, heq] using hrequest)
  · exact h.commanded.sent
  · apply h.answering.later hlater h.answering.sentAfter
    · exact fun lookup hlookup => .inl hlookup
    · intro other name' inputs' function hrunning
      by_cases heq : other = id
      · subst heq
        simp [setTask] at hrunning
      · exact .inl (by simpa [setTask, heq] using hrunning)
    · exact fun other command reply hanswered => .inl hanswered

section Registrations

variable {command : DispatcherCommand Ctx} {call : Call Ctx}
  {channel : List (Nat × DispatcherCommand Ctx)}

/-- What handling a registration has done to the state, its callback apart. -/
structure Handled (s t : Server Ctx) (id : Nat) (call : Call Ctx) : Prop where
  fmap : t.fmap = (exec call.run s.fmap).2
  sent : t.sent = s.sent
  handled : t.handled = s.handled ++ [(id, call)]
  tasks : t.tasks = s.tasks
  sentAfter : t.sentAfter = s.sentAfter
  lookups : t.lookups = s.lookups
  connections : ∀ other, (s.connections other).Settles (t.connections other)

variable {t : Server Ctx}

theorem Handled.later (h : Handled s t id call) : Later s t :=
  later_of_settles h.connections (h.handled ▸ List.prefix_append _ _)
    (h.lookups ▸ List.prefix_refl _) h.sentAfter

theorem Handled.inOrder (hhandled : Handled s t id call) (h : InOrder fmap₀ s) (hrunning : s.running = true)
    (hcall : command.registration? = some call) (hchannel : s.channel = (id, command) :: channel)
    (hqueued : t.running = true → t.channel = channel) : InOrder fmap₀ t := by
  have hsent : s.handled ++ (id, call) :: channel.filterMap registrationOf = s.sent := by
    rw [← h.queued hrunning, hchannel, List.filterMap_cons]
    simp [registrationOf, hcall]
  constructor
  · rw [hhandled.fmap, hhandled.handled, h.sequential]
    simp [runCalls]
  · rw [hhandled.sent, hhandled.handled, ← hsent]
    exact ⟨channel.filterMap registrationOf, by simp⟩
  · intro hrun
    rw [hhandled.sent, hhandled.handled, hqueued hrun, ← hsent]
    simp
  · rw [hhandled.sent]
    exact h.unique

theorem Handled.commanded (hhandled : Handled s t id call) (h : Commanded s)
    (hchannel : s.channel = (id, command) :: channel)
    (hrest : t.channel = [] ∨
      t.channel = channel ∧ ∀ other ≠ id, t.connections other = s.connections other) :
    Commanded t := by
  apply h.later hhandled.later
  · rcases hrest with hnil | ⟨hsame, -⟩
    · exact hnil ▸ List.nil_suffix
    · rw [hsame, hchannel]
      exact List.suffix_cons _ _
  · intro entry hentry
    rcases hrest with hnil | ⟨hsame, hothers⟩
    · simp [hnil] at hentry
    · exact .inl (hothers _ (h.ne_of_tail hchannel (hsame ▸ hentry)))
  · exact fun other => .inr (by rw [hhandled.tasks])
  · exact hhandled.sent

theorem Handled.answering (hhandled : Handled s t id call) (h : Answering fmap₀ s)
    (hanswered : ∀ other command reply, t.connections other = .answered command reply →
      s.connections other = .answered command reply ∨ Answered fmap₀ t other command reply) :
    Answering fmap₀ t := by
  apply h.later hhandled.later
  · intro other
    rw [hhandled.sentAfter, hhandled.handled, List.length_append]
    exact (h.sentAfter other).trans (Nat.le_add_right _ _)
  · exact fun lookup hlookup => .inl (hhandled.lookups ▸ hlookup)
  · exact fun other name inputs function htask => .inl (hhandled.tasks ▸ htask)
  · exact hanswered

theorem answered_drop {connection : Connection Ctx} {reply : Reply Ctx}
    (h : connection.drop = .answered command reply) : connection = .answered command reply := by
  cases connection with
  | waiting other => cases h
  | _ => exact h

/-- The state of a registration that was run, before its callback is called. -/
abbrev inserted (s : Server Ctx) (channel : List (Nat × DispatcherCommand Ctx)) (id : Nat)
    (call : Call Ctx) : Server Ctx :=
  { s with channel, fmap := (exec call.run s.fmap).2, handled := s.handled ++ [(id, call)] }

theorem Consistent.stop (h : Consistent fmap₀ s) (hrunning : s.running = true)
    (hcall : command.registration? = some call) (hchannel : s.channel = (id, command) :: channel)
    (hcause : ¬ Returns (exec call.run s.fmap).1 ∨ s.connections id = .left command) :
    Keeps fmap₀ s ((s.inserted channel id call).stop id) := by
  have hhandled : Handled s ((s.inserted channel id call).stop id) id call := by
    refine ⟨rfl, rfl, rfl, rfl, rfl, rfl, fun other => ?_⟩
    simp only [Server.stop]
    split
    · exact settles_drop _
    · exact .inl rfl
  have hstopped : ((s.inserted channel id call).stop id).running = false := rfl
  refine ⟨hhandled.later, hhandled.inOrder h.inOrder hrunning hcall hchannel (by simp [hstopped]),
    hhandled.commanded h.commanded hchannel (.inl rfl), ?_, by simp [hstopped], fun _ => ?_⟩
  · apply hhandled.answering h.answering
    intro other command' reply hanswered
    simp only [Server.stop] at hanswered
    split at hanswered
    · exact .inl (answered_drop hanswered)
    · exact .inl hanswered
  · refine ⟨s.handled, id, call, rfl, ?_⟩
    rw [← h.inOrder.sequential]
    refine hcause.imp_right fun hleft => ⟨command, ?_, hcall⟩
    simp [Server.stop, hleft, Connection.drop]

theorem Consistent.confirm (h : Consistent fmap₀ s) (hrunning : s.running = true)
    (hcall : command.registration? = some call) (hchannel : s.channel = (id, command) :: channel)
    (result : Except DandelionError Unit)
    (hresult : (exec call.run s.fmap).1 = result.mapError Stop.error) :
    Keeps fmap₀ s ((s.inserted channel id call).confirm id result) := by
  rcases h.commanded.pending (id, command) (hchannel ▸ List.mem_cons_self) with hwaiting | hleft
  · have hconfirm : (s.inserted channel id call).confirm id result =
        (s.inserted channel id call).setConnection id (.answered command (.inserted result)) := by
      simp only [Server.confirm]
      rw [hwaiting]
    rw [hconfirm]
    set t := (s.inserted channel id call).setConnection id (.answered command (.inserted result))
    have hself : t.connections id = .answered command (.inserted result) := Function.update_self ..
    have hother : ∀ other ≠ id, t.connections other = s.connections other :=
      fun other hne => Function.update_of_ne hne _ _
    have hhandled : Handled s t id call := by
      refine ⟨rfl, rfl, rfl, rfl, rfl, rfl, fun other => ?_⟩
      by_cases heq : other = id
      · subst heq
        rw [hself]
        exact .inr ⟨command, hwaiting, rfl⟩
      · exact .inl (hother other heq)
    refine ⟨hhandled.later, hhandled.inOrder h.inOrder hrunning hcall hchannel fun _ => rfl,
      hhandled.commanded h.commanded hchannel (.inr ⟨rfl, hother⟩), ?_, fun _ entry hentry => ?_,
      fun hstop => ?_⟩
    · apply hhandled.answering h.answering
      intro other command' reply hanswered
      by_cases heq : other = id
      · subst heq
        rw [hself] at hanswered
        cases hanswered
        refine .inr (.inserted hcall (n := s.handled.length) ?_ (h.answering.sentAfter other) ?_)
        · rw [hhandled.handled]
          simp
        · rw [ReturnsAfter, registryAfter, hhandled.handled, List.take_left, ← h.inOrder.sequential]
          exact hresult
      · exact .inl (hother other heq ▸ hanswered)
    · rw [hhandled.handled] at hentry
      rcases List.mem_append.mp hentry with hold | hnew
      · exact (h.serving.running hrunning entry hold).later hhandled.later
      · rw [List.mem_singleton.mp hnew]
        exact ⟨command, result, hself, hcall⟩
    · have hrun : true = false := hrunning.symm.trans hstop
      cases hrun
  · have hconfirm : (s.inserted channel id call).confirm id result =
        (s.inserted channel id call).stop id := by
      simp only [Server.confirm]
      rw [hleft]
    rw [hconfirm]
    exact h.stop hrunning hcall hchannel (.inr hleft)

theorem Consistent.register (h : Consistent fmap₀ s) (hrunning : s.running = true)
    (hcall : command.registration? = some call) (hchannel : s.channel = (id, command) :: channel) :
    Keeps fmap₀ s (Server.register { s with channel } id call) := by
  rw [Server.register]
  cases hresult : (exec call.run s.fmap).1 with
  | ok value => exact h.confirm hrunning hcall hchannel (.ok value) hresult
  | error stop =>
    cases stop with
    | error e => exact h.confirm hrunning hcall hchannel (.error e) hresult
    | panic => exact h.stop hrunning hcall hchannel (.inl (hresult ▸ not_returns_crash))
    | diverge => exact h.stop hrunning hcall hchannel (.inl (hresult ▸ not_returns_diverge))

end Registrations

theorem Consistent.act {t : Server Ctx} (h : Consistent fmap₀ s) {action : Action Ctx}
    (hact : Server.act s action = some t) : Keeps fmap₀ s t := by
  cases action with
  | send id command =>
    simp only [Server.act] at hact
    split at hact
    · next hidle hrunning =>
      split at hact
      · cases hact
        exact h.push hidle hrunning command
      · cases hact
    · next hidle _ =>
      cases hact
      exact h.refuse hidle command
    · cases hact
  | disconnect id =>
    simp only [Server.act] at hact
    split at hact
    · next hwaiting =>
      cases hact
      exact h.disconnect hwaiting
    · cases hact
  | handle =>
    simp only [Server.act] at hact
    split at hact
    · next hrunning hchannel =>
      cases hact
      exact h.spawn hchannel
    · next hrunning hchannel =>
      cases hact
      exact h.register hrunning rfl hchannel
    · next hrunning hchannel =>
      cases hact
      exact h.register hrunning rfl hchannel
    · cases hact
  | lookUp id =>
    simp only [Server.act] at hact
    split at hact
    · next htask =>
      cases hact
      exact h.lookUp htask
    · cases hact
  | finish id result =>
    simp only [Server.act] at hact
    split at hact
    · next htask =>
      cases hact
      exact h.finish htask result
    · cases hact
  | panic id =>
    simp only [Server.act] at hact
    split at hact
    · next htask =>
      cases hact
      exact h.drop (by simp [htask, RequestTask.request?]) (settles_drop _) fun _ _ => answered_drop
    · cases hact
  | cancel id =>
    simp only [Server.act] at hact
    have hsame : s.setTask id .none = (s.setTask id .none).setConnection id (s.connections id) := by
      simp [setTask, setConnection]
    split at hact
    · next htask hleft =>
      cases hact
      rw [hsame]
      exact h.drop (by simp [htask, RequestTask.request?]) (.inl rfl) fun _ _ heq => heq
    · next htask hleft =>
      cases hact
      rw [hsame]
      exact h.drop (by simp [htask, RequestTask.request?]) (.inl rfl) fun _ _ heq => heq
    · cases hact

theorem Consistent.run {t : Server Ctx} {actions : List (Action Ctx)} (h : Consistent fmap₀ s)
    (hrun : Transitions.run Server.act s actions = some t) : Keeps fmap₀ s t := by
  induction actions generalizing s with
  | nil =>
    cases hrun
    exact ⟨.refl _, h⟩
  | cons action actions ih =>
    obtain ⟨u, hact, hrest⟩ := Option.bind_eq_some_iff.mp hrun
    obtain ⟨hlater, hconsistent⟩ := h.act hact
    obtain ⟨hlater', hconsistent'⟩ := ih hconsistent hrest
    exact ⟨hlater.trans hlater', hconsistent'⟩

end Steps

section Names

/-- The names that a registration is about. -/
def registeredNames : Call Ctx → List String
  | .insertFunction _ functionId _ _ _ _ => [functionId]
  | .insertCompositions _ compositionDesc => ((Dparser.parse compositionDesc).map compositionNames).getD []

/-- An entry is what a registration has made, on this registry, or has come of it. -/
def Provides (fmap : FunctionMap Ctx) (name : String) (entry : Registry.FunctionType Ctx) : Call Ctx → Prop
  | .insertFunction _ functionId engineType contextSize path _ => name = functionId ∧
    ∃ info, entry = .function info ∧ ⟨engineType, contextSize, path⟩ ∈ info.alternatives
  | .insertCompositions tryReserve compositionDesc => ∃ module compVec composition metadata,
    Dparser.parse compositionDesc = some module ∧
    FunctionRegistry.compositionFromModule (Registry.lookups fmap tryReserve) module = .ok compVec ∧
    (name, composition, metadata) ∈ compVec ∧
    entry = .composition ⟨composition, compositionMetadata metadata⟩

variable {fmap : FunctionMap Ctx} {name : String} {call : Call Ctx}

theorem Provides.extends {entry entry' : Registry.FunctionType Ctx} (h : Provides fmap name entry call)
    (hextends : entry.Extends entry') : Provides fmap name entry' call := by
  cases call with
  | insertFunction binaryFound functionId engineType contextSize path metadata =>
    obtain ⟨hname, info, rfl, hmem⟩ := h
    cases hextends with
    | function hinfo => exact ⟨hname, _, rfl, hinfo.alternatives.subset hmem⟩
  | insertCompositions tryReserve compositionDesc =>
    obtain ⟨module, compVec, composition, metadata, hparse, hcompVec, hmem, rfl⟩ := h
    cases hextends
    exact ⟨module, compVec, composition, metadata, hparse, hcompVec, hmem, rfl⟩

theorem compositionsFrom_map_fst {registry : FunctionRegistry} {module : Dparser.Module}
    {compositionIds : List String} {knownFunctions : OrderedMap String Dparser.FunctionDecl}
    {entries : List (String × Composition × Dandelion.Metadata)}
    (h : FunctionRegistry.compositionsFrom registry module compositionIds knownFunctions = .ok entries) :
    entries.map Prod.fst = compositionNames module := by
  induction module generalizing compositionIds knownFunctions entries with
  | nil =>
    cases h
    rfl
  | cons item items ih =>
    rw [FunctionRegistry.compositionsFrom.eq_def] at h
    cases item with
    | functionDecl decl =>
      simp only at h
      split at h
      · exact ih h
      · cases h
    | composition comp =>
      simp only at h
      split at h
      · cases h
      · obtain ⟨first, hfirst, h⟩ := (bind_eq_ok_iff _ _ _).mp h
        obtain ⟨rest, hrest, h⟩ := (bind_eq_ok_iff _ _ _).mp h
        cases h
        rw [List.map_cons, ih hrest, composition_name hfirst]
        rfl

/-- An alternative that was inserted is among those of its function. -/
theorem fmapInsertFunction_provides {funcAlt : FunctionAlternative} {funcMeta : Registry.Metadata Ctx}
    (h : (exec (fmapInsertFunction name funcAlt funcMeta false) fmap).1 = .ok ()) :
    ∃ info, (exec (fmapInsertFunction name funcAlt funcMeta false) fmap).2.get? name =
      some (.function info) ∧ funcAlt ∈ info.alternatives := by
  rw [fmapInsertFunction, exec_get_bind] at h ⊢
  cases hold : fmap.get? name with
  | none =>
    refine ⟨⟨[funcAlt], funcMeta⟩, ?_, List.mem_singleton_self _⟩
    exact OrderedMap.get?_insert_self fmap name _
  | some entry =>
    cases entry with
    | systemFunction info =>
      rw [hold] at h
      cases h
    | composition info =>
      rw [hold] at h
      cases h
    | function info =>
      simp only [hold, Bool.false_eq_true, if_false, pushAlternative] at h ⊢
      split at h
      · cases h
      · next hnew =>
        rw [if_neg hnew]
        exact ⟨_, OrderedMap.get?_insert_self fmap name _, List.mem_append_right _ (by simp)⟩

theorem registered_provides (h : (exec call.run fmap).1 = .ok ()) (hname : name ∈ registeredNames call) :
    ∃ entry, (exec call.run fmap).2.get? name = some entry ∧ Provides fmap name entry call := by
  cases call with
  | insertFunction binaryFound functionId engineType contextSize path metadata =>
    cases List.mem_singleton.mp hname
    cases binaryFound with
    | false => cases h
    | true =>
      obtain ⟨info, hget, hmem⟩ := fmapInsertFunction_provides h
      exact ⟨_, hget, rfl, info, rfl, hmem⟩
  | insertCompositions tryReserve compositionDesc =>
    rw [Call.run, insertCompositions] at h ⊢
    rw [registeredNames] at hname
    cases hparse : Dparser.parse compositionDesc with
    | none =>
      rw [hparse] at hname
      cases hname
    | some module =>
      rw [hparse] at hname
      simp only [hparse, exec_get_bind] at h ⊢
      cases hcompVec : FunctionRegistry.compositionFromModule (Registry.lookups fmap tryReserve) module with
      | error stop =>
        rw [hcompVec] at h
        cases h
      | ok compVec =>
        rw [exec_lift_ok_bind]
        obtain ⟨hfree, hnodup⟩ := compositionsFrom_names hcompVec
        have hmem : name ∈ compVec.map Prod.fst := by
          rw [compositionsFrom_map_fst hcompVec]
          exact hname
        obtain ⟨⟨_, composition, metadata⟩, hentry, rfl⟩ := List.mem_map.mp hmem
        have hinserted := (insertAll_ok (fun entry hentry => (hfree entry hentry).1) hnodup).2 _ hentry
        exact ⟨_, hinserted, module, compVec, composition, metadata, hparse, hcompVec, hentry, rfl⟩

end Names

section Runs

variable {fmap₀ : FunctionMap Ctx} {actions : List (Action Ctx)} {s : Server Ctx}

theorem registryAfter_succ {n id : Nat} {call : Call Ctx} (h : s.handled[n]? = some (id, call)) :
    registryAfter fmap₀ s (n + 1) = (exec call.run (registryAfter fmap₀ s n)).2 := by
  rw [registryAfter, List.take_add_one, h]
  simp [runCalls, registryAfter]

theorem registryAfter_grows {m n : Nat} (h : m ≤ n) :
    Grows (registryAfter fmap₀ s m) (registryAfter fmap₀ s n) := by
  obtain ⟨k, rfl⟩ := Nat.exists_eq_add_of_le h
  have hsplit : registryAfter fmap₀ s (m + k) =
      runCalls (registryAfter fmap₀ s m) (((s.handled.drop m).take k).map Prod.snd) := by
    simp [registryAfter, List.take_add, runCalls]
  rw [hsplit]
  exact (runCalls_evolves _ _).grows

theorem Answered.place {id : Nat} {command : DispatcherCommand Ctx} {call : Call Ctx}
    {result : Except DandelionError Unit} (h : Answered fmap₀ s id command (.inserted result))
    (hcall : command.registration? = some call) :
    ∃ n, s.handled[n]? = some (id, call) ∧ s.sentAfter id ≤ n ∧
      ReturnsAfter fmap₀ s n call result := by
  cases h with
  | inserted hcall' hhandled hsent hresult =>
    cases hcall'.symm.trans hcall
    exact ⟨_, hhandled, hsent, hresult⟩

theorem InOrder.place_unique (h : InOrder fmap₀ s) {n n' id : Nat} {call call' : Call Ctx}
    (hn : s.handled[n]? = some (id, call)) (hn' : s.handled[n']? = some (id, call')) : n = n' := by
  have hnodup : (s.handled.map Prod.fst).Nodup := (h.sent.sublist.map Prod.fst).nodup h.unique
  have hid : (s.handled.map Prod.fst)[n]? = some id := by simp [hn]
  have hid' : (s.handled.map Prod.fst)[n']? = some id := by simp [hn']
  obtain ⟨hlt, -⟩ := List.getElem?_eq_some_iff.mp hid
  exact (List.getElem?_inj hlt hnodup).mp (hid.trans hid'.symm)

/-- The server is as if every command took effect at one moment. The registrations are handled one
after the other, each once and in the order in which they were sent; a registration is answered with
its result at its place among them, and a function is looked up as it is after some number of them,
which is at least the number that had been handled when the command was sent. -/
theorem answered_in_order (hrun : Transitions.run act (initial fmap₀) actions = some s) :
    s.fmap = runCalls fmap₀ (s.handled.map Prod.snd) ∧ s.handled <+: s.sent ∧
      (s.sent.map Prod.fst).Nodup ∧
      (∀ id command reply, s.connections id = .answered command reply →
        Answered fmap₀ s id command reply) ∧
      ∀ lookup ∈ s.lookups, lookup.Right fmap₀ s := by
  obtain ⟨-, h⟩ := (consistent_initial fmap₀).run hrun
  exact ⟨h.inOrder.sequential, h.inOrder.sent, h.inOrder.unique, h.answering.answered,
    h.answering.lookups⟩

/-- A registration of a function. -/
def registerF : Call Unit := .insertFunction true "F" .process 4096 "f" ⟨[], []⟩

def registerCommand : DispatcherCommand Unit := .functionRegistration true "F" .process 4096 "f" ⟨[], []⟩

/-- Another client asks for the function. -/
def requestActions : List (Action Unit) :=
  [.send 1 (.functionRequest "F" []), .handle, .lookUp 1, .finish 1 (.ok [])]

theorem request_answered : ∃ s : Server Unit,
    Transitions.run act (initial httpRegistry) (.send 0 registerCommand :: .handle :: requestActions) =
        some s ∧
      ∃ reply, s.connections 1 = .answered (.functionRequest "F" []) reply ∧
        Answered httpRegistry s 1 (.functionRequest "F" []) reply := by
  refine ⟨_, rfl, _, rfl, ?_⟩
  have hrun := @answered_in_order Unit httpRegistry
    (.send 0 registerCommand :: .handle :: requestActions) _ rfl
  exact hrun.2.2.2.1 1 _ _ rfl

/-- A request that is sent after a registration of its function was confirmed finds what that
registration has made, whatever else is registered before, meanwhile and after. -/
theorem confirmed_is_found {id id' : Nat} {command : DispatcherCommand Ctx} {call : Call Ctx}
    {name : String} {inputs : List (Option (CompositionSet Ctx))} {later : List (Action Ctx)}
    {t : Server Ctx} (hrun : Transitions.run act (initial fmap₀) actions = some s)
    (hconfirmed : s.connections id = .answered command (.inserted (.ok ())))
    (hcall : command.registration? = some call) (hname : name ∈ registeredNames call)
    (hidle : s.connections id' = .idle) (hlater : Transitions.run act s later = some t)
    (hrequest : (t.connections id').command? = some (.functionRequest name inputs))
    {lookup : Lookup Ctx} (hlookup : lookup ∈ t.lookups) (hid : lookup.id = id') :
    ∃ n entry, t.handled[n]? = some (id, call) ∧ lookup.found = some entry ∧
      Provides (registryAfter fmap₀ t n) name entry call := by
  obtain ⟨-, h⟩ := (consistent_initial fmap₀).run hrun
  obtain ⟨hst, ht⟩ := h.run hlater
  subst hid
  obtain ⟨n, hhandled, -, hresult⟩ := (h.answering.answered id command _ hconfirmed).place hcall
  obtain ⟨hn, hget⟩ := List.getElem?_eq_some_iff.mp hhandled
  have hhandled' : t.handled[n]? = some (id, call) := by
    rw [List.prefix_iff_getElem?.mp hst.handled n hn, hget]
  have hok : (exec call.run (registryAfter fmap₀ t n)).1 = .ok () := by
    rw [registryAfter_later hst.handled hn.le]
    exact hresult
  obtain ⟨entry, hentry, hprovides⟩ := registered_provides hok hname
  -- the lookup comes after the registration, by the time at which the request was sent
  have hright := ht.answering.lookups lookup hlookup
  have hsent : s.handled.length ≤ t.sentAfter lookup.id := by
    rcases hst.sentSince _ hidle with hstill | hsince
    · simp [hstill, Connection.command?] at hrequest
    · exact hsince
  have hafter : n + 1 ≤ lookup.after := (Nat.succ_le_of_lt hn).trans (hsent.trans hright.sent)
  rw [← registryAfter_succ hhandled'] at hentry
  obtain ⟨entry', hentry', hextends⟩ := registryAfter_grows hafter name entry hentry
  obtain ⟨name', inputs', hcommand, hfound⟩ := hright.found
  rw [hrequest] at hcommand
  cases hcommand
  exact ⟨n, entry', hhandled', hfound.trans hentry', hprovides.extends hextends⟩

theorem registerF_found : ∃ (s t : Server Unit) (lookup : Lookup Unit),
    Transitions.run act (initial httpRegistry) [.send 0 registerCommand, .handle] = some s ∧
      Transitions.run act s requestActions = some t ∧ lookup ∈ t.lookups ∧
      ∃ n entry, t.handled[n]? = some (0, registerF) ∧ lookup.found = some entry ∧
        Provides (registryAfter httpRegistry t n) "F" entry registerF :=
  ⟨_, _, _, rfl, rfl, List.mem_singleton_self _,
    @confirmed_is_found Unit httpRegistry [.send 0 registerCommand, .handle] _ 0 1 registerCommand
      registerF "F" [] requestActions _ rfl rfl rfl (List.mem_singleton_self _) rfl rfl rfl _
      (List.mem_singleton_self _) rfl⟩

/-- The loop of the dispatcher runs until a registration panics, or finds at its end that its client
has left. -/
theorem stopped_iff (hrun : Transitions.run act (initial fmap₀) actions = some s) :
    s.running = false ↔ ∃ n id call, s.handled[n]? = some (id, call) ∧
      (¬ Returns (exec call.run (registryAfter fmap₀ s n)).1 ∨
        ∃ command, s.connections id = .left command) := by
  obtain ⟨-, h⟩ := (consistent_initial fmap₀).run hrun
  constructor
  · intro hstopped
    obtain ⟨before, id, call, hhandled, hcause⟩ := h.serving.stopped hstopped
    refine ⟨before.length, id, call, by simp [hhandled], hcause.imp ?_ ?_⟩
    · rw [registryAfter, hhandled, List.take_left]
      exact fun hpanic => hpanic
    · rintro ⟨command, hleft, -⟩
      exact ⟨command, hleft⟩
  · rintro ⟨n, id, call, hhandled, hcause⟩
    by_contra hrunning
    rw [Bool.not_eq_false] at hrunning
    obtain ⟨command, result, hconnection, hcall⟩ :=
      h.serving.running hrunning _ (List.mem_of_getElem? hhandled)
    obtain ⟨n', hhandled', -, hresult⟩ := (h.answering.answered id command _ hconnection).place hcall
    rw [← h.inOrder.place_unique hhandled hhandled'] at hresult
    rcases hcause with hpanic | ⟨command', hleft⟩
    · apply hpanic
      rw [hresult]
      cases result with
      | ok value => exact returns_ok value
      | error e => exact returns_fail e
    · rw [hconnection] at hleft
      cases hleft

theorem left_registration_stops : ∃ s : Server Unit,
    Transitions.run act (initial httpRegistry) [.send 0 registerCommand, .disconnect 0, .handle] =
      some s ∧ s.running = false :=
  ⟨_, rfl, (@stopped_iff Unit httpRegistry [.send 0 registerCommand, .disconnect 0, .handle] _ rfl).mpr
    ⟨0, 0, registerF, rfl, .inr ⟨registerCommand, rfl⟩⟩⟩

end Runs

end Dandelion.Server
