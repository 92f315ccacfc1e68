import Dandelion.RegistryInterleavings

/-!
# Serving requests

The server around the dispatcher. Every connection sends one command over a bounded channel and waits
for its callback; the loop of the dispatcher takes the commands from the channel one by one. It
handles a registration itself, and leaves a function request to a task of its own, which looks the
function up when it is first polled. A client may go away at any time. The task of a request is
dropped then, but a registration whose callback nobody waits for ends the loop, as a panic does.
-/

namespace Dandelion.Server

open Outcome Stateful Transitions Registry

variable {Ctx : Type}

inductive DispatcherCommand (Ctx : Type) where
  | functionRequest (name : String) (inputs : List (Option (CompositionSet Ctx)))
  | functionRegistration (binaryFound : Bool) (name : String) (engineType : EngineType)
      (contextSize : Nat) (path : String) (metadata : Registry.Metadata Ctx)
  | compositionRegistration (tryReserve : Nat → Bool) (composition : String)

/-- The call of the dispatcher that a registration stands for. -/
def DispatcherCommand.registration? : DispatcherCommand Ctx → Option (Call Ctx)
  | .functionRequest _ _ => none
  | .functionRegistration binaryFound name engineType contextSize path metadata =>
    some (.insertFunction binaryFound name engineType contextSize path metadata)
  | .compositionRegistration tryReserve composition => some (.insertCompositions tryReserve composition)

inductive Reply (Ctx : Type) where
  | output (result : Except DandelionError (List (Option (CompositionSet Ctx))))
  | inserted (result : Except DandelionError Unit)

/-- A connection with its command. It has failed when the command or its callback was dropped, where
the service of the connection panics. -/
inductive Connection (Ctx : Type) where
  | idle
  | waiting (command : DispatcherCommand Ctx)
  | answered (command : DispatcherCommand Ctx) (reply : Reply Ctx)
  | left (command : DispatcherCommand Ctx)
  | failed (command : DispatcherCommand Ctx)

def Connection.command? : Connection Ctx → Option (DispatcherCommand Ctx)
  | .idle => none
  | .waiting command | .answered command _ | .left command | .failed command => some command

def Connection.drop : Connection Ctx → Connection Ctx
  | .waiting command => .failed command
  | connection => connection

def Connection.reply (reply : Reply Ctx) : Connection Ctx → Connection Ctx
  | .waiting command => .answered command reply
  | connection => connection

inductive RequestTask (Ctx : Type) where
  | none
  | spawned (name : String) (inputs : List (Option (CompositionSet Ctx)))
  | running (name : String) (inputs : List (Option (CompositionSet Ctx)))
      (function : Registry.FunctionType Ctx)

/-- A lookup of a task: how many registrations had been handled, and what was found. -/
structure Lookup (Ctx : Type) where
  id : Nat
  after : Nat
  found : Option (Registry.FunctionType Ctx)

end Server

open Server Registry in
/-- The dispatcher with its channel and its tasks, the connections, and what has happened so far: the
registrations that were sent and handled, in their order, and how many had been handled when a command
was sent. -/
structure Server (Ctx : Type) where
  fmap : FunctionMap Ctx
  running : Bool
  channel : List (Nat × DispatcherCommand Ctx)
  tasks : Nat → RequestTask Ctx
  connections : Nat → Connection Ctx
  sent : List (Nat × Call Ctx)
  handled : List (Nat × Call Ctx)
  sentAfter : Nat → Nat
  lookups : List (Lookup Ctx)

namespace Server

open Outcome Stateful Transitions Registry

variable {Ctx : Type}

def initial (fmap : FunctionMap Ctx) : Server Ctx where
  fmap
  running := true
  channel := []
  tasks := fun _ => .none
  connections := fun _ => .idle
  sent := []
  handled := []
  sentAfter := fun _ => 0
  lookups := []

def capacity : Nat := 1000

inductive Action (Ctx : Type) where
  | send (id : Nat) (command : DispatcherCommand Ctx)
  | disconnect (id : Nat)
  | handle
  | lookUp (id : Nat)
  | finish (id : Nat) (result : Except DandelionError (List (Option (CompositionSet Ctx))))
  | panic (id : Nat)
  | cancel (id : Nat)

def registrationOf (entry : Nat × DispatcherCommand Ctx) : Option (Nat × Call Ctx) :=
  entry.2.registration?.map fun call => (entry.1, call)

def setConnection (s : Server Ctx) (id : Nat) (connection : Connection Ctx) : Server Ctx :=
  { s with connections := Function.update s.connections id connection }

def setTask (s : Server Ctx) (id : Nat) (task : RequestTask Ctx) : Server Ctx :=
  { s with tasks := Function.update s.tasks id task }

def push (s : Server Ctx) (id : Nat) (command : DispatcherCommand Ctx) : Server Ctx :=
  { s.setConnection id (.waiting command) with
    channel := s.channel ++ [(id, command)]
    sent := s.sent ++ (registrationOf (id, command)).toList
    sentAfter := Function.update s.sentAfter id s.handled.length }

/-- The channel is closed, which the service of the connection does not expect. -/
def refuse (s : Server Ctx) (id : Nat) (command : DispatcherCommand Ctx) : Server Ctx :=
  { s.setConnection id (.failed command) with
    sentAfter := Function.update s.sentAfter id s.handled.length }

/-- The loop ends at a registration: its callback is dropped, and so is the receiver of the channel
with every command that is still in it. -/
def stop (s : Server Ctx) (id : Nat) : Server Ctx :=
  { s with
    running := false
    channel := []
    connections := fun other =>
      if other = id ∨ other ∈ s.channel.map Prod.fst then (s.connections other).drop
      else s.connections other }

def confirm (s : Server Ctx) (id : Nat) (result : Except DandelionError Unit) : Server Ctx :=
  match s.connections id with
  | .waiting command => s.setConnection id (.answered command (.inserted result))
  | _ => s.stop id

def register (s : Server Ctx) (id : Nat) (call : Call Ctx) : Server Ctx :=
  let insertion := exec call.run s.fmap
  let s := { s with fmap := insertion.2, handled := s.handled ++ [(id, call)] }
  match insertion.1 with
  | .ok () => s.confirm id (.ok ())
  | .error (.error e) => s.confirm id (.error e)
  | .error _ => s.stop id

/-- The task of a request has the result, and nobody may wait for it any more. -/
def answer (s : Server Ctx) (id : Nat)
    (result : Except DandelionError (List (Option (CompositionSet Ctx)))) : Server Ctx :=
  s.setConnection id ((s.connections id).reply (.output result))

def lookUp (s : Server Ctx) (id : Nat) (name : String) (inputs : List (Option (CompositionSet Ctx))) :
    Server Ctx :=
  let lookup : Lookup Ctx := ⟨id, s.handled.length, s.fmap.get? name⟩
  let s := { s with lookups := s.lookups ++ [lookup] }
  match lookup.found with
  | some function => s.setTask id (.running name inputs function)
  | none => (s.setTask id .none).answer id (.error (.functionRegistry (.unknownFunction name)))

def act (s : Server Ctx) : Action Ctx → Option (Server Ctx)
  | .send id command =>
    match s.connections id, s.running with
    | .idle, true => if s.channel.length < capacity then some (s.push id command) else none
    | .idle, false => some (s.refuse id command)
    | _, _ => none
  | .disconnect id =>
    match s.connections id with
    | .waiting command => some (s.setConnection id (.left command))
    | _ => none
  | .handle =>
    match s.running, s.channel with
    | true, (id, .functionRequest name inputs) :: channel =>
      some { s.setTask id (.spawned name inputs) with channel }
    | true, (id, .functionRegistration binaryFound name engineType contextSize path metadata) ::
        channel =>
      some (register { s with channel } id
        (.insertFunction binaryFound name engineType contextSize path metadata))
    | true, (id, .compositionRegistration tryReserve composition) :: channel =>
      some (register { s with channel } id (.insertCompositions tryReserve composition))
    | _, _ => none
  | .lookUp id =>
    match s.tasks id with
    | .spawned name inputs => some (s.lookUp id name inputs)
    | _ => none
  | .finish id result =>
    match s.tasks id with
    | .running _ _ _ => some ((s.setTask id .none).answer id result)
    | _ => none
  | .panic id =>
    match s.tasks id with
    | .running _ _ _ => some ((s.setTask id .none).setConnection id (s.connections id).drop)
    | _ => none
  | .cancel id =>
    match s.tasks id, s.connections id with
    | .spawned _ _, .left _ | .running _ _ _, .left _ => some (s.setTask id .none)
    | _, _ => none

end Server

end Dandelion
