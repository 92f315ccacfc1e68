import Dandelion.LinkedLists
import Dandelion.PromiseSlot

/-!
# The promise buffer

The slots of a buffer and the stack of the free ones, with any number of clients that get
promises and drop promises and debts. Every step is one atomic operation or one memory
access. A slot is a union: it holds the pointer to the next free slot or the data of a
promise, and who reads the pointer from a slot in use may find anything.
-/

namespace Dandelion.PromiseBuffer

open LinkedLists PromiseSlot

inductive Cell (n : Nat) where
  | next (pointer : Option (Fin n))
  | data (flags : FlagByte)
deriving DecidableEq, Repr

inductive Origin where
  | promise
  | debt
deriving DecidableEq, Repr

def Origin.flag : Origin → FlagByte
  | .promise => promiseAlive
  | .debt => debtAlive

/-- Where a client is: in `get_promise_data` up to a slot it has taken, or in `drop_promise_data` from
the slot whose other side is gone to the exchange that links it in. -/
inductive Pc (n : Nat) where
  | idle
  | gotHead (current : Fin n)
  | gotNext (current : Fin n) (newHead : Option (Fin n))
  | taken (slot : Fin n)
  | reclaiming (slot : Fin n)
  | linking (slot : Fin n) (head : Option (Fin n))
  | linked (slot : Fin n) (head : Option (Fin n))
deriving DecidableEq, Repr

structure Buffer (n : Nat) where
  head : Option (Fin n)
  cells : Fin n → Cell n
  clients : Nat → Pc n
  /-- how many promises and debts of a slot there are -/
  handles : Fin n → Origin → Nat

/-- A buffer of `n + 1` slots; `init` panics for a buffer without any. -/
def init (n : Nat) : Buffer (n + 1) where
  head := some 0
  cells := fun slot =>
    .next (if h : slot.val + 1 < n + 1 then some ⟨slot.val + 1, h⟩ else none)
  clients := fun _ => .idle
  handles := fun _ _ => 0

variable {n : Nat}

inductive Action (n : Nat) where
  | getPromise (client : Nat)
  | dropHandle (client : Nat) (slot : Fin n) (origin : Origin)
  /-- the next step of a client; `found` is what it reads where no pointer is -/
  | advance (client : Nat) (found : Option (Fin n))
  | setFlags (slot : Fin n) (origin : Origin) (flags : FlagByte)
deriving DecidableEq, Repr

def Buffer.setClient (s : Buffer n) (client : Nat) (pc : Pc n) : Buffer n :=
  { s with clients := Function.update s.clients client pc }

def Buffer.setCell (s : Buffer n) (slot : Fin n) (cell : Cell n) : Buffer n :=
  { s with cells := Function.update s.cells slot cell }

def Buffer.withHead (s : Buffer n) (client : Nat) : Buffer n :=
  s.setClient client (match s.head with
    | none => .idle
    | some current => .gotHead current)

def Cell.pointer (found : Option (Fin n)) : Cell n → Option (Fin n)
  | .next pointer => pointer
  | .data _ => found

def advance (s : Buffer n) (client : Nat) (found : Option (Fin n)) : Option (Buffer n) :=
  match s.clients client with
  | .idle => none
  | .gotHead current =>
    some (s.setClient client (.gotNext current ((s.cells current).pointer found)))
  | .gotNext current newHead =>
    if s.head = some current then
      some { s.setClient client (.taken current) with head := newHead }
    else some (s.withHead client)
  | .taken slot =>
    let t := (s.setCell slot (.data (debtAlive ||| promiseAlive))).setClient client .idle
    some { t with handles := Function.update s.handles slot fun origin => s.handles slot origin + 1 }
  | .reclaiming slot => some (s.setClient client (.linking slot s.head))
  | .linking slot head => some ((s.setCell slot (.next head)).setClient client (.linked slot head))
  | .linked slot head =>
    if s.head = head then some { s.setClient client .idle with head := some slot }
    else some (s.setClient client (.linking slot s.head))

def Buffer.dropHandle (s : Buffer n) (slot : Fin n) (origin : Origin) : Fin n → Origin → Nat :=
  Function.update s.handles slot (Function.update (s.handles slot) origin (s.handles slot origin - 1))

def step (s : Buffer n) : Action n → Option (Buffer n)
  | .getPromise client =>
    if s.clients client = .idle then some (s.withHead client) else none
  | .dropHandle client slot origin =>
    if s.clients client = .idle ∧ s.handles slot origin ≠ 0 then
      match s.cells slot with
      | .data previousFlags =>
        let flags := previousFlags &&& ~~~origin.flag
        let t := (s.setCell slot (.data flags)).setClient client
          (if flags &&& alive = 0 then .reclaiming slot else .idle)
        some { t with handles := s.dropHandle slot origin }
      -- the flags of a slot without data are not defined
      | .next _ => none
    else none
  | .advance client found => advance s client found
  | .setFlags slot origin flags =>
    match s.cells slot with
    | .data previousFlags =>
      if s.handles slot origin ≠ 0 ∧ flags &&& alive = previousFlags &&& alive then
        some (s.setCell slot (.data flags))
      else none
    | .next _ => none

end Dandelion.PromiseBuffer
