import Dandelion.Outcome
import Dandelion.CompositionSet

/-!
# The join iterator and `get_sharding`

`get_sharding` turns the input sets of one application into the list of inputs
of its parallel runs. The sets are joined from left to right by a chain of
cursors. A chain is written as the list of its nodes, the outermost first: the
tail of a node is its `left` iterator and the empty list is `None`.

Slice accesses that can leave their slice are explicit panics, and every loop
runs under `moves`, a bound on the steps the cursors of a chain still have.
-/

namespace Dandelion

open Outcome

inductive JoinStrategy where
  | inner
  | left
  | right
  | outer
  | cross
deriving DecidableEq, Repr

structure JoinNode (Ctx : Type) where
  right : List (CompositionSet Ctx)
  rightIndex : Nat
  writeIndex : Nat
  mode : JoinStrategy
  key : Nat
deriving DecidableEq, Repr

abbrev JoinIterator (Ctx : Type) := List (JoinNode Ctx)

/-- Every call of the join code ends with a value or a panic. -/
abbrev Join (α : Type) := Outcome Empty α

variable {Ctx : Type}

/-- `right[index].item_list[0].0` -/
def keyAt (right : List (CompositionSet Ctx)) (index : Nat) : Join Nat :=
  match right[index]? with
  | none => crash
  | some set =>
    match set.itemList with
    | [] => crash
    | item :: _ => pure item.1

namespace JoinIterator

/-- `left.key` -/
def key : JoinIterator Ctx → Nat
  | [] => 0
  | node :: _ => node.key

/-- A bound on the successful advances of a chain. -/
def moves : JoinIterator Ctx → Nat
  | [] => 0
  | node :: left => moves left * (node.right.length + 1) + (node.right.length - node.rightIndex)

end JoinIterator

open JoinIterator

/-- `while index < right.len() && right[index] < bound { index += 1 }` -/
def skipBelow (right : List (CompositionSet Ctx)) (bound : Nat) (index : Nat) : Join Nat :=
  loop (fun index =>
    if index < right.length then do
      if (← keyAt right index) < bound then pure (.inl (index + 1)) else pure (.inr index)
    else pure (.inr index)) (right.length - index + 1) index

section Advance

-- `step` is `left.advance()`, the iterator on a node's left side.
variable (step : JoinIterator Ctx → Join (Bool × JoinIterator Ctx))

def advanceRoot (node : JoinNode Ctx) : Join (Bool × JoinIterator Ctx) :=
  if node.rightIndex < node.right.length then
    if node.mode = .right ∨ node.mode = .outer ∨ node.mode = .cross then
      if node.rightIndex + 1 < node.right.length then do
        let key ← keyAt node.right (node.rightIndex + 1)
        pure (true, [{ node with rightIndex := node.rightIndex + 1, key }])
      else pure (false, [{ node with rightIndex := node.rightIndex + 1 }])
    else crash
  else pure (false, [node])

/-- One round of the matching loop of an inner node. -/
def innerRound : JoinNode Ctx × JoinIterator Ctx →
    Join ((JoinNode Ctx × JoinIterator Ctx) ⊕ (Bool × JoinIterator Ctx))
  | (node, left) =>
    if left.key < node.key then do
      let (moved, left) ← step left
      if moved then pure (.inl (node, left)) else pure (.inr (false, node :: left))
    else if node.key < left.key then
      let node := { node with rightIndex := node.rightIndex + 1 }
      if node.rightIndex < node.right.length then do
        let key ← keyAt node.right node.rightIndex
        pure (.inl ({ node with key }, left))
      else pure (.inr (false, node :: left))
    else pure (.inr (true, node :: left))

def advanceInner (node : JoinNode Ctx) (left : JoinIterator Ctx) :
    Join (Bool × JoinIterator Ctx) :=
  if node.right.length ≤ node.rightIndex then pure (false, node :: left)
  else do
    let (moved, left) ← step left
    if moved then pure (false, node :: left)
    else
      let node := { node with rightIndex := node.rightIndex + 1 }
      let key ← keyAt node.right node.rightIndex
      let node := { node with key }
      loop (innerRound step) (moves (node :: left) + 1) (node, left)

def advanceLeft (node : JoinNode Ctx) (left : JoinIterator Ctx) :
    Join (Bool × JoinIterator Ctx) := do
  let (moved, left) ← step left
  if moved then
    let rightIndex ← skipBelow node.right left.key node.rightIndex
    pure (true, { node with rightIndex, key := left.key } :: left)
  else pure (false, { node with rightIndex := node.right.length } :: left)

/-- `while key > left.key { if !left.advance() { break } }` -/
def catchUp (key : Nat) (left : JoinIterator Ctx) : Join (JoinIterator Ctx) :=
  loop (fun left =>
    if left.key < key then do
      let (moved, left) ← step left
      if moved then pure (.inl left) else pure (.inr left)
    else pure (.inr left)) (moves left + 1) left

def advanceRight (node : JoinNode Ctx) (left : JoinIterator Ctx) :
    Join (Bool × JoinIterator Ctx) :=
  if node.rightIndex < node.right.length then
    let node := { node with rightIndex := node.rightIndex + 1 }
    if node.rightIndex < node.right.length then do
      let key ← keyAt node.right node.rightIndex
      let left ← catchUp step key left
      pure (true, { node with key } :: left)
    else pure (false, node :: left)
  else pure (false, node :: left)

def advanceOuter (node : JoinNode Ctx) (left : JoinIterator Ctx) :
    Join (Bool × JoinIterator Ctx) :=
  if node.rightIndex < node.right.length then do
    if left.key = (← keyAt node.right node.rightIndex) then
      let (leftAdvance, left) ← step left
      let node := { node with rightIndex := node.rightIndex + 1 }
      match decide (node.rightIndex < node.right.length), leftAdvance with
      | true, false =>
        let key ← keyAt node.right node.rightIndex
        pure (true, { node with key } :: left)
      | false, true => pure (true, { node with key := left.key } :: left)
      | true, true =>
        let possibleKey ← keyAt node.right node.rightIndex
        let key := if possibleKey < left.key then possibleKey else left.key
        pure (true, { node with key } :: left)
      | false, false => pure (false, node :: left)
    else pure (false, node :: left)
  else do
    let (moved, left) ← step left
    if moved then pure (true, { node with key := left.key } :: left)
    else pure (false, node :: left)

def advanceCross (node : JoinNode Ctx) (left : JoinIterator Ctx) :
    Join (Bool × JoinIterator Ctx) :=
  if node.rightIndex + 1 < node.right.length then do
    let key ← keyAt node.right (node.rightIndex + 1)
    pure (true, { node with rightIndex := node.rightIndex + 1, key } :: left)
  else do
    let (moved, left) ← step left
    if moved then
      let key ← keyAt node.right 0
      pure (true, { node with rightIndex := 0, key } :: left)
    else pure (false, { node with rightIndex := node.right.length } :: left)

end Advance

/-- `advance` on a chain of at most `depth` nodes. -/
def advanceAt : Nat → JoinIterator Ctx → Join (Bool × JoinIterator Ctx)
  | 0, _ => .error .diverge
  | _ + 1, [] => pure (false, [])
  | _ + 1, [node] => advanceRoot node
  | depth + 1, node :: l :: ls =>
    match node.mode with
    | .inner => advanceInner (advanceAt depth) node (l :: ls)
    | .left => advanceLeft (advanceAt depth) node (l :: ls)
    | .right => advanceRight (advanceAt depth) node (l :: ls)
    | .outer => advanceOuter (advanceAt depth) node (l :: ls)
    | .cross => advanceCross (advanceAt depth) node (l :: ls)

namespace JoinIterator

def advance (it : JoinIterator Ctx) : Join (Bool × JoinIterator Ctx) := advanceAt it.length it

/-- One round of the search for a first match of an inner join. -/
def matchRound (right : List (CompositionSet Ctx)) : Nat × Nat × JoinIterator Ctx →
    Join ((Nat × Nat × JoinIterator Ctx) ⊕ (Nat × Nat × JoinIterator Ctx))
  | (rightIndex, key, left) =>
    if rightIndex < right.length ∧ key ≠ left.key then
      if key < left.key then
        if rightIndex + 1 < right.length then do
          let key ← keyAt right (rightIndex + 1)
          pure (.inl (rightIndex + 1, key, left))
        else pure (.inl (rightIndex + 1, key, left))
      else do
        let (moved, left) ← advance left
        if moved then pure (.inl (rightIndex, key, left))
        else pure (.inl (right.length, key, left))
    else pure (.inr (rightIndex, key, left))

/-- `JoinIterator::new`. The cursor of the new node always starts at index 0,
also where the search above has moved on. -/
def new (mode : JoinStrategy) (left : JoinIterator Ctx)
    (rightOpt : Option (ShardingMode × CompositionSet Ctx)) (writeIndex : Nat) :
    Join (JoinIterator Ctx) :=
  match rightOpt with
  | none => pure left
  | some (setMode, set) =>
    if set.isEmpty then pure left
    else
      let right := set.shard setMode
      if right.isEmpty then pure left
      else do
        let key ← keyAt right 0
        match left with
        | [] =>
          if mode = .inner ∨ mode = .left then pure []
          else pure [{ right, rightIndex := 0, writeIndex, mode, key }]
        | l :: ls =>
          match mode with
          | .inner =>
            let (rightIndex, key, left) ←
              loop (matchRound right) (moves (l :: ls) + right.length + 1) (0, key, l :: ls)
            if rightIndex = right.length then pure []
            else pure ({ right, rightIndex := 0, writeIndex, mode, key } :: left)
          | .left =>
            let rightIndex ← skipBelow right l.key 0
            if rightIndex = right.length then pure (l :: ls)
            else pure ({ right, rightIndex := 0, writeIndex, mode, key := l.key } :: l :: ls)
          | .outer =>
            let key := if l.key < key then l.key else key
            pure ({ right, rightIndex := 0, writeIndex, mode, key } :: l :: ls)
          | .right | .cross =>
            pure ({ right, rightIndex := 0, writeIndex, mode, key } :: l :: ls)

def fillIn : JoinIterator Ctx → List (Option (CompositionSet Ctx)) →
    Join (Bool × List (Option (CompositionSet Ctx)))
  | [], toFill => pure (false, toFill)
  | node :: left, toFill => do
    let (leftFilled, toFill) ← fillIn left toFill
    match node.right[node.rightIndex]? with
    | some shard =>
      if node.key = (← keyAt node.right node.rightIndex) then
        if node.writeIndex < toFill.length then
          pure (true, toFill.set node.writeIndex (some shard))
        else crash
      else pure (leftFilled, toFill)
    | none => pure (leftFilled, toFill)

end JoinIterator

/-- A vector of optional sharded sets, the input of one application. -/
abbrev ShardedInputs (Ctx : Type) := List (Option (ShardingMode × CompositionSet Ctx))

/-- One result of the sharding: the input sets of one run of the function. -/
abbrev Entry (Ctx : Type) := List (Option (CompositionSet Ctx))

/-- `missing_sets[*index] = None` for every index of the join order. -/
def markJoined : List (Option Nat) → List Nat → Join (List (Option Nat))
  | missing, [] => pure missing
  | missing, index :: order =>
    if index < missing.length then markJoined (missing.set index none) order else crash

/-- `sets[index].take()` -/
def takeSet (sets : ShardedInputs Ctx) (index : Nat) :
    Join (Option (ShardingMode × CompositionSet Ctx) × ShardedInputs Ctx) :=
  match sets[index]? with
  | some set => pure (set, sets.set index none)
  | none => crash

/-- `resize`: cut the list or fill it up with `value`. -/
def resize {α : Type} (l : List α) (n : Nat) (value : α) : List α :=
  l.take n ++ List.replicate (n - l.length) value

/-- Join the remaining sets in order; `zip_eq` panics when the order and the
strategies have different lengths. -/
def joinAll : JoinIterator Ctx → ShardedInputs Ctx → List Nat → List JoinStrategy →
    Join (JoinIterator Ctx)
  | it, _, [], [] => pure it
  | it, sets, index :: order, strategy :: strategies => do
    let (set, sets) ← takeSet sets index
    let it ← JoinIterator.new strategy it set index
    joinAll it sets order strategies
  | _, _, _, _ => crash

/-- `while join_iter.advance()`: one entry for every position of the chain. -/
def enumerateRound (setNum : Nat) : JoinIterator Ctx × List (Entry Ctx) →
    Join ((JoinIterator Ctx × List (Entry Ctx)) ⊕ List (Entry Ctx))
  | (it, finalSharding) => do
    let (moved, it) ← it.advance
    if moved then
      let (_, advanceSets) ← it.fillIn (List.replicate setNum none)
      pure (.inl (it, finalSharding ++ [advanceSets]))
    else pure (.inr finalSharding)

def enumerate (setNum : Nat) : JoinIterator Ctx → Join (List (Entry Ctx))
  | [] => pure []
  | node :: left => do
    let (_, newSets) ← fillIn (node :: left) (List.replicate setNum none)
    loop (enumerateRound setNum) (moves (node :: left) + 1) (node :: left, [newSets])

def getSharding (sets : ShardedInputs Ctx) (joinOrder : List Nat)
    (joinStrategies : List JoinStrategy) : Join (List (Entry Ctx)) :=
  let setNum := sets.length
  if setNum = 0 then pure []
  else do
    let missingSets ← markJoined ((List.range setNum).map some) joinOrder
    let order := joinOrder ++ missingSets.filterMap id
    let strategies := resize joinStrategies (setNum - 1) .cross
    match order with
    | [] => crash
    | first :: rest =>
      let (set, sets) ← takeSet sets first
      let it ← JoinIterator.new .outer [] set first
      let it ← joinAll it sets rest strategies
      enumerate setNum it

end Dandelion
