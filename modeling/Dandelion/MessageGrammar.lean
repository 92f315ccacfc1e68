import Dandelion.FrameBuf
import Dandelion.Transitions

/-!
# The grammar of a request

A request as its readers expect it: a list of fields that are still to come, and the
frames that are not read yet. One step takes the first field off; the fields of a set or
of an item are put in front when one starts. `Field.Safe` says what a field has to meet
where it is read, since its reader does not check it.
-/

namespace Dandelion

open Transitions

/-- The frames without their first bytes. Frames that are used up are dropped, and so are the
empty ones among them, but not an empty one behind the last byte. -/
def dropBytes : List (List UInt8) → Nat → List (List UInt8)
  | frames, 0 => frames
  | [], _ + 1 => []
  | frame :: frames, count + 1 =>
    if count + 1 < frame.length then frame.drop (count + 1) :: frames
    else dropBytes frames (count + 1 - frame.length)

@[simp] theorem dropBytes_zero (frames : List (List UInt8)) : dropBytes frames 0 = frames := by
  cases frames with
  | nil => rfl
  | cons frame frames => rfl

theorem flatten_dropBytes (frames : List (List UInt8)) (count : Nat) :
    (dropBytes frames count).flatten = frames.flatten.drop count := by
  induction frames generalizing count with
  | nil =>
    cases count with
    | zero => rfl
    | succ count => rfl
  | cons frame frames ih =>
    cases count with
    | zero => rfl
    | succ count =>
      rw [dropBytes, List.flatten_cons, List.drop_append]
      split
      · rename_i hlt
        rw [List.flatten_cons, Nat.sub_eq_zero_of_le hlt.le, List.drop_zero]
      · rename_i hge
        rw [ih, List.drop_of_length_le (Nat.le_of_not_lt hge), List.nil_append]

theorem length_dropBytes (frames : List (List UInt8)) (count : Nat) :
    (dropBytes frames count).flatten.length = frames.flatten.length - count := by
  rw [flatten_dropBytes, List.length_drop]

/-- The next bytes can be taken chunk by chunk: no frame they are taken from is empty. -/
def BytesReadable : List (List UInt8) → Nat → Prop
  | _, 0 => True
  | [], _ + 1 => False
  | frame :: frames, count + 1 => frame ≠ [] ∧ BytesReadable frames (count + 1 - frame.length)

/-- The next bytes can be taken if they are there. -/
def Takeable (frames : List (List UInt8)) (count : Nat) : Prop :=
  count ≤ frames.flatten.length → BytesReadable frames count

def byteAt (frames : List (List UInt8)) : Option Int8 := frames.flatten.head?.map UInt8.toInt8

/-- The next four bytes as a length. -/
def lengthAt (frames : List (List UInt8)) : Option Nat :=
  let length := (BitVec.ofNat 32 (leWord (frames.flatten.take 4))).toInt
  if 4 ≤ frames.flatten.length ∧ 0 ≤ length then some length.toNat else none

/-- The next eight bytes as a key. -/
def itemKeyAt (frames : List (List UInt8)) : Option Nat :=
  let key := (BitVec.ofNat 64 (leWord (frames.flatten.take 8))).toInt
  if 8 ≤ frames.flatten.length ∧ 0 ≤ key ∧ key < 2 ^ 32 then some key.toNat else none

/-- The frames behind a string of `length` bytes with its null, if it is one. -/
def stringAt (frames : List (List UInt8)) (length : Nat) : Option (List (List UInt8)) :=
  let rest := dropBytes frames (length - 1)
  if length - 1 ≤ frames.flatten.length ∧ byteAt rest = some 0 ∧
      (decodeUtf8 (frames.flatten.take (length - 1))).isSome then some (dropBytes rest 1)
  else none

/-- A name can be read up to its null or to the end: each frame's part of it is text of its own,
and no frame of it is empty. -/
def NameReadable : List (List UInt8) → Prop
  | [] => True
  | frame :: frames =>
    (frame :: frames).flatten = [] ∨
      match frame.findIdx? (· = 0) with
      | some index => (decodeUtf8 (frame.take (index + 1))).isSome
      | none => frame ≠ [] ∧ (decodeUtf8 frame).isSome ∧ NameReadable frames

/-- The name and the frames behind it. -/
def nameAt : List (List UInt8) → Option (String × List (List UInt8))
  | [] => some ("", [])
  | frame :: frames =>
    if (frame :: frames).flatten = [] then some ("", frame :: frames)
    else
      match frame.findIdx? (· = 0) with
      | some index =>
        (decodeUtf8 (frame.take (index + 1))).map fun s => (s, dropBytes (frame :: frames) (index + 1))
      | none => do
        let piece ← decodeUtf8 frame
        let (name, rest) ← nameAt frames
        some (piece ++ name, rest)

/-- What is read next. -/
inductive Field where
  /-- the length of the whole message -/
  | document
  | type (expected : Int8)
  | name (expected : String)
  | anyName
  | length
  /-- a length that is used for nothing -/
  | skippedLength
  | string
  | key
  | binary
  | terminator
  /-- the length of an array of items, and the array -/
  | array
  /-- the items up to a number of remaining bytes -/
  | items (arrayEnd : Nat)
  | sets
  /-- the zero behind the sets, and nothing more -/
  | messageEnd
deriving DecidableEq, Repr

def stringElemFields (ident : String) : List Field := [.type 2, .name ident, .string]

def itemFields : List Field :=
  [.anyName, .length] ++ stringElemFields "identifier\x00" ++ [.type 18, .name "key\x00", .key] ++
    [.type 5, .name "data\x00", .binary, .terminator]

def setFields : List Field :=
  [.anyName, .length] ++ stringElemFields "identifier\x00" ++
    [.type 4, .name "items\x00", .array, .terminator]

def messageFields : List Field :=
  [.document] ++ stringElemFields "name\x00" ++
    [.type 4, .name "sets\x00", .skippedLength, .sets, .messageEnd]

/-- The fields to come and the frames that are not read yet. -/
abbrev Expected := List Field × List (List UInt8)

/-- An element of an array: its fields, and the array again; or the end of the array. -/
def nextElement (fields : List Field) (again : Field) (todo : List Field)
    (frames : List (List UInt8)) : Option Expected :=
  match byteAt frames with
  | none => none
  | some b =>
    if b = 0 then some (todo, dropBytes frames 1)
    else if b = 3 then some (fields ++ again :: todo, dropBytes frames 1)
    else none

theorem nextElement_end {fields todo : List Field} {again : Field} {frames : List (List UInt8)}
    (h : byteAt frames = some 0) :
    nextElement fields again todo frames = some (todo, dropBytes frames 1) := by
  rw [nextElement, h]
  exact if_pos rfl

theorem nextElement_document {fields todo : List Field} {again : Field} {frames : List (List UInt8)}
    (h : byteAt frames = some 3) :
    nextElement fields again todo frames = some (fields ++ again :: todo, dropBytes frames 1) := by
  rw [nextElement, h]
  rfl

/-- What follows the first field, if it is accepted. -/
def Field.next (todo : List Field) (frames : List (List UInt8)) : Field → Option Expected
  | .document =>
    if lengthAt frames = some frames.flatten.length then some (todo, dropBytes frames 4) else none
  | .type expected =>
    if byteAt frames = some expected then some (todo, dropBytes frames 1) else none
  | .name expected =>
    match nameAt frames with
    | some (s, rest) => if s = expected then some (todo, rest) else none
    | none => none
  | .anyName => (nameAt frames).map fun r => (todo, r.2)
  | .length => (lengthAt frames).map fun _ => (todo, dropBytes frames 4)
  | .skippedLength =>
    some (todo, if 4 ≤ frames.flatten.length then dropBytes frames 4 else frames)
  | .string =>
    match lengthAt frames with
    | some n => (stringAt (dropBytes frames 4) n).map fun rest => (todo, rest)
    | none => none
  | .key => (itemKeyAt frames).map fun _ => (todo, dropBytes frames 8)
  | .binary =>
    match lengthAt frames with
    | some n =>
      if 5 ≤ frames.flatten.length then some (todo, dropBytes (dropBytes (dropBytes frames 4) 1) n)
      else none
    | none => none
  | .terminator => if byteAt frames = some 0 then some (todo, dropBytes frames 1) else none
  | .array =>
    (lengthAt frames).map fun n =>
      (.items (frames.flatten.length - n) :: todo, dropBytes frames 4)
  | .items arrayEnd =>
    if arrayEnd < frames.flatten.length then
      nextElement itemFields (.items arrayEnd) todo frames
    else some (todo, frames)
  | .sets =>
    if 0 < frames.flatten.length then nextElement setFields .sets todo frames
    else some (todo, frames)
  | .messageEnd =>
    if byteAt frames = some 0 ∧ frames.flatten.length = 1 then some (todo, dropBytes frames 1)
    else none

/-- What the reader of a field relies on. -/
def Field.Safe (alloc : Allocator) (frames : List (List UInt8)) : Field → Prop
  | .document => Takeable frames 4
  | .type _ => Takeable frames 1
  | .name _ => NameReadable frames
  | .anyName => NameReadable frames
  | .length => Takeable frames 4
  | .skippedLength => Takeable frames 4
  | .string => Takeable frames 4 ∧ ∀ n, lengthAt frames = some n → 0 < n ∧
      alloc.fits (n - 1) = true ∧ Takeable (dropBytes frames 4) (n - 1) ∧
      (n - 1 ≤ (dropBytes frames 4).flatten.length →
        Takeable (dropBytes (dropBytes frames 4) (n - 1)) 1)
  | .key => 8 ≤ frames.flatten.length ∧ BytesReadable frames 8
  | .binary => Takeable frames 4 ∧ ∀ n, lengthAt frames = some n →
      Takeable (dropBytes frames 4) 1 ∧
        (5 ≤ frames.flatten.length → 5 + n ≤ frames.flatten.length)
  | .terminator => Takeable frames 1
  | .array => Takeable frames 4 ∧ ∀ n, lengthAt frames = some n → n ≤ frames.flatten.length
  | .items arrayEnd => arrayEnd < frames.flatten.length → Takeable frames 1
  | .sets => 0 < frames.flatten.length → Takeable frames 1
  | .messageEnd => Takeable frames 1

/-- One step through the message. -/
inductive Expected.Step : Expected → Expected → Prop where
  | field {field : Field} {todo : List Field} {frames : List (List UInt8)} {after : Expected}
      (h : field.next todo frames = some after) : Step (field :: todo, frames) after

/-- The first field is safe to read. -/
def Expected.Safe (alloc : Allocator) : Expected → Prop
  | ([], _) => True
  | (field :: _, frames) => field.Safe alloc frames

/-- Every field that is reached is safe to read. -/
def MessageSafe (alloc : Allocator) (expected : Expected) : Prop :=
  SafeFrom Expected.Step (Expected.Safe alloc) expected

theorem messageSafe_nil (alloc : Allocator) (frames : List (List UInt8)) :
    MessageSafe alloc ([], frames) := by
  rw [MessageSafe, safeFrom_iff]
  refine ⟨trivial, fun after h => ?_⟩
  cases h

theorem messageSafe_cons {alloc : Allocator} {field : Field} {todo : List Field}
    {frames : List (List UInt8)} :
    MessageSafe alloc (field :: todo, frames) ↔ field.Safe alloc frames ∧
      ∀ after, field.next todo frames = some after → MessageSafe alloc after := by
  rw [MessageSafe, safeFrom_iff]
  refine and_congr Iff.rfl (forall_congr' fun after => ?_)
  constructor
  · exact fun h hnext => h (.field hnext)
  · intro h hstep
    cases hstep with
    | field hnext => exact h hnext

section Cons

variable {alloc : Allocator} {field : Field} {todo : List Field} {frames : List (List UInt8)}

theorem messageSafe_of_next {after : Expected} (hsafe : field.Safe alloc frames)
    (hnext : field.next todo frames = some after) :
    MessageSafe alloc (field :: todo, frames) ↔ MessageSafe alloc after := by
  rw [messageSafe_cons, hnext]
  simp [hsafe]

theorem messageSafe_of_rejected (hsafe : field.Safe alloc frames)
    (hnext : field.next todo frames = none) : MessageSafe alloc (field :: todo, frames) := by
  rw [messageSafe_cons, hnext]
  simp [hsafe]

end Cons

end Dandelion
