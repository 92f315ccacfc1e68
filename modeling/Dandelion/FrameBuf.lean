import Dandelion.GuestOutput
import Dandelion.Stateful
import Mathlib.Algebra.Ring.Int.Defs

/-!
# Requests in frames

The body of a request arrives as a list of frames. `FrameBuf` reads through them as
through one buffer, and `from_bytes_vec` decodes the request from it. The getters of
`Buf` and `copy_to_slice` are driven by `remaining`, `chunk` and `advance`: they panic when
fewer bytes remain, and an empty chunk makes them panic or copy nothing for ever.
-/

namespace Dandelion

open Outcome Stateful

structure FrameBuf where
  byteIter : List (List UInt8)
  remaining : Nat
  currentFrame : Nat
  currentBufOffset : Nat
deriving DecidableEq, Repr

abbrev FrameM := Stateful DandelionError FrameBuf

namespace FrameBuf

/-- The frames without the first bytes of the first one. -/
def trimFirst (offset : Nat) : List (List UInt8) → List (List UInt8)
  | [] => []
  | frame :: frames => frame.drop offset :: frames

/-- The frames from the position on. -/
def unread (buf : FrameBuf) : List (List UInt8) :=
  trimFirst buf.currentBufOffset (buf.byteIter.drop buf.currentFrame)

/-- The loop of `advance` over the frames from the current one on. -/
def advanceLoop : List (List UInt8) → Nat → Nat → Nat → DandelionResult (Nat × Nat)
  | _, 0, currentFrame, offset => pure (currentFrame, offset)
  | [], _ + 1, _, _ => crash
  | frame :: frames, toAdvance + 1, currentFrame, offset =>
    if offset + (toAdvance + 1) < frame.length then pure (currentFrame, offset + (toAdvance + 1))
    else do
      let available ← Usize.sub .checked frame.length offset
      let toAdvance ← Usize.sub .checked (toAdvance + 1) available
      advanceLoop frames toAdvance (currentFrame + 1) 0

def advance (cnt : Nat) : FrameM PUnit := do
  let buf ← get
  let remaining ← lift (Usize.sub .checked buf.remaining cnt)
  let (currentFrame, currentBufOffset) ← lift (advanceLoop (buf.byteIter.drop buf.currentFrame) cnt
    buf.currentFrame buf.currentBufOffset)
  set { buf with remaining, currentFrame, currentBufOffset }

def chunk : FrameM (List UInt8) := do
  let buf ← get
  match buf.byteIter[buf.currentFrame]? with
  | none => lift crash
  | some frame =>
    if buf.currentBufOffset ≤ frame.length then pure (frame.drop buf.currentBufOffset)
    else lift crash

/-- The loop of `copy_to_slice` with `left` bytes to go, at most `fuel` rounds. -/
def copyLoop : Nat → Nat → List UInt8 → FrameM (List UInt8)
  | _, 0, copied => pure copied
  | 0, _ + 1, _ => lift (.error .diverge)
  | fuel + 1, left + 1, copied => do
    let src ← chunk
    let count := min src.length (left + 1)
    advance count
    copyLoop fuel (left + 1 - count) (copied ++ src.take count)

/-- A round that copies nothing leaves the position as it is, so more rounds than bytes are never
of use. -/
def copyToSlice (length : Nat) : FrameM (List UInt8) := do
  let buf ← get
  if buf.remaining < length then lift crash else copyLoop length length []

/-- The bytes of a number: those of the chunk if it has all of them. -/
def getNumber (size : Nat) : FrameM (List UInt8) := do
  let src ← chunk
  if size ≤ src.length then do
    advance size
    pure (src.take size)
  else copyToSlice size

/-- `chunk()[0]` -/
def getI8 : FrameM Int8 := do
  let buf ← get
  if buf.remaining < 1 then lift crash
  else do
    match ← chunk with
    | [] => lift crash
    | byte :: _ => do
      advance 1
      pure byte.toInt8

def getI32Le : FrameM Int := do
  let bytes ← getNumber 4
  pure (BitVec.ofNat 32 (leWord bytes)).toInt

def getI64Le : FrameM Int := do
  let bytes ← getNumber 8
  pure (BitVec.ofNat 64 (leWord bytes)).toInt

end FrameBuf

open FrameBuf

def requestFail {α : Type} (e : FrontendError) : FrameM α := lift (fail (.requestError e))

def checkRemaining (size : Nat) : FrameM PUnit := do
  let buf ← get
  if buf.remaining < size then requestFail .streamEnd else pure ⟨⟩

def readTypeByte : FrameM Int8 := do
  checkRemaining 1
  getI8

def readAndCheckType (expectedType : Int8) : FrameM PUnit := do
  let typeByte ← readTypeByte
  if typeByte ≠ expectedType then requestFail .malformedMessage else pure ⟨⟩

/-- The byte is read as an unsigned one, which is zero for the same bytes. -/
def readAndCheckTermination : FrameM PUnit := do
  checkRemaining 1
  let byte ← getI8
  if byte = 0 then pure ⟨⟩ else requestFail .violatedSpec

def readLength : FrameM Nat := do
  checkRemaining 4
  let length ← getI32Le
  if 0 ≤ length then pure length.toNat else requestFail .violatedSpec

def decodeUtf8 (bytes : List UInt8) : Option String := String.fromUTF8? ⟨bytes.toArray⟩

/-- `from_utf8(bytes).unwrap()` -/
def utf8Unwrap (bytes : List UInt8) : DandelionResult String :=
  match decodeUtf8 bytes with
  | some s => pure s
  | none => crash

/-- The loop over the chunks of a null terminated string, at most `fuel` rounds. -/
def readCstringLoop : Nat → String → FrameM String
  | 0, cstring => do
    let buf ← get
    if 0 < buf.remaining then lift (.error .diverge) else pure cstring
  | fuel + 1, cstring => do
    let buf ← get
    if 0 < buf.remaining then do
      let chunk ← chunk
      match chunk.findIdx? (· = 0) with
      | some index => do
        let piece ← lift (utf8Unwrap (chunk.take (index + 1)))
        advance (index + 1)
        pure (cstring ++ piece)
      | none => do
        let piece ← lift (utf8Unwrap chunk)
        advance chunk.length
        readCstringLoop fuel (cstring ++ piece)
    else pure cstring

/-- A round that reads nothing leaves the position as it is, and so do all later ones: more
rounds than bytes are never of use. -/
def readCstring : FrameM String := do
  let buf ← get
  readCstringLoop buf.remaining ""

def readAndCheckCstring (expectedString : String) : FrameM PUnit := do
  let cstring ← readCstring
  if cstring ≠ expectedString then requestFail .malformedMessage else pure ⟨⟩

/-- The part of `read_string` behind the allocation of its buffer. -/
def readStringBytes (stringLength : Nat) : FrameM String := do
  let buf ← get
  if buf.remaining < stringLength then requestFail .streamEnd
  else do
    let byteBuffer ← copyToSlice stringLength
    readAndCheckTermination
    match decodeUtf8 byteBuffer with
    | some string => pure string
    | none => requestFail .violatedSpec

/-- An element of an array: a document with the given fields, or the zero that ends the array. -/
def readElement {α : Type} (fields : FrameM α) : FrameM (Option α) := do
  let docType ← readTypeByte
  if docType = 0 then pure none
  else if docType ≠ 3 then requestFail .malformedMessage
  else some <$> fields

/-- The loop over the elements of an array, while more than `arrayEnd` bytes remain and for at
most `fuel` rounds. -/
def readElements {α : Type} (element : FrameM (Option α)) (arrayEnd : Nat) :
    Nat → List α → FrameM (List α)
  | 0, elements => do
    let buf ← get
    if arrayEnd < buf.remaining then lift (.error .diverge) else pure elements
  | fuel + 1, elements => do
    let buf ← get
    if arrayEnd < buf.remaining then do
      match ← element with
      | some e => readElements element arrayEnd fuel (elements ++ [e])
      | none => pure elements
    else pure elements

section Allocator

variable (alloc : Allocator)

def readString : FrameM String := do
  let length ← readLength
  -- without the trailing null
  let stringLength ← lift (Usize.sub .checked length 1)
  lift (vecZeroed alloc stringLength)
  readStringBytes stringLength

def readStringElem (expectedIdent : String) : FrameM String := do
  readAndCheckType 2
  readAndCheckCstring expectedIdent
  readString alloc

/-- The key is a 64-bit integer that has to fit in 32 bits without sign. -/
def readKey : FrameM Nat := do
  let key ← getI64Le
  if 0 ≤ key ∧ key < 2 ^ 32 then pure key.toNat else requestFail .malformedMessage

/-- A binary is skipped; its position in the message is kept. -/
def readBinary (totalLength : Nat) : FrameM Position := do
  let size ← readLength
  let _ ← readTypeByte
  let buf ← get
  let offset ← lift (Usize.sub .checked totalLength buf.remaining)
  advance size
  pure ⟨offset, size⟩

/-- The part of `read_data_item` behind the type of the element. -/
def readItemFields (totalLength : Nat) : FrameM DataItem := do
  let _ ← readCstring
  let _ ← readLength
  let ident ← readStringElem alloc "identifier\x00"
  readAndCheckType 18
  readAndCheckCstring "key\x00"
  let key ← readKey
  readAndCheckType 5
  readAndCheckCstring "data\x00"
  let data ← readBinary totalLength
  readAndCheckTermination
  pure ⟨ident, data, key⟩

def readDataItem (totalLength : Nat) : FrameM (Option DataItem) :=
  readElement (readItemFields alloc totalLength)

/-- The array of the items; every round reads a byte at least. -/
def readItemArray (totalLength : Nat) : FrameM (List DataItem) := do
  let buf ← get
  let length ← readLength
  let arrayEnd ← lift (Usize.sub .checked buf.remaining length)
  readElements (readDataItem alloc totalLength) arrayEnd buf.remaining []

/-- The part of `read_data_set` behind the type of the element. -/
def readSetFields (totalLength : Nat) : FrameM DataSet := do
  let _ ← readCstring
  let _ ← readLength
  let setName ← readStringElem alloc "identifier\x00"
  readAndCheckType 4
  readAndCheckCstring "items\x00"
  let items ← readItemArray alloc totalLength
  readAndCheckTermination
  pure ⟨setName, items⟩

def readDataSet (totalLength : Nat) : FrameM (Option DataSet) :=
  readElement (readSetFields alloc totalLength)

/-- The sets, up to the end of the message. -/
def readDataSets (totalLength : Nat) : FrameM (List (Option DataSet)) := do
  let buf ← get
  let sets ← readElements (readDataSet alloc totalLength) 0 buf.remaining []
  pure (sets.map some)

/-- The last byte of the message is a zero. -/
def readMessageEnd : FrameM PUnit := do
  checkRemaining 1
  let lastByte ← getI8
  let buf ← get
  if lastByte ≠ 0 ∨ 0 < buf.remaining then requestFail .violatedSpec else pure ⟨⟩

/-- The total length of the document. -/
def readDocumentLength : FrameM Nat := do
  let bsonDictLength ← readLength
  let buf ← get
  if buf.remaining + 4 ≠ bsonDictLength then requestFail .violatedSpec else pure bsonDictLength

/-- The name of the function, the length of the message and its sets. -/
def readMessage : FrameM (String × Nat × List (Option DataSet)) := do
  let bsonDictLength ← readDocumentLength
  let functionName ← readStringElem alloc "name\x00"
  readAndCheckType 4
  readAndCheckCstring "sets\x00"
  -- the length of the array is not used, nor is an error on reading it
  ignoreError readLength
  let sets ← readDataSets alloc bsonDictLength
  readMessageEnd
  pure (functionName, bsonDictLength, sets)

/-- A context over the frames of a request. -/
structure BytesContext where
  frames : List (List UInt8)
  size : Nat
  content : List (Option DataSet)
  state : ContextState
  occupation : List Position
deriving DecidableEq, Repr

def fromBytesVec (frameData : List (List UInt8)) (totalSize : Nat) :
    DandelionResult (String × BytesContext) := do
  let (functionName, bsonDictLength, sets) ← (exec (readMessage alloc) ⟨frameData, totalSize, 0, 0⟩).1
  let occupation ← occupySpace .checked bsonDictLength (clearedOccupation bsonDictLength) 0 bsonDictLength
  pure (functionName, ⟨frameData, bsonDictLength, sets, .inPreparation, occupation⟩)

end Allocator

end Dandelion
