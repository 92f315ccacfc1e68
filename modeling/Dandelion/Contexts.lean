import Dandelion.FreeSpace
import Dandelion.GuestOutput
import Dandelion.Transfer

/-!
# Contexts and the transfers between them

Most contexts hold their bytes: in memory of their own, in the frames of a request, or under
the overlay of a KVM context. A system context only keeps where its data is, which is in a
part of another context or in the bytes of a response. `transfer_memory` picks one of several
ways to copy a range by the two types. All reads and writes here are of single bytes, which are
always aligned.
-/

namespace Dandelion

open Outcome Stateful

/-! ## Contexts that hold their bytes -/

/-- The contexts with storage. -/
inductive DataContext where
  | malloc (storage : List UInt8)
  | readOnly (storage : List UInt8)
  | bytes (frames : List (List UInt8))
  | kvm (context : KvmContext)
  | mmu (storage : List UInt8)

def writeStorage (storage : List UInt8) (offset : Nat) (data : List UInt8) :
    DandelionResult (List UInt8) := do
  let writeEnd ← Usize.add .checked offset data.length
  if storage.length < writeEnd then fail .invalidWrite
  else pure (KvmContext.copyInto storage offset data)

/-- What is in the buffer afterwards, and the result. -/
def readStorage (storage : List UInt8) (offset : Nat) (buffer : List UInt8) :
    List UInt8 × DandelionResult Unit :=
  match (Usize.add .checked offset buffer.length : DandelionResult Nat) with
  | .error stop => (buffer, .error stop)
  | .ok readEnd =>
    if storage.length < readEnd then (buffer, fail .invalidRead)
    else ((storage.drop offset).take buffer.length, pure ())

def chunkStorage (storage : List UInt8) (offset length : Nat) : DandelionResult (List UInt8) := do
  let readEnd ← Usize.add .checked offset length
  if storage.length < readEnd then fail .invalidRead else pure ((storage.drop offset).take length)

/-- The loop of `BytesContext::read`: `buffer` is the part that is not filled yet. -/
def readFrames : List (List UInt8) → Nat → List UInt8 → List UInt8 × DandelionResult Unit
  | [], _, buffer => (buffer, fail .invalidRead)
  | frame :: frames, offset, buffer =>
    if frame.length ≤ offset then readFrames frames (offset - frame.length) buffer
    else if offset + buffer.length ≤ frame.length then
      ((frame.drop offset).take buffer.length, pure ())
    else
      let subframe := frame.drop offset
      let (rest, result) := readFrames frames 0 (buffer.drop subframe.length)
      (subframe ++ rest, result)

def chunkFrames : List (List UInt8) → Nat → Nat → DandelionResult (List UInt8)
  | [], _, _ => fail .invalidRead
  | frame :: frames, offset, length =>
    if frame.length ≤ offset then chunkFrames frames (offset - frame.length) length
    else do
      let chunkEnd ← Usize.add .checked offset length
      if chunkEnd ≤ frame.length then pure ((frame.drop offset).take length)
      else pure (frame.drop offset)

namespace DataContext

/-- The context after an operation that changes nothing when it fails. -/
def updated (context : DataContext) : DandelionResult DataContext → DataContext × DandelionResult Unit
  | .ok after => (after, pure ())
  | .error stop => (context, .error stop)

def write (context : DataContext) (offset : Nat) (data : List UInt8) :
    DataContext × DandelionResult Unit :=
  match context with
  | .malloc storage => context.updated (malloc <$> writeStorage storage offset data)
  | .mmu storage => context.updated (mmu <$> writeStorage storage offset data)
  | .kvm kvmContext => (kvmContext.write 1 offset data).map kvm id
  | .readOnly _ => (context, fail .invalidWrite)
  | .bytes _ => (context, fail .invalidWrite)

def read (context : DataContext) (offset : Nat) (buffer : List UInt8) :
    List UInt8 × DandelionResult Unit :=
  match context with
  | .malloc storage => readStorage storage offset buffer
  | .readOnly storage => readStorage storage offset buffer
  | .mmu storage => readStorage storage offset buffer
  | .bytes frames => readFrames frames offset buffer
  | .kvm context => context.read 1 offset buffer

def getChunkRef (context : DataContext) (offset length : Nat) : DandelionResult (List UInt8) :=
  match context with
  | .malloc storage => chunkStorage storage offset length
  | .readOnly storage => chunkStorage storage offset length
  | .mmu storage => chunkStorage storage offset length
  | .bytes frames => chunkFrames frames offset length
  | .kvm context => context.getChunkRef offset length

def byte (context : DataContext) (offset : Nat) : Option UInt8 :=
  match context with
  | .malloc storage => storage[offset]?
  | .readOnly storage => storage[offset]?
  | .mmu storage => storage[offset]?
  | .bytes frames => frames.flatten[offset]?
  | .kvm context => context.view offset

/-- A context behind an `Arc`, with the size that is kept beside it. -/
def toRef (context : DataContext) (size : Nat) : ContextRef where
  size
  byte := context.byte
  read := context.read
  getChunkRef := context.getChunkRef

end DataContext

/-! ## Transfers between contexts that hold their bytes -/

/-- Copy a range of one storage into another. -/
def storageTransfer (destination source : List UInt8) (destinationOffset sourceOffset size : Nat) :
    DandelionResult (List UInt8) := do
  let sourceEnd ← Usize.add .checked sourceOffset size
  if source.length < sourceEnd then fail .invalidRead
  else do
    let destinationEnd ← Usize.add .checked destinationOffset size
    if destination.length < destinationEnd then fail .invalidWrite
    else pure (KvmContext.copyInto destination destinationOffset ((source.drop sourceOffset).take size))

def mallocTransfer (destination source : List UInt8) (destinationOffset sourceOffset size : Nat) :
    DandelionResult DataContext :=
  .malloc <$> storageTransfer destination source destinationOffset sourceOffset size

def mmuTransfer (destination source : List UInt8) (destinationOffset sourceOffset size : Nat) :
    DandelionResult DataContext :=
  .mmu <$> storageTransfer destination source destinationOffset sourceOffset size

/-- Read the frames into the storage; a read that fails has filled a part of it. -/
def bytestToMmuTransfer (destination : List UInt8) (frames : List (List UInt8))
    (destinationOffset sourceOffset size : Nat) : DataContext × DandelionResult Unit :=
  match (Usize.add .checked destinationOffset size : DandelionResult Nat) with
  | .error stop => (.mmu destination, .error stop)
  | .ok destinationEnd =>
    if destination.length < destinationEnd then (.mmu destination, fail .invalidWrite)
    else
      let (buffer, result) :=
        readFrames frames sourceOffset ((destination.drop destinationOffset).take size)
      (.mmu (KvmContext.copyInto destination destinationOffset buffer), result)

/-- The arms of `transfer_memory` without a system context. -/
def transferStored (destination source : DataContext)
    (sourceSize destinationOffset sourceOffset size : Nat) : DataContext × DandelionResult Unit :=
  match destination, source with
  | .malloc storage, .malloc sourceStorage =>
    destination.updated (mallocTransfer storage sourceStorage destinationOffset sourceOffset size)
  | .mmu storage, .mmu sourceStorage =>
    destination.updated (mmuTransfer storage sourceStorage destinationOffset sourceOffset size)
  | .mmu storage, .bytes frames =>
    bytestToMmuTransfer storage frames destinationOffset sourceOffset size
  | .kvm context, .kvm sourceContext =>
    (context.transferInto (.kvm sourceContext) destinationOffset sourceOffset size).map .kvm id
  | .kvm context, _ =>
    (context.transferInto (.other (source.toRef sourceSize)) destinationOffset sourceOffset
      size).map .kvm id
  | _, _ =>
    -- default implementation using reads and writes
    match source.read sourceOffset (List.replicate size 0) with
    | (_, .error stop) => (destination, .error stop)
    | (readBuffer, .ok ()) => destination.write destinationOffset readBuffer

/-! ## System contexts -/

/-- Where the data of a system context is: from an offset on in a context of the given size, or
in the bytes of a response. Only `into_system_context_transfer` stores a context, and never
a system context. -/
inductive DataPosition where
  | contextStorage (context : DataContext) (contextSize : Nat) (offset : Nat)
  | responseInformationStorage (body : List UInt8)

/-- A context without bytes of its own: for each offset at which data was put, its position and
its size. -/
structure SystemContext where
  localOffsetToDataPosition : OrderedMap Nat (DataPosition × Nat)
  size : Nat

namespace SystemContext

/-- The entry with the last offset up to the given one. -/
def entryUpTo (context : SystemContext) (offset : Nat) : Option (Nat × DataPosition × Nat) :=
  context.localOffsetToDataPosition.lastBefore (offset + 1)

abbrev BufferM := Stateful DandelionError (List UInt8)

/-- The loop over the chunks of a response, at most `fuel` rounds; returns the bytes that were
read from it. The rest of the body is one chunk. -/
def readResponse (body : List UInt8) (totalBytesRead : Nat) : Nat → Nat → BufferM Nat
  | 0, bytesRead => do
    let buffer ← get
    if bytesRead < buffer.length ∧ bytesRead < body.length then lift (.error .diverge)
    else pure bytesRead
  | fuel + 1, bytesRead => do
    let buffer ← get
    if bytesRead < buffer.length ∧ bytesRead < body.length then do
      let chunk := body.drop bytesRead
      if chunk.isEmpty then lift (fail .invalidRead)
      else do
        let rest ← lift (Usize.sub .checked buffer.length (bytesRead + totalBytesRead))
        let reading := min rest chunk.length
        if buffer.length < bytesRead + totalBytesRead + reading then lift crash
        else do
          set (KvmContext.copyInto buffer (bytesRead + totalBytesRead) (chunk.take reading))
          readResponse body totalBytesRead fuel (bytesRead + reading)
    else pure bytesRead

/-- The loop of `read`, at most `fuel` rounds. Where no data is stored, the rest of the buffer is
left as it is. -/
def readLoop (context : SystemContext) (offset : Nat) : Nat → Nat → BufferM Unit
  | 0, totalBytesRead => do
    let buffer ← get
    if totalBytesRead < buffer.length then lift (.error .diverge) else pure ()
  | fuel + 1, totalBytesRead => do
    let buffer ← get
    if totalBytesRead < buffer.length then
      match context.entryUpTo (offset + totalBytesRead) with
      | none => pure ()
      | some (itemOffset, position, itemSize) => do
        let itemEnd ← lift (Usize.add .checked itemOffset itemSize)
        if offset + totalBytesRead < itemEnd then
          match position with
          | .contextStorage stored _ actualOffset => do
            -- the whole buffer is read from the stored context
            let readOffset ← lift (Usize.add .checked actualOffset
              (offset + totalBytesRead - itemOffset))
            let (buffer, result) := stored.read readOffset buffer
            set buffer
            lift result
          | .responseInformationStorage body => do
            -- the body is read from its start on
            let bytesRead ← readResponse body totalBytesRead body.length 0
            readLoop context offset fuel (totalBytesRead + bytesRead)
        else pure ()
    else pure ()

/-- Every round that goes on reads a byte at least. -/
def read (context : SystemContext) (offset : Nat) (buffer : List UInt8) :
    List UInt8 × DandelionResult Unit :=
  match (Usize.add .checked offset buffer.length : DandelionResult Nat) with
  | .error stop => (buffer, .error stop)
  | .ok readEnd =>
    if context.size < readEnd then (buffer, fail .invalidRead)
    else (exec (readLoop context offset buffer.length 0) buffer).swap

def getChunkRef (context : SystemContext) (offset length : Nat) : DandelionResult (List UInt8) := do
  let readEnd ← Usize.add .checked offset length
  if context.size < readEnd then fail .invalidRead
  else
    match context.entryUpTo offset with
    | none => fail .invalidRead
    | some (itemOffset, position, itemSize) => do
      let itemEnd ← Usize.add .checked itemOffset itemSize
      if offset < itemEnd then
        let maxLength := min length itemSize
        match position with
        | .contextStorage stored _ actualOffset => do
          let chunkOffset ← Usize.add .checked actualOffset (offset - itemOffset)
          stored.getChunkRef chunkOffset maxLength
        | .responseInformationStorage body =>
          slice body (offset - itemOffset) (offset - itemOffset + maxLength)
      else fail .invalidRead

/-- The byte at an offset, if a chunk has it. -/
def byte (context : SystemContext) (offset : Nat) : Option UInt8 :=
  match context.getChunkRef offset 1 with
  | .ok chunk => chunk.head?
  | .error _ => none

def toRef (context : SystemContext) (size : Nat) : ContextRef where
  size
  byte := context.byte
  read := context.read
  getChunkRef := context.getChunkRef

/-- `local_offset_to_data_position.insert` -/
def put (context : SystemContext) (offset : Nat) (position : DataPosition) (size : Nat) :
    SystemContext :=
  { context with
    localOffsetToDataPosition := context.localOffsetToDataPosition.insert offset (position, size) }

end SystemContext

/-- Data at the same offset is overwritten. -/
def systemContextWriteFromBytes (destination : SystemContext) (source : List UInt8)
    (destinationOffset size : Nat) : DandelionResult SystemContext :=
  if size ≠ source.length then crash
  else pure (destination.put destinationOffset (.responseInformationStorage source) size)

/-- The loop over the items of a range in a system context, at most `fuel` rounds. `move` is told
the position of an item, where it goes, and its size. -/
def itemLoop {σ : Type} (source : SystemContext)
    (move : DataPosition → Nat → Nat → Stateful DandelionError σ Unit)
    (destinationOffset sourceOffset size : Nat) : Nat → Nat → Stateful DandelionError σ Unit
  | 0, transferedBytes => if transferedBytes < size then lift (.error .diverge) else pure ()
  | fuel + 1, transferedBytes =>
    if transferedBytes < size then do
      let readOffset ← lift (Usize.add .checked sourceOffset transferedBytes)
      match source.localOffsetToDataPosition.get? readOffset with
      | none => lift (fail .invalidRead)
      | some (position, itemSize) => do
        let transferedEnd ← lift (Usize.add .checked transferedBytes itemSize)
        -- only whole items are transferred
        if size < transferedEnd then lift (fail .invalidRead)
        else do
          let writeOffset ← lift (Usize.add .checked destinationOffset transferedBytes)
          move position writeOffset itemSize
          itemLoop source move destinationOffset sourceOffset size fuel transferedEnd
    else pure ()

/-- An item of at least one byte takes the loop forward, an empty one would keep it where it is for
ever. -/
def systemContextTransfer (source : SystemContext) (destinationOffset sourceOffset size : Nat) :
    Stateful DandelionError SystemContext Unit :=
  itemLoop source (fun position offset itemSize =>
    modify fun destination => destination.put offset position itemSize)
    destinationOffset sourceOffset size size 0

def intoSystemContextTransfer (destination : SystemContext) (source : DataContext)
    (sourceSize destinationOffset sourceOffset size : Nat) : DandelionResult SystemContext := do
  let sourceEnd ← Usize.add .checked sourceOffset size
  if sourceSize < sourceEnd then fail .invalidRead
  else pure (destination.put destinationOffset (.contextStorage source sourceSize sourceOffset) size)

abbrev DataM := Stateful DandelionError DataContext

/-- Run an operation on the destination. -/
def onDestination (operation : DataContext → DataContext × DandelionResult Unit) : DataM Unit := do
  let destination ← get
  let (destination, result) := operation destination
  set destination
  lift result

/-- Write the bytes of an item, or transfer them from their context. The loop over the chunks of a
response ends after the first one, which is the whole body. -/
def moveOut (position : DataPosition) (offset itemSize : Nat) : DataM Unit :=
  match position with
  | .contextStorage stored storedSize actualOffset =>
    onDestination fun destination =>
      transferStored destination stored storedSize offset actualOffset itemSize
  | .responseInformationStorage body =>
    if 0 < body.length then onDestination fun destination => destination.write offset body
    else pure ()

def outOfSystemContextTransfer (source : SystemContext)
    (destinationOffset sourceOffset size : Nat) : DataM Unit :=
  itemLoop source moveOut destinationOffset sourceOffset size size 0

/-! ## Any context -/

inductive ContextType where
  | stored (context : DataContext)
  | system (context : SystemContext)

namespace ContextType

def write (context : ContextType) (offset : Nat) (data : List UInt8) :
    ContextType × DandelionResult Unit :=
  match context with
  | .stored inner => (inner.write offset data).map .stored id
  | .system _ => (context, crash)

def read (context : ContextType) (offset : Nat) (buffer : List UInt8) :
    List UInt8 × DandelionResult Unit :=
  match context with
  | .stored inner => inner.read offset buffer
  | .system inner => inner.read offset buffer

end ContextType

structure Context where
  context : ContextType
  content : List (Option DataSet)
  size : Nat
  state : ContextState
  occupation : List Position

def Context.new (context : ContextType) (size : Nat) : Context where
  context
  content := []
  size
  state := .inPreparation
  occupation := clearedOccupation size

/-- `transfer_memory`: what the destination is afterwards, and the result. -/
def transferMemory (destination : ContextType) (source : Context)
    (destinationOffset sourceOffset size : Nat) : ContextType × DandelionResult Unit :=
  match destination, source.context with
  | .stored stored, .stored sourceStored =>
    (transferStored stored sourceStored source.size destinationOffset sourceOffset size).map .stored id
  | .system system, .system sourceSystem =>
    let (result, system) :=
      exec (systemContextTransfer sourceSystem destinationOffset sourceOffset size) system
    (.system system, result)
  | .stored (.kvm context), .system sourceSystem =>
    let (context, result) := context.transferInto (.other (sourceSystem.toRef source.size))
      destinationOffset sourceOffset size
    (.stored (.kvm context), result)
  | .system system, .stored sourceStored =>
    match intoSystemContextTransfer system sourceStored source.size destinationOffset sourceOffset
      size with
    | .ok system => (.system system, pure ())
    | .error stop => (destination, .error stop)
  | .stored stored, .system sourceSystem =>
    let (result, stored) :=
      exec (outOfSystemContextTransfer sourceSystem destinationOffset sourceOffset size) stored
    (.stored stored, result)

end Dandelion
