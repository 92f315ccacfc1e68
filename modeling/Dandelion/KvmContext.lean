import Dandelion.Errors
import Dandelion.Pages
import Dandelion.Segments
import Dandelion.Stateful
import Dandelion.Usize

/-!
# KVM contexts

The memory of a KVM context is its storage under an overlay. An overlay entry covers
whole pages; without an item they are in the storage, with an item they are the pages
of another context from the item's offset on. Contexts behind an `Arc` are given by
the operations of `ContextTrait` on them. Sums and differences that the bounds checks
do not keep in range are checked, as in a debug build.
-/

namespace Dandelion

open Outcome Segments Stateful

/-- A shared context: its operations, and the bytes it defines. `read` returns what is in
the buffer afterwards, next to its result. -/
structure ContextRef where
  size : Nat
  byte : Nat → Option UInt8
  read : Nat → List UInt8 → List UInt8 × DandelionResult Unit
  getChunkRef : Nat → Nat → DandelionResult (List UInt8)

structure OverlayItem where
  context : ContextRef
  offset : Nat

/-- What an overlay entry stands for, `d` bytes further on. -/
instance : AddAction ℕ (Option OverlayItem) where
  vadd d item := item.map fun item => { item with offset := item.offset + d }
  zero_vadd item := by
    cases item with
    | none => rfl
    | some item => rfl
  add_vadd d d' item := by
    cases item with
    | none => rfl
    | some item =>
      change some (OverlayItem.mk item.context (item.offset + (d + d'))) =
        some (OverlayItem.mk item.context (item.offset + d' + d))
      rw [Nat.add_assoc, Nat.add_comm d' d]

abbrev Overlay := SegmentMap (Option OverlayItem)

/-- An overlay entry: the last byte, the first byte and the item. -/
abbrev OverlayEntry := Nat × Nat × Option OverlayItem

structure KvmContext where
  overlay : Overlay
  storage : List UInt8

namespace KvmContext

/-- The byte at an offset, if an overlay entry covers it. -/
def view (context : KvmContext) (offset : Nat) : Option UInt8 :=
  match locate context.overlay offset with
  | none => none
  | some none => context.storage[offset]?
  | some (some item) => item.context.byte item.offset

/-- What the loops over the overlay collect before they change it. `changed` is the entry
that is changed in place when the loop ends. -/
structure OverlayEdit where
  newStart : Nat
  toRemove : List Nat
  newInsert : Option OverlayEntry
  insertBefore : Option OverlayEntry
  changed : Option OverlayEntry

def insertEntry (overlay : Overlay) : Option OverlayEntry → Overlay
  | none => overlay
  | some (key, value) => overlay.insert key value

def OverlayEdit.apply (edit : OverlayEdit) (overlay : Overlay) : Overlay :=
  insertEntry (insertEntry (edit.toRemove.foldl OrderedMap.remove
    (insertEntry overlay edit.changed)) edit.insertBefore) edit.newInsert

/-- The rest of an overlay entry after its first `bytes` bytes. -/
def advanceItem (bytes : Nat) : Option OverlayItem → DandelionResult (Option OverlayItem)
  | none => pure none
  | some item => do
    let offset ← Usize.add .checked item.offset bytes
    pure (some { item with offset })

/-- Keep the part of an entry before the new one, or start the new one where it starts. -/
def keepFront (newItem : Option OverlayItem) (overlayStart : Nat) (item : Option OverlayItem)
    (edit : OverlayEdit) : DandelionResult OverlayEdit :=
  if overlayStart < edit.newStart then
    if item.isSome || newItem.isSome then
      match edit.insertBefore with
      | none => pure { edit with insertBefore := some (edit.newStart - 1, overlayStart, item) }
      | some _ => crash
    else pure { edit with newStart := overlayStart }
  else pure edit

/-- The loop of `insert_into_overlay`. -/
def insertLoop (newEnd : Nat) (newItem : Option OverlayItem) :
    List OverlayEntry → OverlayEdit → DandelionResult OverlayEdit
  | [], edit => pure edit
  | (overlayEnd, overlayStart, item) :: entries, edit =>
    if newEnd ≤ overlayStart then
      if newItem.isNone && item.isNone && overlayStart = newEnd then
        pure { edit with changed := some (overlayEnd, edit.newStart, item), newInsert := none }
      else pure edit
    else do
      let edit ← keepFront newItem overlayStart item edit
      if newEnd - 1 ≤ overlayEnd then
        if item.isNone && newItem.isNone then
          pure { edit with changed := some (overlayEnd, edit.newStart, item), newInsert := none }
        else do
          let item ← advanceItem (newEnd - overlayStart) item
          pure { edit with changed := some (overlayEnd, newEnd, item) }
      else
        match edit.newInsert with
        | none => crash
        | some (_, _, insertItem) =>
          insertLoop newEnd newItem entries
            { edit with toRemove := edit.toRemove ++ [overlayEnd],
                        newInsert := some (newEnd - 1, edit.newStart, insertItem) }

def insertIntoOverlay (context : KvmContext) (newStart newEnd : Nat)
    (newItem : Option OverlayItem) : DandelionResult KvmContext := do
  let last ← Usize.sub .checked newEnd 1
  let edit ← insertLoop newEnd newItem (context.overlay.rangeFrom (newStart - 1))
    { newStart, toRemove := [], newInsert := some (last, newStart, newItem), insertBefore := none,
      changed := none }
  pure { context with overlay := edit.apply context.overlay }

abbrev StorageM := Stateful DandelionError (List UInt8)

/-- `storage[start..].copy_from_slice(bytes)` -/
def copyInto (storage : List UInt8) (start : Nat) (bytes : List UInt8) : List UInt8 :=
  storage.take start ++ bytes ++ storage.drop (start + bytes.length)

/-- Read from an item into `storage[start..stop]`. -/
def readIntoStorage (item : OverlayItem) (distance start stop : Nat) : StorageM Unit := do
  let readOffset ← lift (Usize.add .checked item.offset distance)
  let storage ← get
  if start ≤ stop ∧ stop ≤ storage.length then
    let (buffer, result) := item.context.read readOffset ((storage.drop start).take (stop - start))
    set (copyInto storage start buffer)
    lift result
  else lift crash

/-- `storage[start..stop].fill(0)` -/
def fillZero (start stop : Nat) : StorageM Unit := do
  let storage ← get
  if start ≤ stop ∧ stop ≤ storage.length then
    set (copyInto storage start (List.replicate (stop - start) 0))
  else lift crash

structure WriteState where
  edit : OverlayEdit
  zeroHeader : Nat
  zeroTrailer : Nat

/-- Copy the part of a partially overwritten page before the write. -/
def copyHeader (offset overlayStart : Nat) (item : Option OverlayItem) (state : WriteState) :
    StorageM WriteState :=
  if state.edit.newStart < offset ∧ overlayStart ≤ offset then do
    if let some item := item then
      readIntoStorage item (roundDownToPage offset - overlayStart) (roundDownToPage offset) offset
    pure { state with zeroHeader := offset }
  else pure state

/-- Copy the part of a partially overwritten page after the write. -/
def copyTrailer (writeEnd roundedEnd overlayEnd overlayStart : Nat) (item : Option OverlayItem)
    (state : WriteState) : StorageM WriteState :=
  if roundedEnd - 1 ≤ overlayEnd ∧ writeEnd < roundedEnd then do
    if let some item := item then
      readIntoStorage item (writeEnd - overlayStart) writeEnd roundedEnd
    pure { state with zeroTrailer := writeEnd }
  else pure state

/-- The loop of `write`; `edit.newStart` is its `rounded_start`. -/
def writeLoop (offset writeEnd roundedEnd : Nat) :
    List OverlayEntry → WriteState → StorageM WriteState
  | [], state => pure state
  | (overlayEnd, overlayStart, item) :: entries, state =>
    if overlayEnd = state.edit.newStart - 1 then
      -- the entry ends where the write starts
      if item.isNone then
        writeLoop offset writeEnd roundedEnd entries
          { state with edit := { state.edit with
              toRemove := state.edit.toRemove ++ [overlayEnd],
              newInsert := some (roundedEnd - 1, overlayStart, none),
              newStart := overlayStart } }
      else writeLoop offset writeEnd roundedEnd entries state
    else if roundedEnd ≤ overlayStart then
      if item.isNone && overlayStart = roundedEnd then
        pure { state with edit := { state.edit with
          changed := some (overlayEnd, state.edit.newStart, item), newInsert := none } }
      else pure state
    else do
      let state ← copyHeader offset overlayStart item state
      let edit ← lift (keepFront none overlayStart item state.edit)
      let state ← copyTrailer writeEnd roundedEnd overlayEnd overlayStart item { state with edit }
      let edit := state.edit
      if roundedEnd - 1 ≤ overlayEnd then
        match item with
        | some item => do
          let rest ← lift (advanceItem (roundedEnd - overlayStart) (some item))
          pure { state with edit := { edit with
            changed := some (overlayEnd, roundedEnd, rest),
            newInsert := some (roundedEnd - 1, edit.newStart, none) } }
        | none =>
          pure { state with edit := { edit with
            changed := some (overlayEnd, edit.newStart, none), newInsert := none } }
      else
        writeLoop offset writeEnd roundedEnd entries
          { state with edit := { edit with
              toRemove := edit.toRemove ++ [overlayEnd],
              newInsert := some (roundedEnd - 1, edit.newStart, none) } }

/-- The part of `write` behind its checks; returns the new overlay. -/
def writePages (overlay : Overlay) (offset : Nat) (data : List UInt8) : StorageM Overlay := do
  let writeEnd := offset + data.length
  let roundedStart := roundDownToPage offset
  let roundedEnd := nextPage writeEnd
  let last ← lift (Usize.sub .checked roundedEnd 1)
  let state ← writeLoop offset writeEnd roundedEnd (overlay.rangeFrom (roundedStart - 1))
    { edit := { newStart := roundedStart, toRemove := [],
                newInsert := some (last, roundedStart, none), insertBefore := none, changed := none },
      zeroHeader := roundedStart, zeroTrailer := roundedEnd }
  fillZero state.zeroHeader offset
  modify fun storage => copyInto storage offset data
  fillZero writeEnd state.zeroTrailer
  pure (state.edit.apply overlay)

/-- Write elements of the given alignment; the context afterwards, and the result. -/
def write (align : Nat) (context : KvmContext) (offset : Nat) (data : List UInt8) :
    KvmContext × DandelionResult Unit :=
  if offset % align ≠ 0 then (context, fail .writeMisaligned)
  else
    match (Usize.add .checked offset data.length : DandelionResult Nat) with
    | .error stop => (context, .error stop)
    | .ok writeEnd =>
      if context.storage.length < writeEnd then (context, fail .invalidWrite)
      else
        match exec (writePages context.overlay offset data) context.storage with
        | (.ok overlay, storage) => ({ overlay, storage }, pure ())
        | (.error stop, storage) => ({ context with storage }, .error stop)

/-- Fill a buffer from one overlay entry. -/
def readPart (storage : List UInt8) (overlayStart : Nat) (item : Option OverlayItem) (offset : Nat)
    (buffer : List UInt8) : List UInt8 × DandelionResult Unit :=
  match item with
  | some item =>
    match (Usize.add .checked item.offset (offset - overlayStart) : DandelionResult Nat) with
    | .error stop => (buffer, .error stop)
    | .ok readOffset => item.context.read readOffset buffer
  | none =>
    if offset + buffer.length ≤ storage.length then
      ((storage.drop offset).take buffer.length, pure ())
    else (buffer, crash)

/-- The loop of `read`: fill a buffer from `offset` on. -/
def readLoop (storage : List UInt8) :
    List OverlayEntry → Nat → List UInt8 → List UInt8 × DandelionResult Unit
  | [], _, buffer => (buffer, fail .invalidRead)
  | (overlayEnd, overlayStart, item) :: entries, offset, buffer =>
    if offset < overlayStart then (buffer, fail .invalidRead)
    else if buffer.isEmpty then (buffer, pure ())
    else
      let additionalBytes := min (overlayEnd - offset + 1) buffer.length
      match readPart storage overlayStart item offset (buffer.take additionalBytes) with
      | (bytes, .error stop) => (bytes ++ buffer.drop additionalBytes, .error stop)
      | (bytes, .ok ()) =>
        if (buffer.drop additionalBytes).isEmpty then (bytes, pure ())
        else
          let (rest, result) := readLoop storage entries (offset + additionalBytes)
            (buffer.drop additionalBytes)
          (bytes ++ rest, result)

/-- Read into a buffer of elements of the given alignment. -/
def read (align : Nat) (context : KvmContext) (offset : Nat) (buffer : List UInt8) :
    List UInt8 × DandelionResult Unit :=
  if offset % align ≠ 0 then (buffer, fail .readMisaligned)
  else
    match (Usize.add .checked offset buffer.length : DandelionResult Nat) with
    | .error stop => (buffer, .error stop)
    | .ok readEnd =>
      if context.storage.length < readEnd then (buffer, fail .invalidRead)
      else if buffer.length = 0 then (buffer, pure ())
      else readLoop context.storage (context.overlay.rangeFrom offset) offset buffer

def getChunkRef (context : KvmContext) (offset length : Nat) : DandelionResult (List UInt8) := do
  let readEnd ← Usize.add .checked offset length
  if context.storage.length < readEnd then fail .invalidRead
  else
    match context.overlay.firstFrom offset with
    | some (overlayEnd, overlayStart, item) =>
      if overlayStart ≤ offset then
        match item with
        | some item => do
          let chunkOffset ← Usize.add .checked item.offset (offset - overlayStart)
          item.context.getChunkRef chunkOffset (min (overlayEnd + 1 - offset) length)
        | none =>
          let chunkEnd := min (offset + length) (overlayEnd + 1)
          if chunkEnd ≤ context.storage.length then
            pure ((context.storage.drop offset).take (chunkEnd - offset))
          else crash
      else fail .invalidRead
    | none => fail .invalidRead

/-- A KVM context as a shared context. -/
def toRef (context : KvmContext) : ContextRef where
  size := context.storage.length
  byte := context.view
  read := context.read 1
  getChunkRef := context.getChunkRef

end KvmContext
end Dandelion
