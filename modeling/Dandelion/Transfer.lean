import Dandelion.KvmContext

/-!
# Transfers into a KVM context

`transfer_into` copies small and misaligned ranges through chunks of the source. Otherwise
it copies the parts of the first and the last page and inserts overlay entries for the
pages between them. Assertions are those of a debug build.
-/

namespace Dandelion

open Outcome Stateful

namespace KvmContext

/-- The destination is the state; it stays changed when a transfer fails. -/
abbrev TransferM := Stateful DandelionError KvmContext

/-- `destination.write(offset, data)` -/
def writeBytes (offset : Nat) (data : List UInt8) : TransferM Unit := do
  let destination ← get
  let (destination, result) := write 1 destination offset data
  set destination
  lift result

/-- The loop that copies a range chunk by chunk, at most `fuel` rounds. -/
def copyLoop (source : ContextRef) (sourceOffset destinationOffset size : Nat) :
    Nat → Nat → TransferM Unit
  | 0, bytesWritten => if bytesWritten < size then lift (.error .diverge) else pure ()
  | fuel + 1, bytesWritten =>
    if bytesWritten < size then do
      let chunk ← lift (source.getChunkRef (sourceOffset + bytesWritten) (size - bytesWritten))
      -- chunks should never be zero
      if chunk.length = 0 then lift crash
      else do
        writeBytes (destinationOffset + bytesWritten) chunk
        copyLoop source sourceOffset destinationOffset size fuel (bytesWritten + chunk.length)
    else pure ()

/-- Every round copies a byte at least, so there are at most `size` of them. -/
def copyChunks (source : ContextRef) (sourceOffset destinationOffset size : Nat) : TransferM Unit :=
  copyLoop source sourceOffset destinationOffset size size 0

/-- The item for the pages of a source entry; that of another context if it has one, to avoid
dependency chains. -/
def transferItem (source : KvmContext) (sourceRoundedStart overlayedBytes sourceOverlayStart : Nat) :
    Option OverlayItem → DandelionResult OverlayItem
  | some item => do
    let sum ← Usize.add .checked item.offset sourceRoundedStart
    let offset ← Usize.sub .checked sum sourceOverlayStart
    pure { context := item.context, offset }
  | none => pure { context := source.toRef, offset := sourceRoundedStart + overlayedBytes }

/-- The loop over the source entries of the transferred pages; returns `overlayed_bytes`. -/
def overlayLoop (source : KvmContext) (roundedStart roundedSize sourceRoundedStart : Nat) :
    List OverlayEntry → Nat → TransferM Nat
  | [], overlayedBytes => pure overlayedBytes
  | (sourceOverlayEnd, sourceOverlayStart, item) :: entries, overlayedBytes =>
    let sourceRoundedEnd := sourceRoundedStart + roundedSize
    if roundedSize ≤ overlayedBytes ∨ sourceRoundedEnd ≤ sourceOverlayStart then
      pure overlayedBytes
    else if sourceOverlayStart ≤ sourceRoundedStart + overlayedBytes then do
      let newEnd := min (sourceOverlayEnd + 1) sourceRoundedEnd
      let newBytes := newEnd - sourceRoundedStart + overlayedBytes
      let newItem ← lift
        (transferItem source sourceRoundedStart overlayedBytes sourceOverlayStart item)
      let destination ← get
      let destination ← lift (insertIntoOverlay destination (roundedStart + overlayedBytes)
        (roundedStart + overlayedBytes + newBytes) (some newItem))
      set destination
      overlayLoop source roundedStart roundedSize sourceRoundedStart entries
        (overlayedBytes + newBytes)
    else lift crash

/-- Insert the pages that can be remapped and copy the rest. -/
def transferPages (source : KvmContext) (destinationOffset sourceOffset size : Nat) :
    TransferM Unit := do
  let roundedStart := nextPage destinationOffset
  let roundedEnd := roundDownToPage (destinationOffset + size)
  let roundedSize ← lift (Usize.sub .checked roundedEnd roundedStart)
  let sourceRoundedStart := nextPage sourceOffset
  copyChunks source.toRef sourceOffset destinationOffset (roundedStart - destinationOffset)
  copyChunks source.toRef (sourceRoundedStart + roundedSize) roundedEnd
    (destinationOffset + size - roundedEnd)
  if roundedSize ≠ 0 then
    let overlayedBytes ← overlayLoop source roundedStart roundedSize sourceRoundedStart
      (source.overlay.rangeFrom sourceRoundedStart) 0
    if overlayedBytes ≠ roundedSize then lift crash

end KvmContext

/-- The context of a source, by its type; its size is that of its storage. -/
inductive TransferSource where
  | kvm (context : KvmContext)
  | other (context : ContextRef)

def TransferSource.toRef : TransferSource → ContextRef
  | .kvm context => context.toRef
  | .other context => context

namespace KvmContext

/-- `transfer_into` on the destination. -/
def transferAll (source : TransferSource) (destinationOffset sourceOffset size : Nat) :
    TransferM Unit := do
  let sourceEnd ← lift (Usize.add .checked sourceOffset size)
  if source.toRef.size < sourceEnd then lift (fail .invalidRead)
  else do
    let destinationEnd ← lift (Usize.add .checked destinationOffset size)
    let destination ← get
    if destination.storage.length < destinationEnd then lift (fail .invalidWrite)
    else
      match source with
      | .kvm context =>
        if size < pageSize then copyChunks context.toRef sourceOffset destinationOffset size
        else if sourceOffset % pageSize ≠ destinationOffset % pageSize then
          copyChunks context.toRef sourceOffset destinationOffset size
        else transferPages context destinationOffset sourceOffset size
      | .other context => copyChunks context sourceOffset destinationOffset size

/-- The destination after a transfer, and the result. -/
def transferInto (destination : KvmContext) (source : TransferSource)
    (destinationOffset sourceOffset size : Nat) : KvmContext × DandelionResult Unit :=
  let (result, destination) := exec (transferAll source destinationOffset sourceOffset size) destination
  (destination, result)

end KvmContext
end Dandelion
