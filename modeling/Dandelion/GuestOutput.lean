import Dandelion.Occupation

/-!
# Reading the output of a function

After a function has run, `read_output_structs` decodes its output sets from the
memory of its context. All counts, offsets and lengths are chosen by the function.
The memory is a flat byte array; the structs are laid out as in C, for a guest with
words of 4 or of 8 bytes.
-/

namespace Dandelion

open Outcome

inductive Width where
  | u32
  | u64
deriving DecidableEq, Repr

/-- The size of a word in bytes, which is also the alignment of the structs. -/
def Width.bytes : Width → Nat
  | .u32 => 4
  | .u64 => 8

structure DataItem where
  ident : String
  data : Position
  key : Nat
deriving DecidableEq, Repr

structure DataSet where
  ident : String
  buffers : List DataItem
deriving DecidableEq, Repr

inductive ContextState where
  | inPreparation
  | run (exitCode : Int)
deriving DecidableEq, Repr

/-- A context over a flat byte array. -/
structure FlatContext where
  memory : List UInt8
  size : Nat
  content : List (Option DataSet)
  state : ContextState
  occupation : List Position
  memory_lt : memory.length < Usize.limit
  size_lt : size < Usize.limit
deriving DecidableEq, Repr

/-- Which allocations succeed, by their size in bytes. -/
abbrev Allocator := Nat → Bool

/-- Nothing is allocated for an empty vector. -/
def Allocator.fits (alloc : Allocator) (bytes : Nat) : Bool :=
  bytes = 0 || bytes ≤ Usize.isizeMax && alloc bytes

/-- `try_reserve` for `count` elements. -/
def tryReserve (alloc : Allocator) (elementSize count : Nat) : DandelionResult Unit :=
  if alloc.fits (elementSize * count) then pure () else fail .outOfMemory

/-- `vec![0u8; length]`, which panics when it cannot allocate. -/
def vecZeroed (alloc : Allocator) (length : Nat) : DandelionResult Unit :=
  if alloc.fits length then pure () else crash

/-- `memory[start..stop]` -/
def slice (memory : List UInt8) (start stop : Nat) : DandelionResult (List UInt8) :=
  if start ≤ stop ∧ stop ≤ memory.length then pure ((memory.drop start).take (stop - start)) else crash

/-- `MmapMem::read` into a buffer of `readSize` bytes whose elements have the given alignment. -/
def readMemory (mode : Overflow) (memory : List UInt8) (align offset readSize : Nat) :
    DandelionResult (List UInt8) :=
  if offset % align ≠ 0 then fail .readMisaligned
  else do
    let readEnd ← Usize.add mode offset readSize
    if memory.length < readEnd then fail .invalidRead
    else slice memory offset readEnd

def leWord (bytes : List UInt8) : Nat := bytes.foldr (fun b acc => b.toNat + 256 * acc) 0

/-- The word at position `i` of a struct of words. -/
def wordAt (width : Width) (bytes : List UInt8) (i : Nat) : Nat :=
  leWord ((bytes.drop (i * width.bytes)).take width.bytes)

/-- The fields of `DandelionSystemData` that are read back. -/
structure SystemData where
  exitCode : Int
  outputSetsLen : Nat
  outputSets : Nat
  outputBufs : Nat

def systemDataSize (width : Width) : Nat := 9 * width.bytes

/-- The exit code takes up the first word; the fields follow as words. -/
def SystemData.decode (width : Width) (bytes : List UInt8) : SystemData where
  exitCode := (BitVec.ofNat 32 (leWord (bytes.take 4))).toInt
  outputSetsLen := wordAt width bytes 5
  outputSets := wordAt width bytes 6
  outputBufs := wordAt width bytes 8

structure IoSetInfo where
  ident : Nat
  identLen : Nat
  offset : Nat

def ioSetInfoSize (width : Width) : Nat := 3 * width.bytes

def IoSetInfo.decode (width : Width) (bytes : List UInt8) : IoSetInfo :=
  ⟨wordAt width bytes 0, wordAt width bytes 1, wordAt width bytes 2⟩

structure IoBufferDescriptor where
  ident : Nat
  identLen : Nat
  data : Nat
  dataLen : Nat
  key : Nat

def ioBufferDescriptorSize (width : Width) : Nat := 5 * width.bytes

def IoBufferDescriptor.decode (width : Width) (bytes : List UInt8) : IoBufferDescriptor :=
  ⟨wordAt width bytes 0, wordAt width bytes 1, wordAt width bytes 2, wordAt width bytes 3,
    wordAt width bytes 4⟩

/-- The structs of a table, one after the other. -/
def decodeTable {α : Type} (decode : List UInt8 → α) (elementSize count : Nat) (bytes : List UInt8) :
    List α :=
  (List.range count).map fun i => decode ((bytes.drop (i * elementSize)).take elementSize)

/-- The sizes of the host's own vector elements. -/
def dataItemSize : Nat := 48

def dataSetSize : Nat := 48

/-- `String::from_utf8` -/
def fromUtf8 (bytes : List UInt8) : DandelionResult String :=
  match String.fromUTF8? ⟨bytes.toArray⟩ with
  | some s => pure s
  | none => fail (.userError .invalidIdentifier)

section Read

variable (mode : Overflow) (alloc : Allocator)

/-- Read an identifier of `length` bytes. -/
def readIdent (memory : List UInt8) (offset length : Nat) : DandelionResult String := do
  vecZeroed alloc length
  let bytes ← readMemory mode memory 1 offset length
  fromUtf8 bytes

/-- The identifier of a set or of one of its items; for both it is the length of the
set's identifier that decides whether one is read. -/
def identString (memory : List UInt8) (setIdentLen offset length : Nat) : DandelionResult String :=
  if 0 < setIdentLen then readIdent mode alloc memory offset length else pure ""

/-- The items of one set, from `index` on. -/
def readItems (ctx : FlatContext) (buffers : List IoBufferDescriptor) (setIdentLen : Nat) :
    Nat → Nat → List Position → DandelionResult (List DataItem × List Position)
  | 0, _, occupation => pure ([], occupation)
  | count + 1, index, occupation =>
    match buffers[index]? with
    | none => crash
    | some buffer => do
      let ident ← identString mode alloc ctx.memory setIdentLen buffer.ident buffer.identLen
      let item : DataItem := ⟨ident, ⟨buffer.data, buffer.dataLen⟩, buffer.key % 2 ^ 32⟩
      let occupation ← occupySpace mode ctx.size occupation buffer.data buffer.dataLen
      let (items, occupation) ← readItems ctx buffers setIdentLen count (index + 1) occupation
      pure (item :: items, occupation)

/-- One output set; its buffers end where those of the next set start. -/
def readSet (ctx : FlatContext) (buffers : List IoBufferDescriptor) (info : IoSetInfo)
    (onePastLastBuffer : Nat) (occupation : List Position) :
    DandelionResult (Option DataSet × List Position) :=
  if onePastLastBuffer ≤ info.offset then pure (none, occupation)
  else do
    let ident ← identString mode alloc ctx.memory info.identLen info.ident info.identLen
    tryReserve alloc dataItemSize (onePastLastBuffer - info.offset)
    let (items, occupation) ← readItems mode alloc ctx buffers info.identLen
      (onePastLastBuffer - info.offset) info.offset occupation
    pure (some ⟨ident, items⟩, occupation)

/-- All output sets; the last entry of the table is the sentinel. -/
def readSets (ctx : FlatContext) (buffers : List IoBufferDescriptor) :
    List IoSetInfo → List Position → DandelionResult (List (Option DataSet) × List Position)
  | info :: next :: rest, occupation => do
    let (set, occupation) ← readSet mode alloc ctx buffers info next.offset occupation
    let (sets, occupation) ← readSets ctx buffers (next :: rest) occupation
    pure (set :: sets, occupation)
  | _, occupation => pure ([], occupation)

/-- The part of `read_output_structs` behind the system data: the table of the sets, the
table of the buffers, and the sets themselves. -/
def readOutputSets (width : Width) (ctx : FlatContext) (system : SystemData) :
    DandelionResult (List (Option DataSet) × List Position) := do
  -- one more entry for the sentinel set
  let setNumber ← Usize.add mode system.outputSetsLen 1
  tryReserve alloc (ioSetInfoSize width) setNumber
  let sets ← decodeTable (IoSetInfo.decode width) (ioSetInfoSize width) setNumber <$>
    readMemory mode ctx.memory width.bytes system.outputSets (ioSetInfoSize width * setNumber)
  tryReserve alloc dataSetSize system.outputSetsLen
  match sets[system.outputSetsLen]? with
  | none => crash
  | some sentinel => do
    tryReserve alloc (ioBufferDescriptorSize width) sentinel.offset
    let buffers ← decodeTable (IoBufferDescriptor.decode width) (ioBufferDescriptorSize width)
        sentinel.offset <$>
      readMemory mode ctx.memory width.bytes system.outputBufs
        (ioBufferDescriptorSize width * sentinel.offset)
    readSets mode alloc ctx buffers sets ctx.occupation

def readOutputStructs (width : Width) (ctx : FlatContext) (baseAddress : Nat) :
    DandelionResult FlatContext := do
  let ctx := { ctx with content := [], occupation := clearedOccupation ctx.size }
  let system ← SystemData.decode width <$>
    readMemory mode ctx.memory width.bytes baseAddress (systemDataSize width)
  let ctx := { ctx with state := .run system.exitCode }
  if system.outputSetsLen = 0 then pure ctx
  else do
    let (content, occupation) ← readOutputSets mode alloc width ctx system
    pure { ctx with content, occupation }

end Read
end Dandelion
