import Dandelion.AllocationLimits
import Dandelion.Contexts
import Dandelion.OutputDecoding
import Dandelion.StorageCopies

/-!
# Writing the input of a function

Before a function runs, `setup_input_structs` writes the names of its sets and items, the tables of
the sets and of the items, and the system data into the memory of its context. Each of them but the
system data is written to space that was free until then, so what is occupied stays as it is.
-/

namespace Dandelion

open Outcome

/-! ## The structs -/

/-- `from_native`, for pointers and for sizes. -/
def fromNative (width : Width) (n : Nat) : DandelionResult Nat :=
  if n < 256 ^ width.bytes then pure n else fail .usizeTypeConversionError

def encodeWords (width : Width) (words : List Nat) : List UInt8 :=
  words.flatMap (Bson.leBytes width.bytes)

def IoSetInfo.encode (width : Width) (info : IoSetInfo) : List UInt8 :=
  encodeWords width [info.ident, info.identLen, info.offset]

def IoBufferDescriptor.encode (width : Width) (buffer : IoBufferDescriptor) : List UInt8 :=
  encodeWords width [buffer.ident, buffer.identLen, buffer.data, buffer.dataLen, buffer.key]

/-- `DandelionSystemData` -/
structure DandelionSystemData where
  exitCode : BitVec 32
  heapBegin : Nat
  heapEnd : Nat
  inputSetsLen : Nat
  inputSets : Nat
  outputSetsLen : Nat
  outputSets : Nat
  inputBufs : Nat
  outputBufs : Nat

/-- The exit code is followed by the bytes that align the words, whatever these are. -/
def DandelionSystemData.encode (width : Width) (padding : Nat → UInt8) (system : DandelionSystemData) :
    List UInt8 :=
  Bson.leBytes 4 system.exitCode.toNat ++ (List.range (width.bytes - 4)).map padding
    ++ encodeWords width [system.heapBegin, system.heapEnd, system.inputSetsLen, system.inputSets,
      system.outputSetsLen, system.outputSets, system.inputBufs, system.outputBufs]

/-! ## Allocations that are written to -/

/-- The memory of a context and what of it is occupied. -/
structure Room where
  memory : List UInt8
  occupation : List Position

/-- `MmapMem::write` of elements of the given alignment. -/
def writeMemory (memory : List UInt8) (align offset : Nat) (data : List UInt8) :
    DandelionResult (List UInt8) :=
  if offset % align ≠ 0 then fail .writeMisaligned else writeStorage memory offset data

section Write

variable (alloc : Allocator) (width : Width) (contextSize : Nat)

def getFreeSpaceAndWriteSlice (room : Room) (align : Nat) (data : List UInt8) :
    DandelionResult (Nat × Room) := do
  let (offset, occupation) ← getFreeSpace .checked contextSize room.occupation data.length align
  let memory ← writeMemory room.memory align offset data
  pure (offset, ⟨memory, occupation⟩)

/-- Space is only taken for a name that is not empty. -/
def writeName (room : Room) (name : String) : DandelionResult (Nat × Room) :=
  if (Bson.utf8Bytes name).length ≠ 0 then
    getFreeSpaceAndWriteSlice contextSize room 1 (Bson.utf8Bytes name)
  else pure (0, room)

def writeTable {α : Type} (encode : α → List UInt8) (room : Room) (table : List α) :
    DandelionResult (Nat × Room) := do
  let (offset, room) ← getFreeSpaceAndWriteSlice contextSize room width.bytes (table.flatMap encode)
  let offset ← fromNative width offset
  pure (offset, room)

/-- The descriptors of the items of a set. -/
def setupItems : List DataItem → Room → DandelionResult (List IoBufferDescriptor × Room)
  | [], room => pure ([], room)
  | item :: items, room => do
    let (stringOffset, room) ← writeName contextSize room item.ident
    let ident ← fromNative width stringOffset
    let identLen ← fromNative width (Bson.utf8Bytes item.ident).length
    let data ← fromNative width item.data.offset
    let dataLen ← fromNative width item.data.size
    let key ← fromNative width item.key
    let (buffers, room) ← setupItems items room
    pure (⟨ident, identLen, data, dataLen, key⟩ :: buffers, room)

/-- A set that is absent has neither a name nor items. -/
def setName (set : Option DataSet) : String := (set.map DataSet.ident).getD ""

def setItems (set : Option DataSet) : List DataItem := (set.map DataSet.buffers).getD []

/-- The entry of a set, which starts with the buffers that come next. -/
def setupSet (room : Room) (name : String) (offset : Nat) : DandelionResult (IoSetInfo × Room) := do
  let (stringOffset, room) ← writeName contextSize room name
  let ident ← fromNative width stringOffset
  let identLen ← fromNative width (Bson.utf8Bytes name).length
  let offset ← fromNative width offset
  pure (⟨ident, identLen, offset⟩, room)

/-- The entries of the input sets, with the descriptors that are added to `inputBuffers`. -/
def setupSets : List (Option DataSet) → List IoBufferDescriptor → Room →
    DandelionResult (List IoSetInfo × List IoBufferDescriptor × Room)
  | [], inputBuffers, room => pure ([], inputBuffers, room)
  | set :: sets, inputBuffers, room => do
    let (info, room) ← setupSet width contextSize room (setName set) inputBuffers.length
    let (buffers, room) ← setupItems width contextSize (setItems set) room
    let (infos, inputBuffers, room) ← setupSets sets (inputBuffers ++ buffers) room
    pure (info :: infos, inputBuffers, room)

def setupOutputSets : List String → Room → DandelionResult (List IoSetInfo × Room)
  | [], room => pure ([], room)
  | name :: names, room => do
    let (info, room) ← setupSet width contextSize room name 0
    let (infos, room) ← setupOutputSets names room
    pure (info :: infos, room)

def sentinel (offset : Nat) : DandelionResult IoSetInfo := do
  let offset ← fromNative width offset
  pure ⟨0, 0, offset⟩

/-- `setup_input_structs` on the memory and the occupation of a context with the given content. -/
def setupInputStructs (padding : Nat → UInt8) (content : List (Option DataSet)) (room : Room)
    (systemDataOffset : Nat) (outputSetNames : List String) : DandelionResult Room := do
  tryReserve alloc (ioBufferDescriptorSize width) (content.map fun set => (setItems set).length).sum
  tryReserve alloc (ioSetInfoSize width) (content.length + 1)
  let (inputSets, inputBuffers, room) ← setupSets width contextSize content [] room
  let inputSentinel ← sentinel width inputBuffers.length
  tryReserve alloc (ioSetInfoSize width) (outputSetNames.length + 1)
  let (outputSets, room) ← setupOutputSets width contextSize outputSetNames room
  let outputSentinel ← sentinel width 0
  let (inputSetsOffset, room) ← writeTable width contextSize (IoSetInfo.encode width) room
    (inputSets ++ [inputSentinel])
  let (outputSetsOffset, room) ← writeTable width contextSize (IoSetInfo.encode width) room
    (outputSets ++ [outputSentinel])
  let (inputBuffersOffset, room) ← writeTable width contextSize (IoBufferDescriptor.encode width) room
    inputBuffers
  let lastItemEnd ← getLastItemEnd .checked room.occupation
  let heapBegin ← fromNative width lastItemEnd
  let stackEnd ← Usize.sub .checked contextSize 128
  let heapEnd ← fromNative width stackEnd
  let inputSetsLen ← fromNative width content.length
  let outputSetsLen ← fromNative width outputSetNames.length
  let systemBuffer : DandelionSystemData :=
    ⟨-1, heapBegin, heapEnd, inputSetsLen, inputSetsOffset, outputSetsLen, outputSetsOffset,
      inputBuffersOffset, 0⟩
  let memory ← writeMemory room.memory width.bytes systemDataOffset (systemBuffer.encode width padding)
  pure ⟨memory, room.occupation⟩

end Write

/-! ## What an allocation leaves as it is -/

/-- Space that is given out was free, and only it is occupied then. -/
theorem getFreeSpace_sound {contextSize size alignment start : Nat} {occupation after : List Position}
    (hsize : contextSize < Usize.limit) (h : Spanning contextSize occupation) (hpos : 1 ≤ alignment)
    (hok : getFreeSpace .checked contextSize occupation size alignment = .ok (start, after)) :
    FreeRange occupation start size ∧ Spanning contextSize after
      ∧ ∀ o, Occupied after o ↔ Occupied occupation o ∨ (start ≤ o ∧ o < start + size) := by
  have hplace := placement_nextMultiple hpos
  unfold getFreeSpace at hok
  obtain ⟨space, hfind, hok⟩ := (bind_eq_ok_iff _ _ _).mp hok
  obtain ⟨merged, hinsert, hok⟩ := (bind_eq_ok_iff _ _ _).mp hok
  cases hok
  obtain ⟨front, lower, upper, back, rfl, hindex, hfits⟩ := findSpace_ok hfind
  rw [hindex] at hinsert
  have hlower := h.ends_lt hsize lower (by simp)
  have hstart := hfits.start_eq
  rw [hplace.startOf_eq _ hlower] at hstart
  obtain ⟨⟨hle, -⟩, -⟩ := hplace.least (lower.offset + lower.size)
  by_cases hlimit : nextMultiple (lower.offset + lower.size) alignment < Usize.limit
  swap
  · rw [if_neg hlimit] at hstart
    cases hstart
  rw [if_pos hlimit] at hstart
  rw [Except.ok.inj hstart] at hle hlimit
  have hroom := hfits.size_le
  rw [hfits.size_eq] at hroom
  by_cases hupper : space.start ≤ upper.offset
  · obtain ⟨merged', hinsert', hspanning, hoccupied, -⟩ :=
      insertOccupation_spanning hsize h hle (show space.start + size ≤ upper.offset by omega)
    obtain rfl := Except.ok.inj (hinsert'.symm.trans hinsert)
    exact ⟨freeRange_of_gap h.apart hle (by omega), hspanning, hoccupied⟩
  · -- only a region without bytes fits, and its insertion panics
    have hgap := (List.pairwise_append.mp h.apart.apart).2.1
    have hbetween := (List.pairwise_cons.mp hgap).1 upper List.mem_cons_self
    rw [insertOccupation_behind hlower (by omega) (by omega) (by omega)] at hinsert
    cases hinsert

theorem fromNative_ok_iff {width : Width} {n m : Nat} :
    fromNative width n = .ok m ↔ n < 256 ^ width.bytes ∧ m = n := by
  unfold fromNative
  by_cases hlt : n < 256 ^ width.bytes
  · rw [if_pos hlt]
    constructor
    · intro hok
      cases hok
      exact ⟨hlt, rfl⟩
    · rintro ⟨-, rfl⟩
      rfl
  · rw [if_neg hlt]
    constructor
    · intro hok
      cases hok
    · exact fun h => absurd h.1 hlt

theorem writeMemory_ok {memory after data : List UInt8} {align offset : Nat}
    (hok : writeMemory memory align offset data = .ok after) :
    offset + data.length ≤ memory.length ∧ after = KvmContext.copyInto memory offset data := by
  unfold writeMemory at hok
  split_ifs at hok with halign
  · cases hok
  · unfold writeStorage at hok
    obtain ⟨writeEnd, hadd, hok⟩ := (bind_eq_ok_iff _ _ _).mp hok
    obtain ⟨-, rfl⟩ := Usize.add_eq_ok_iff.mp hadd
    split_ifs at hok with hout
    · cases hok
    · cases hok
      exact ⟨by omega, rfl⟩

/-- A later state of the memory: what was occupied is as it was. -/
structure Room.Extends (contextSize : Nat) (before after : Room) : Prop where
  spanning : Spanning contextSize after.occupation
  occupied : ∀ o, Occupied before.occupation o → Occupied after.occupation o
  bytes : ∀ o, Occupied before.occupation o → after.memory[o]? = before.memory[o]?

namespace Room

variable {contextSize : Nat} {first before room after : Room}

theorem Extends.refl (h : Spanning contextSize room.occupation) : Extends contextSize room room :=
  ⟨h, fun _ ho => ho, fun _ _ => rfl⟩

theorem Extends.trans (h : Extends contextSize before room) (h' : Extends contextSize room after) :
    Extends contextSize before after :=
  ⟨h'.spanning, fun o ho => h'.occupied o (h.occupied o ho),
    fun o ho => (h'.bytes o (h.occupied o ho)).trans (h.bytes o ho)⟩

/-- Bytes that were written to space that was free in the first state, and is not any more. -/
def Holds (first room : Room) (offset : Nat) (data : List UInt8) : Prop :=
  ∀ i < data.length, room.memory[offset + i]? = data[i]? ∧ Occupied room.occupation (offset + i)
    ∧ ¬ Occupied first.occupation (offset + i)

theorem Holds.mono {offset : Nat} {data : List UInt8} (h : Holds first room offset data)
    (hafter : Extends contextSize room after) : Holds first after offset data := by
  intro i hi
  obtain ⟨hbyte, hoccupied, hfree⟩ := h i hi
  exact ⟨(hafter.bytes _ hoccupied).trans hbyte, hafter.occupied _ hoccupied, hfree⟩

theorem holds_nil (offset : Nat) : Holds first room offset [] := by
  intro i hi
  cases hi

end Room

section Steps

open Room

variable {width : Width} {contextSize : Nat} (hsize : contextSize < Usize.limit) {first room : Room}
  (h : Room.Extends contextSize first room)
include hsize h

theorem getFreeSpaceAndWriteSlice_ok {align offset : Nat} {data : List UInt8} {after : Room}
    (hpos : 1 ≤ align)
    (hok : getFreeSpaceAndWriteSlice contextSize room align data = .ok (offset, after)) :
    Room.Extends contextSize room after ∧ Holds first after offset data := by
  unfold getFreeSpaceAndWriteSlice at hok
  obtain ⟨⟨start, occupation⟩, hspace, hok⟩ := (bind_eq_ok_iff _ _ _).mp hok
  obtain ⟨memory, hwrite, hok⟩ := (bind_eq_ok_iff _ _ _).mp hok
  cases hok
  obtain ⟨hfree, hspanning, hoccupied⟩ := getFreeSpace_sound hsize h.spanning hpos hspace
  obtain ⟨hfits, rfl⟩ := writeMemory_ok hwrite
  refine ⟨⟨hspanning, fun o ho => (hoccupied o).mpr (.inl ho), fun o ho => ?_⟩, fun i hi => ?_⟩
  · rw [KvmContext.getElem?_copyInto hfits, if_neg]
    rintro ⟨hle, hlt⟩
    exact hfree o hle hlt ho
  · refine ⟨?_, (hoccupied _).mpr (.inr ⟨by omega, by omega⟩), fun hbefore => ?_⟩
    · rw [KvmContext.getElem?_copyInto hfits, if_pos ⟨by omega, by omega⟩, Nat.add_sub_cancel_left]
    · exact hfree _ (by omega) (by omega) (h.occupied _ hbefore)

theorem writeName_ok {name : String} {offset : Nat} {after : Room}
    (hok : writeName contextSize room name = .ok (offset, after)) :
    Room.Extends contextSize room after ∧ Holds first after offset (Bson.utf8Bytes name) := by
  unfold writeName at hok
  split_ifs at hok with hempty
  · exact getFreeSpaceAndWriteSlice_ok hsize h (le_refl 1) hok
  · cases hok
    rw [List.length_eq_zero_iff.mp (not_not.mp hempty)]
    exact ⟨.refl h.spanning, holds_nil 0⟩

theorem writeTable_ok {α : Type} {encode : α → List UInt8} {table : List α} {offset : Nat}
    {after : Room} (hok : writeTable width contextSize encode room table = .ok (offset, after)) :
    Room.Extends contextSize room after ∧ Holds first after offset (table.flatMap encode)
      ∧ offset < 256 ^ width.bytes := by
  unfold writeTable at hok
  obtain ⟨⟨start, after'⟩, hwrite, hok⟩ := (bind_eq_ok_iff _ _ _).mp hok
  obtain ⟨offset', hnative, hok⟩ := (bind_eq_ok_iff _ _ _).mp hok
  cases hok
  obtain ⟨hlt, rfl⟩ := fromNative_ok_iff.mp hnative
  have hpos : 1 ≤ width.bytes := by cases width <;> decide
  obtain ⟨hextends, hholds⟩ := getFreeSpaceAndWriteSlice_ok hsize h hpos hwrite
  exact ⟨hextends, hholds, hlt⟩

end Steps

end Dandelion
