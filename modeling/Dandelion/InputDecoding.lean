import Dandelion.InputStructs
import Dandelion.PositionWrites

/-!
# What a function finds as its input

A function reads the system data, then the tables, then the names. All of them are what was written
for it: the sets of the context with their items, in order, and the names of the output sets.
-/

namespace Dandelion

open Outcome Room

/-! ## Structs that are read back -/

section Words

variable {width : Width}

theorem length_encodeWords (words : List Nat) :
    (encodeWords width words).length = words.length * width.bytes := by
  rw [encodeWords, List.length_flatMap]
  simp

theorem wordAt_encodeWords {words : List Nat} {i : Nat} {word : Nat} (hword : words[i]? = some word)
    (hlt : word < 256 ^ width.bytes) : wordAt width (encodeWords width words) i = word := by
  induction words generalizing i with
  | nil => cases hword
  | cons first words ih =>
    have hfirst : (Bson.leBytes width.bytes first).length = width.bytes := Bson.length_leBytes _ _
    rw [encodeWords, List.flatMap_cons, ← encodeWords]
    cases i with
    | zero =>
      cases hword
      rw [wordAt, Nat.zero_mul, List.drop_zero, List.take_left' hfirst]
      exact Bson.ofLeBytes_leBytes_of_lt hlt
    | succ i =>
      rw [wordAt, Nat.succ_mul, Nat.add_comm, ← List.drop_drop, List.drop_left' hfirst]
      exact ih hword

end Words

theorem decodeTable_flatMap {α : Type} {decode : List UInt8 → α} {encode : α → List UInt8}
    {elementSize : Nat} {table : List α}
    (h : ∀ entry ∈ table, (encode entry).length = elementSize ∧ decode (encode entry) = entry) :
    decodeTable decode elementSize table.length (table.flatMap encode) = table := by
  induction table with
  | nil => rfl
  | cons entry table ih =>
    obtain ⟨⟨hlength, hdecode⟩, hrest⟩ := List.forall_mem_cons.mp h
    rw [decodeTable, List.length_cons, List.range_succ_eq_map, List.map_cons, List.map_map,
      List.flatMap_cons]
    congr 1
    · rw [Nat.zero_mul, List.drop_zero, List.take_left' hlength, hdecode]
    · have hshift : ((fun i => decode (((encode entry ++ table.flatMap encode).drop (i * elementSize)).take
          elementSize)) ∘ Nat.succ)
          = fun i => decode (((table.flatMap encode).drop (i * elementSize)).take elementSize) := by
        funext i
        rw [Function.comp_apply, Nat.succ_mul, Nat.add_comm, ← List.drop_drop, List.drop_left' hlength]
      rw [hshift]
      exact ih hrest

theorem length_flatMap_encode {α : Type} {encode : α → List UInt8} {elementSize : Nat} {table : List α}
    (h : ∀ entry ∈ table, (encode entry).length = elementSize) :
    (table.flatMap encode).length = elementSize * table.length := by
  induction table with
  | nil => rfl
  | cons entry table ih =>
    obtain ⟨hentry, hrest⟩ := List.forall_mem_cons.mp h
    rw [List.flatMap_cons, List.length_append, hentry, ih hrest, List.length_cons, Nat.mul_succ,
      Nat.add_comm]

section Structs

variable {width : Width}

/-- The words of an entry fit into the words of the function. -/
def IoSetInfo.Words (width : Width) (info : IoSetInfo) : Prop :=
  info.ident < 256 ^ width.bytes ∧ info.identLen < 256 ^ width.bytes ∧ info.offset < 256 ^ width.bytes

def IoBufferDescriptor.Words (width : Width) (buffer : IoBufferDescriptor) : Prop :=
  buffer.ident < 256 ^ width.bytes ∧ buffer.identLen < 256 ^ width.bytes
    ∧ buffer.data < 256 ^ width.bytes ∧ buffer.dataLen < 256 ^ width.bytes
    ∧ buffer.key < 256 ^ width.bytes

theorem IoSetInfo.Words.decode_encode {info : IoSetInfo} (h : info.Words width) :
    (info.encode width).length = ioSetInfoSize width
      ∧ IoSetInfo.decode width (info.encode width) = info := by
  obtain ⟨hident, hidentLen, hoffset⟩ := h
  refine ⟨length_encodeWords _, ?_⟩
  rw [IoSetInfo.decode, IoSetInfo.encode, wordAt_encodeWords rfl hident, wordAt_encodeWords rfl hidentLen,
    wordAt_encodeWords rfl hoffset]

theorem IoBufferDescriptor.Words.decode_encode {buffer : IoBufferDescriptor} (h : buffer.Words width) :
    (buffer.encode width).length = ioBufferDescriptorSize width
      ∧ IoBufferDescriptor.decode width (buffer.encode width) = buffer := by
  obtain ⟨hident, hidentLen, hdata, hdataLen, hkey⟩ := h
  refine ⟨length_encodeWords _, ?_⟩
  rw [IoBufferDescriptor.decode, IoBufferDescriptor.encode, wordAt_encodeWords rfl hident,
    wordAt_encodeWords rfl hidentLen, wordAt_encodeWords rfl hdata, wordAt_encodeWords rfl hdataLen,
    wordAt_encodeWords rfl hkey]

theorem width_bytes_ge (width : Width) : 4 ≤ width.bytes := by cases width <;> decide

theorem DandelionSystemData.length_encode (padding : Nat → UInt8) (system : DandelionSystemData) :
    (system.encode width padding).length = systemDataSize width := by
  have := width_bytes_ge width
  rw [DandelionSystemData.encode, List.length_append, List.length_append, length_encodeWords,
    Bson.length_leBytes, List.length_map, List.length_range, systemDataSize]
  simp only [List.length_cons, List.length_nil]
  omega

theorem DandelionSystemData.wordAt_encode (padding : Nat → UInt8) (system : DandelionSystemData)
    {i word : Nat}
    (hword : [system.heapBegin, system.heapEnd, system.inputSetsLen, system.inputSets,
      system.outputSetsLen, system.outputSets, system.inputBufs, system.outputBufs][i]? = some word)
    (hlt : word < 256 ^ width.bytes) :
    wordAt width (system.encode width padding) (i + 1) = word := by
  have := width_bytes_ge width
  have hfirst : (Bson.leBytes 4 system.exitCode.toNat ++ (List.range (width.bytes - 4)).map padding).length
      = width.bytes := by
    rw [List.length_append, Bson.length_leBytes, List.length_map, List.length_range]
    omega
  rw [wordAt, DandelionSystemData.encode, Nat.succ_mul, Nat.add_comm, ← List.drop_drop,
    List.drop_left' hfirst]
  exact wordAt_encodeWords hword hlt

end Structs

/-! ## What the entries and descriptors are -/

section Entries

variable {width : Width} {contextSize : Nat} {first room after : Room}

def NameAt (first room : Room) (ident identLen : Nat) (name : String) : Prop :=
  identLen = (Bson.utf8Bytes name).length ∧ Holds first room ident (Bson.utf8Bytes name)

/-- A descriptor of an item. -/
structure Describes (width : Width) (first room : Room) (buffer : IoBufferDescriptor) (item : DataItem) :
    Prop where
  name : NameAt first room buffer.ident buffer.identLen item.ident
  data : item.data = ⟨buffer.data, buffer.dataLen⟩
  key : item.key = buffer.key
  words : buffer.Words width

theorem Describes.mono {buffer : IoBufferDescriptor} {item : DataItem}
    (h : Describes width first room buffer item) (hafter : Room.Extends contextSize room after) :
    Describes width first after buffer item :=
  { h with name := ⟨h.name.1, h.name.2.mono hafter⟩ }

/-- The entries of sets, whose descriptors follow each other from `start` to `stop`. -/
def SetsAt (width : Width) (first room : Room) (buffers : List IoBufferDescriptor) :
    Nat → List IoSetInfo → List (Option DataSet) → Nat → Prop
  | start, [], [], stop => start = stop
  | start, info :: infos, set :: sets, stop =>
    info.offset = start ∧ info.Words width ∧ NameAt first room info.ident info.identLen (setName set)
      ∧ (∀ j item, (setItems set)[j]? = some item →
        ∃ buffer, buffers[start + j]? = some buffer ∧ Describes width first room buffer item)
      ∧ SetsAt width first room buffers (start + (setItems set).length) infos sets stop
  | _, _, _, _ => False

theorem SetsAt.mono {buffers : List IoBufferDescriptor} {start stop : Nat} {infos : List IoSetInfo}
    {sets : List (Option DataSet)} (h : SetsAt width first room buffers start infos sets stop)
    (hafter : Room.Extends contextSize room after) :
    SetsAt width first after buffers start infos sets stop := by
  induction sets generalizing start infos with
  | nil =>
    cases infos with
    | nil => exact h
    | cons info infos => exact h.elim
  | cons set sets ih =>
    cases infos with
    | nil => exact h.elim
    | cons info infos =>
      obtain ⟨hoffset, hwords, hname, hitems, hrest⟩ := h
      refine ⟨hoffset, hwords, ⟨hname.1, hname.2.mono hafter⟩, fun j item hitem => ?_, ih hrest⟩
      obtain ⟨buffer, hbuffer, hdescribes⟩ := hitems j item hitem
      exact ⟨buffer, hbuffer, hdescribes.mono hafter⟩

section Setup

variable (hsize : contextSize < Usize.limit) (h : Room.Extends contextSize first room)
include hsize h

theorem setupItems_ok {items : List DataItem} {buffers : List IoBufferDescriptor}
    (hok : setupItems width contextSize items room = .ok (buffers, after)) :
    Room.Extends contextSize room after ∧ List.Forall₂ (Describes width first after) buffers items := by
  induction items generalizing room buffers with
  | nil =>
    cases hok
    exact ⟨.refl h.spanning, .nil⟩
  | cons item items ih =>
    rw [setupItems] at hok
    obtain ⟨⟨stringOffset, named⟩, hname, hok⟩ := (bind_eq_ok_iff _ _ _).mp hok
    obtain ⟨ident, hident, hok⟩ := (bind_eq_ok_iff _ _ _).mp hok
    obtain ⟨identLen, hidentLen, hok⟩ := (bind_eq_ok_iff _ _ _).mp hok
    obtain ⟨data, hdata, hok⟩ := (bind_eq_ok_iff _ _ _).mp hok
    obtain ⟨dataLen, hdataLen, hok⟩ := (bind_eq_ok_iff _ _ _).mp hok
    obtain ⟨key, hkey, hok⟩ := (bind_eq_ok_iff _ _ _).mp hok
    obtain ⟨⟨rest, after'⟩, hrest, hok⟩ := (bind_eq_ok_iff _ _ _).mp hok
    cases hok
    obtain ⟨hidentLt, rfl⟩ := fromNative_ok_iff.mp hident
    obtain ⟨hidentLenLt, rfl⟩ := fromNative_ok_iff.mp hidentLen
    obtain ⟨hdataLt, rfl⟩ := fromNative_ok_iff.mp hdata
    obtain ⟨hdataLenLt, rfl⟩ := fromNative_ok_iff.mp hdataLen
    obtain ⟨hkeyLt, rfl⟩ := fromNative_ok_iff.mp hkey
    obtain ⟨hnamed, hholds⟩ := writeName_ok hsize h hname
    obtain ⟨hextends, hall⟩ := ih (h.trans hnamed) hrest
    refine ⟨hnamed.trans hextends, .cons ?_ hall⟩
    exact ⟨⟨rfl, hholds.mono hextends⟩, rfl, rfl, hidentLt, hidentLenLt, hdataLt, hdataLenLt, hkeyLt⟩

theorem setupSet_ok {name : String} {offset : Nat} {info : IoSetInfo}
    (hok : setupSet width contextSize room name offset = .ok (info, after)) :
    Room.Extends contextSize room after ∧ info.offset = offset ∧ info.Words width
      ∧ NameAt first after info.ident info.identLen name := by
  unfold setupSet at hok
  obtain ⟨⟨stringOffset, named⟩, hname, hok⟩ := (bind_eq_ok_iff _ _ _).mp hok
  obtain ⟨ident, hident, hok⟩ := (bind_eq_ok_iff _ _ _).mp hok
  obtain ⟨identLen, hidentLen, hok⟩ := (bind_eq_ok_iff _ _ _).mp hok
  obtain ⟨offset', hoffset, hok⟩ := (bind_eq_ok_iff _ _ _).mp hok
  cases hok
  obtain ⟨hidentLt, rfl⟩ := fromNative_ok_iff.mp hident
  obtain ⟨hidentLenLt, rfl⟩ := fromNative_ok_iff.mp hidentLen
  obtain ⟨hoffsetLt, rfl⟩ := fromNative_ok_iff.mp hoffset
  obtain ⟨hextends, hholds⟩ := writeName_ok hsize h hname
  exact ⟨hextends, rfl, ⟨hidentLt, hidentLenLt, hoffsetLt⟩, rfl, hholds⟩

theorem setupSets_ok {sets : List (Option DataSet)} {inputBuffers buffers : List IoBufferDescriptor}
    {infos : List IoSetInfo} (hwords : ∀ buffer ∈ inputBuffers, buffer.Words width)
    (hok : setupSets width contextSize sets inputBuffers room = .ok (infos, buffers, after)) :
    Room.Extends contextSize room after ∧ inputBuffers <+: buffers
      ∧ (∀ buffer ∈ buffers, buffer.Words width)
      ∧ SetsAt width first after buffers inputBuffers.length infos sets buffers.length := by
  induction sets generalizing room inputBuffers infos with
  | nil =>
    cases hok
    exact ⟨.refl h.spanning, List.prefix_refl _, hwords, rfl⟩
  | cons set sets ih =>
    rw [setupSets] at hok
    obtain ⟨⟨info, named⟩, hset, hok⟩ := (bind_eq_ok_iff _ _ _).mp hok
    obtain ⟨⟨added, filled⟩, hitems, hok⟩ := (bind_eq_ok_iff _ _ _).mp hok
    obtain ⟨⟨rest, buffers', after'⟩, hrest, hok⟩ := (bind_eq_ok_iff _ _ _).mp hok
    cases hok
    obtain ⟨hnamed, hoffset, hinfo, hname⟩ := setupSet_ok hsize h hset
    obtain ⟨hfilled, hall⟩ := setupItems_ok hsize (h.trans hnamed) hitems
    have haddedWords : ∀ buffer ∈ inputBuffers ++ added, buffer.Words width := by
      intro buffer hbuffer
      rcases List.mem_append.mp hbuffer with hold | hnew
      · exact hwords buffer hold
      · obtain ⟨item, -, hdescribes⟩ := PositionWrites.exists_right_of_mem hall hnew
        exact hdescribes.words
    obtain ⟨hextends, hprefix, hallWords, hsets⟩ := ih (h.trans (hnamed.trans hfilled)) haddedWords hrest
    have hlast := hfilled.trans hextends
    refine ⟨hnamed.trans hlast, (List.prefix_append _ _).trans hprefix, hallWords, hoffset, hinfo,
      ⟨hname.1, hname.2.mono hlast⟩, fun j item hitem => ?_, ?_⟩
    · obtain ⟨hj, rfl⟩ := List.getElem?_eq_some_iff.mp hitem
      obtain ⟨hlength, hdescribed⟩ := List.forall₂_iff_get.mp hall
      have hadded : j < added.length := by omega
      refine ⟨added[j], ?_, (hdescribed j hadded hj).mono hextends⟩
      obtain ⟨tail, htail⟩ := hprefix
      rw [← htail, List.append_assoc, List.getElem?_append_right (by omega), Nat.add_sub_cancel_left,
        List.getElem?_append_left hadded, List.getElem?_eq_getElem hadded]
    · rw [List.length_append, hall.length_eq] at hsets
      exact hsets

theorem setupOutputSets_ok {names : List String} {infos : List IoSetInfo}
    (hok : setupOutputSets width contextSize names room = .ok (infos, after)) :
    Room.Extends contextSize room after ∧ List.Forall₂ (fun info name => info.Words width
      ∧ NameAt first after info.ident info.identLen name) infos names := by
  induction names generalizing room infos with
  | nil =>
    cases hok
    exact ⟨.refl h.spanning, .nil⟩
  | cons name names ih =>
    rw [setupOutputSets] at hok
    obtain ⟨⟨info, named⟩, hset, hok⟩ := (bind_eq_ok_iff _ _ _).mp hok
    obtain ⟨⟨rest, after'⟩, hrest, hok⟩ := (bind_eq_ok_iff _ _ _).mp hok
    cases hok
    obtain ⟨hnamed, -, hwords, hname⟩ := setupSet_ok hsize h hset
    obtain ⟨hextends, hall⟩ := ih (h.trans hnamed) hrest
    exact ⟨hnamed.trans hextends, .cons ⟨hwords, hname.1, hname.2.mono hextends⟩ hall⟩

end Setup

end Entries

/-! ## Contexts as they are prepared -/

/-- The occupation of a context after its static image is loaded, which reaches from the first byte
to `staticEnd`, and data is placed in it, with the positions of the data. -/
inductive PreparedSpace (contextSize staticEnd : Nat) : List Position → List Position → Prop
  | loaded {occupation : List Position}
      (hok : occupySpace .checked contextSize (clearedOccupation contextSize) 0 staticEnd
        = .ok occupation) : PreparedSpace contextSize staticEnd occupation []
  | placed {occupation after placed : List Position} {start size : Nat}
      (h : PreparedSpace contextSize staticEnd occupation placed)
      (hok : getFreeSpace .checked contextSize occupation size 128 = .ok (start, after)) :
      PreparedSpace contextSize staticEnd after (⟨start, size⟩ :: placed)

/-- The static image and the data are occupied, and they are apart. -/
theorem PreparedSpace.spec {contextSize staticEnd : Nat} {occupation placed : List Position}
    (hsize : contextSize < Usize.limit) (h : PreparedSpace contextSize staticEnd occupation placed) :
    Spanning contextSize occupation ∧ (∀ o < staticEnd, Occupied occupation o)
      ∧ ∀ p ∈ placed, ∀ o, p.offset ≤ o → o < p.offset + p.size →
        Occupied occupation o ∧ staticEnd ≤ o := by
  induction h with
  | loaded hok =>
    have hle := occupySpace_ok_le hok
    obtain ⟨hspanning, -, hoccupied⟩ := occupySpace_front hsize (by omega) hok
    exact ⟨hspanning, fun o ho => (hoccupied o).mpr ho, fun p hp => by cases hp⟩
  | placed h hok ih =>
    obtain ⟨hspanning, hstatic, hplaced⟩ := ih
    obtain ⟨hfree, hspanning', hoccupied⟩ := getFreeSpace_sound hsize hspanning (by decide) hok
    refine ⟨hspanning', fun o ho => (hoccupied o).mpr (.inl (hstatic o ho)), fun p hp o hle hlt => ?_⟩
    rcases List.mem_cons.mp hp with rfl | hp
    · refine ⟨(hoccupied o).mpr (.inr ⟨hle, hlt⟩), ?_⟩
      by_contra hbelow
      exact hfree o hle hlt (hstatic o (by omega))
    · obtain ⟨hbefore, hbehind⟩ := hplaced p hp o hle hlt
      exact ⟨(hoccupied o).mpr (.inl hbefore), hbehind⟩

/-! ## The view of the function -/

/-- The fields of the system data that a function starts with. -/
structure GuestData where
  inputSetsLen : Nat
  inputSets : Nat
  outputSetsLen : Nat
  outputSets : Nat
  inputBufs : Nat

def GuestData.decode (width : Width) (bytes : List UInt8) : GuestData :=
  ⟨wordAt width bytes 3, wordAt width bytes 4, wordAt width bytes 5, wordAt width bytes 6,
    wordAt width bytes 7⟩

section Guest

variable (width : Width) (memory : List UInt8) (systemDataOffset : Nat)

def guestData : GuestData :=
  GuestData.decode width ((memory.drop systemDataOffset).take (systemDataSize width))

/-- A table of sets with its sentinel. -/
def guestSetTable (offset count : Nat) : List IoSetInfo :=
  decodeTable (IoSetInfo.decode width) (ioSetInfoSize width) (count + 1)
    ((memory.drop offset).take (ioSetInfoSize width * (count + 1)))

def guestBufferTable (offset count : Nat) : List IoBufferDescriptor :=
  decodeTable (IoBufferDescriptor.decode width) (ioBufferDescriptorSize width) count
    ((memory.drop offset).take (ioBufferDescriptorSize width * count))

/-- The entry of an input set: its name, and descriptors of exactly its items up to the next entry. -/
structure InputSetIs (buffers : List IoBufferDescriptor) (info next : IoSetInfo)
    (set : Option DataSet) : Prop where
  name : IdentIs memory info.ident info.identLen (setName set)
  ordered : info.offset ≤ next.offset
  items : List.Forall₂ (fun index item => ∃ buffer, buffers[index]? = some buffer
    ∧ ItemIs memory buffer item) (List.range' info.offset (next.offset - info.offset)) (setItems set)

def guestInputSets : List IoSetInfo :=
  let data := guestData width memory systemDataOffset
  guestSetTable width memory data.inputSets data.inputSetsLen

def guestOutputSets : List IoSetInfo :=
  let data := guestData width memory systemDataOffset
  guestSetTable width memory data.outputSets data.outputSetsLen

/-- The descriptors, as many as the offset of the sentinel says. -/
def guestInputBuffers : List IoBufferDescriptor :=
  let data := guestData width memory systemDataOffset
  guestBufferTable width memory data.inputBufs
    (((guestInputSets width memory systemDataOffset)[data.inputSetsLen]?.map IoSetInfo.offset).getD 0)

/-- The function finds the content of the context and the names of the output sets. -/
structure InputIs (content : List (Option DataSet)) (outputSetNames : List String) : Prop where
  inputSetsLen : (guestData width memory systemDataOffset).inputSetsLen = content.length
  inputSets : ∀ (s : Nat) set, content[s]? = some set → ∃ info next,
    (guestInputSets width memory systemDataOffset)[s]? = some info
      ∧ (guestInputSets width memory systemDataOffset)[s + 1]? = some next
      ∧ InputSetIs memory (guestInputBuffers width memory systemDataOffset) info next set
  outputSetsLen : (guestData width memory systemDataOffset).outputSetsLen = outputSetNames.length
  outputSets : ∀ (s : Nat) name, outputSetNames[s]? = some name → ∃ info : IoSetInfo,
    (guestOutputSets width memory systemDataOffset)[s]? = some info
      ∧ IdentIs memory info.ident info.identLen name

end Guest

/-- An entry and the one behind it, which is the sentinel for the last one. -/
theorem SetsAt.entry {width : Width} {first room : Room} {buffers : List IoBufferDescriptor}
    {start stop s : Nat} {infos : List IoSetInfo} {sets : List (Option DataSet)} {last : IoSetInfo}
    {set : Option DataSet} (h : SetsAt width first room buffers start infos sets stop)
    (hlast : last.offset = stop) (hset : sets[s]? = some set) :
    ∃ info next, (infos ++ [last])[s]? = some info ∧ (infos ++ [last])[s + 1]? = some next
      ∧ next.offset = info.offset + (setItems set).length
      ∧ NameAt first room info.ident info.identLen (setName set)
      ∧ ∀ j item, (setItems set)[j]? = some item →
        ∃ buffer, buffers[info.offset + j]? = some buffer ∧ Describes width first room buffer item := by
  induction sets generalizing start infos s with
  | nil => cases hset
  | cons head sets ih =>
    cases infos with
    | nil => exact h.elim
    | cons info infos =>
      obtain ⟨hoffset, -, hname, hitems, hrest⟩ := h
      cases s with
      | succ s =>
        obtain ⟨info', next, hinfo, hnext, hfound⟩ := ih hrest (show sets[s]? = some set from hset)
        exact ⟨info', next, hinfo, hnext, hfound⟩
      | zero =>
        obtain rfl := Option.some.inj hset
        have hnext : ∃ next, (infos ++ [last])[0]? = some next
            ∧ next.offset = start + (setItems head).length := by
          cases infos with
          | nil =>
            cases sets with
            | nil => exact ⟨last, rfl, hlast.trans hrest.symm⟩
            | cons set sets => exact hrest.elim
          | cons next infos =>
            cases sets with
            | nil => exact hrest.elim
            | cons set sets => exact ⟨next, rfl, hrest.1⟩
        obtain ⟨next, hget, hbehind⟩ := hnext
        exact ⟨info, next, rfl, hget, by rw [hbehind, hoffset], hname, hoffset ▸ hitems⟩

theorem SetsAt.length_eq {width : Width} {first room : Room} {buffers : List IoBufferDescriptor}
    {start stop : Nat} {infos : List IoSetInfo} {sets : List (Option DataSet)}
    (h : SetsAt width first room buffers start infos sets stop) :
    infos.length = sets.length ∧ ∀ info ∈ infos, info.Words width := by
  induction sets generalizing start infos with
  | nil =>
    cases infos with
    | nil => exact ⟨rfl, fun info hinfo => by cases hinfo⟩
    | cons info infos => exact h.elim
  | cons set sets ih =>
    cases infos with
    | nil => exact h.elim
    | cons info infos =>
      obtain ⟨-, hwords, -, -, hrest⟩ := h
      obtain ⟨hlength, hall⟩ := ih hrest
      exact ⟨by rw [List.length_cons, hlength, List.length_cons], List.forall_mem_cons.mpr ⟨hwords, hall⟩⟩

/-- Bytes that are found in the memory. -/
def BytesAt (memory : List UInt8) (offset : Nat) (data : List UInt8) : Prop :=
  ∀ i < data.length, memory[offset + i]? = data[i]?

theorem BytesAt.take_drop {memory data : List UInt8} {offset : Nat} (h : BytesAt memory offset data) :
    (memory.drop offset).take data.length = data := by
  apply List.ext_getElem?
  intro i
  rw [List.getElem?_take]
  by_cases hi : i < data.length
  · rw [if_pos hi, List.getElem?_drop, h i hi]
  · rw [if_neg hi, List.getElem?_eq_none (by omega)]

section Final

variable {width : Width} {memory : List UInt8}

theorem guestSetTable_eq {offset count : Nat} {table : List IoSetInfo}
    (h : BytesAt memory offset (table.flatMap (IoSetInfo.encode width)))
    (hwords : ∀ info ∈ table, info.Words width) (hlength : table.length = count + 1) :
    guestSetTable width memory offset count = table := by
  have hall := fun info hinfo => (hwords info hinfo).decode_encode
  have hbytes := length_flatMap_encode fun info hinfo => (hall info hinfo).1
  rw [hlength] at hbytes
  rw [guestSetTable, ← hbytes, h.take_drop, ← hlength]
  exact decodeTable_flatMap hall

theorem guestBufferTable_eq {offset : Nat} {table : List IoBufferDescriptor}
    (h : BytesAt memory offset (table.flatMap (IoBufferDescriptor.encode width)))
    (hwords : ∀ buffer ∈ table, buffer.Words width) :
    guestBufferTable width memory offset table.length = table := by
  have hall := fun buffer hbuffer => (hwords buffer hbuffer).decode_encode
  have hbytes := length_flatMap_encode fun buffer hbuffer => (hall buffer hbuffer).1
  rw [guestBufferTable, ← hbytes, h.take_drop]
  exact decodeTable_flatMap hall

theorem guestData_eq {systemDataOffset : Nat} {padding : Nat → UInt8} {system : DandelionSystemData}
    (h : BytesAt memory systemDataOffset (system.encode width padding))
    (hinputSetsLen : system.inputSetsLen < 256 ^ width.bytes)
    (hinputSets : system.inputSets < 256 ^ width.bytes)
    (houtputSetsLen : system.outputSetsLen < 256 ^ width.bytes)
    (houtputSets : system.outputSets < 256 ^ width.bytes)
    (hinputBufs : system.inputBufs < 256 ^ width.bytes) :
    guestData width memory systemDataOffset = ⟨system.inputSetsLen, system.inputSets,
      system.outputSetsLen, system.outputSets, system.inputBufs⟩ := by
  rw [guestData, ← system.length_encode padding, h.take_drop, GuestData.decode,
    system.wordAt_encode padding rfl hinputSetsLen, system.wordAt_encode padding rfl hinputSets,
    system.wordAt_encode padding rfl houtputSetsLen, system.wordAt_encode padding rfl houtputSets,
    system.wordAt_encode padding rfl hinputBufs]

/-- A state of the memory, except for bytes that were occupied from the start on. -/
def Overwrites (first room : Room) (memory : List UInt8) : Prop :=
  ∀ o, memory[o]? = room.memory[o]? ∨ Occupied first.occupation o

theorem Room.Holds.bytesAt {first room : Room} {offset : Nat} {data : List UInt8}
    (h : Holds first room offset data) (hmemory : Overwrites first room memory) :
    BytesAt memory offset data := by
  intro i hi
  obtain ⟨hbyte, -, hfree⟩ := h i hi
  exact ((hmemory _).resolve_right hfree).trans hbyte

theorem NameAt.identIs {first room : Room} {ident identLen : Nat} {name : String}
    (h : NameAt first room ident identLen name) (hmemory : Overwrites first room memory) :
    IdentIs memory ident identLen name := by
  refine ⟨h.1.symm, fun i hi => ?_⟩
  exact (h.2.bytesAt hmemory i (h.1 ▸ hi)).symm

theorem Describes.itemIs {first room : Room} {buffer : IoBufferDescriptor} {item : DataItem}
    (h : Describes width first room buffer item) (hmemory : Overwrites first room memory) :
    ItemIs memory buffer item :=
  ⟨h.name.identIs hmemory, h.data, h.key⟩

theorem forall₂_range' {α : Type} {R : Nat → α → Prop} {l : List α} {start : Nat}
    (h : ∀ j a, l[j]? = some a → R (start + j) a) : List.Forall₂ R (List.range' start l.length) l := by
  induction l generalizing start with
  | nil => exact .nil
  | cons a l ih =>
    rw [List.length_cons, List.range'_succ]
    refine .cons (h 0 a rfl) (ih fun j b hb => ?_)
    have hlater := h (j + 1) b hb
    rwa [show start + (j + 1) = start + 1 + j by omega] at hlater

theorem sentinel_ok {offset : Nat} {info : IoSetInfo} (hok : sentinel width offset = .ok info) :
    info.offset = offset ∧ info.Words width := by
  unfold sentinel at hok
  obtain ⟨offset', hoffset, hok⟩ := (bind_eq_ok_iff _ _ _).mp hok
  cases hok
  obtain ⟨hlt, rfl⟩ := fromNative_ok_iff.mp hoffset
  have hpos : 0 < 256 ^ width.bytes := Nat.pow_pos (by decide)
  exact ⟨rfl, hpos, hpos, hlt⟩

end Final

/-- What `setup_input_structs` writes, with the sentinels, and the memory just before it writes the
system data. -/
structure InputLayout where
  room : Room
  inputSets : List IoSetInfo
  inputSentinel : IoSetInfo
  inputBuffers : List IoBufferDescriptor
  outputSets : List IoSetInfo
  outputSentinel : IoSetInfo
  system : DandelionSystemData

structure InputLayout.Written (layout : InputLayout) (width : Width) (contextSize : Nat) (first : Room)
    (content : List (Option DataSet)) (outputSetNames : List String) : Prop where
  room : Room.Extends contextSize first layout.room
  inputSets : SetsAt width first layout.room layout.inputBuffers 0 layout.inputSets content
    layout.inputBuffers.length
  inputSentinel : layout.inputSentinel.offset = layout.inputBuffers.length
    ∧ layout.inputSentinel.Words width
  inputBuffers : ∀ buffer ∈ layout.inputBuffers, buffer.Words width
  outputSets : List.Forall₂ (fun info name => info.Words width
    ∧ NameAt first layout.room info.ident info.identLen name) layout.outputSets outputSetNames
  outputSentinel : layout.outputSentinel.Words width
  inputSetsAt : Holds first layout.room layout.system.inputSets
    ((layout.inputSets ++ [layout.inputSentinel]).flatMap (IoSetInfo.encode width))
  outputSetsAt : Holds first layout.room layout.system.outputSets
    ((layout.outputSets ++ [layout.outputSentinel]).flatMap (IoSetInfo.encode width))
  inputBufsAt : Holds first layout.room layout.system.inputBufs
    (layout.inputBuffers.flatMap (IoBufferDescriptor.encode width))
  inputSetsLen : layout.system.inputSetsLen = content.length
  outputSetsLen : layout.system.outputSetsLen = outputSetNames.length
  words : layout.system.inputSetsLen < 256 ^ width.bytes ∧ layout.system.inputSets < 256 ^ width.bytes
    ∧ layout.system.outputSetsLen < 256 ^ width.bytes ∧ layout.system.outputSets < 256 ^ width.bytes
    ∧ layout.system.inputBufs < 256 ^ width.bytes

theorem setupInputStructs_ok {alloc : Allocator} {width : Width} {contextSize systemDataOffset : Nat}
    {padding : Nat → UInt8} {content : List (Option DataSet)} {first after : Room}
    {outputSetNames : List String} (hsize : contextSize < Usize.limit)
    (hfirst : Spanning contextSize first.occupation)
    (hok : setupInputStructs alloc width contextSize padding content first systemDataOffset
      outputSetNames = .ok after) :
    ∃ layout : InputLayout, layout.Written width contextSize first content outputSetNames
      ∧ systemDataOffset + systemDataSize width ≤ layout.room.memory.length
      ∧ after.memory = KvmContext.copyInto layout.room.memory systemDataOffset
        (layout.system.encode width padding) := by
  unfold setupInputStructs at hok
  obtain ⟨_, -, hok⟩ := (bind_eq_ok_iff _ _ _).mp hok
  obtain ⟨_, -, hok⟩ := (bind_eq_ok_iff _ _ _).mp hok
  obtain ⟨⟨inputSets, inputBuffers, filled⟩, hsets, hok⟩ := (bind_eq_ok_iff _ _ _).mp hok
  obtain ⟨inputSentinel, hsentinel, hok⟩ := (bind_eq_ok_iff _ _ _).mp hok
  obtain ⟨_, -, hok⟩ := (bind_eq_ok_iff _ _ _).mp hok
  obtain ⟨⟨outputSets, named⟩, houtputs, hok⟩ := (bind_eq_ok_iff _ _ _).mp hok
  obtain ⟨outputSentinel, houtputSentinel, hok⟩ := (bind_eq_ok_iff _ _ _).mp hok
  obtain ⟨⟨inputSetsOffset, room₁⟩, htable₁, hok⟩ := (bind_eq_ok_iff _ _ _).mp hok
  obtain ⟨⟨outputSetsOffset, room₂⟩, htable₂, hok⟩ := (bind_eq_ok_iff _ _ _).mp hok
  obtain ⟨⟨inputBuffersOffset, room₃⟩, htable₃, hok⟩ := (bind_eq_ok_iff _ _ _).mp hok
  obtain ⟨lastItemEnd, -, hok⟩ := (bind_eq_ok_iff _ _ _).mp hok
  obtain ⟨heapBegin, -, hok⟩ := (bind_eq_ok_iff _ _ _).mp hok
  obtain ⟨stackEnd, -, hok⟩ := (bind_eq_ok_iff _ _ _).mp hok
  obtain ⟨heapEnd, -, hok⟩ := (bind_eq_ok_iff _ _ _).mp hok
  obtain ⟨inputSetsLen, hinputLen, hok⟩ := (bind_eq_ok_iff _ _ _).mp hok
  obtain ⟨outputSetsLen, houtputLen, hok⟩ := (bind_eq_ok_iff _ _ _).mp hok
  obtain ⟨memory, hwrite, hok⟩ := (bind_eq_ok_iff _ _ _).mp hok
  cases hok
  obtain ⟨hinputLt, rfl⟩ := fromNative_ok_iff.mp hinputLen
  obtain ⟨houtputLt, rfl⟩ := fromNative_ok_iff.mp houtputLen
  have h₀ : Room.Extends contextSize first first := .refl hfirst
  obtain ⟨hfilled, -, hbuffers, hat⟩ := setupSets_ok hsize h₀ (fun _ hb => by cases hb) hsets
  have h₁ := h₀.trans hfilled
  obtain ⟨hnamed, hnames⟩ := setupOutputSets_ok hsize h₁ houtputs
  have h₂ := h₁.trans hnamed
  obtain ⟨hroom₁, hinputAt, hinputSets⟩ := writeTable_ok hsize h₂ htable₁
  have h₃ := h₂.trans hroom₁
  obtain ⟨hroom₂, houtputAt, houtputSets⟩ := writeTable_ok hsize h₃ htable₂
  have h₄ := h₃.trans hroom₂
  obtain ⟨hroom₃, hbuffersAt, hinputBufs⟩ := writeTable_ok hsize h₄ htable₃
  obtain ⟨hfits, rfl⟩ := writeMemory_ok hwrite
  rw [DandelionSystemData.length_encode] at hfits
  have htables := hroom₁.trans (hroom₂.trans hroom₃)
  refine ⟨⟨room₃, inputSets, inputSentinel, inputBuffers, outputSets, outputSentinel,
    ⟨-1, heapBegin, heapEnd, content.length, inputSetsOffset, outputSetNames.length, outputSetsOffset,
      inputBuffersOffset, 0⟩⟩, ?_, hfits, rfl⟩
  exact {
    room := h₄.trans hroom₃
    inputSets := hat.mono (hnamed.trans htables)
    inputSentinel := sentinel_ok hsentinel
    inputBuffers := hbuffers
    outputSets := hnames.imp fun info name hname => ⟨hname.1, hname.2.1, hname.2.2.mono htables⟩
    outputSentinel := (sentinel_ok houtputSentinel).2
    inputSetsAt := hinputAt.mono (hroom₂.trans hroom₃)
    outputSetsAt := houtputAt.mono hroom₃
    inputBufsAt := hbuffersAt
    inputSetsLen := rfl
    outputSetsLen := rfl
    words := ⟨hinputLt, hinputSets, houtputLt, houtputSets, hinputBufs⟩ }

/-- What is written is what the function finds, if it does not lie where the system data is
written. -/
theorem InputLayout.Written.inputIs {layout : InputLayout} {width : Width} {contextSize : Nat}
    {first : Room} {content : List (Option DataSet)} {outputSetNames : List String}
    (h : layout.Written width contextSize first content outputSetNames) {memory : List UInt8}
    {systemDataOffset : Nat} {padding : Nat → UInt8} (hmemory : Overwrites first layout.room memory)
    (hsystem : BytesAt memory systemDataOffset (layout.system.encode width padding)) :
    InputIs width memory systemDataOffset content outputSetNames := by
  obtain ⟨hinputLt, hinputSets, houtputLt, houtputSets, hinputBufs⟩ := h.words
  have hdata := guestData_eq hsystem hinputLt hinputSets houtputLt houtputSets hinputBufs
  obtain ⟨hlength, hwords⟩ := h.inputSets.length_eq
  have hinput : guestInputSets width memory systemDataOffset
      = layout.inputSets ++ [layout.inputSentinel] := by
    rw [guestInputSets, hdata]
    refine guestSetTable_eq (h.inputSetsAt.bytesAt hmemory) ?_ ?_
    · intro info hinfo
      rcases List.mem_append.mp hinfo with hinfo | hinfo
      · exact hwords info hinfo
      · rw [List.mem_singleton.mp hinfo]
        exact h.inputSentinel.2
    · rw [List.length_append, hlength, h.inputSetsLen]
      rfl
  have houtput : guestOutputSets width memory systemDataOffset
      = layout.outputSets ++ [layout.outputSentinel] := by
    rw [guestOutputSets, hdata]
    refine guestSetTable_eq (h.outputSetsAt.bytesAt hmemory) ?_ ?_
    · intro info hinfo
      rcases List.mem_append.mp hinfo with hinfo | hinfo
      · obtain ⟨name, -, hname⟩ := PositionWrites.exists_right_of_mem h.outputSets hinfo
        exact hname.1
      · rw [List.mem_singleton.mp hinfo]
        exact h.outputSentinel
    · rw [List.length_append, h.outputSets.length_eq, h.outputSetsLen]
      rfl
  have hbuffers : guestInputBuffers width memory systemDataOffset = layout.inputBuffers := by
    have hlast : (layout.inputSets ++ [layout.inputSentinel])[layout.system.inputSetsLen]?
        = some layout.inputSentinel := by
      rw [h.inputSetsLen, ← hlength, List.getElem?_append_right (le_refl _), Nat.sub_self]
      rfl
    rw [guestInputBuffers, hdata, hinput]
    dsimp only
    rw [hlast, Option.map_some, Option.getD_some, h.inputSentinel.1]
    exact guestBufferTable_eq (h.inputBufsAt.bytesAt hmemory) h.inputBuffers
  refine ⟨by rw [hdata, h.inputSetsLen], fun s set hset => ?_, by rw [hdata, h.outputSetsLen],
    fun s name hname => ?_⟩
  · rw [hinput, hbuffers]
    obtain ⟨info, next, hinfo, hnext, hbehind, hname, hitems⟩ := h.inputSets.entry h.inputSentinel.1 hset
    refine ⟨info, next, hinfo, hnext, hname.identIs hmemory, by omega, ?_⟩
    rw [hbehind, Nat.add_sub_cancel_left]
    refine forall₂_range' fun j item hitem => ?_
    obtain ⟨buffer, hbuffer, hdescribes⟩ := hitems j item hitem
    exact ⟨buffer, hbuffer, hdescribes.itemIs hmemory⟩
  · rw [houtput]
    obtain ⟨hs, rfl⟩ := List.getElem?_eq_some_iff.mp hname
    obtain ⟨hlengths, hnames⟩ := List.forall₂_iff_get.mp h.outputSets
    have hlt : s < layout.outputSets.length := by omega
    refine ⟨layout.outputSets[s], ?_, (hnames s hlt hs).2.identIs hmemory⟩
    rw [List.getElem?_append_left hlt, List.getElem?_eq_getElem hlt]

/-- When `setup_input_structs` returns on a context that is prepared for a function, the function finds
the content of the context and the names of the output sets; and of the data and of the static image
only the system data has changed. -/
theorem setupInputStructs_describes {alloc : Allocator} {width : Width}
    {contextSize staticEnd systemDataOffset : Nat} {padding : Nat → UInt8}
    {content : List (Option DataSet)} {room after : Room} {placed : List Position}
    {outputSetNames : List String} (hsize : contextSize < Usize.limit)
    (hprepared : PreparedSpace contextSize staticEnd room.occupation placed)
    (hcontent : ∀ set ∈ content, ∀ item ∈ setItems set, item.data ∈ placed)
    (hsystem : systemDataOffset + systemDataSize width ≤ staticEnd)
    (hok : setupInputStructs alloc width contextSize padding content room systemDataOffset
      outputSetNames = .ok after) :
    InputIs width after.memory systemDataOffset content outputSetNames
      ∧ (∀ set ∈ content, ∀ item ∈ setItems set, ∀ o, item.data.offset ≤ o →
        o < item.data.offset + item.data.size → after.memory[o]? = room.memory[o]?)
      ∧ ∀ o < staticEnd, ¬ (systemDataOffset ≤ o ∧ o < systemDataOffset + systemDataSize width) →
        after.memory[o]? = room.memory[o]? := by
  obtain ⟨hspanning, hstatic, hplaced⟩ := hprepared.spec hsize
  obtain ⟨layout, hwritten, hfits, hmemory⟩ := setupInputStructs_ok hsize hspanning hok
  have hlength : (layout.system.encode width padding).length = systemDataSize width :=
    layout.system.length_encode padding
  have hbyte : ∀ o, ¬ (systemDataOffset ≤ o ∧ o < systemDataOffset + systemDataSize width) →
      after.memory[o]? = layout.room.memory[o]? := by
    intro o hout
    rw [hmemory, KvmContext.getElem?_copyInto (by omega), if_neg (by omega)]
  have hover : Overwrites room layout.room after.memory := by
    intro o
    by_cases hout : systemDataOffset ≤ o ∧ o < systemDataOffset + systemDataSize width
    · exact .inr (hstatic o (by omega))
    · exact .inl (hbyte o hout)
  have hdata : BytesAt after.memory systemDataOffset (layout.system.encode width padding) := by
    intro i hi
    rw [hmemory, KvmContext.getElem?_copyInto (by omega), if_pos (by omega), Nat.add_sub_cancel_left]
  refine ⟨hwritten.inputIs hover hdata, fun set hset item hitem o hle hlt => ?_, fun o ho hout => ?_⟩
  · obtain ⟨hoccupied, hbehind⟩ := hplaced item.data (hcontent set hset item hitem) o hle hlt
    rw [hbyte o (by omega), hwritten.room.bytes o hoccupied]
  · rw [hbyte o hout, hwritten.room.bytes o (hstatic o ho)]

/-- A static image of 64 bytes, and an item of one byte behind it. -/
def oneItemRoom : Room where
  memory := List.replicate 512 0
  occupation := [⟨0, 64⟩, ⟨128, 1⟩, ⟨512, 0⟩]

theorem preparedSpace_oneItemRoom : PreparedSpace 512 64 oneItemRoom.occupation [⟨128, 1⟩] := by
  have hloaded : PreparedSpace 512 64 [⟨0, 64⟩, ⟨512, 0⟩] [] := .loaded rfl
  exact .placed hloaded rfl

theorem oneItemRoom_describes : ∃ after,
    setupInputStructs (fun _ => true) .u32 512 (fun _ => 0)
        [some ⟨"in", [⟨"a", ⟨128, 1⟩, 7⟩]⟩, none] oneItemRoom 0 ["out"] = .ok after
      ∧ InputIs .u32 after.memory 0 [some ⟨"in", [⟨"a", ⟨128, 1⟩, 7⟩]⟩, none] ["out"] := by
  have hends : (setupInputStructs (fun _ => true) .u32 512 (fun _ => 0)
      [some ⟨"in", [⟨"a", ⟨128, 1⟩, 7⟩]⟩, none] oneItemRoom 0 ["out"]).isOk = true := by
    decide +kernel
  cases hok : setupInputStructs (fun _ => true) .u32 512 (fun _ => 0)
      [some ⟨"in", [⟨"a", ⟨128, 1⟩, 7⟩]⟩, none] oneItemRoom 0 ["out"] with
  | error stop =>
    rw [hok] at hends
    cases hends
  | ok after =>
    refine ⟨after, rfl, (setupInputStructs_describes (by decide) preparedSpace_oneItemRoom ?_ (by decide)
      hok).1⟩
    intro set hset item hitem
    rcases List.mem_pair.mp hset with rfl | rfl
    · rw [List.mem_singleton.mp hitem]
      exact List.mem_singleton.mpr rfl
    · cases hitem

end Dandelion
