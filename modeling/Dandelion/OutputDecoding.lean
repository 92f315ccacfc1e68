import Dandelion.Bson
import Dandelion.GuestOutputSafety
import Mathlib.Data.List.Forall2

/-!
# What the output of a function is decoded to

The tables in the memory of the function say which sets there are, which descriptors belong to a
set, and where the identifiers are. An item is given the identifier of its descriptor only if its
set has a name, and only the low 32 bits of its key.
-/

namespace Dandelion

open Outcome

/-- The text at a position of the memory. -/
def IdentIs (memory : List UInt8) (offset length : Nat) (ident : String) : Prop :=
  (Bson.utf8Bytes ident).length = length
    ∧ ∀ i < length, (Bson.utf8Bytes ident)[i]? = memory[offset + i]?

/-- The item a descriptor describes. -/
structure ItemIs (memory : List UInt8) (buffer : IoBufferDescriptor) (item : DataItem) : Prop where
  ident : IdentIs memory buffer.ident buffer.identLen item.ident
  data : item.data = ⟨buffer.data, buffer.dataLen⟩
  key : item.key = buffer.key

/-- The set that the table describes: the descriptors from the offset of the set up to the offset
of the next one. -/
def SetIs (memory : List UInt8) (buffers : List IoBufferDescriptor) (info : IoSetInfo)
    (onePastLastBuffer : Nat) : Option DataSet → Prop
  | none => onePastLastBuffer ≤ info.offset
  | some set => info.offset < onePastLastBuffer ∧ IdentIs memory info.ident info.identLen set.ident
    ∧ List.Forall₂ (fun index item => ∃ buffer, buffers[index]? = some buffer ∧ ItemIs memory buffer item)
      (List.range' info.offset (onePastLastBuffer - info.offset)) set.buffers

section Guest

variable (width : Width) (memory : List UInt8) (baseAddress : Nat)

/-- The system data as the function left it. -/
def guestSystem : SystemData :=
  SystemData.decode width ((memory.drop baseAddress).take (systemDataSize width))

/-- The table of the output sets, with the sentinel. -/
def guestSets : List IoSetInfo :=
  let system := guestSystem width memory baseAddress
  decodeTable (IoSetInfo.decode width) (ioSetInfoSize width) (system.outputSetsLen + 1)
    ((memory.drop system.outputSets).take (ioSetInfoSize width * (system.outputSetsLen + 1)))

/-- The descriptors, as many as the offset of the sentinel says. -/
def guestBuffers : List IoBufferDescriptor :=
  let system := guestSystem width memory baseAddress
  let count := ((guestSets width memory baseAddress)[system.outputSetsLen]?.map IoSetInfo.offset).getD 0
  decodeTable (IoBufferDescriptor.decode width) (ioBufferDescriptorSize width) count
    ((memory.drop system.outputBufs).take (ioBufferDescriptorSize width * count))

/-- The content is what the tables in the memory describe. -/
structure OutputIs (content : List (Option DataSet)) : Prop where
  length : content.length = (guestSystem width memory baseAddress).outputSetsLen
  sets : ∀ s info next entry, (guestSets width memory baseAddress)[s]? = some info →
    (guestSets width memory baseAddress)[s + 1]? = some next → content[s]? = some entry →
      SetIs memory (guestBuffers width memory baseAddress) info next.offset entry

/-- Items with an identifier are in sets with an identifier, and the keys have 32 bits. -/
def Representable : Prop :=
  ∀ s info next, (guestSets width memory baseAddress)[s]? = some info →
    (guestSets width memory baseAddress)[s + 1]? = some next →
      ∀ index buffer, info.offset ≤ index → index < next.offset →
        (guestBuffers width memory baseAddress)[index]? = some buffer →
          (0 < info.identLen ∨ buffer.identLen = 0) ∧ buffer.key < 2 ^ 32

end Guest

/-! ## Identifiers -/

theorem readIdent_is {alloc : Allocator} {memory : List UInt8} {offset length : Nat} {ident : String}
    (hmem : memory.length < Usize.limit)
    (hok : readIdent .checked alloc memory offset length = .ok ident) :
    IdentIs memory offset length ident := by
  unfold readIdent at hok
  obtain ⟨_, -, hok⟩ := (bind_eq_ok_iff _ _ _).mp hok
  obtain ⟨bytes, hread, hok⟩ := (bind_eq_ok_iff _ _ _).mp hok
  have hreadable := readMemory_ok hread
  rw [readMemory_eq_ok hmem hreadable] at hread
  obtain rfl := Except.ok.inj hread
  have htext : Bson.utf8Bytes ident = (memory.drop offset).take length := by
    apply Bson.fromUTF8?_eq_some_iff.mp
    unfold fromUtf8 at hok
    split at hok
    · rename_i s hs
      cases hok
      exact hs
    · cases hok
  have hfits := hreadable.2
  rw [IdentIs, htext]
  refine ⟨?_, fun i hi => ?_⟩
  · rw [List.length_take, List.length_drop]
    omega
  · rw [List.getElem?_take, if_pos hi, List.getElem?_drop]

/-- The identifier is the right one, unless it is left out. -/
theorem identString_is_iff {alloc : Allocator} {memory : List UInt8} {setIdentLen offset length : Nat}
    {ident : String} (hmem : memory.length < Usize.limit)
    (hok : identString .checked alloc memory setIdentLen offset length = .ok ident) :
    IdentIs memory offset length ident ↔ 0 < setIdentLen ∨ length = 0 := by
  unfold identString at hok
  by_cases hset : 0 < setIdentLen
  · rw [if_pos hset] at hok
    exact iff_of_true (readIdent_is hmem hok) (.inl hset)
  · rw [if_neg hset] at hok
    cases hok
    constructor
    · exact fun his => .inr his.1.symm
    · rintro (hpos | rfl)
      · exact absurd hpos hset
      · exact ⟨rfl, fun i hi => by omega⟩

/-! ## Items and sets -/

section Items

variable {alloc : Allocator} {ctx : FlatContext} {buffers : List IoBufferDescriptor}

def Decoded (alloc : Allocator) (memory : List UInt8) (setIdentLen : Nat) (buffer : IoBufferDescriptor)
    (item : DataItem) : Prop :=
  identString .checked alloc memory setIdentLen buffer.ident buffer.identLen = .ok item.ident
    ∧ item.data = ⟨buffer.data, buffer.dataLen⟩ ∧ item.key = buffer.key % 2 ^ 32

theorem Decoded.itemIs_iff {setIdentLen : Nat} {buffer : IoBufferDescriptor} {item : DataItem}
    (h : Decoded alloc ctx.memory setIdentLen buffer item) :
    ItemIs ctx.memory buffer item ↔ (0 < setIdentLen ∨ buffer.identLen = 0) ∧ buffer.key < 2 ^ 32 := by
  obtain ⟨hident, hdata, hkey⟩ := h
  have hiff := identString_is_iff ctx.memory_lt hident
  constructor
  · intro his
    refine ⟨hiff.mp his.ident, ?_⟩
    rw [← his.key, hkey]
    exact Nat.mod_lt _ (by decide)
  · rintro ⟨hnamed, hlt⟩
    exact ⟨hiff.mpr hnamed, hdata, hkey.trans (Nat.mod_eq_of_lt hlt)⟩

theorem readItems_decoded {setIdentLen count index : Nat} {occupation after : List Position}
    {items : List DataItem}
    (hok : readItems .checked alloc ctx buffers setIdentLen count index occupation = .ok (items, after)) :
    List.Forall₂ (fun index item => ∃ buffer, buffers[index]? = some buffer
      ∧ Decoded alloc ctx.memory setIdentLen buffer item) (List.range' index count) items := by
  induction count generalizing index occupation items with
  | zero =>
    cases hok
    exact .nil
  | succ count ih =>
    rw [readItems] at hok
    cases hbuffer : buffers[index]? with
    | none =>
      rw [hbuffer] at hok
      cases hok
    | some buffer =>
      simp only [hbuffer] at hok
      obtain ⟨ident, hident, hok⟩ := (bind_eq_ok_iff _ _ _).mp hok
      obtain ⟨occupied, -, hok⟩ := (bind_eq_ok_iff _ _ _).mp hok
      obtain ⟨⟨rest, after'⟩, hrest, hok⟩ := (bind_eq_ok_iff _ _ _).mp hok
      cases hok
      rw [List.range'_succ]
      exact .cons ⟨buffer, hbuffer, hident, rfl, rfl⟩ (ih hrest)

/-- The descriptors of a range can be given to items. -/
def RangeRepresentable (buffers : List IoBufferDescriptor) (setIdentLen first past : Nat) : Prop :=
  ∀ index buffer, first ≤ index → index < past → buffers[index]? = some buffer →
    (0 < setIdentLen ∨ buffer.identLen = 0) ∧ buffer.key < 2 ^ 32

theorem forall₂_itemIs_iff {setIdentLen first count : Nat} {items : List DataItem}
    (h : List.Forall₂ (fun index item => ∃ buffer, buffers[index]? = some buffer
      ∧ Decoded alloc ctx.memory setIdentLen buffer item) (List.range' first count) items) :
    List.Forall₂ (fun index item => ∃ buffer, buffers[index]? = some buffer
        ∧ ItemIs ctx.memory buffer item) (List.range' first count) items
      ↔ RangeRepresentable buffers setIdentLen first (first + count) := by
  induction count generalizing first items with
  | zero =>
    cases h
    exact iff_of_true .nil fun index buffer hle hlt => by omega
  | succ count ih =>
    rw [List.range'_succ] at h ⊢
    cases h with
    | cons hfirst hrest =>
      obtain ⟨buffer, hbuffer, hdecoded⟩ := hfirst
      rw [List.forall₂_cons, ih hrest]
      constructor
      · rintro ⟨⟨buffer', hbuffer', his⟩, hlater⟩ index other hle hlt hother
        by_cases heq : index = first
        · rw [heq, hbuffer'] at hother
          cases hother
          rw [hbuffer] at hbuffer'
          cases hbuffer'
          exact hdecoded.itemIs_iff.mp his
        · exact hlater index other (by omega) (by omega) hother
      · intro hrange
        refine ⟨⟨buffer, hbuffer, hdecoded.itemIs_iff.mpr ?_⟩, fun index other hle hlt => ?_⟩
        · exact hrange first buffer (le_refl first) (by omega) hbuffer
        · exact hrange index other (by omega) (by omega)

theorem readSet_is_iff {info : IoSetInfo} {past : Nat} {occupation after : List Position}
    {entry : Option DataSet}
    (hok : readSet .checked alloc ctx buffers info past occupation = .ok (entry, after)) :
    SetIs ctx.memory buffers info past entry ↔
      RangeRepresentable buffers info.identLen info.offset past := by
  unfold readSet at hok
  by_cases hempty : past ≤ info.offset
  · rw [if_pos hempty] at hok
    cases hok
    exact iff_of_true hempty fun index buffer hle hlt => by omega
  · rw [if_neg hempty] at hok
    obtain ⟨ident, hident, hok⟩ := (bind_eq_ok_iff _ _ _).mp hok
    obtain ⟨_, -, hok⟩ := (bind_eq_ok_iff _ _ _).mp hok
    obtain ⟨⟨items, after'⟩, hitems, hok⟩ := (bind_eq_ok_iff _ _ _).mp hok
    cases hok
    have hset : IdentIs ctx.memory info.ident info.identLen ident :=
      (identString_is_iff ctx.memory_lt hident).mpr (Nat.eq_zero_or_pos info.identLen).symm
    have hiff := forall₂_itemIs_iff (readItems_decoded hitems)
    rw [show info.offset + (past - info.offset) = past by omega] at hiff
    constructor
    · rintro ⟨-, -, hall⟩
      exact hiff.mp hall
    · exact fun hrange => ⟨by omega, hset, hiff.mpr hrange⟩

theorem readSets_is_iff {sets : List IoSetInfo} {occupation after : List Position}
    {content : List (Option DataSet)}
    (hok : readSets .checked alloc ctx buffers sets occupation = .ok (content, after)) :
    content.length = sets.length - 1 ∧ ∀ s info next entry, sets[s]? = some info →
      sets[s + 1]? = some next → content[s]? = some entry →
        (SetIs ctx.memory buffers info next.offset entry ↔
          RangeRepresentable buffers info.identLen info.offset next.offset) := by
  induction sets generalizing occupation content with
  | nil =>
    cases hok
    exact ⟨rfl, fun s info next entry hinfo => by cases hinfo⟩
  | cons first rest ih =>
    cases rest with
    | nil =>
      cases hok
      exact ⟨rfl, fun s info next entry _ hnext => by cases hnext⟩
    | cons second rest =>
      rw [readSets] at hok
      obtain ⟨⟨entry, middle⟩, hset, hok⟩ := (bind_eq_ok_iff _ _ _).mp hok
      obtain ⟨⟨later, after'⟩, hsets, hok⟩ := (bind_eq_ok_iff _ _ _).mp hok
      cases hok
      obtain ⟨hlength, hlater⟩ := ih hsets
      refine ⟨by rw [List.length_cons, hlength]; rfl, ?_⟩
      intro s info next entry' hinfo hnext hentry
      cases s with
      | zero =>
        cases hinfo
        cases hnext
        cases hentry
        exact readSet_is_iff hset
      | succ s => exact hlater s info next entry' hinfo hnext hentry

end Items

/-! ## The whole output -/

theorem readMemory_map_ok {α : Type} {f : List UInt8 → α} {memory : List UInt8} {align offset size : Nat}
    {a : α} (hmem : memory.length < Usize.limit)
    (hok : f <$> readMemory .checked memory align offset size = .ok a) :
    a = f ((memory.drop offset).take size) := by
  cases hread : readMemory .checked memory align offset size with
  | error stop =>
    rw [hread] at hok
    cases hok
  | ok bytes =>
    rw [readMemory_eq_ok hmem (readMemory_ok hread)] at hok
    cases hok
    rfl

theorem length_guestSets (width : Width) (memory : List UInt8) (baseAddress : Nat) :
    (guestSets width memory baseAddress).length
      = (guestSystem width memory baseAddress).outputSetsLen + 1 := by
  rw [guestSets, decodeTable, List.length_map, List.length_range]

theorem readOutputSets_ok {alloc : Allocator} {width : Width} {ctx : FlatContext} {baseAddress : Nat}
    {content : List (Option DataSet)} {after : List Position}
    (hok : readOutputSets .checked alloc width ctx (guestSystem width ctx.memory baseAddress)
      = .ok (content, after)) :
    readSets .checked alloc ctx (guestBuffers width ctx.memory baseAddress)
      (guestSets width ctx.memory baseAddress) ctx.occupation = .ok (content, after) := by
  unfold readOutputSets at hok
  obtain ⟨setNumber, hnumber, hok⟩ := (bind_eq_ok_iff _ _ _).mp hok
  obtain ⟨-, rfl⟩ := Usize.add_eq_ok_iff.mp hnumber
  obtain ⟨_, -, hok⟩ := (bind_eq_ok_iff _ _ _).mp hok
  obtain ⟨sets, hsets, hok⟩ := (bind_eq_ok_iff _ _ _).mp hok
  obtain rfl : sets = guestSets width ctx.memory baseAddress := readMemory_map_ok ctx.memory_lt hsets
  obtain ⟨_, -, hok⟩ := (bind_eq_ok_iff _ _ _).mp hok
  cases hsentinel : (guestSets width ctx.memory baseAddress)[
      (guestSystem width ctx.memory baseAddress).outputSetsLen]? with
  | none =>
    rw [hsentinel] at hok
    cases hok
  | some sentinel =>
    simp only [hsentinel] at hok
    obtain ⟨_, -, hok⟩ := (bind_eq_ok_iff _ _ _).mp hok
    obtain ⟨buffers, hbuffers, hok⟩ := (bind_eq_ok_iff _ _ _).mp hok
    have htable : buffers = guestBuffers width ctx.memory baseAddress := by
      rw [readMemory_map_ok ctx.memory_lt hbuffers, guestBuffers, hsentinel]
      rfl
    rwa [htable] at hok

/-- The content of the context after the function has run is what the function described, exactly
if no item with an identifier is in a set without one and every key has 32 bits. -/
theorem readOutputStructs_faithful_iff {alloc : Allocator} {width : Width} {ctx after : FlatContext}
    {baseAddress : Nat} (hok : readOutputStructs .checked alloc width ctx baseAddress = .ok after) :
    OutputIs width ctx.memory baseAddress after.content ↔
      Representable width ctx.memory baseAddress := by
  unfold readOutputStructs at hok
  obtain ⟨system, hsystem, hok⟩ := (bind_eq_ok_iff _ _ _).mp hok
  obtain rfl : system = guestSystem width ctx.memory baseAddress := readMemory_map_ok ctx.memory_lt hsystem
  have hlength := length_guestSets width ctx.memory baseAddress
  by_cases hzero : (guestSystem width ctx.memory baseAddress).outputSetsLen = 0
  · rw [if_pos hzero] at hok
    cases hok
    refine iff_of_true ⟨hzero.symm, fun s info next entry _ _ hentry => by cases hentry⟩ ?_
    intro s info next _ hnext
    rw [List.getElem?_eq_none (by omega)] at hnext
    cases hnext
  · rw [if_neg hzero] at hok
    obtain ⟨⟨content, occupation⟩, hsets, hok⟩ := (bind_eq_ok_iff _ _ _).mp hok
    cases hok
    obtain ⟨hcontent, hset⟩ := readSets_is_iff (readOutputSets_ok hsets)
    have hsame : content.length = (guestSystem width ctx.memory baseAddress).outputSetsLen := by
      rw [hcontent]
      exact Nat.sub_eq_of_eq_add hlength
    constructor
    · intro hfaithful s info next hinfo hnext
      have hlt : s < content.length := by
        have := (List.getElem?_eq_some_iff.mp hnext).1
        omega
      have hentry := List.getElem?_eq_getElem hlt
      exact (hset s info next _ hinfo hnext hentry).mp (hfaithful.sets s info next _ hinfo hnext hentry)
    · intro hrepresentable
      refine ⟨hsame, fun s info next entry hinfo hnext hentry => ?_⟩
      exact (hset s info next entry hinfo hnext hentry).mpr (hrepresentable s info next hinfo hnext)

/-- One set with one item, for words of 8 bytes. The identifier of the set has the given length, and
the key of the item is 7 in its low 32 bits. -/
def oneItemOutput (identLen keyHigh : UInt8) : FlatContext where
  memory := ([0, 0, 0, 0, 0, 1, 72, 0, 120, 160, identLen, 0, 0, 0, 1, 160, 1, 160, 1].flatMap fun word =>
    word :: List.replicate 7 0) ++ [7, 0, 0, 0, keyHigh, 0, 0, 0, 97]
  size := 161
  content := []
  state := .inPreparation
  occupation := clearedOccupation 161
  memory_lt := by
    change 161 < Usize.limit
    decide
  size_lt := by decide

theorem exists_ok_of_content {x : DandelionResult FlatContext} {content : List (Option DataSet)}
    (h : FlatContext.content <$> x = .ok content) : ∃ after, x = .ok after ∧ after.content = content := by
  cases x with
  | error stop => cases h
  | ok after => exact ⟨after, rfl, Except.ok.inj h⟩

theorem oneItemOutput_faithful : ∃ after,
    readOutputStructs .checked (fun _ => true) .u64 (oneItemOutput 1 0) 0 = .ok after
      ∧ OutputIs .u64 (oneItemOutput 1 0).memory 0 after.content := by
  have hcontent : FlatContext.content <$> readOutputStructs .checked (fun _ => true) .u64
      (oneItemOutput 1 0) 0 = .ok [some ⟨"a", [⟨"a", ⟨160, 1⟩, 7⟩]⟩] := by
    decide +kernel
  obtain ⟨after, hread, -⟩ := exists_ok_of_content hcontent
  refine ⟨after, hread, (readOutputStructs_faithful_iff hread).mpr ?_⟩
  intro s info next hinfo hnext index buffer hle hlt hbuffer
  have hs : s = 0 := by
    have hbound := (List.getElem?_eq_some_iff.mp hnext).1
    rw [length_guestSets] at hbound
    have hone : (guestSystem .u64 (oneItemOutput 1 0).memory 0).outputSetsLen = 1 := by decide +kernel
    omega
  subst hs
  cases hinfo
  cases hnext
  have hindex : index = 0 := by
    change index < 1 at hlt
    omega
  subst hindex
  cases hbuffer
  exact ⟨.inl (by decide +kernel), by decide +kernel⟩

/-- Without a name of the set the item loses its identifier, and a key above 32 bits its high bits. -/
theorem oneItemOutput_unfaithful :
    (∃ after, readOutputStructs .checked (fun _ => true) .u64 (oneItemOutput 0 0) 0 = .ok after
      ∧ ¬ OutputIs .u64 (oneItemOutput 0 0).memory 0 after.content)
    ∧ ∃ after, readOutputStructs .checked (fun _ => true) .u64 (oneItemOutput 1 1) 0 = .ok after
      ∧ ¬ OutputIs .u64 (oneItemOutput 1 1).memory 0 after.content := by
  have hunnamed : FlatContext.content <$> readOutputStructs .checked (fun _ => true) .u64
      (oneItemOutput 0 0) 0 = .ok [some ⟨"", [⟨"", ⟨160, 1⟩, 7⟩]⟩] := by
    decide +kernel
  have hkey : FlatContext.content <$> readOutputStructs .checked (fun _ => true) .u64
      (oneItemOutput 1 1) 0 = .ok [some ⟨"a", [⟨"a", ⟨160, 1⟩, 7⟩]⟩] := by
    decide +kernel
  constructor
  · obtain ⟨after, hread, hcontent⟩ := exists_ok_of_content hunnamed
    refine ⟨after, hread, fun hfaithful => ?_⟩
    rw [hcontent] at hfaithful
    obtain ⟨-, -, hitems⟩ := hfaithful.sets 0 _ _ _ rfl rfl rfl
    cases hitems with
    | cons hitem _ =>
      obtain ⟨buffer, hbuffer, his⟩ := hitem
      cases hbuffer
      have hident := his.ident.1
      exact absurd hident (by decide +kernel)
  · obtain ⟨after, hread, hcontent⟩ := exists_ok_of_content hkey
    refine ⟨after, hread, fun hfaithful => ?_⟩
    rw [hcontent] at hfaithful
    obtain ⟨-, -, hitems⟩ := hfaithful.sets 0 _ _ _ rfl rfl rfl
    cases hitems with
    | cons hitem _ =>
      obtain ⟨buffer, hbuffer, his⟩ := hitem
      cases hbuffer
      have hseven := his.key
      exact absurd hseven (by decide +kernel)

end Dandelion
