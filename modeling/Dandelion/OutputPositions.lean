import Dandelion.GuestOutputSafety
import Mathlib.Data.UInt

/-!
# Where the output items lie

The position of an output item is copied from its buffer descriptor, and the only
comparison with the size of the context is made by `occupy_space` on the sum of the
two words. With wrapping arithmetic a descriptor whose end leaves the type passes it.
The positions in the content are computed here from the memory, and an accepted output
lies inside its context exactly when none of them wraps.
-/

namespace Dandelion

open Outcome Usize

theorem occupySpace_wrapping_le {contextSize offset size : Nat} {occupation merged : List Position}
    (h : occupySpace .wrapping contextSize occupation offset size = .ok merged) :
    (offset + size) % limit ≤ contextSize := by
  obtain ⟨regionEnd, hadd, h⟩ := (bind_eq_ok_iff _ _ _).mp h
  cases hadd
  by_contra hend
  rw [if_pos (Nat.lt_of_not_le hend)] at h
  cases h

/-- A read whose end wraps ends before it starts. -/
theorem readMemory_wrapping_ok {memory bytes : List UInt8} {align offset size : Nat}
    (hsize : size < limit) (h : readMemory .wrapping memory align offset size = .ok bytes) :
    bytes = (memory.drop offset).take size := by
  unfold readMemory at h
  split at h
  · cases h
  · obtain ⟨readEnd, hadd, h⟩ := (bind_eq_ok_iff _ _ _).mp h
    cases hadd
    split at h
    · cases h
    · unfold slice at h
      split at h
      · rename_i hin
        have hend : (offset + size) % limit = offset + size := by
          have hstart := hin.1
          unfold limit at hsize hstart ⊢
          omega
        rw [hend, Nat.add_sub_cancel_left] at h
        cases h
        rfl
      · cases h

section Items

variable {alloc : Allocator} {ctx : FlatContext} {buffers : List IoBufferDescriptor}

def IoBufferDescriptor.position (buffer : IoBufferDescriptor) : Position :=
  ⟨buffer.data, buffer.dataLen⟩

theorem readItems_succ_ok {mode : Overflow} {setIdentLen count first : Nat}
    {occupation : List Position} {r : List DataItem × List Position}
    (h : readItems mode alloc ctx buffers setIdentLen (count + 1) first occupation = .ok r) :
    ∃ buffer item merged rest, buffers[first]? = some buffer ∧ item.data = buffer.position ∧
      occupySpace mode ctx.size occupation buffer.data buffer.dataLen = .ok merged ∧
      readItems mode alloc ctx buffers setIdentLen count (first + 1) merged = .ok rest ∧
      r = (item :: rest.1, rest.2) := by
  rw [readItems] at h
  cases hb : buffers[first]? with
  | none =>
    rw [hb] at h
    cases h
  | some buffer =>
    simp only [hb] at h
    obtain ⟨ident, -, h⟩ := (bind_eq_ok_iff _ _ _).mp h
    obtain ⟨merged, hmerged, h⟩ := (bind_eq_ok_iff _ _ _).mp h
    obtain ⟨rest, hrest, h⟩ := (bind_eq_ok_iff _ _ _).mp h
    cases h
    exact ⟨buffer, _, merged, rest, rfl, rfl, hmerged, hrest, rfl⟩

theorem readItems_positions {mode : Overflow} {setIdentLen : Nat} (count first : Nat)
    {occupation : List Position} {r : List DataItem × List Position}
    (h : readItems mode alloc ctx buffers setIdentLen count first occupation = .ok r) :
    r.1.map DataItem.data =
      ((buffers.drop first).take count).map IoBufferDescriptor.position := by
  induction count generalizing first occupation r with
  | zero =>
    cases h
    rfl
  | succ count ih =>
    obtain ⟨buffer, item, merged, rest, hb, hdata, -, hrest, rfl⟩ := readItems_succ_ok h
    obtain ⟨hlt, rfl⟩ := List.getElem?_eq_some_iff.mp hb
    rw [List.drop_eq_getElem_cons hlt, List.take_succ_cons, List.map_cons, List.map_cons, hdata,
      ih (first + 1) hrest]

/-- Every item has passed the comparison with the size of the context. -/
theorem readItems_wrapping_le {setIdentLen : Nat} (count first : Nat) {occupation : List Position}
    {r : List DataItem × List Position}
    (h : readItems .wrapping alloc ctx buffers setIdentLen count first occupation = .ok r) :
    ∀ p ∈ r.1.map DataItem.data, (p.offset + p.size) % limit ≤ ctx.size := by
  induction count generalizing first occupation r with
  | zero =>
    cases h
    simp
  | succ count ih =>
    obtain ⟨buffer, item, merged, rest, -, hdata, hmerged, hrest, rfl⟩ := readItems_succ_ok h
    rw [List.map_cons, hdata]
    exact List.forall_mem_cons.mpr ⟨occupySpace_wrapping_le hmerged, ih (first + 1) hrest⟩

end Items

section Sets

variable {alloc : Allocator} {ctx : FlatContext} {buffers : List IoBufferDescriptor}

/-- The positions of the items of a set. -/
def setPositions : Option DataSet → List Position
  | none => []
  | some set => set.buffers.map DataItem.data

def contentPositions (content : List (Option DataSet)) : List Position :=
  content.flatMap setPositions

/-- The positions that the sets of a table describe, without its sentinel. -/
def tablePositions (buffers : List IoBufferDescriptor) : List IoSetInfo → List Position
  | info :: next :: rest =>
    ((buffers.drop info.offset).take (next.offset - info.offset)).map IoBufferDescriptor.position ++
      tablePositions buffers (next :: rest)
  | _ => []

theorem readSet_positions {info : IoSetInfo} {past : Nat} {occupation : List Position}
    {r : Option DataSet × List Position}
    (h : readSet .wrapping alloc ctx buffers info past occupation = .ok r) :
    setPositions r.1 =
        ((buffers.drop info.offset).take (past - info.offset)).map IoBufferDescriptor.position ∧
      ∀ p ∈ setPositions r.1, (p.offset + p.size) % limit ≤ ctx.size := by
  unfold readSet at h
  split at h
  · rename_i hpast
    cases h
    rw [Nat.sub_eq_zero_of_le hpast]
    exact ⟨rfl, by simp [setPositions]⟩
  · obtain ⟨ident, -, h⟩ := (bind_eq_ok_iff _ _ _).mp h
    obtain ⟨u, -, h⟩ := (bind_eq_ok_iff _ _ _).mp h
    obtain ⟨items, hitems, h⟩ := (bind_eq_ok_iff _ _ _).mp h
    cases h
    exact ⟨readItems_positions _ _ hitems, readItems_wrapping_le _ _ hitems⟩

theorem readSets_positions (sets : List IoSetInfo) {occupation : List Position}
    {r : List (Option DataSet) × List Position}
    (h : readSets .wrapping alloc ctx buffers sets occupation = .ok r) :
    contentPositions r.1 = tablePositions buffers sets ∧
      ∀ p ∈ contentPositions r.1, (p.offset + p.size) % limit ≤ ctx.size := by
  induction sets generalizing occupation r with
  | nil =>
    cases h
    exact ⟨rfl, by simp [contentPositions]⟩
  | cons info rest ih =>
    cases rest with
    | nil =>
      cases h
      exact ⟨rfl, by simp [contentPositions]⟩
    | cons next rest =>
      rw [readSets] at h
      obtain ⟨first, hfirst, h⟩ := (bind_eq_ok_iff _ _ _).mp h
      obtain ⟨others, hothers, h⟩ := (bind_eq_ok_iff _ _ _).mp h
      cases h
      obtain ⟨hset, hsetLe⟩ := readSet_positions hfirst
      obtain ⟨hrest, hrestLe⟩ := ih hothers
      have hcons : contentPositions (first.1 :: others.1) =
          setPositions first.1 ++ contentPositions others.1 := List.flatMap_cons
      constructor
      · change contentPositions (first.1 :: others.1) = _
        rw [hcons, hset, hrest, tablePositions]
      · change ∀ p ∈ contentPositions (first.1 :: others.1), _
        rw [hcons]
        exact List.forall_mem_append.mpr ⟨hsetLe, hrestLe⟩

end Sets

section Output

variable (width : Width) (ctx : FlatContext)

/-- The system data that the function left at `baseAddress`. -/
def systemDataAt (baseAddress : Nat) : SystemData :=
  SystemData.decode width (tableBytes ctx baseAddress (systemDataSize width))

/-- The table of the output sets with its sentinel. -/
def setTable (system : SystemData) : List IoSetInfo :=
  decodeTable (IoSetInfo.decode width) (ioSetInfoSize width) (system.outputSetsLen + 1)
    (tableBytes ctx system.outputSets (ioSetInfoSize width * (system.outputSetsLen + 1)))

def bufferTable (system : SystemData) (count : Nat) : List IoBufferDescriptor :=
  decodeTable (IoBufferDescriptor.decode width) (ioBufferDescriptorSize width) count
    (tableBytes ctx system.outputBufs (ioBufferDescriptorSize width * count))

/-- The positions of all buffer descriptors that the output sets in the memory refer to. -/
def describedPositions (baseAddress : Nat) : List Position :=
  let system := systemDataAt width ctx baseAddress
  let sets := setTable width ctx system
  match sets[system.outputSetsLen]? with
  | none => []
  | some sentinel => tablePositions (bufferTable width ctx system sentinel.offset) sets

variable {alloc : Allocator} {width ctx}

theorem readTable_wrapping_ok {α : Type} {memory : List UInt8} {align offset size : Nat}
    {f : List UInt8 → α} {table : α} (hsize : size < limit)
    (h : f <$> readMemory .wrapping memory align offset size = .ok table) :
    table = f ((memory.drop offset).take size) := by
  rw [map_eq_pure_bind] at h
  obtain ⟨bytes, hread, h⟩ := (bind_eq_ok_iff _ _ _).mp h
  cases h
  rw [readMemory_wrapping_ok hsize hread]

theorem lt_limit_of_fits {bytes : Nat} (h : alloc.fits bytes = true) : bytes < limit :=
  (Allocator.fits_le h).trans_lt (by decide)

theorem readOutputSets_positions {system : SystemData} {r : List (Option DataSet) × List Position}
    (h : readOutputSets .wrapping alloc width ctx system = .ok r) :
    ∃ sentinel, (setTable width ctx system)[system.outputSetsLen]? = some sentinel ∧
      contentPositions r.1 = tablePositions (bufferTable width ctx system sentinel.offset)
        (setTable width ctx system) ∧
      ∀ p ∈ contentPositions r.1, (p.offset + p.size) % limit ≤ ctx.size := by
  obtain ⟨setNumber, hadd, h⟩ := (bind_eq_ok_iff _ _ _).mp h
  cases hadd
  obtain ⟨u, hsetsFit, h⟩ := (bind_eq_ok_iff _ _ _).mp h
  obtain ⟨sets, hsets, h⟩ := (bind_eq_ok_iff _ _ _).mp h
  obtain ⟨u, -, h⟩ := (bind_eq_ok_iff _ _ _).mp h
  have hsets := readTable_wrapping_ok (lt_limit_of_fits ((tryReserve_ok_iff _ _ _ _).mp hsetsFit)) hsets
  cases hlast : sets[system.outputSetsLen]? with
  | none =>
    rw [hlast] at h
    cases h
  | some sentinel =>
    -- a table whose number of entries wrapped has no sentinel
    have hnumber : (system.outputSetsLen + 1) % limit = system.outputSetsLen + 1 := by
      obtain ⟨hlt, -⟩ := List.getElem?_eq_some_iff.mp hlast
      rw [hsets, decodeTable, List.length_map, List.length_range] at hlt
      exact Nat.le_antisymm (Nat.mod_le _ _) hlt
    rw [hnumber] at hsets
    simp only [hlast] at h
    obtain ⟨u, hbufsFit, h⟩ := (bind_eq_ok_iff _ _ _).mp h
    obtain ⟨buffers, hbuffers, h⟩ := (bind_eq_ok_iff _ _ _).mp h
    have hbuffers := readTable_wrapping_ok
      (lt_limit_of_fits ((tryReserve_ok_iff _ _ _ _).mp hbufsFit)) hbuffers
    have hpositions := readSets_positions sets h
    rw [hbuffers, hsets] at hpositions
    rw [hsets] at hlast
    exact ⟨sentinel, hlast, hpositions⟩

/-- The content of an accepted output lists the described positions, and each of them has
passed the comparison with the size of the context. -/
theorem readOutputStructs_positions {baseAddress : Nat} {out : FlatContext}
    (h : readOutputStructs .wrapping alloc width ctx baseAddress = .ok out) :
    out.size = ctx.size ∧ contentPositions out.content = describedPositions width ctx baseAddress ∧
      ∀ p ∈ contentPositions out.content, (p.offset + p.size) % limit ≤ ctx.size := by
  unfold readOutputStructs at h
  obtain ⟨system, hsystem, h⟩ := (bind_eq_ok_iff _ _ _).mp h
  have hsystem := readTable_wrapping_ok (by cases width <;> decide) hsystem
  change system = systemDataAt width ctx baseAddress at hsystem
  split at h
  · rename_i hzero
    cases h
    refine ⟨rfl, ?_, by simp [contentPositions]⟩
    rw [describedPositions, ← hsystem, hzero, setTable, hzero]
    rfl
  · obtain ⟨r, hr, h⟩ := (bind_eq_ok_iff _ _ _).mp h
    cases h
    obtain ⟨sentinel, hlast, hpositions, hle⟩ := readOutputSets_positions hr
    refine ⟨rfl, ?_, hle⟩
    change (setTable width ctx system)[system.outputSetsLen]? = some sentinel at hlast
    change contentPositions r.1 = _
    rw [describedPositions, ← hsystem, hpositions]
    simp only [hlast]
    rfl

/-- Every item of the content lies inside the context. -/
def FlatContext.ItemsInside (ctx : FlatContext) : Prop :=
  ∀ set, some set ∈ ctx.content → ∀ item ∈ set.buffers,
    item.data.offset + item.data.size ≤ ctx.size

theorem FlatContext.itemsInside_iff (ctx : FlatContext) :
    ctx.ItemsInside ↔ ∀ p ∈ contentPositions ctx.content, p.offset + p.size ≤ ctx.size := by
  constructor
  · intro h p hp
    obtain ⟨entry, hentry, hp⟩ := List.mem_flatMap.mp hp
    cases entry with
    | none => cases hp
    | some set =>
      obtain ⟨item, hitem, rfl⟩ := List.mem_map.mp hp
      exact h set hentry item hitem
  · intro h set hset item hitem
    exact h item.data (List.mem_flatMap.mpr ⟨some set, hset, List.mem_map_of_mem hitem⟩)

/-- An accepted output lies inside its context exactly when no described position ends
beyond the largest word. -/
theorem readOutputStructs_inside_iff {baseAddress : Nat} {out : FlatContext}
    (h : readOutputStructs .wrapping alloc width ctx baseAddress = .ok out) :
    out.ItemsInside ↔ ∀ p ∈ describedPositions width ctx baseAddress, p.offset + p.size < limit := by
  obtain ⟨hsize, hpositions, hle⟩ := readOutputStructs_positions h
  rw [out.itemsInside_iff, hpositions, hsize]
  rw [hpositions] at hle
  constructor
  · intro hinside p hp
    exact (hinside p hp).trans_lt ctx.size_lt
  · intro hlt p hp
    have hchecked := hle p hp
    rwa [Nat.mod_eq_of_lt (hlt p hp)] at hchecked

/-- One output set with one buffer of the given position, behind the three tables. -/
def singleOutput (data dataLen : UInt64) : FlatContext where
  memory := [0, 0, 0, 0, 0, 1, 72, 0, 120, 0, 0, 0, 0, 0, 1, 0, 0, data, dataLen, 0].flatMap
    fun word => (List.range 8).map fun i => (word >>> (8 * UInt64.ofNat i)).toUInt8
  size := 160
  content := []
  state := .inPreparation
  occupation := clearedOccupation 160
  memory_lt := by
    rw [List.length_flatMap]
    simp only [List.length_map, List.length_range, List.map_cons, List.map_nil]
    decide
  size_lt := by decide

/-- The same context once its output is accepted. -/
def singleAccepted (data dataLen : UInt64) (occupation : List Position) : FlatContext :=
  { singleOutput data dataLen with
    content := [some ⟨"", [⟨"", ⟨data.toNat, dataLen.toNat⟩, 0⟩]⟩]
    state := .run 0
    occupation }

/-- A buffer at the end of the context is accepted and lies inside. -/
theorem readOutputStructs_last_inside :
    readOutputStructs .wrapping (fun _ => true) .u64 (singleOutput 152 8) 0 =
        .ok (singleAccepted 152 8 [⟨0, 0⟩, ⟨152, 8⟩]) ∧
      (singleAccepted 152 8 [⟨0, 0⟩, ⟨152, 8⟩]).ItemsInside := by
  have hok : readOutputStructs .wrapping (fun _ => true) .u64 (singleOutput 152 8) 0 =
      .ok (singleAccepted 152 8 [⟨0, 0⟩, ⟨152, 8⟩]) := by decide +kernel
  exact ⟨hok, (readOutputStructs_inside_iff hok).mpr (by decide +kernel)⟩

/-- Two bytes at the last address are accepted, since their end wraps to one. -/
theorem readOutputStructs_wrapped_outside :
    readOutputStructs .wrapping (fun _ => true) .u64 (singleOutput (2 ^ 64 - 1) 2) 0 =
        .ok (singleAccepted (2 ^ 64 - 1) 2 (clearedOccupation 160)) ∧
      ¬ (singleAccepted (2 ^ 64 - 1) 2 (clearedOccupation 160)).ItemsInside := by
  have hok : readOutputStructs .wrapping (fun _ => true) .u64 (singleOutput (2 ^ 64 - 1) 2) 0 =
      .ok (singleAccepted (2 ^ 64 - 1) 2 (clearedOccupation 160)) := by decide +kernel
  refine ⟨hok, fun hinside => ?_⟩
  rw [FlatContext.itemsInside_iff] at hinside
  have hend := hinside ⟨2 ^ 64 - 1, 2⟩ (by decide +kernel)
  exact absurd hend (by decide)

end Output

end Dandelion
