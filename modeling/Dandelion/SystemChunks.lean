import Dandelion.SystemReadBytes

/-!
# The chunks of a system context

A chunk can be asked for at any offset inside an item, and at most as many bytes of it as the item
has. How far into the item the offset is does not count: a chunk from the middle on either ends
inside the item because fewer bytes were asked for, or is cut out of something that is too short.
-/

namespace Dandelion.SystemContext

open Outcome

/-- The chunk is a first part of what the item has from the offset on. -/
def ChunkInItem (context : SystemContext) (offset length : Nat) : Prop :=
  ∃ key position size chunk, context.localOffsetToDataPosition.get? key = some (position, size)
    ∧ key ≤ offset ∧ context.getChunkRef offset length = .ok chunk ∧ 0 < chunk.length
    ∧ chunk.length ≤ length ∧ offset + chunk.length ≤ key + size
    ∧ ∀ i < chunk.length, chunk[i]? = positionByte position (offset - key + i)

/-- The range starts with an item or ends inside the one it starts in. -/
def ChunkFits (context : SystemContext) (offset length : Nat) : Prop :=
  ∃ key entry, context.localOffsetToDataPosition.get? key = some entry ∧ key ≤ offset
    ∧ offset < key + entry.2 ∧ key + entry.2 < Usize.limit
    ∧ (offset = key ∨ offset + length ≤ key + entry.2)

variable {context : SystemContext} {offset length key size : Nat}

section Chunk

variable (hinside : offset + length ≤ context.size) (hsize : context.size < Usize.limit)
include hinside hsize

theorem getChunkRef_overflow {position : DataPosition}
    (hentry : context.entryUpTo offset = some (key, position, size))
    (hend : Usize.limit ≤ key + size) : context.getChunkRef offset length = crash := by
  rw [SystemContext.getChunkRef, Usize.add_eq_ok (by omega), ok_bind, if_neg (by omega), hentry]
  dsimp only
  rw [Usize.add_eq_crash (by omega)]
  rfl

theorem getChunkRef_stored (h : Disjoint context) {storedSize actualOffset : Nat} {stored : DataContext}
    (hentry : context.entryUpTo offset = some (key, .contextStorage stored storedSize actualOffset, size))
    (hend : key + size < Usize.limit) (hin : offset < key + size) :
    context.getChunkRef offset length =
      stored.getChunkRef (actualOffset + (offset - key)) (min length size) := by
  obtain ⟨hget, hkey⟩ := entryUpTo_some hentry
  obtain ⟨hlawful, hfits⟩ := h.stored hget
  have hstored : storedSize ≤ Usize.isizeMax := hlawful.size_le
  have hlimit : Usize.isizeMax < Usize.limit := by decide
  rw [SystemContext.getChunkRef, Usize.add_eq_ok (by omega), ok_bind, if_neg (by omega), hentry]
  dsimp only
  rw [Usize.add_eq_ok hend, ok_bind, if_pos hin, Usize.add_eq_ok (by omega), ok_bind]

theorem getChunkRef_response {body : List UInt8}
    (hentry : context.entryUpTo offset = some (key, .responseInformationStorage body, size))
    (hend : key + size < Usize.limit) (hin : offset < key + size) :
    context.getChunkRef offset length = slice body (offset - key) (offset - key + min length size) := by
  rw [SystemContext.getChunkRef, Usize.add_eq_ok (by omega), ok_bind, if_neg (by omega), hentry]
  dsimp only
  rw [Usize.add_eq_ok hend, ok_bind, if_pos hin]

theorem ChunkFits.chunkInItem (hfits : ChunkFits context offset length) (h : Disjoint context)
    (hpos : 1 ≤ length) : ChunkInItem context offset length := by
  obtain ⟨key, ⟨position, size⟩, hget, hkey, hin, hend, hrange⟩ := hfits
  dsimp only at hin hend hrange
  have hentry := h.entryUpTo hget hkey hin
  have hrest : offset - key + min length size ≤ size := by omega
  cases position with
  | contextStorage stored storedSize actualOffset =>
    obtain ⟨hlawful, hstored⟩ := h.stored hget
    have hsome : (stored.byte (actualOffset + (offset - key))).isSome :=
      h.defined hget (offset - key) (by omega)
    obtain ⟨chunk, hchunk⟩ := hlawful.chunk_defined (actualOffset + (offset - key)) (min length size)
      (by omega) (show actualOffset + (offset - key) + min length size ≤ storedSize by omega) hsome
    obtain ⟨hlt, hle, hbytes⟩ := hlawful.chunk_bytes _ _ chunk (by omega) hchunk
    refine ⟨key, _, size, chunk, hget, hkey, ?_, hlt, by omega, by omega, fun i hi => ?_⟩
    · exact (getChunkRef_stored hinside hsize h hentry hend hin).trans hchunk
    · rw [hbytes i hi, Nat.add_assoc]
      rfl
  | responseInformationStorage body =>
    obtain rfl := h.body hget
    have hlength : ((body.drop (offset - key)).take (min length body.length)).length =
        min length body.length := by
      rw [List.length_take, List.length_drop]
      omega
    refine ⟨key, _, _, (body.drop (offset - key)).take (min length body.length), hget, hkey, ?_,
      by omega, by omega, by omega, fun i hi => ?_⟩
    · rw [getChunkRef_response hinside hsize hentry hend hin, slice, if_pos ⟨by omega, hrest⟩,
        Nat.add_sub_cancel_left]
      rfl
    · rw [List.getElem?_take, if_pos (by omega), List.getElem?_drop]
      rfl

omit hinside hsize in
theorem ChunkInItem.chunk (hchunk : ChunkInItem context offset length) (h : Disjoint context)
    {entry : DataPosition × Nat} (hget : context.localOffsetToDataPosition.get? key = some entry)
    (hkey : key ≤ offset) (hin : offset < key + entry.2) :
    ∃ chunk, context.getChunkRef offset length = .ok chunk ∧ offset + chunk.length ≤ key + entry.2 := by
  obtain ⟨key', position', size', chunk, hget', hkey', hok, hlt, -, hrest, -⟩ := hchunk
  have heq := (h.entryUpTo hget hkey hin).symm.trans (h.entryUpTo hget' hkey' (by dsimp only; omega))
  cases heq
  exact ⟨chunk, hok, hrest⟩

theorem fits_of_stored (h : Disjoint context) {storedSize actualOffset : Nat} {storage : List UInt8}
    (hget : context.localOffsetToDataPosition.get? key
      = some (.contextStorage (.malloc storage) storedSize actualOffset, size))
    (hkey : key ≤ offset) (hin : offset < key + size) (hend : key + size < Usize.limit)
    (hchunk : ChunkInItem context offset length) : offset + min length size ≤ key + size := by
  obtain ⟨chunk, hok, hrest⟩ := hchunk.chunk h hget hkey hin
  rw [getChunkRef_stored hinside hsize h (h.entryUpTo hget hkey hin) hend hin] at hok
  change chunkStorage storage (actualOffset + (offset - key)) (min length size) = .ok chunk at hok
  obtain ⟨readEnd, hread, hok⟩ := (bind_eq_ok_iff _ _ _).mp hok
  obtain ⟨-, rfl⟩ := Usize.add_eq_ok_iff.mp hread
  by_cases hlong : storage.length < actualOffset + (offset - key) + min length size
  · rw [if_pos hlong] at hok
    cases hok
  · -- memory of its own gives all that is asked for
    rw [if_neg hlong] at hok
    cases hok
    rw [List.length_take, List.length_drop] at hrest
    dsimp only at hrest
    omega

theorem fits_of_response (h : Disjoint context) {body : List UInt8}
    (hget : context.localOffsetToDataPosition.get? key = some (.responseInformationStorage body, size))
    (hkey : key ≤ offset) (hin : offset < key + size) (hend : key + size < Usize.limit)
    (hchunk : ChunkInItem context offset length) : offset + min length size ≤ key + size := by
  obtain ⟨chunk, hok, -⟩ := hchunk.chunk h hget hkey hin
  rw [getChunkRef_response hinside hsize (h.entryUpTo hget hkey hin) hend hin, slice] at hok
  by_cases hlong : offset - key + min length size ≤ body.length
  · have := h.body hget
    omega
  · rw [if_neg fun hboth => hlong hboth.2] at hok
    cases hok

end Chunk

theorem SameLayout.chunkFits {context' : SystemContext} (hlayout : SameLayout context context')
    (hfits : ChunkFits context offset length) : ChunkFits context' offset length := by
  obtain ⟨key, ⟨position, size⟩, hget, hrest⟩ := hfits
  obtain ⟨position', hget', -⟩ := hlayout.get? hget
  exact ⟨key, (position', size), hget', hrest⟩

/-- A chunk from inside an item is a first part of the rest of the item, whatever is in the items,
exactly if the range starts with the item or ends inside it. -/
theorem chunkInItem_iff (h : Disjoint context) {entry : DataPosition × Nat}
    (hget : context.localOffsetToDataPosition.get? key = some entry) (hkey : key ≤ offset)
    (hin : offset < key + entry.2) (hpos : 1 ≤ length) (hinside : offset + length ≤ context.size)
    (hsize : context.size < Usize.limit) :
    (∀ context', SameLayout context context' → Disjoint context' →
        ChunkInItem context' offset length) ↔ ChunkFits context offset length := by
  constructor
  · intro hall
    obtain ⟨position, size⟩ := entry
    dsimp only at hin
    have hend : key + size < Usize.limit := by
      by_contra hover
      obtain ⟨chunk, hok, -⟩ := (hall context ⟨rfl, fun _ => rfl⟩ h).chunk h hget hkey hin
      rw [getChunkRef_overflow hinside hsize (h.entryUpTo hget hkey hin) (by omega)] at hok
      cases hok
    -- every item of another context gets memory of its own
    have hcolored := h.recolor fun _ _ => 0
    have hinside' : offset + length ≤ (recolor (fun _ _ => 0) context).size := hinside
    have hchunk := hall _ (sameLayout_recolor fun _ _ => 0) hcolored
    have hget' := get?_recolor_some (fun _ _ => 0) hget
    have hrest : offset + min length size ≤ key + size := by
      cases position with
      | contextStorage stored storedSize actualOffset =>
        exact fits_of_stored hinside' hsize hcolored hget' hkey hin hend hchunk
      | responseInformationStorage body =>
        exact fits_of_response hinside' hsize hcolored hget' hkey hin hend hchunk
    exact ⟨key, _, hget, hkey, hin, hend, by dsimp only; omega⟩
  · intro hfits context' hlayout h'
    exact (hlayout.chunkFits hfits).chunkInItem (hlayout.1 ▸ hinside) (hlayout.1 ▸ hsize) h' hpos

/-- The last two bytes of the first item. -/
theorem storedAndBody_chunkInItem : ChunkInItem storedAndBody 1 2 := by
  have hget : storedAndBody.localOffsetToDataPosition.get? 0
      = some (.contextStorage (.malloc [9, 1, 2, 3]) 4 1, 3) := rfl
  refine (chunkInItem_iff disjoint_storedAndBody hget (by decide) (by decide) (by decide) (by decide)
    (by decide)).mpr ?_ storedAndBody ⟨rfl, fun _ => rfl⟩ disjoint_storedAndBody
  exact ⟨0, _, hget, by decide, by decide, by decide, .inr (le_refl 3)⟩

/-- From its second byte on, as many bytes are asked for as the first item has. -/
theorem storedAndBody_noChunk : Disjoint storedAndBody ∧ 1 + 4 ≤ storedAndBody.size
    ∧ storedAndBody.getChunkRef 1 4 = fail .invalidRead ∧ ¬ ChunkInItem storedAndBody 1 4 := by
  have hfails : storedAndBody.getChunkRef 1 4 = fail .invalidRead := rfl
  refine ⟨disjoint_storedAndBody, by decide, hfails, ?_⟩
  rintro ⟨key, position, size, chunk, -, -, hok, -⟩
  rw [hfails] at hok
  cases hok

-- from the second byte of a response on, the slice would end behind it
example : twoBodies.getChunkRef 1 4 = crash := rfl

end Dandelion.SystemContext
