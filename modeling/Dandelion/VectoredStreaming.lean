import Dandelion.ResponseStreaming

/-!
# Streaming a response in several slices

`chunks_vectored` walks over the pieces of the response itself, and asks for one chunk after the
other. `advance` never stops at an item without data, but this walk comes by all of them, and asks
their contexts for nothing. It is right where the contexts answer that.
-/

namespace Dandelion

open Outcome Splicing Transitions

namespace DandelionBuf

/-- Fill the next slice, unless the chunk is empty. -/
def pushSlice (dst : List (List UInt8)) (chunk : List UInt8) : List (List UInt8) :=
  if 0 < chunk.length then dst ++ [chunk] else dst

/-- A round of `chunks_vectored`: the slices that are filled, the next piece, and what remains. -/
def vectoredRound (buf : DandelionBuf) (dstLength : Nat) (state : List (List UInt8) × ReadMode × Nat) :
    DandelionResult ((List (List UInt8) × ReadMode × Nat) ⊕ List (List UInt8)) := do
  let (dst, nextRead, remaining) := state
  if dst.length < dstLength ∧ nextRead ≠ .toEnd 0 ∧ 0 < remaining then
    let chunk ← buf.getChunk nextRead
    let remaining ← Usize.sub .checked remaining chunk.length
    let (_, nextRead) ← buf.advanceDescriptor nextRead chunk.length
    pure (.inl (pushSlice dst chunk, nextRead, remaining))
  else pure (.inr dst)

/-- The slices that are filled. Every round that goes on reads a byte or leaves a piece. -/
def chunksVectored (buf : DandelionBuf) (dstLength : Nat) : DandelionResult (List (List UInt8)) :=
  loop (buf.vectoredRound dstLength) (buf.remaining + 2 * buf.items.length + 2)
    ([], buf.readOffset, buf.remaining)

theorem flatten_pushSlice (dst : List (List UInt8)) (chunk : List UInt8) :
    (pushSlice dst chunk).flatten = dst.flatten ++ chunk := by
  rw [pushSlice]
  split
  · rw [List.flatten_append, List.flatten_singleton]
  · next hempty =>
    obtain rfl := List.eq_nil_of_length_eq_zero (Nat.eq_zero_of_not_pos hempty)
    rw [List.append_nil]

theorem mem_pushSlice {dst : List (List UInt8)} {chunk slice : List UInt8}
    (h : slice ∈ pushSlice dst chunk) : slice ∈ dst ∨ slice ≠ [] := by
  rw [pushSlice] at h
  split at h
  · next hpos =>
    rcases List.mem_append.mp h with hmem | hmem
    · exact .inl hmem
    · obtain rfl := List.mem_singleton.mp hmem
      exact .inr (List.ne_nil_of_length_pos hpos)
  · exact .inl h

theorem length_pushSlice (dst : List (List UInt8)) (chunk : List UInt8) :
    (pushSlice dst chunk).length ≤ dst.length + min 1 chunk.length := by
  rw [pushSlice]
  split
  · rw [List.length_append, List.length_singleton]
    omega
  · omega

end DandelionBuf

section Pieces

/-- The items that are not read to their end. -/
def unreadItems (buf : DandelionBuf) : ReadMode → List ItemData
  | .toItem itemIndex _ => buf.items.drop itemIndex
  | .toItemEnd itemIndex _ => buf.items.drop itemIndex
  | .toEnd _ => []

/-- An item that is entered at its end has no data. -/
def EntersItem (buf : DandelionBuf) : ReadMode → Prop
  | .toItem _ _ => True
  | .toItemEnd itemIndex toEnd =>
    toEnd = 0 → ∀ item, buf.items[itemIndex]? = some item → item.reponseSize = 0
  | .toEnd _ => True

variable {buf : DandelionBuf}

theorem Resting.entersItem {readMode : ReadMode} (h : Resting readMode) : EntersItem buf readMode := by
  cases readMode with
  | toItem itemIndex toItem => trivial
  | toItemEnd itemIndex toEnd =>
    intro hzero
    cases h hzero
  | toEnd toEnd => trivial

theorem itemAt_ok {itemIndex : Nat} {item : ItemData} (h : buf.itemAt itemIndex = .ok item) :
    buf.items[itemIndex]? = some item ∧
      buf.items.drop itemIndex = item :: buf.items.drop (itemIndex + 1) := by
  rw [DandelionBuf.itemAt] at h
  cases hget : buf.items[itemIndex]? with
  | none =>
    rw [hget] at h
    cases h
  | some found =>
    rw [hget] at h
    cases h
    obtain ⟨hlt, hitem⟩ := List.getElem?_eq_some_iff.mp hget
    refine ⟨rfl, ?_⟩
    rw [List.drop_eq_getElem_cons hlt, hitem]

theorem nextRead_items {itemIndex : Nat} {next : ReadMode} (h : buf.nextRead itemIndex = .ok next) :
    unreadItems buf next = buf.items.drop (itemIndex + 1) ∧ EntersItem buf next := by
  rw [DandelionBuf.nextRead] at h
  obtain ⟨item, -, h⟩ := (bind_eq_ok_iff _ _ _).mp h
  split at h
  · next hlast =>
    obtain ⟨toEnd, -, h⟩ := (bind_eq_ok_iff _ _ _).mp h
    cases h
    exact ⟨(List.drop_eq_nil_of_le hlast).symm, trivial⟩
  · obtain ⟨nextItem, hnext, h⟩ := (bind_eq_ok_iff _ _ _).mp h
    split at h
    · cases h
      refine ⟨rfl, fun hzero found hfound => ?_⟩
      rw [(itemAt_ok hnext).1] at hfound
      cases hfound
      exact hzero
    · obtain ⟨toItem, -, h⟩ := (bind_eq_ok_iff _ _ _).mp h
      cases h
      exact ⟨rfl, trivial⟩

/-- A step over no more than the rest of a piece: all of it is read, and only the item that the walk
leaves is not among the unread ones any more. -/
theorem advanceDescriptor_items {readMode next : ReadMode} {toAdvance readLength : Nat}
    (h : buf.advanceDescriptor readMode toAdvance = .ok (readLength, next))
    (hle : toAdvance ≤ readMode.len) :
    readLength = toAdvance ∧ EntersItem buf next ∧
      (unreadItems buf next = unreadItems buf readMode ∨ ∃ itemIndex toEnd item,
        readMode = .toItemEnd itemIndex toEnd ∧ unreadItems buf readMode = item :: unreadItems buf next) := by
  cases readMode with
  | toItem itemIndex toItem =>
    rw [DandelionBuf.advanceDescriptor] at h
    split at h
    · cases h
      exact ⟨rfl, trivial, .inl rfl⟩
    · next hall =>
      obtain ⟨item, hitem, h⟩ := (bind_eq_ok_iff _ _ _).mp h
      cases h
      refine ⟨Nat.le_antisymm (Nat.le_of_not_lt hall) hle, fun hzero found hfound => ?_, .inl rfl⟩
      rw [(itemAt_ok hitem).1] at hfound
      cases hfound
      exact hzero
  | toItemEnd itemIndex toEnd =>
    rw [DandelionBuf.advanceDescriptor] at h
    split at h
    · next hless =>
      cases h
      exact ⟨rfl, fun hzero => absurd hzero (by omega), .inl rfl⟩
    · next hall =>
      obtain ⟨nextRead, hnext, h⟩ := (bind_eq_ok_iff _ _ _).mp h
      cases h
      obtain ⟨hitems, henters⟩ := nextRead_items hnext
      obtain ⟨item, hitem, -⟩ := (bind_eq_ok_iff _ _ _).mp hnext
      refine ⟨Nat.le_antisymm (Nat.le_of_not_lt hall) hle, henters, .inr ⟨itemIndex, _, item, rfl, ?_⟩⟩
      rw [hitems]
      exact (itemAt_ok hitem).2
  | toEnd toEnd =>
    rw [DandelionBuf.advanceDescriptor, if_pos (show toAdvance ≤ toEnd from hle)] at h
    cases h
    exact ⟨rfl, trivial, .inl rfl⟩

/-- A step does not go back, and one over all of a piece leaves it. -/
theorem advanceDescriptor_rank {readMode next : ReadMode} {toAdvance readLength : Nat}
    (h : buf.advanceDescriptor readMode toAdvance = .ok (readLength, next)) :
    rank buf next ≤ rank buf readMode ∧
      (readMode.len ≤ toAdvance → unreadItems buf readMode ≠ [] → rank buf next < rank buf readMode) := by
  cases readMode with
  | toItem itemIndex toItem =>
    rw [DandelionBuf.advanceDescriptor] at h
    split at h
    · next hless =>
      cases h
      exact ⟨Nat.le_refl _, fun hall => absurd hall (Nat.not_le.mpr hless)⟩
    · obtain ⟨item, -, h⟩ := (bind_eq_ok_iff _ _ _).mp h
      cases h
      exact ⟨Nat.le_succ _, fun _ _ => Nat.lt_succ_self _⟩
  | toItemEnd itemIndex toEnd =>
    rw [DandelionBuf.advanceDescriptor] at h
    split at h
    · next hless =>
      cases h
      exact ⟨Nat.le_refl _, fun hall => absurd hall (Nat.not_le.mpr hless)⟩
    · obtain ⟨nextRead, hnext, h⟩ := (bind_eq_ok_iff _ _ _).mp h
      cases h
      obtain ⟨item, hitem, -⟩ := (bind_eq_ok_iff _ _ _).mp hnext
      have hlt := nextRead_rank (List.getElem?_eq_some_iff.mp (itemAt_ok hitem).1).1 hnext
      exact ⟨Nat.le_of_lt hlt, fun _ _ => hlt⟩
  | toEnd toEnd =>
    rw [DandelionBuf.advanceDescriptor] at h
    split at h
    · cases h
      exact ⟨Nat.le_refl _, fun _ hne => absurd rfl hne⟩
    · cases h
      exact ⟨Nat.le_refl _, fun _ hne => absurd rfl hne⟩

end Pieces

/-! ## Empty items -/

/-- A context that is asked for an item without data has an answer. -/
def EmptyAnswered (item : ItemData) : Prop :=
  ∀ itemRef, itemOf item.context item.setIndex item.itemIndex = .ok itemRef → itemRef.data.size = 0 →
    ∃ chunk, item.context.context.getChunkRef itemRef.data.offset 0 = .ok chunk

/-- What is assumed of the context of an item without data: it answers with at most what it was asked
for. -/
def NoExcess (item : ItemData) : Prop :=
  ∀ itemRef, itemOf item.context item.setIndex item.itemIndex = .ok itemRef → itemRef.data.size = 0 →
    ∀ chunk, item.context.context.getChunkRef itemRef.data.offset 0 = .ok chunk → chunk = []

theorem unwrapped_eq_ok_iff {α : Type} {result : DandelionResult α} {a : α} :
    unwrapped result = .ok a ↔ result = .ok a := by
  cases result with
  | ok b => rfl
  | error stop =>
    constructor
    · intro h
      cases stop <;> cases h
    · intro h
      cases h

section Chunks

variable {data : ItemBytes} {buf : DandelionBuf} (hnoted : ∀ item ∈ buf.items, Noted data item)
  (hchunks : ∀ item ∈ buf.items, ChunksOf data item)
include hnoted

theorem getChunk_toItemEnd {itemIndex toEnd : Nat} {item : ItemData} {rest : List ItemData}
    (hitems : buf.items.drop itemIndex = item :: rest) (hend : toEnd ≤ (item.bytes data).length) :
    ∃ itemRef, itemOf item.context item.setIndex item.itemIndex = .ok itemRef ∧
      item.reponseSize = itemRef.data.size ∧ (item.bytes data).length = itemRef.data.size ∧
      buf.getChunk (.toItemEnd itemIndex toEnd) = unwrapped
        (item.context.context.getChunkRef (itemRef.data.offset + (itemRef.data.size - toEnd)) toEnd) := by
  obtain ⟨itemRef, href, hsize, hbytes⟩ := hnoted item (List.mem_of_mem_drop (hitems ▸ List.mem_cons_self))
  change (item.bytes data).length = itemRef.data.size at hbytes
  refine ⟨itemRef, href, hsize, hbytes, ?_⟩
  rw [DandelionBuf.getChunk, itemAt_eq hitems, ok_bind, href, ok_bind]
  dsimp only
  rw [Usize.sub_eq_ok (hbytes ▸ hend), ok_bind]

theorem emptyAnswered_of_getChunk {itemIndex toEnd : Nat} {item : ItemData} {rest : List ItemData}
    (hitems : buf.items.drop itemIndex = item :: rest) (hend : toEnd ≤ (item.bytes data).length)
    {chunk : List UInt8} (hget : buf.getChunk (.toItemEnd itemIndex toEnd) = .ok chunk) :
    EmptyAnswered item := by
  intro itemRef href hempty
  obtain ⟨itemRef', href', -, hbytes, hchunk⟩ := getChunk_toItemEnd hnoted hitems hend
  rw [href] at href'
  cases href'
  obtain rfl : toEnd = 0 := by omega
  rw [hempty, Nat.sub_zero, Nat.add_zero, hget] at hchunk
  exact ⟨chunk, unwrapped_eq_ok_iff.mp hchunk.symm⟩

include hchunks

theorem exists_getChunk {readMode : ReadMode} {unread : List UInt8} (h : Unread data buf readMode unread)
    (henters : EntersItem buf readMode)
    (hanswered : ∀ item ∈ unreadItems buf readMode, EmptyAnswered item) :
    ∃ chunk, buf.getChunk readMode = .ok chunk := by
  cases h with
  | @toItem itemIndex toItem item rest hitems hoffset hwithin =>
    exact ⟨_, getChunk_toItem hitems hoffset hwithin.le⟩
  | @toItemEnd itemIndex toEnd item rest hitems hend hwithin =>
    have hitem : item ∈ buf.items := List.mem_of_mem_drop (hitems ▸ List.mem_cons_self)
    obtain ⟨itemRef, href, hsize, hbytes, hget⟩ := getChunk_toItemEnd hnoted hitems hend
    by_cases hzero : toEnd = 0
    · subst hzero
      have hempty : itemRef.data.size = 0 :=
        hsize.symm.trans (henters rfl item (drop_eq_cons hitems).1)
      have hunread : item ∈ unreadItems buf (.toItemEnd itemIndex 0) := by
        rw [unreadItems, hitems]
        exact List.mem_cons_self
      obtain ⟨chunk, hchunk⟩ := hanswered item hunread itemRef href hempty
      rw [hempty, Nat.sub_zero, Nat.add_zero, hchunk] at hget
      exact ⟨chunk, hget⟩
    · obtain ⟨chunk, hchunk, -⟩ := (hchunks item hitem itemRef href).2
        (itemRef.data.size - toEnd) (by omega)
      rw [Nat.sub_sub_self (by omega)] at hchunk
      rw [hchunk] at hget
      exact ⟨chunk, hget⟩
  | @toEnd toEnd hend => exact ⟨_, getChunk_toEnd hend⟩

/-- A chunk of any piece is a first part of what is unread, and no more than the piece. -/
theorem getChunk_prefix (hexcess : ∀ item ∈ buf.items, NoExcess item) {readMode : ReadMode}
    {unread : List UInt8} (h : Unread data buf readMode unread) (henters : EntersItem buf readMode)
    {chunk : List UInt8} (hget : buf.getChunk readMode = .ok chunk) :
    chunk.length ≤ readMode.len ∧ (readMode.len ≠ 0 → chunk ≠ []) ∧ chunk <+: unread := by
  cases h with
  | @toItem itemIndex toItem item rest hitems hoffset hwithin =>
    rw [getChunk_toItem hitems hoffset hwithin.le] at hget
    cases hget
    refine ⟨List.length_take_le _ _, fun hne => ?_, List.prefix_append _ _⟩
    have hserial := hwithin.le
    have hlen : 0 < toItem := Nat.pos_of_ne_zero hne
    apply List.ne_nil_of_length_pos
    rw [List.length_take, List.length_drop]
    omega
  | @toItemEnd itemIndex toEnd item rest hitems hend hwithin =>
    have hitem : item ∈ buf.items := List.mem_of_mem_drop (hitems ▸ List.mem_cons_self)
    obtain ⟨itemRef, href, hsize, hbytes, hchunk⟩ := getChunk_toItemEnd hnoted hitems hend
    rw [hget] at hchunk
    have hchunk := unwrapped_eq_ok_iff.mp hchunk.symm
    by_cases hzero : toEnd = 0
    · subst hzero
      have hempty : itemRef.data.size = 0 :=
        hsize.symm.trans (henters rfl item (drop_eq_cons hitems).1)
      rw [hempty, Nat.sub_zero, Nat.add_zero] at hchunk
      obtain rfl := hexcess item hitem itemRef href hempty chunk hchunk
      exact ⟨Nat.le_refl 0, fun hne => absurd rfl hne, List.nil_prefix⟩
    · obtain ⟨chunk', hchunk', hne, hprefix⟩ := (hchunks item hitem itemRef href).2
        (itemRef.data.size - toEnd) (by omega)
      rw [Nat.sub_sub_self (by omega), hchunk] at hchunk'
      cases hchunk'
      rw [hbytes]
      have hlength := hprefix.length_le
      rw [List.length_drop] at hlength
      exact ⟨show chunk.length ≤ toEnd by omega, fun _ => hne,
        hprefix.trans (List.prefix_append _ _)⟩
  | @toEnd toEnd hend =>
    rw [getChunk_toEnd hend] at hget
    cases hget
    have hlength : (buf.serial.drop (buf.serial.length - toEnd)).length = toEnd := by
      rw [List.length_drop, Nat.sub_sub_self hend]
    refine ⟨hlength.le, fun hne => ?_, List.prefix_rfl⟩
    apply List.ne_nil_of_length_pos
    rw [hlength]
    exact Nat.pos_of_ne_zero hne

end Chunks

/-! ## The walk -/

/-- What is filled and what is not read yet make up what was unread at the start. -/
structure Walked (data : ItemBytes) (buf : DandelionBuf) (unread : List UInt8) (dstLength : Nat)
    (state : List (List UInt8) × ReadMode × Nat) : Prop where
  unread : ∃ left, Unread data buf state.2.1 left ∧ state.1.flatten ++ left = unread ∧
    state.2.2 = left.length
  enters : EntersItem buf state.2.1
  filled : ∀ slice ∈ state.1, slice ≠ []
  fits : state.1.length ≤ dstLength

/-- What the slices have to be. -/
structure VectoredSlices (unread : List UInt8) (dstLength : Nat) (slices : List (List UInt8)) : Prop where
  fits : slices.length ≤ dstLength
  filled : ∀ slice ∈ slices, slice ≠ []
  prefix_unread : slices.flatten <+: unread
  nonempty : 0 < unread.length → 0 < dstLength → slices ≠ []

section Walk

variable {data : ItemBytes} {buf : DandelionBuf} (hnoted : ∀ item ∈ buf.items, Noted data item)
  (hchunks : ∀ item ∈ buf.items, ChunksOf data item) (hexcess : ∀ item ∈ buf.items, NoExcess item)
  {unread : List UInt8} {dstLength : Nat}

/-- The walk ends when the slices are used up or everything is read. -/
theorem Walked.slices {dst : List (List UInt8)} {readMode : ReadMode} {remaining : Nat}
    (h : Walked data buf unread dstLength (dst, readMode, remaining))
    (hdone : ¬ (dst.length < dstLength ∧ readMode ≠ .toEnd 0 ∧ 0 < remaining)) :
    VectoredSlices unread dstLength dst := by
  obtain ⟨⟨left, hread, hsplit, hremaining⟩, -, hfilled, hfits⟩ := h
  dsimp only at hread hsplit hremaining hfilled hfits
  refine ⟨hfits, hfilled, hsplit ▸ List.prefix_append _ _, fun hpos hdst hempty => ?_⟩
  subst hempty
  rw [List.flatten_nil, List.nil_append] at hsplit
  subst hsplit
  by_cases hend : readMode = .toEnd 0
  · subst hend
    cases hread with
    | toEnd hle =>
      rw [Nat.sub_zero, List.drop_length] at hpos
      cases hpos
  · exact hdone ⟨hdst, hend, hremaining ▸ hpos⟩

include hnoted hchunks hexcess

/-- A round that reads a chunk: the walk goes on behind it, nearer to the end. -/
theorem Walked.next {dst : List (List UInt8)} {readMode : ReadMode} {remaining : Nat}
    (h : Walked data buf unread dstLength (dst, readMode, remaining))
    (hmore : dst.length < dstLength ∧ readMode ≠ .toEnd 0 ∧ 0 < remaining) {chunk : List UInt8}
    (hget : buf.getChunk readMode = .ok chunk) :
    ∃ dst' next, buf.vectoredRound dstLength (dst, readMode, remaining) =
        .ok (.inl (dst', next, remaining - chunk.length)) ∧
      Walked data buf unread dstLength (dst', next, remaining - chunk.length) ∧
      remaining - chunk.length + rank buf next < remaining + rank buf readMode ∧
      dst'.length + (remaining - chunk.length) ≤ dst.length + remaining ∧
      (unreadItems buf next = unreadItems buf readMode ∨ ∃ itemIndex toEnd item,
        readMode = .toItemEnd itemIndex toEnd ∧ unreadItems buf readMode = item :: unreadItems buf next) := by
  obtain ⟨⟨left, hread, hsplit, hremaining⟩, henters, hfilled, hfits⟩ := h
  dsimp only at hread hsplit hremaining henters hfilled hfits
  obtain ⟨hle, hne, hprefix⟩ := getChunk_prefix hnoted hchunks hexcess hread henters hget
  have hshort : chunk.length ≤ left.length := hprefix.length_le
  obtain ⟨readLength, next, hadvance, -, hnext, -⟩ := advanceDescriptor_unread hnoted hread hshort
  obtain ⟨rfl, henters', hitems⟩ := advanceDescriptor_items hadvance hle
  obtain ⟨hrank, hleaves⟩ := advanceDescriptor_rank hadvance
  have hchunk : chunk ++ left.drop chunk.length = left := List.prefix_iff_eq_append.mp hprefix
  have hlength := DandelionBuf.length_pushSlice dst chunk
  refine ⟨DandelionBuf.pushSlice dst chunk, next, ?_, ⟨⟨left.drop chunk.length, hnext, ?_, ?_⟩, henters', ?_,
    ?_⟩, ?_, by omega, hitems⟩
  · rw [DandelionBuf.vectoredRound]
    dsimp only
    rw [if_pos hmore, hget, ok_bind, Usize.sub_eq_ok (hremaining ▸ hshort), ok_bind, hadvance]
    rfl
  · rw [DandelionBuf.flatten_pushSlice, List.append_assoc, hchunk]
    exact hsplit
  · rw [List.length_drop, hremaining]
  · intro slice hslice
    rcases DandelionBuf.mem_pushSlice hslice with hmem | hslice
    · exact hfilled slice hmem
    · exact hslice
  · dsimp only
    omega
  · -- an empty chunk is all of its piece, which is then left
    by_cases hempty : chunk.length = 0
    · have hlen : readMode.len = 0 := by
        by_contra hlen
        exact hne hlen (List.eq_nil_of_length_eq_zero hempty)
      have hunread : unreadItems buf readMode ≠ [] := by
        cases hread with
        | toItem hdrop hoffset hwithin => exact fun hnil => by cases hdrop.symm.trans hnil
        | toItemEnd hdrop hoffset hwithin => exact fun hnil => by cases hdrop.symm.trans hnil
        | toEnd hle => exact absurd (congrArg ReadMode.toEnd hlen) hmore.2.1
      have := hleaves (by omega) hunread
      omega
    · omega

/-- The walk over pieces whose empty items are answered fills the slices. -/
theorem chunksVectored_slices (hread : Unread data buf buf.readOffset unread)
    (hremaining : buf.remaining = unread.length) (hresting : Resting buf.readOffset)
    (hanswered : ∀ item ∈ unreadItems buf buf.readOffset, EmptyAnswered item) (dstLength : Nat) :
    ∃ slices, buf.chunksVectored dstLength = .ok slices ∧ VectoredSlices unread dstLength slices := by
  -- the empty items that are left are among those of the start
  let I : List (List UInt8) × ReadMode × Nat → Prop := fun state =>
    Walked data buf unread dstLength state ∧ ∀ item ∈ unreadItems buf state.2.1, EmptyAnswered item
  have hround : Round (buf.vectoredRound dstLength) I (fun state => state.2.2 + rank buf state.2.1)
      (VectoredSlices unread dstLength) (fun _ => False) := by
    rintro ⟨dst, readMode, remaining⟩ ⟨hwalked, hleft⟩
    by_cases hmore : dst.length < dstLength ∧ readMode ≠ .toEnd 0 ∧ 0 < remaining
    · obtain ⟨left, hleftRead, -, -⟩ := hwalked.unread
      obtain ⟨chunk, hget⟩ := exists_getChunk hnoted hchunks hleftRead hwalked.enters hleft
      obtain ⟨dst', next, hok, hnext, hvariant, -, hitems⟩ :=
        hwalked.next hnoted hchunks hexcess hmore hget
      rw [hok]
      refine ⟨⟨hnext, fun item hitem => hleft item ?_⟩, hvariant⟩
      dsimp only at hitem
      rcases hitems with heq | ⟨_, _, first, -, hcons⟩
      · exact heq ▸ hitem
      · rw [hcons]
        exact List.mem_cons_of_mem _ hitem
    · rw [DandelionBuf.vectoredRound]
      dsimp only
      rw [if_neg hmore]
      exact hwalked.slices hmore
  have hstart : I ([], buf.readOffset, buf.remaining) :=
    ⟨⟨⟨unread, hread, rfl, hremaining⟩, hresting.entersItem, fun _ hmem => absurd hmem List.not_mem_nil,
      Nat.zero_le _⟩, hanswered⟩
  have hrank := rank_lt buf buf.readOffset
  exact (meets_total_iff _ _).mp (loop_meets I _ hround _ _ hstart (by dsimp only; omega))

omit hnoted hchunks hexcess in
theorem Unread.length_pos (hback : ∀ item ∈ buf.items, item.responseOffset < buf.serial.length)
    {readMode : ReadMode} {left : List UInt8} (h : Unread data buf readMode left)
    (hitems : unreadItems buf readMode ≠ []) : 0 < left.length := by
  have hrest : ∀ {itemIndex : Nat} {item : ItemData} {rest : List ItemData},
      buf.items.drop itemIndex = item :: rest → 0 < (restFrom data buf item.responseOffset rest).length := by
    intro itemIndex item rest hdrop
    have hlt := hback item (List.mem_of_mem_drop (hdrop ▸ List.mem_cons_self))
    rw [restFrom, spliceFrom, length_splice, List.length_drop]
    omega
  cases h with
  | toItem hdrop hoffset hwithin =>
    rw [List.length_append, List.length_append]
    exact Nat.lt_of_lt_of_le (hrest hdrop) (by omega)
  | toItemEnd hdrop hend hwithin =>
    rw [List.length_append]
    exact Nat.lt_of_lt_of_le (hrest hdrop) (by omega)
  | toEnd hle => exact absurd rfl hitems

theorem emptyAnswered_of_loop (hback : ∀ item ∈ buf.items, item.responseOffset < buf.serial.length)
    {fuel : Nat} {state : List (List UInt8) × ReadMode × Nat} {slices : List (List UInt8)}
    (hwalked : Walked data buf unread dstLength state) (hroom : state.1.length + state.2.2 < dstLength)
    (hok : loop (buf.vectoredRound dstLength) fuel state = .ok slices) :
    ∀ item ∈ unreadItems buf state.2.1, EmptyAnswered item := by
  induction fuel generalizing state with
  | zero => cases hok
  | succ fuel ih =>
    obtain ⟨dst, readMode, remaining⟩ := state
    obtain ⟨left, hread, -, hremaining⟩ := hwalked.unread
    dsimp only at hroom hread hremaining ⊢
    rw [loop_succ] at hok
    obtain ⟨result, hresult, hrest⟩ := (bind_eq_ok_iff _ _ _).mp hok
    by_cases hmore : dst.length < dstLength ∧ readMode ≠ .toEnd 0 ∧ 0 < remaining
    · have hround := hresult
      rw [DandelionBuf.vectoredRound] at hround
      dsimp only at hround
      rw [if_pos hmore] at hround
      obtain ⟨chunk, hget, -⟩ := (bind_eq_ok_iff _ _ _).mp hround
      obtain ⟨dst', next, hnextRound, hnext, -, hlength, hitems⟩ :=
        hwalked.next hnoted hchunks hexcess hmore hget
      rw [hresult] at hnextRound
      cases hnextRound
      have hbehind := ih hnext (show dst'.length + (remaining - chunk.length) < dstLength by omega) hrest
      rcases hitems with heq | ⟨itemIndex, toEnd, first, rfl, hcons⟩
      · exact heq ▸ hbehind
      · intro item hitem
        rw [hcons] at hitem
        rcases List.mem_cons.mp hitem with rfl | hlater
        · cases hread with
          | toItemEnd hdrop hend hwithin =>
            obtain rfl := List.head_eq_of_cons_eq (hdrop.symm.trans hcons)
            exact emptyAnswered_of_getChunk hnoted hdrop hend hget
        · exact hbehind item hlater
    · -- the slices are not used up, so that everything is read
      have hnone : unreadItems buf readMode = [] := by
        by_contra hitems
        have hpos := hread.length_pos hback hitems
        refine hmore ⟨by omega, fun hend => ?_, by omega⟩
        subst hend
        exact hitems rfl
      rw [hnone]
      exact fun _ hmem => absurd hmem List.not_mem_nil

end Walk

/-! ## Runs -/

/-- One call of `advance`, also with more than remains. -/
inductive AdvanceAny : Nat × DandelionBuf → Nat × DandelionBuf → Prop
  | call {sent cnt : Nat} {buf next : DandelionBuf} (hok : buf.advance cnt = .ok next) :
    AdvanceAny (sent, buf) (sent + min cnt buf.remaining, next)

section Runs

variable {data : ItemBytes} {start : DandelionBuf}

theorem Streams.advanceAny (hnoted : ∀ item ∈ start.items, Noted data item)
    {state state' : Nat × DandelionBuf} (h : Streams data start state) (hstep : AdvanceAny state state') :
    Streams data start state' := by
  obtain @⟨sent, cnt, buf, next, hok⟩ := hstep
  by_cases hle : cnt ≤ buf.remaining
  · obtain ⟨next', hok', hnext⟩ := h.advance hnoted hle
    rw [hok] at hok'
    cases hok'
    rw [Nat.min_eq_left hle]
    exact hnext
  · rw [DandelionBuf.advance, if_pos (Nat.lt_of_not_le hle)] at hok
    cases hok
    have hsent := h.sent
    have hremaining := h.remaining
    rw [List.length_drop] at hremaining
    dsimp only at hsent hremaining
    have hend : sent + min cnt buf.remaining = (start.document data).length := by omega
    have hread : Unread data start (.toEnd 0) _ := .toEnd (Nat.zero_le _)
    rw [Nat.sub_zero, List.drop_length] at hread
    refine ⟨h.serial, h.items, hend.le, ?_, fun _ => rfl, ?_⟩
    · rw [hend, List.drop_length]
      rfl
    · rw [hend, List.drop_length]
      exact hread

theorem Unread.congr {buf : DandelionBuf} (hserial : buf.serial = start.serial)
    (hitems : buf.items = start.items) {readMode : ReadMode} {left : List UInt8}
    (h : Unread data start readMode left) : Unread data buf readMode left := by
  obtain ⟨remaining, readOffset, serial, items⟩ := buf
  cases hserial
  cases hitems
  cases h with
  | toItem hdrop hle hwithin => exact .toItem hdrop hle hwithin
  | toItemEnd hdrop hle hwithin => exact .toItemEnd hdrop hle hwithin
  | toEnd hle => exact .toEnd hle

theorem length_le_copyInto (storage bytes : List UInt8) (offset : Nat) :
    storage.length ≤ (KvmContext.copyInto storage offset bytes).length := by
  rw [KvmContext.copyInto, List.length_append, List.length_append, List.length_take, List.length_drop]
  omega

theorem length_lt_close {response closed : Response} {docStart itemsSize : Nat}
    (h : response.close docStart itemsSize = .ok closed) : response.serial.length < closed.serial.length := by
  obtain ⟨docSize, -, h⟩ := (bind_eq_ok_iff _ _ _).mp h
  cases h
  have hle := length_le_copyInto (response.push [0]).serial (Bson.leBytes 4 docSize) docStart
  rw [Response.push, List.length_append, List.length_singleton] at hle
  exact hle

theorem length_le_encodeTimestamps (timestamps : Option String) (response : Response) :
    response.serial.length ≤ (encodeTimestamps timestamps response).serial.length := by
  cases timestamps with
  | none => exact Nat.le_refl _
  | some text =>
    refine Nat.le_trans ?_ (length_le_copyInto _ _ _)
    rw [Response.push, Response.push, Response.push, List.length_append, List.length_append,
      List.length_append]
    omega

theorem back_of_encodeResponse {sets : List (Option (CompositionSet Context))} {timestamps : Option String}
    {allItems : Nat} {response : Response} (h : encodeResponse sets timestamps = .ok (allItems, response)) :
    ∀ item ∈ response.dataItems, item.responseOffset < response.serial.length := by
  obtain ⟨inputs, hall⟩ := exists_describes_of_encodeResponse h
  obtain ⟨⟨size, filled⟩, hsets, h⟩ := (bind_eq_ok_iff _ _ _).mp h
  obtain ⟨closed, hclosed, h⟩ := (bind_eq_ok_iff _ _ _).mp h
  obtain ⟨last, hlast, h⟩ := (bind_eq_ok_iff _ _ _).mp h
  cases h
  obtain ⟨noted, hitems, hwithin⟩ := dataItems_encodeSets hall hsets
  rw [dataItems_close hlast, dataItems_encodeTimestamps, dataItems_close hclosed]
  intro item hitem
  rw [show filled.dataItems = noted from hitems] at hitem
  calc item.responseOffset ≤ filled.serial.length := hwithin.offset_le item hitem
    _ < closed.serial.length := length_lt_close hclosed
    _ ≤ (encodeTimestamps timestamps closed).serial.length := length_le_encodeTimestamps _ _
    _ < response.serial.length := length_lt_close hlast

/-- In every state that calls of `advance` lead to, vectored streaming gives first parts of what is
unread for every number of slices, exactly if every item without data that is not read yet is in a
context that answers when it is asked for nothing. -/
theorem chunksVectored_iff (data : ItemBytes) {sets : List (Option (CompositionSet Context))}
    {timestamps : Option String} {start : DandelionBuf} (hnew : newBody sets timestamps = .ok start)
    (hchunks : ∀ item ∈ start.items, ChunksOf data item) (hexcess : ∀ item ∈ start.items, NoExcess item)
    {sent : Nat} {buf : DandelionBuf} (hrun : Reaches AdvanceAny (0, start) (sent, buf)) :
    buf.remaining = ((start.document data).drop sent).length ∧
      ((∀ dstLength, ∃ slices, buf.chunksVectored dstLength = .ok slices ∧
        VectoredSlices ((start.document data).drop sent) dstLength slices) ↔
        ∀ item ∈ unreadItems buf buf.readOffset, EmptyAnswered item) := by
  obtain ⟨hnoted, hstart⟩ := streams_newBody hnew hchunks
  have hback : ∀ item ∈ start.items, item.responseOffset < start.serial.length := by
    obtain ⟨⟨totalItemSize, response⟩, hencode, h⟩ := (bind_eq_ok_iff _ _ _).mp hnew
    obtain ⟨remaining, -, h⟩ := (bind_eq_ok_iff _ _ _).mp h
    cases h
    exact back_of_encodeResponse hencode
  have hstreams : Streams data start (sent, buf) :=
    hrun.invariant (fun _ _ hstate hstep => hstate.advanceAny hnoted hstep) hstart
  have hread := hstreams.unread.congr hstreams.serial hstreams.items
  have hremaining : buf.remaining = ((start.document data).drop sent).length := hstreams.remaining
  have hresting : Resting buf.readOffset := hstreams.resting
  have hserial : buf.serial = start.serial := hstreams.serial
  have hitems : buf.items = start.items := hstreams.items
  rw [← hitems] at hnoted hchunks hexcess hback
  rw [← hserial] at hback
  refine ⟨hremaining, fun hall => ?_, fun hanswered =>
    chunksVectored_slices hnoted hchunks hexcess hread hremaining hresting hanswered⟩
  obtain ⟨slices, hok, -⟩ := hall (buf.remaining + 1)
  have hwalked : Walked data buf ((start.document data).drop sent) (buf.remaining + 1)
      ([], buf.readOffset, buf.remaining) :=
    ⟨⟨_, hread, rfl, hremaining⟩, hresting.entersItem, fun _ hmem => absurd hmem List.not_mem_nil,
      Nat.zero_le _⟩
  exact emptyAnswered_of_loop hnoted hchunks hexcess hback hwalked
    (show ([] : List (List UInt8)).length + buf.remaining < buf.remaining + 1 by simp) hok

theorem oneItemBody_vectored :
    newBody [some ⟨[(5, 0, oneItemContext)], 0, by simp⟩] none = .ok (oneItemBody 106 (.toItem 0 99)) ∧
      (oneItemBody 106 (.toItem 0 99)).advance 100 = .ok (oneItemBody 6 (.toItemEnd 0 1)) ∧
      ∀ dstLength, ∃ slices, (oneItemBody 6 (.toItemEnd 0 1)).chunksVectored dstLength = .ok slices ∧
        VectoredSlices (((oneItemBody 106 (.toItem 0 99)).document readItemBytes).drop 100) dstLength
          slices := by
  have hnew : newBody [some ⟨[(5, 0, oneItemContext)], 0, by simp⟩] none =
      .ok (oneItemBody 106 (.toItem 0 99)) := rfl
  have hadvance : (oneItemBody 106 (.toItem 0 99)).advance 100 = .ok (oneItemBody 6 (.toItemEnd 0 1)) := rfl
  have hexcess : ∀ item ∈ (oneItemBody 106 (.toItem 0 99)).items, NoExcess item := by
    intro item hitem itemRef href hempty
    obtain rfl := List.mem_singleton.mp hitem
    cases href
    cases hempty
  have hrun : Reaches AdvanceAny (0, oneItemBody 106 (.toItem 0 99)) (100, oneItemBody 6 (.toItemEnd 0 1)) :=
    (Reaches.refl _).tail (.call hadvance)
  obtain ⟨-, hiff⟩ := chunksVectored_iff readItemBytes hnew chunksOf_oneItemBody hexcess hrun
  refine ⟨hnew, hadvance, hiff.mpr fun item hitem itemRef href hempty => ?_⟩
  obtain rfl := List.mem_singleton.mp hitem
  cases href
  cases hempty

/-- The item for an empty body, behind a preamble of one byte. -/
def emptyItemContext : Context :=
  { Context.new (.system ((⟨OrderedMap.empty, 1⟩ : SystemContext).put 0
      (.responseInformationStorage [72]) 1)) 1 with content := [some ⟨"s", [⟨"i", ⟨1, 0⟩, 5⟩]⟩] }

/-- The preamble ends where the item is, and nothing is stored behind it. -/
theorem emptyItem_vectored_panics :
    ∃ start, newBody [some ⟨[(5, 0, emptyItemContext)], 0, by simp⟩] none = .ok start ∧
      (∀ item ∈ start.items, ChunksOf readItemBytes item ∧ NoExcess item) ∧
      start.chunksVectored 2 = crash := by
  refine ⟨_, rfl, ?_, rfl⟩
  intro item hitem
  obtain rfl := List.mem_singleton.mp hitem
  constructor
  · intro itemRef href
    cases href
    exact ⟨rfl, fun done hdone => absurd hdone (Nat.not_lt_zero done)⟩
  · intro itemRef href hempty chunk hchunk
    cases href
    cases hchunk

end Runs

end Dandelion
