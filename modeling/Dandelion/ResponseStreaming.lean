import Dandelion.ResponseEncoding
import Dandelion.Transitions

/-!
# Streaming a response

The response is sent in pieces: serial bytes up to an item, the item from its context, serial bytes
again. `ReadMode` says in which piece the reader is and how much of it is left. The position stands for
an unread suffix of the document, and an advance drops bytes from it, through as many pieces as it takes.
-/

namespace Dandelion

open Outcome Splicing Transitions

section Buffer

inductive ReadMode where
  /-- the next item, and how much to read in serial until it -/
  | toItem (itemIndex toItem : Nat)
  /-- the item to read, and how much until its end -/
  | toItemEnd (itemIndex toEnd : Nat)
  /-- the rest of serial, behind the last item -/
  | toEnd (toEnd : Nat)
deriving DecidableEq, Repr

def ReadMode.len : ReadMode → Nat
  | .toItem _ left => left
  | .toItemEnd _ left => left
  | .toEnd left => left

structure DandelionBuf where
  remaining : Nat
  readOffset : ReadMode
  serial : List UInt8
  items : List ItemData

def ContextType.getChunkRef (context : ContextType) (offset length : Nat) :
    DandelionResult (List UInt8) :=
  match context with
  | .stored inner => inner.getChunkRef offset length
  | .system inner => inner.getChunkRef offset length

/-- `unwrap()` of a result. -/
def unwrapped {α : Type} : DandelionResult α → DandelionResult α
  | .error (.error _) => crash
  | result => result

namespace DandelionBuf

/-- `self.items[index]` -/
def itemAt (buf : DandelionBuf) (index : Nat) : DandelionResult ItemData :=
  match buf.items[index]? with
  | some item => pure item
  | none => crash

def getChunk (buf : DandelionBuf) : ReadMode → DandelionResult (List UInt8)
  | .toEnd toEnd => do
    let start ← Usize.sub .checked buf.serial.length toEnd
    slice buf.serial start buf.serial.length
  | .toItem itemIndex toItem => do
    let itemOffset := (← buf.itemAt itemIndex).responseOffset
    let start ← Usize.sub .checked itemOffset toItem
    slice buf.serial start itemOffset
  | .toItemEnd bufItemIndex toEnd => do
    let item ← buf.itemAt bufItemIndex
    let position := (← itemOf item.context item.setIndex item.itemIndex).data
    let done ← Usize.sub .checked position.size toEnd
    unwrapped (item.context.context.getChunkRef (position.offset + done) toEnd)

/-- Behind an item: its successor at once if nothing is between them, and the end behind the last. -/
def nextRead (buf : DandelionBuf) (itemIndex : Nat) : DandelionResult ReadMode := do
  let item ← buf.itemAt itemIndex
  if buf.items.length ≤ itemIndex + 1 then do
    let toEnd ← Usize.sub .checked buf.serial.length item.responseOffset
    pure (.toEnd toEnd)
  else do
    let next ← buf.itemAt (itemIndex + 1)
    if next.responseOffset = item.responseOffset then pure (.toItemEnd (itemIndex + 1) next.reponseSize)
    else do
      let toItem ← Usize.sub .checked next.responseOffset item.responseOffset
      pure (.toItem (itemIndex + 1) toItem)

def advanceDescriptor (buf : DandelionBuf) (readMode : ReadMode) (toAdvance : Nat) :
    DandelionResult (Nat × ReadMode) :=
  match readMode with
  | .toEnd toEnd =>
    if toAdvance ≤ toEnd then pure (toAdvance, .toEnd (toEnd - toAdvance)) else pure (toEnd, .toEnd 0)
  | .toItem itemIndex toItem =>
    if toAdvance < toItem then pure (toAdvance, .toItem itemIndex (toItem - toAdvance))
    else do
      let item ← buf.itemAt itemIndex
      pure (toItem, .toItemEnd itemIndex item.reponseSize)
  | .toItemEnd itemIndex toEnd =>
    if toAdvance < toEnd then pure (toAdvance, .toItemEnd itemIndex (toEnd - toAdvance))
    else do
      let nextRead ← buf.nextRead itemIndex
      pure (toEnd, nextRead)

/-- A round of `advance`: it goes on while there is something to advance, and also from an item without
data to what is behind it. -/
def advanceRound (buf : DandelionBuf) (state : Nat × ReadMode) :
    DandelionResult ((Nat × ReadMode) ⊕ ReadMode) := do
  let (readLength, nextReader) ← buf.advanceDescriptor state.2 state.1
  let toAdvance ← Usize.sub .checked state.1 readLength
  if nextReader.len = 0 ∧ nextReader ≠ .toEnd 0 then pure (.inl (toAdvance, nextReader))
  else if toAdvance = 0 then pure (.inr nextReader)
  else pure (.inl (toAdvance, nextReader))

/-- Every round that does not end the loop leaves a piece, and there are two for each item; more rounds
than that stay at the end for ever. -/
def advance (buf : DandelionBuf) (cnt : Nat) : DandelionResult DandelionBuf :=
  if buf.remaining < cnt then pure { buf with remaining := 0, readOffset := .toEnd 0 }
  else do
    let readOffset ← loop buf.advanceRound (2 * buf.items.length + 2) (cnt, buf.readOffset)
    pure { buf with remaining := buf.remaining - cnt, readOffset }

def chunk (buf : DandelionBuf) : DandelionResult (List UInt8) := buf.getChunk buf.readOffset

end DandelionBuf

/-- `DandelionBody::new` -/
def newBody (sets : List (Option (CompositionSet Context))) (timestamps : Option String) :
    DandelionResult DandelionBuf := do
  let (totalItemSize, response) ← encodeResponse sets timestamps
  let readOffset := match response.dataItems with
    | [] => .toEnd response.serial.length
    | item :: _ =>
      if 0 < item.responseOffset then .toItem 0 item.responseOffset else .toItemEnd 0 item.reponseSize
  let remaining ← Usize.add .checked totalItemSize response.serial.length
  pure ⟨remaining, readOffset, response.serial, response.dataItems⟩

end Buffer

section Unread

variable (data : ItemBytes)

def ItemData.bytes (item : ItemData) : List UInt8 := data item.context item.setIndex item.itemIndex

/-- The unread suffix of the document from behind the offset of an item on. -/
def restFrom (buf : DandelionBuf) (offset : Nat) (items : List ItemData) : List UInt8 :=
  spliceFrom data offset (buf.serial.drop offset) items

/-- The position of the reader, and what of the document is not read yet. -/
inductive Unread (buf : DandelionBuf) : ReadMode → List UInt8 → Prop
  | toItem {itemIndex toItem : Nat} {item : ItemData} {rest : List ItemData}
      (hitems : buf.items.drop itemIndex = item :: rest) (hle : toItem ≤ item.responseOffset)
      (hwithin : Within ItemData.responseOffset item.responseOffset buf.serial.length rest) :
      Unread buf (.toItem itemIndex toItem)
        ((buf.serial.drop (item.responseOffset - toItem)).take toItem ++
          (item.bytes data ++ restFrom data buf item.responseOffset rest))
  | toItemEnd {itemIndex toEnd : Nat} {item : ItemData} {rest : List ItemData}
      (hitems : buf.items.drop itemIndex = item :: rest) (hle : toEnd ≤ (item.bytes data).length)
      (hwithin : Within ItemData.responseOffset item.responseOffset buf.serial.length rest) :
      Unread buf (.toItemEnd itemIndex toEnd)
        ((item.bytes data).drop ((item.bytes data).length - toEnd) ++
          restFrom data buf item.responseOffset rest)
  | toEnd {toEnd : Nat} (hle : toEnd ≤ buf.serial.length) :
      Unread buf (.toEnd toEnd) (buf.serial.drop (buf.serial.length - toEnd))

variable {data} {buf : DandelionBuf}

theorem itemAt_eq {itemIndex : Nat} {item : ItemData} {rest : List ItemData}
    (hitems : buf.items.drop itemIndex = item :: rest) : buf.itemAt itemIndex = .ok item := by
  rw [DandelionBuf.itemAt, (drop_eq_cons hitems).1]
  rfl

theorem nextRead_unread (hnoted : ∀ item ∈ buf.items, Noted data item) {itemIndex : Nat} {item : ItemData}
    {rest : List ItemData} (hitems : buf.items.drop itemIndex = item :: rest)
    (hwithin : Within ItemData.responseOffset item.responseOffset buf.serial.length rest) :
    ∃ next, buf.nextRead itemIndex = .ok next ∧
      Unread data buf next (restFrom data buf item.responseOffset rest) := by
  have hrest := (drop_eq_cons hitems).2
  have hlength := congrArg List.length hitems
  rw [List.length_drop, List.length_cons] at hlength
  rw [DandelionBuf.nextRead, itemAt_eq hitems]
  cases rest with
  | nil =>
    have hle : item.responseOffset ≤ buf.serial.length := hwithin
    refine ⟨.toEnd (buf.serial.length - item.responseOffset), ?_, ?_⟩
    · rw [List.length_nil] at hlength
      rw [ok_bind, if_pos (by omega), Usize.sub_eq_ok hle]
      rfl
    · have hend : Unread data buf (.toEnd (buf.serial.length - item.responseOffset)) _ :=
        .toEnd (Nat.sub_le _ _)
      rw [Nat.sub_sub_self hle] at hend
      exact hend
  | cons next rest =>
    obtain ⟨hle, hwithin⟩ := hwithin
    have hnext : next ∈ buf.items := List.mem_of_mem_drop (hrest ▸ List.mem_cons_self)
    obtain ⟨itemRef, -, hsize, hbytes⟩ := hnoted next hnext
    have hindex : ¬ buf.items.length ≤ itemIndex + 1 := by
      rw [List.length_cons] at hlength
      omega
    rw [ok_bind, if_neg hindex, itemAt_eq hrest, ok_bind]
    by_cases heq : next.responseOffset = item.responseOffset
    · rw [if_pos heq]
      refine ⟨_, rfl, ?_⟩
      have hread : Unread data buf (.toItemEnd (itemIndex + 1) next.reponseSize) _ :=
        .toItemEnd hrest (hsize.trans hbytes.symm).le hwithin
      have hrestFrom : restFrom data buf item.responseOffset (next :: rest) =
          next.bytes data ++ restFrom data buf next.responseOffset rest := by
        rw [restFrom, spliceFrom, splice, heq, Nat.sub_self, List.take_zero, List.drop_zero, List.nil_append]
        rfl
      rw [show (next.bytes data).length = next.reponseSize from hbytes.trans hsize.symm, Nat.sub_self,
        List.drop_zero] at hread
      rw [hrestFrom]
      exact hread
    · rw [if_neg heq, Usize.sub_eq_ok hle]
      refine ⟨_, rfl, ?_⟩
      have hread : Unread data buf (.toItem (itemIndex + 1) (next.responseOffset - item.responseOffset)) _ :=
        .toItem hrest (Nat.sub_le _ _) hwithin
      have hrestFrom : restFrom data buf item.responseOffset (next :: rest) =
          (buf.serial.drop item.responseOffset).take (next.responseOffset - item.responseOffset) ++
            (next.bytes data ++ restFrom data buf next.responseOffset rest) := by
        rw [restFrom, spliceFrom, splice, List.drop_drop, Nat.add_sub_cancel' hle]
        rfl
      rw [Nat.sub_sub_self hle] at hread
      rw [hrestFrom]
      exact hread

def rank (buf : DandelionBuf) : ReadMode → Nat
  | .toItem itemIndex _ => 2 * (buf.items.length - itemIndex) + 1
  | .toItemEnd itemIndex _ => 2 * (buf.items.length - itemIndex)
  | .toEnd _ => 0

/-- There is something to read in the piece, or it is the last one. -/
def Resting (readMode : ReadMode) : Prop := readMode.len = 0 → readMode = .toEnd 0

theorem nextRead_rank {itemIndex : Nat} {next : ReadMode} (hindex : itemIndex < buf.items.length)
    (h : buf.nextRead itemIndex = .ok next) : rank buf next < 2 * (buf.items.length - itemIndex) := by
  rw [DandelionBuf.nextRead] at h
  obtain ⟨item, -, h⟩ := (bind_eq_ok_iff _ _ _).mp h
  split at h
  · obtain ⟨toEnd, -, h⟩ := (bind_eq_ok_iff _ _ _).mp h
    cases h
    rw [rank]
    omega
  · obtain ⟨nextItem, -, h⟩ := (bind_eq_ok_iff _ _ _).mp h
    split at h
    · cases h
      rw [rank]
      omega
    · obtain ⟨toItem, -, h⟩ := (bind_eq_ok_iff _ _ _).mp h
      cases h
      rw [rank]
      omega

/-- A step of the reader drops what it reads. It reads all it should and stays in the piece, or it
leaves the piece. -/
theorem advanceDescriptor_unread (hnoted : ∀ item ∈ buf.items, Noted data item) {readMode : ReadMode}
    {unread : List UInt8} (h : Unread data buf readMode unread) {toAdvance : Nat}
    (hle : toAdvance ≤ unread.length) :
    ∃ readLength next, buf.advanceDescriptor readMode toAdvance = .ok (readLength, next) ∧
      readLength ≤ toAdvance ∧ Unread data buf next (unread.drop readLength) ∧
      (readLength = toAdvance ∧ Resting next ∨ rank buf next < rank buf readMode) := by
  cases h with
  | @toItem itemIndex toItem item rest hitems hoffset hwithin =>
    have hserial := hwithin.le
    have hpiece : ((buf.serial.drop (item.responseOffset - toItem)).take toItem).length = toItem := by
      rw [List.length_take, List.length_drop]
      omega
    by_cases hinside : toAdvance < toItem
    · refine ⟨toAdvance, .toItem itemIndex (toItem - toAdvance), if_pos hinside, Nat.le_refl _, ?_,
        .inl ⟨rfl, fun hzero => ?_⟩⟩
      · have hread : Unread data buf (.toItem itemIndex (toItem - toAdvance)) _ :=
          .toItem hitems (by omega) hwithin
        rw [List.drop_append_of_le_length (by omega), List.drop_take, List.drop_drop,
          show item.responseOffset - toItem + toAdvance = item.responseOffset - (toItem - toAdvance) by omega]
        exact hread
      · exact absurd (show toItem - toAdvance = 0 from hzero) (by omega)
    · have hitem : item ∈ buf.items := List.mem_of_mem_drop (hitems ▸ List.mem_cons_self)
      obtain ⟨itemRef, -, hsize, hbytes⟩ := hnoted item hitem
      refine ⟨toItem, .toItemEnd itemIndex item.reponseSize, ?_, Nat.le_of_not_lt hinside, ?_,
        .inr (Nat.lt_succ_self _)⟩
      · rw [DandelionBuf.advanceDescriptor, if_neg hinside, itemAt_eq hitems]
        rfl
      · have hread : Unread data buf (.toItemEnd itemIndex item.reponseSize) _ :=
          .toItemEnd hitems (hsize.trans hbytes.symm).le hwithin
        rw [show (item.bytes data).length = item.reponseSize from hbytes.trans hsize.symm, Nat.sub_self,
          List.drop_zero] at hread
        rw [List.drop_left' hpiece]
        exact hread
  | @toItemEnd itemIndex toEnd item rest hitems hend hwithin =>
    have hpiece : ((item.bytes data).drop ((item.bytes data).length - toEnd)).length = toEnd := by
      rw [List.length_drop, Nat.sub_sub_self hend]
    by_cases hinside : toAdvance < toEnd
    · refine ⟨toAdvance, .toItemEnd itemIndex (toEnd - toAdvance), if_pos hinside, Nat.le_refl _, ?_,
        .inl ⟨rfl, fun hzero => ?_⟩⟩
      · have hread : Unread data buf (.toItemEnd itemIndex (toEnd - toAdvance)) _ :=
          .toItemEnd hitems (by omega) hwithin
        rw [List.drop_append_of_le_length (by omega), List.drop_drop,
          show (item.bytes data).length - toEnd + toAdvance =
            (item.bytes data).length - (toEnd - toAdvance) by omega]
        exact hread
      · exact absurd (show toEnd - toAdvance = 0 from hzero) (by omega)
    · have hindex : itemIndex < buf.items.length := by
        have hlength := congrArg List.length hitems
        rw [List.length_drop, List.length_cons] at hlength
        omega
      obtain ⟨next, hnext, hread⟩ := nextRead_unread hnoted hitems hwithin
      refine ⟨toEnd, next, ?_, Nat.le_of_not_lt hinside, ?_, .inr (nextRead_rank hindex hnext)⟩
      · rw [DandelionBuf.advanceDescriptor, if_neg hinside, hnext]
        rfl
      · rw [List.drop_left' hpiece]
        exact hread
  | @toEnd toEnd hend =>
    rw [List.length_drop, Nat.sub_sub_self hend] at hle
    refine ⟨toAdvance, .toEnd (toEnd - toAdvance), if_pos hle, Nat.le_refl _, ?_, .inl ⟨rfl, fun hzero => ?_⟩⟩
    · have hread : Unread data buf (.toEnd (toEnd - toAdvance)) _ := .toEnd (by omega)
      rw [List.drop_drop, show buf.serial.length - toEnd + toAdvance =
        buf.serial.length - (toEnd - toAdvance) by omega]
      exact hread
    · rw [show toEnd - toAdvance = 0 from hzero]

theorem loop_advanceRound (hnoted : ∀ item ∈ buf.items, Noted data item) {readMode : ReadMode}
    {unread : List UInt8} (h : Unread data buf readMode unread) {cnt : Nat} (hle : cnt ≤ unread.length)
    (hrank : rank buf readMode < 2 * buf.items.length + 2) :
    ∃ next, loop buf.advanceRound (2 * buf.items.length + 2) (cnt, readMode) = .ok next ∧ Resting next ∧
      Unread data buf next (unread.drop cnt) := by
  -- what is left after the rest of the advance is the same in every round
  let I : Nat × ReadMode → Prop := fun state => ∃ left, Unread data buf state.2 left ∧
    state.1 ≤ left.length ∧ left.drop state.1 = unread.drop cnt
  have hround : Round buf.advanceRound I (fun state => rank buf state.2)
      (fun next => Resting next ∧ Unread data buf next (unread.drop cnt)) (fun _ => False) := by
    rintro ⟨toAdvance, readMode⟩ ⟨left, hread, hfits, htarget⟩
    obtain ⟨readLength, next, hok, hlength, hnext, hcases⟩ := advanceDescriptor_unread hnoted hread hfits
    have htarget' : (left.drop readLength).drop (toAdvance - readLength) = unread.drop cnt := by
      rw [List.drop_drop, Nat.add_sub_cancel' hlength]
      exact htarget
    have hfits' : toAdvance - readLength ≤ (left.drop readLength).length := by
      rw [List.length_drop]
      exact Nat.sub_le_sub_right hfits _
    rw [DandelionBuf.advanceRound, hok, ok_bind]
    dsimp only
    rw [Usize.sub_eq_ok hlength, ok_bind]
    split
    · next hempty =>
      rcases hcases with ⟨-, hresting⟩ | hrank
      · exact absurd (hresting hempty.1) hempty.2
      · exact ⟨⟨left.drop readLength, hnext, hfits', htarget'⟩, hrank⟩
    · next hresting =>
      split
      · next hzero =>
        rw [hzero, List.drop_zero] at htarget'
        exact ⟨fun hlen => by_contra fun hne => hresting ⟨hlen, hne⟩, htarget' ▸ hnext⟩
      · next hmore =>
        rcases hcases with ⟨heq, -⟩ | hrank
        · exact absurd (by rw [heq, Nat.sub_self]) hmore
        · exact ⟨⟨left.drop readLength, hnext, hfits', htarget'⟩, hrank⟩
  have hmeets := loop_meets I (fun state => rank buf state.2) hround (2 * buf.items.length + 2)
    (cnt, readMode) ⟨unread, h, hle, rfl⟩ hrank
  exact (meets_total_iff _ _).mp hmeets

/-- What is assumed of the context of an item: from every position in the item on it gives a first part
of what is left of the item, which is not empty. -/
def ChunksOf (data : ItemBytes) (item : ItemData) : Prop :=
  ∀ itemRef, itemOf item.context item.setIndex item.itemIndex = .ok itemRef →
    (item.bytes data).length = itemRef.data.size ∧
    ∀ done < itemRef.data.size, ∃ chunk,
      item.context.context.getChunkRef (itemRef.data.offset + done) (itemRef.data.size - done) = .ok chunk ∧
        chunk ≠ [] ∧ chunk <+: (item.bytes data).drop done

theorem getChunk_toItem {itemIndex toItem : Nat} {item : ItemData} {rest : List ItemData}
    (hitems : buf.items.drop itemIndex = item :: rest) (hle : toItem ≤ item.responseOffset)
    (hserial : item.responseOffset ≤ buf.serial.length) :
    buf.getChunk (.toItem itemIndex toItem) =
      .ok ((buf.serial.drop (item.responseOffset - toItem)).take toItem) := by
  rw [DandelionBuf.getChunk, itemAt_eq hitems, ok_bind]
  dsimp only
  rw [Usize.sub_eq_ok hle, ok_bind, slice, if_pos ⟨Nat.sub_le _ _, hserial⟩, Nat.sub_sub_self hle]
  rfl

theorem getChunk_toEnd {toEnd : Nat} (hle : toEnd ≤ buf.serial.length) :
    buf.getChunk (.toEnd toEnd) = .ok (buf.serial.drop (buf.serial.length - toEnd)) := by
  rw [DandelionBuf.getChunk, Usize.sub_eq_ok hle, ok_bind, slice,
    if_pos ⟨Nat.sub_le _ _, Nat.le_refl _⟩, List.take_of_length_le (by rw [List.length_drop])]
  rfl

theorem getChunk_unread (hnoted : ∀ item ∈ buf.items, Noted data item)
    (hchunks : ∀ item ∈ buf.items, ChunksOf data item) {readMode : ReadMode} {unread : List UInt8}
    (h : Unread data buf readMode unread) (hresting : Resting readMode) (hpos : 0 < unread.length) :
    ∃ chunk, buf.getChunk readMode = .ok chunk ∧ chunk ≠ [] ∧ chunk <+: unread := by
  cases h with
  | @toItem itemIndex toItem item rest hitems hoffset hwithin =>
    have hserial := hwithin.le
    have hlen : toItem ≠ 0 := fun hzero => by cases hresting hzero
    refine ⟨_, getChunk_toItem hitems hoffset hserial, ?_, List.prefix_append _ _⟩
    apply List.ne_nil_of_length_pos
    rw [List.length_take, List.length_drop]
    omega
  | @toItemEnd itemIndex toEnd item rest hitems hend hwithin =>
    have hitem : item ∈ buf.items := List.mem_of_mem_drop (hitems ▸ List.mem_cons_self)
    have hlen : toEnd ≠ 0 := fun hzero => by cases hresting hzero
    obtain ⟨itemRef, href, -, hbytes⟩ := hnoted item hitem
    have hsize : (item.bytes data).length = itemRef.data.size := hbytes
    obtain ⟨chunk, hchunk, hne, hprefix⟩ := (hchunks item hitem itemRef href).2
      (itemRef.data.size - toEnd) (by omega)
    rw [Nat.sub_sub_self (by omega)] at hchunk
    refine ⟨chunk, ?_, hne, ?_⟩
    · rw [DandelionBuf.getChunk, itemAt_eq hitems, ok_bind, href, ok_bind]
      dsimp only
      rw [Usize.sub_eq_ok (by omega), ok_bind, hchunk]
      rfl
    · rw [hsize]
      exact hprefix.trans (List.prefix_append _ _)
  | @toEnd toEnd hend =>
    exact ⟨_, getChunk_toEnd hend, List.ne_nil_of_length_pos hpos, List.prefix_rfl⟩

end Unread

section References

theorem encodeElement_of_encodeArray {β : Type}
    {encodeElement : β → Nat → Response → DandelionResult (Nat × Response)} {elements : List β}
    {index length : Nat} {response : Response} {result : Nat × Response}
    (h : encodeArray encodeElement elements index length response = .ok result) :
    ∀ element ∈ elements, ∃ index response result, encodeElement element index response = .ok result := by
  induction elements generalizing index length response with
  | nil => exact fun _ hmem => absurd hmem List.not_mem_nil
  | cons first elements ih =>
    rw [encodeArray] at h
    obtain ⟨⟨size, middle⟩, hfirst, h⟩ := (bind_eq_ok_iff _ _ _).mp h
    obtain ⟨total, -, h⟩ := (bind_eq_ok_iff _ _ _).mp h
    intro element hmem
    rcases List.mem_cons.mp hmem with rfl | hmem
    · exact ⟨_, _, _, hfirst⟩
    · exact ih h element hmem

/-- The items of the set are in their contexts. -/
def Refers (set : CompositionSet Context) : Prop :=
  ∀ item ∈ set.itemList, ∃ itemRef, itemOf item.2.2 set.setIndex item.2.1 = .ok itemRef

theorem refers_of_encodeSet {index : Nat} {set : CompositionSet Context} {response : Response}
    {result : Nat × Response} (h : encodeSet index set response = .ok result) :
    set.itemList ≠ [] ∧ Refers set := by
  rw [encodeSet] at h
  dsimp only at h
  split at h
  · cases h
  · next zeroSet rest hlist =>
    obtain ⟨dataSet, -, h⟩ := (bind_eq_ok_iff _ _ _).mp h
    obtain ⟨⟨size, filled⟩, hitems, -⟩ := (bind_eq_ok_iff _ _ _).mp h
    refine ⟨by rw [hlist]; exact List.cons_ne_nil _ _, fun item hitem => ?_⟩
    obtain ⟨_, _, _, hencode⟩ := encodeElement_of_encodeArray hitems item hitem
    obtain ⟨itemRef, href, -⟩ := (bind_eq_ok_iff _ _ _).mp hencode
    exact ⟨itemRef, href⟩

theorem exists_forall₂ {α β : Type} {R : α → β → Prop} {l : List α} (h : ∀ a ∈ l, ∃ b, R a b) :
    ∃ l', List.Forall₂ R l l' := by
  induction l with
  | nil => exact ⟨[], .nil⟩
  | cons a l ih =>
    obtain ⟨b, hb⟩ := h a List.mem_cons_self
    obtain ⟨l', hl⟩ := ih fun a ha => h a (List.mem_cons_of_mem _ ha)
    exact ⟨b :: l', .cons hb hl⟩

/-- A set whose items are in their contexts has a description, with any data of the right sizes. -/
theorem exists_describesSet {data : ItemBytes}
    (hdata : ∀ context setIndex itemIndex itemRef, itemOf context setIndex itemIndex = .ok itemRef →
      (data context setIndex itemIndex).length = itemRef.data.size)
    {set : CompositionSet Context} (hne : set.itemList ≠ []) (h : Refers set) :
    ∃ input, DescribesSet data set input := by
  have hitems : ∀ item ∈ set.itemList, ∃ input, DescribesItem data set.setIndex item input := by
    intro item hitem
    obtain ⟨itemRef, href⟩ := h item hitem
    exact ⟨_, itemRef, href, hdata _ _ _ _ href, rfl⟩
  obtain ⟨items, hall⟩ := exists_forall₂ hitems
  obtain ⟨first, rest, hlist⟩ := List.exists_cons_of_ne_nil hne
  obtain ⟨itemRef, href⟩ := h first (hlist ▸ List.mem_cons_self)
  obtain ⟨dataSet, hset, -⟩ := (bind_eq_ok_iff _ _ _).mp href
  exact ⟨⟨dataSet.ident, items⟩, ⟨first, rest, dataSet, hlist, hset, rfl⟩, hall⟩

/-- As many zeros as an item is long. -/
def zeroBytes : ItemBytes := fun context setIndex itemIndex =>
  match itemOf context setIndex itemIndex with
  | .ok itemRef => List.replicate itemRef.data.size 0
  | .error _ => []

theorem length_zeroBytes {context : Context} {setIndex itemIndex : Nat} {itemRef : DataItem}
    (h : itemOf context setIndex itemIndex = .ok itemRef) :
    (zeroBytes context setIndex itemIndex).length = itemRef.data.size := by
  rw [zeroBytes, h]
  exact List.length_replicate

theorem dataItems_close {response closed : Response} {start itemsSize : Nat}
    (h : response.close start itemsSize = .ok closed) : closed.dataItems = response.dataItems := by
  obtain ⟨docSize, -, h⟩ := (bind_eq_ok_iff _ _ _).mp h
  cases h
  rfl

theorem dataItems_encodeTimestamps (timestamps : Option String) (response : Response) :
    (encodeTimestamps timestamps response).dataItems = response.dataItems := by
  cases timestamps with
  | none => rfl
  | some text => rfl

/-- What the reader relies on, whatever the data is: the offsets are in order and not at the start, the
items are in their contexts with the sizes that were noted, and the total is that of all sizes. -/
structure Encoded (allItems : Nat) (response : Response) : Prop where
  within : Within ItemData.responseOffset 0 response.serial.length response.dataItems
  front : ∀ item rest, response.dataItems = item :: rest → 0 < item.responseOffset
  noted : ∀ item ∈ response.dataItems, Noted zeroBytes item
  total : (response.dataItems.map ItemData.reponseSize).sum = allItems

theorem exists_describes_of_encodeResponse {sets : List (Option (CompositionSet Context))}
    {timestamps : Option String} {result : Nat × Response}
    (h : encodeResponse sets timestamps = .ok result) :
    ∃ inputs, List.Forall₂ (DescribesSet zeroBytes) (nonEmptySets sets) inputs := by
  refine exists_forall₂ fun set hset => ?_
  obtain ⟨⟨_, _⟩, hencode, -⟩ := (bind_eq_ok_iff _ _ _).mp h
  obtain ⟨_, _, _, hone⟩ := encodeElement_of_encodeArray hencode set hset
  obtain ⟨hne, hrefers⟩ := refers_of_encodeSet hone
  exact exists_describesSet (fun _ _ _ _ => length_zeroBytes) hne hrefers

theorem dataItems_encodeSets {sets : List (Option (CompositionSet Context))} {inputs : List InputSet}
    (hall : List.Forall₂ (DescribesSet zeroBytes) (nonEmptySets sets) inputs) {response : Response}
    {result : Nat × Response} (h : encodeSets sets response = .ok result) :
    ∃ noted, result.2.dataItems = response.dataItems ++ noted ∧
      Within ItemData.responseOffset response.serial.length result.2.serial.length noted := by
  have hmeets := encodeSets_meets (E := fun _ => True) hall response fun _ => trivial
  rw [h] at hmeets
  obtain ⟨written, noted, -, hitems, hwithin, -⟩ := Appends.added hmeets
  exact ⟨noted, hitems, hwithin⟩

theorem front_of_encodeResponse {sets : List (Option (CompositionSet Context))}
    {timestamps : Option String} {allItems : Nat} {response : Response}
    (h : encodeResponse sets timestamps = .ok (allItems, response)) :
    ∀ item rest, response.dataItems = item :: rest → 0 < item.responseOffset := by
  obtain ⟨inputs, hall⟩ := exists_describes_of_encodeResponse h
  obtain ⟨⟨size, filled⟩, hsets, h⟩ := (bind_eq_ok_iff _ _ _).mp h
  obtain ⟨closed, hclosed, h⟩ := (bind_eq_ok_iff _ _ _).mp h
  obtain ⟨last, hlast, h⟩ := (bind_eq_ok_iff _ _ _).mp h
  cases h
  obtain ⟨noted, hitems, hwithin⟩ := dataItems_encodeSets hall hsets
  intro item rest hcons
  rw [dataItems_close hlast, dataItems_encodeTimestamps, dataItems_close hclosed] at hcons
  rw [show filled.dataItems = noted from hitems] at hcons
  subst hcons
  exact Nat.lt_of_lt_of_le (by decide) hwithin.1

theorem encoded_of_encodeResponse {sets : List (Option (CompositionSet Context))}
    {timestamps : Option String} {allItems : Nat} {response : Response}
    (h : encodeResponse sets timestamps = .ok (allItems, response)) : Encoded allItems response := by
  obtain ⟨inputs, hall⟩ := exists_describes_of_encodeResponse h
  have hmeets := encodeResponse_meets (E := fun _ => True) hall timestamps fun _ => trivial
  rw [h] at hmeets
  obtain ⟨written, noted, hserial, hitems, hwithin, hnoted, hsize, -⟩ := Appends.added hmeets
  obtain rfl : response.dataItems = noted := hitems
  refine ⟨hwithin, front_of_encodeResponse h, hnoted, ?_⟩
  refine Eq.trans (congrArg List.sum (List.map_congr_left fun item hitem => ?_)) hsize
  obtain ⟨itemRef, href, hreponse, -⟩ := hnoted item hitem
  exact hreponse.trans (length_zeroBytes href).symm

end References

section Streaming

variable (data : ItemBytes)

/-- The whole document that is sent. -/
def DandelionBuf.document (buf : DandelionBuf) : List UInt8 := spliceFrom data 0 buf.serial buf.items

/-- One call of `advance`, with how much was read before. -/
inductive Advance : Nat × DandelionBuf → Nat × DandelionBuf → Prop
  | call {sent cnt : Nat} {buf next : DandelionBuf} (hle : cnt ≤ buf.remaining)
      (hok : buf.advance cnt = .ok next) : Advance (sent, buf) (sent + cnt, next)

/-- The position in the document after `sent` bytes of it. -/
structure Streams (start : DandelionBuf) (state : Nat × DandelionBuf) : Prop where
  serial : state.2.serial = start.serial
  items : state.2.items = start.items
  sent : state.1 ≤ (start.document data).length
  remaining : state.2.remaining = ((start.document data).drop state.1).length
  resting : Resting state.2.readOffset
  unread : Unread data start state.2.readOffset ((start.document data).drop state.1)

variable {data} {start : DandelionBuf}

theorem rank_lt (buf : DandelionBuf) (readMode : ReadMode) :
    rank buf readMode < 2 * buf.items.length + 2 := by
  cases readMode with
  | toItem itemIndex toItem =>
    rw [rank]
    omega
  | toItemEnd itemIndex toEnd =>
    rw [rank]
    omega
  | toEnd toEnd =>
    rw [rank]
    omega

/-- Of the buffer only the serial bytes and the items matter to the reader. -/
theorem advanceRound_congr {buf : DandelionBuf} (hserial : buf.serial = start.serial)
    (hitems : buf.items = start.items) : buf.advanceRound = start.advanceRound := by
  cases buf
  cases start
  cases hserial
  cases hitems
  rfl

theorem getChunk_congr {buf : DandelionBuf} (hserial : buf.serial = start.serial)
    (hitems : buf.items = start.items) : buf.getChunk = start.getChunk := by
  cases buf
  cases start
  cases hserial
  cases hitems
  rfl

theorem Streams.advance (hnoted : ∀ item ∈ start.items, Noted data item) {sent : Nat}
    {buf : DandelionBuf} (h : Streams data start (sent, buf)) {cnt : Nat} (hle : cnt ≤ buf.remaining) :
    ∃ next, buf.advance cnt = .ok next ∧ Streams data start (sent + cnt, next) := by
  obtain ⟨hserial, hitems, hsent, hremaining, -, hunread⟩ := h
  dsimp only at hserial hitems hsent hremaining hunread
  have hfits : cnt ≤ ((start.document data).drop sent).length := hremaining ▸ hle
  obtain ⟨next, hloop, hresting, hnext⟩ := loop_advanceRound hnoted hunread hfits (rank_lt start _)
  rw [List.drop_drop] at hnext
  refine ⟨{ buf with remaining := buf.remaining - cnt, readOffset := next }, ?_, hserial, hitems, ?_, ?_,
    hresting, hnext⟩
  · rw [DandelionBuf.advance, if_neg (Nat.not_lt.mpr hle), advanceRound_congr hserial hitems, hitems, hloop]
    rfl
  · rw [List.length_drop] at hfits
    dsimp only
    omega
  · rw [List.length_drop] at hremaining
    rw [List.length_drop]
    dsimp only
    omega

theorem streams_newBody {sets : List (Option (CompositionSet Context))} {timestamps : Option String}
    (h : newBody sets timestamps = .ok start) (hchunks : ∀ item ∈ start.items, ChunksOf data item) :
    (∀ item ∈ start.items, Noted data item) ∧ Streams data start (0, start) := by
  obtain ⟨⟨totalItemSize, response⟩, hencode, h⟩ := (bind_eq_ok_iff _ _ _).mp h
  obtain ⟨remaining, hremaining, h⟩ := (bind_eq_ok_iff _ _ _).mp h
  obtain ⟨-, hremaining⟩ := Usize.add_eq_ok_iff.mp hremaining
  obtain ⟨hwithin, hfront, hnoted, htotal⟩ := encoded_of_encodeResponse hencode
  cases h
  dsimp only at hchunks hremaining
  have hnoted' : ∀ item ∈ response.dataItems, Noted data item := by
    intro item hitem
    obtain ⟨itemRef, href, hsize, -⟩ := hnoted item hitem
    exact ⟨itemRef, href, hsize, (hchunks item hitem itemRef href).1⟩
  have hlength : remaining = (spliceFrom data 0 response.serial response.dataItems).length := by
    have hsizes : response.dataItems.map ItemData.reponseSize = response.dataItems.map fun item =>
        (data item.context item.setIndex item.itemIndex).length := by
      refine List.map_congr_left fun item hitem => ?_
      obtain ⟨itemRef, -, hsize, hbytes⟩ := hnoted' item hitem
      exact hsize.trans hbytes.symm
    rw [spliceFrom, length_splice, ← hsizes, htotal]
    omega
  cases hitems : response.dataItems with
  | nil =>
    rw [hitems] at hnoted' hlength
    refine ⟨hnoted', rfl, rfl, Nat.zero_le _, hlength, fun hzero => congrArg ReadMode.toEnd hzero, ?_⟩
    have hread : Unread data ⟨remaining, .toEnd response.serial.length, response.serial, []⟩
      (.toEnd response.serial.length) _ := .toEnd (Nat.le_refl _)
    rw [Nat.sub_self] at hread
    exact hread
  | cons item rest =>
    have hpos := hfront item rest hitems
    rw [hitems] at hwithin hnoted' hlength
    dsimp only
    rw [if_pos hpos]
    refine ⟨hnoted', rfl, rfl, Nat.zero_le _, hlength,
      fun hzero => absurd hzero (Nat.ne_of_gt hpos), ?_⟩
    have hread : Unread data ⟨remaining, .toItem 0 item.responseOffset, response.serial, item :: rest⟩
      (.toItem 0 item.responseOffset) _ := .toItem rfl (Nat.le_refl _) hwithin.2
    rw [Nat.sub_self] at hread
    exact hread

/-- Along every run of calls of `advance`: the next call ends, what remains is the length of the unread
suffix of the document, and the chunk is a first part of it that is not empty. -/
theorem response_streams (data : ItemBytes) {sets : List (Option (CompositionSet Context))}
    {timestamps : Option String} {start : DandelionBuf} (hnew : newBody sets timestamps = .ok start)
    (hchunks : ∀ item ∈ start.items, ChunksOf data item) {sent : Nat} {buf : DandelionBuf}
    (hrun : Reaches Advance (0, start) (sent, buf)) :
    (∀ cnt ≤ buf.remaining, ∃ next, buf.advance cnt = .ok next) ∧
      sent ≤ (start.document data).length ∧
      buf.remaining = ((start.document data).drop sent).length ∧
      (0 < buf.remaining → ∃ chunk, buf.chunk = .ok chunk ∧ chunk ≠ [] ∧
        chunk <+: (start.document data).drop sent) := by
  obtain ⟨hnoted, hstart⟩ := streams_newBody hnew hchunks
  have hstreams : Streams data start (sent, buf) := by
    refine hrun.invariant (fun state state' hstate hstep => ?_) hstart
    cases hstep with
    | @call sent cnt buf next hle hok =>
      obtain ⟨next', hok', hnext⟩ := hstate.advance hnoted hle
      rw [hok] at hok'
      cases hok'
      exact hnext
  refine ⟨fun cnt hle => ?_, hstreams.sent, hstreams.remaining, fun hpos => ?_⟩
  · obtain ⟨next, hok, -⟩ := hstreams.advance hnoted hle
    exact ⟨next, hok⟩
  · rw [DandelionBuf.chunk, getChunk_congr hstreams.serial hstreams.items]
    exact getChunk_unread hnoted hchunks hstreams.unread hstreams.resting (hstreams.remaining ▸ hpos)

/-- The body of a response with one item of two bytes, before its first and inside its only item. -/
def oneItemBody (remaining : Nat) (readOffset : ReadMode) : DandelionBuf where
  remaining
  readOffset
  serial := [106, 0, 0, 0, 4, 115, 101, 116, 115, 0, 95, 0, 0, 0, 3, 48, 0, 87, 0, 0, 0, 2, 105, 100, 101, 110,
    116, 105, 102, 105, 101, 114, 0, 2, 0, 0, 0, 115, 0, 4, 105, 116, 101, 109, 115, 0, 57, 0, 0, 0, 3, 48, 0,
    49, 0, 0, 0, 2, 105, 100, 101, 110, 116, 105, 102, 105, 101, 114, 0, 2, 0, 0, 0, 105, 0, 18, 107, 101, 121,
    0, 5, 0, 0, 0, 0, 0, 0, 0, 5, 100, 97, 116, 97, 0, 2, 0, 0, 0, 0, 0, 0, 0, 0, 0]
  items := [⟨99, 2, 0, 0, oneItemContext⟩]

theorem chunksOf_oneItemBody :
    ∀ item ∈ (oneItemBody 106 (.toItem 0 99)).items, ChunksOf readItemBytes item := by
  intro item hitem itemRef href
  obtain rfl := List.mem_singleton.mp hitem
  cases href
  refine ⟨rfl, fun done hdone => ?_⟩
  match done, hdone with
  | 0, _ => exact ⟨[2, 3], rfl, by decide, List.prefix_rfl⟩
  | 1, _ => exact ⟨[3], rfl, by decide, List.prefix_rfl⟩

theorem oneItemBody_streams :
    newBody [some ⟨[(5, 0, oneItemContext)], 0, by simp⟩] none = .ok (oneItemBody 106 (.toItem 0 99)) ∧
      (oneItemBody 106 (.toItem 0 99)).advance 100 = .ok (oneItemBody 6 (.toItemEnd 0 1)) ∧
      ∃ chunk, (oneItemBody 6 (.toItemEnd 0 1)).chunk = .ok chunk ∧ chunk ≠ [] ∧
        chunk <+: ((oneItemBody 106 (.toItem 0 99)).document readItemBytes).drop 100 := by
  have hnew : newBody [some ⟨[(5, 0, oneItemContext)], 0, by simp⟩] none =
      .ok (oneItemBody 106 (.toItem 0 99)) := rfl
  have hadvance : (oneItemBody 106 (.toItem 0 99)).advance 100 = .ok (oneItemBody 6 (.toItemEnd 0 1)) := rfl
  have hrun : Reaches Advance (0, oneItemBody 106 (.toItem 0 99)) (100, oneItemBody 6 (.toItemEnd 0 1)) :=
    (Reaches.refl _).tail (.call (by decide) hadvance)
  obtain ⟨-, -, -, hchunk⟩ := response_streams readItemBytes hnew chunksOf_oneItemBody hrun
  exact ⟨hnew, hadvance, hchunk (by decide)⟩

end Streaming

end Dandelion
