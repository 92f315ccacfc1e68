import Dandelion.StorageCopies

/-!
# Reads from a context

A read fills its buffer with the bytes of the context, and succeeds where all of them are
defined. A chunk is a piece of these bytes. So a valid context may itself be shared.
-/

namespace Dandelion.KvmContext

open Outcome Segments

/-- A buffer filled from the bytes at an offset. -/
structure ReadsAs (byte : Nat → Option UInt8) (offset : Nat) (buffer : List UInt8)
    (after : List UInt8 × DandelionResult Unit) : Prop where
  length : after.1.length = buffer.length
  returns : Returns after.2
  bytes : after.2 = .ok () → ∀ i < buffer.length, after.1[i]? = byte (offset + i)
  defined : (∀ i < buffer.length, (byte (offset + i)).isSome) → after.2 = .ok ()

theorem readsAs_fail {byte : Nat → Option UInt8} {offset : Nat} {buffer : List UInt8} (i : Nat)
    (hi : i < buffer.length) (hnone : byte (offset + i) = none) (e : DandelionError) :
    ReadsAs byte offset buffer (buffer, fail e) where
  length := rfl
  returns := returns_fail e
  bytes := fun hok => by cases hok
  defined := fun hall => by
    have := hall i hi
    rw [hnone] at this
    cases this

theorem ReadsAs.stopped {byte : Nat → Option UInt8} {offset : Nat} {front back bytes : List UInt8}
    {stop : Stop DandelionError} (hfront : ReadsAs byte offset front (bytes, .error stop)) :
    ReadsAs byte offset (front ++ back) (bytes ++ back, .error stop) where
  length := by
    rw [List.length_append, List.length_append, hfront.length]
  returns := hfront.returns
  bytes := fun hok => by cases hok
  defined := fun hall => hfront.defined fun i hi => hall i (by rw [List.length_append]; omega)

theorem ReadsAs.append {byte : Nat → Option UInt8} {offset : Nat} {front back bytes rest : List UInt8}
    {result : DandelionResult Unit} {n : Nat} (hn : front.length = n)
    (hfront : ReadsAs byte offset front (bytes, .ok ()))
    (hback : ReadsAs byte (offset + n) back (rest, result)) :
    ReadsAs byte offset (front ++ back) (bytes ++ rest, result) where
  length := by
    rw [List.length_append, List.length_append, hfront.length, hback.length]
  returns := hback.returns
  bytes := by
    intro hok i hi
    rw [List.length_append] at hi
    have hlen : bytes.length = n := hfront.length.trans hn
    by_cases hlt : i < n
    · rw [List.getElem?_append_left (by omega)]
      exact hfront.bytes rfl i (by omega)
    · rw [List.getElem?_append_right (by omega), hlen]
      have := hback.bytes hok (i - n) (by omega)
      rw [this]
      congr 1
      omega
  defined := by
    intro hall
    refine hback.defined fun i hi => ?_
    have := hall (n + i) (by rw [List.length_append]; omega)
    rwa [← Nat.add_assoc] at this

/-- A chunk of at least one byte. -/
structure ChunkAs (byte : Nat → Option UInt8) (offset length : Nat)
    (result : DandelionResult (List UInt8)) : Prop where
  bytes : ∀ chunk, result = .ok chunk → 0 < chunk.length ∧ chunk.length ≤ length ∧
    ∀ i < chunk.length, chunk[i]? = byte (offset + i)
  defined : (byte offset).isSome → ∃ chunk, result = .ok chunk

theorem chunkAs_fail {byte : Nat → Option UInt8} {offset : Nat} (length : Nat)
    (hnone : byte offset = none) (e : DandelionError) : ChunkAs byte offset length (fail e) where
  bytes := fun chunk hok => by cases hok
  defined := fun hsome => by
    rw [hnone] at hsome
    cases hsome

section Paged

variable {context : KvmContext} (h : Paged context)
include h

theorem readPart_spec {last start : Nat} {item : Option OverlayItem}
    (hget : context.overlay.get? last = some (start, item)) {offset : Nat} {buffer : List UInt8}
    (hbuffer : buffer ≠ []) (hstart : start ≤ offset) (hlast : offset + buffer.length ≤ last + 1)
    (hbounds : offset + buffer.length ≤ context.storage.length) :
    ReadsAs context.view offset buffer (readPart context.storage start item offset buffer) := by
  have hpos := List.length_pos_iff.mpr hbuffer
  cases item with
  | none =>
    have hview : ∀ i < buffer.length, context.view (offset + i) = context.storage[offset + i]? :=
      fun i hi => (view_stored h hget (by omega) (by omega)).1
    rw [readPart, if_pos (by omega)]
    refine ⟨?_, returns_pure _, fun _ i hi => ?_, fun _ => rfl⟩
    · rw [List.length_take, List.length_drop]
      omega
    · rw [hview i hi, List.getElem?_take, if_pos hi, List.getElem?_drop]
  | some item =>
    have hback := h.overlay.items hget
    have hlimit := hback.lt
    have hview : ∀ i < buffer.length, context.view (offset + i) =
        item.context.byte (item.offset + (offset - start) + i) := by
      intro i hi
      rw [view_item h hget (by omega) (by omega)]
      congr 1
      omega
    rw [readPart, Usize.add_eq_ok (by omega)]
    refine ⟨hback.lawful.read_length _ _, hback.lawful.read_returns _ _ (by omega),
      fun hok i hi => ?_, fun hall => ?_⟩
    · rw [hview i hi]
      exact hback.lawful.read_bytes _ _ hok i hi
    · refine hback.lawful.read_defined _ _ hpos fun i hi => ?_
      rw [← hview i hi]
      exact hall i hi

/-- No byte where the first entry from an offset on starts behind it. -/
theorem view_eq_none {offset : Nat}
    (hfirst : ∀ entry, context.overlay.firstFrom offset = some entry → offset < entry.2.1) :
    context.view offset = none := by
  have hloc : locate context.overlay offset = none := by
    rw [h.overlay.separate.locate_firstFrom]
    cases hf : context.overlay.firstFrom offset with
    | none => rfl
    | some entry => exact if_neg (Nat.not_le.mpr (hfirst entry hf))
  rw [view, hloc]

theorem readLoop_spec (entries : List OverlayEntry) {offset : Nat} {buffer : List UInt8}
    (hentries : context.overlay.rangeFrom offset = entries) (hbuffer : buffer ≠ [])
    (hbounds : offset + buffer.length ≤ context.storage.length) :
    ReadsAs context.view offset buffer (readLoop context.storage entries offset buffer) := by
  induction entries generalizing offset buffer with
  | nil =>
    have hnone : context.view offset = none := view_eq_none h fun entry hentry => by
      rw [OrderedMap.firstFrom, hentries] at hentry
      cases hentry
    exact readsAs_fail 0 (List.length_pos_iff.mpr hbuffer) hnone _
  | cons entry entries ih =>
    obtain ⟨last, start, item⟩ := entry
    obtain ⟨hget, hlast⟩ := (OrderedMap.mem_rangeFrom _ _ _).mp (hentries ▸ List.mem_cons_self)
    have hlen := List.length_pos_iff.mpr hbuffer
    rw [readLoop]
    by_cases hstart : offset < start
    · have hnone : context.view offset = none := view_eq_none h fun entry hentry => by
        rw [OrderedMap.firstFrom, hentries] at hentry
        cases hentry
        exact hstart
      rw [if_pos hstart]
      exact readsAs_fail 0 hlen hnone _
    · rw [if_neg hstart, if_neg (by simpa using hbuffer)]
      simp only at hlast ⊢
      generalize hn : min (last - offset + 1) buffer.length = n
      have htake : (buffer.take n).length = n := by
        rw [List.length_take]
        omega
      have hne : buffer.take n ≠ [] := List.ne_nil_of_length_pos (by omega)
      have hpart : ReadsAs context.view offset (buffer.take n) _ :=
        readPart_spec h hget hne (by omega) (by omega) (by omega)
      have hsplit := List.take_append_drop n buffer
      cases hread : readPart context.storage start item offset (buffer.take n) with
      | mk bytes result =>
        rw [hread] at hpart
        cases result with
        | error stop =>
          have hstopped : ReadsAs context.view offset (buffer.take n ++ buffer.drop n) _ :=
            hpart.stopped
          rwa [hsplit] at hstopped
        | ok value =>
          simp only
          by_cases hempty : (buffer.drop n).isEmpty = true
          · rw [if_pos hempty]
            rw [List.isEmpty_iff.mp hempty, List.append_nil] at hsplit
            rwa [hsplit] at hpart
          · -- the rest of the buffer is behind this entry
            rw [if_neg hempty]
            have hrest : buffer.drop n ≠ [] := by simpa using hempty
            have hpos := List.length_pos_iff.mpr hrest
            rw [List.length_drop] at hpos
            have hnext : offset + n = last + 1 := by omega
            have hback := ih (OrderedMap.rangeFrom_of_cons hentries) hrest
              (by rw [List.length_drop]; omega)
            rw [← hnext] at hback
            have happend : ReadsAs context.view offset (buffer.take n ++ buffer.drop n) _ :=
              ReadsAs.append htake hpart hback
            rwa [hsplit] at happend

theorem lt_limit {n : Nat} (hn : n ≤ context.storage.length) : n < Usize.limit := by
  have hle := h.storage_le
  unfold Usize.isizeMax at hle
  unfold Usize.limit
  omega

theorem read_spec {align offset : Nat} {buffer : List UInt8} (halign : offset % align = 0)
    (hbuffer : buffer ≠ []) (hbounds : offset + buffer.length ≤ context.storage.length) :
    ReadsAs context.view offset buffer (read align context offset buffer) := by
  have hlen := List.length_pos_iff.mpr hbuffer
  rw [read, if_neg (not_not.mpr halign), Usize.add_eq_ok (lt_limit h hbounds)]
  simp only
  rw [if_neg (by omega), if_neg (by omega)]
  exact readLoop_spec h _ rfl hbuffer hbounds

/-- A chunk of a range in bounds comes from the first entry from the offset on. -/
theorem getChunkRef_eq {offset length : Nat} (hbounds : offset + length ≤ context.storage.length) :
    getChunkRef context offset length =
      match context.overlay.firstFrom offset with
      | none => fail .invalidRead
      | some (last, start, item) =>
        if start ≤ offset then
          match item with
          | some item =>
            item.context.getChunkRef (item.offset + (offset - start)) (min (last + 1 - offset) length)
          | none => pure ((context.storage.drop offset).take (min (offset + length) (last + 1) - offset))
        else fail .invalidRead := by
  rw [getChunkRef, Usize.add_eq_ok (lt_limit h hbounds)]
  change (if context.storage.length < offset + length then _ else _) = _
  rw [if_neg (by omega)]
  cases hfirst : context.overlay.firstFrom offset with
  | none => rfl
  | some entry =>
    obtain ⟨last, start, item⟩ := entry
    obtain ⟨hget, hlast, -⟩ := (OrderedMap.firstFrom_eq_some_iff _ _ _ _).mp hfirst
    by_cases hstart : start ≤ offset
    · simp only [hstart, if_true]
      cases item with
      | none => exact if_pos (by omega)
      | some item =>
        have hlimit := (h.overlay.items hget).lt
        simp only
        rw [Usize.add_eq_ok (by omega)]
        rfl
    · simp only [hstart, if_false]

theorem returns_getChunkRef {offset length : Nat} (hlimit : offset + length < Usize.limit) :
    Returns (getChunkRef context offset length) := by
  by_cases hbounds : offset + length ≤ context.storage.length
  · rw [getChunkRef_eq h hbounds]
    cases hfirst : context.overlay.firstFrom offset with
    | none => exact returns_fail _
    | some entry =>
      obtain ⟨last, start, item⟩ := entry
      obtain ⟨hget, hlast, -⟩ := (OrderedMap.firstFrom_eq_some_iff _ _ _ _).mp hfirst
      simp only
      split
      · cases item with
        | none => exact returns_pure _
        | some item =>
          have hback := h.overlay.items hget
          have hlt := hback.lt
          exact hback.lawful.chunk_returns _ _ (by omega)
      · exact returns_fail _
  · rw [getChunkRef, Usize.add_eq_ok hlimit]
    change Returns (if context.storage.length < offset + length then _ else _)
    rw [if_pos (by omega)]
    exact returns_fail _

/-- A chunk is a piece of the bytes, and there is one if all bytes of the range are defined. -/
theorem getChunkRef_pieces {offset length : Nat} (hpos : 0 < length)
    (hbounds : offset + length ≤ context.storage.length) :
    (∀ chunk, getChunkRef context offset length = .ok chunk →
      0 < chunk.length ∧ chunk.length ≤ length ∧
        ∀ i < chunk.length, chunk[i]? = context.view (offset + i)) ∧
      ((∀ i < length, (context.view (offset + i)).isSome) →
        ∃ chunk, getChunkRef context offset length = .ok chunk) := by
  rw [getChunkRef_eq h hbounds]
  cases hfirst : context.overlay.firstFrom offset with
  | none =>
    have hnone : context.view offset = none := view_eq_none h fun entry hentry => by
      rw [hfirst] at hentry
      cases hentry
    have hfail := chunkAs_fail length hnone
    exact ⟨(hfail _).bytes, fun hall => (hfail _).defined (hall 0 hpos)⟩
  | some entry =>
    obtain ⟨last, start, item⟩ := entry
    obtain ⟨hget, hlast, -⟩ := (OrderedMap.firstFrom_eq_some_iff _ _ _ _).mp hfirst
    by_cases hstart : start ≤ offset
    · simp only [hstart, if_true]
      cases item with
      | none =>
        refine ⟨fun chunk hok => ?_, fun _ => ⟨_, rfl⟩⟩
        cases hok
        rw [List.length_take, List.length_drop]
        refine ⟨by omega, by omega, fun i hi => ?_⟩
        rw [(view_stored h hget (by omega) (by omega)).1, List.getElem?_take, if_pos (by omega),
          List.getElem?_drop]
      | some item =>
        have hitem := h.overlay.items hget
        have hview : ∀ i < min (last + 1 - offset) length, context.view (offset + i) =
            item.context.byte (item.offset + (offset - start) + i) := by
          intro i hi
          rw [view_item h hget (by omega) (by omega)]
          congr 1
          omega
        refine ⟨fun chunk hok => ?_, fun hall => ?_⟩
        · obtain ⟨h1, h2, h3⟩ := hitem.lawful.chunk_bytes _ _ chunk (by omega) hok
          refine ⟨h1, by omega, fun i hi => ?_⟩
          rw [h3 i hi, hview i (by omega)]
        · -- the last byte of the piece is defined, so the piece is inside the context of the item
          have hfirstByte := hall 0 hpos
          obtain ⟨byte, hbyte⟩ := Option.isSome_iff_exists.mp
            (hall (min (last + 1 - offset) length - 1) (by omega))
          rw [hview _ (by omega)] at hbyte hfirstByte
          have hlt := hitem.lawful.byte_lt hbyte
          exact hitem.lawful.chunk_defined _ _ (by omega) (by omega) hfirstByte
    · have hnone : context.view offset = none := view_eq_none h fun entry hentry => by
        rw [hfirst] at hentry
        cases hentry
        exact Nat.lt_of_not_le hstart
      simp only [hstart, if_false]
      have hfail := chunkAs_fail length hnone
      exact ⟨(hfail _).bytes, fun hall => (hfail _).defined (hall 0 hpos)⟩

end Paged

section Valid

variable {context : KvmContext} (h : Valid context)
include h

theorem getChunkRef_spec {offset length : Nat} (hpos : 0 < length)
    (hbounds : offset + length ≤ context.storage.length) :
    ChunkAs context.view offset length (getChunkRef context offset length) := by
  refine ⟨(getChunkRef_pieces h.paged hpos hbounds).1, fun hsome => ?_⟩
  rw [getChunkRef_eq h.paged hbounds]
  cases hfirst : context.overlay.firstFrom offset with
  | none =>
    have hnone : context.view offset = none := view_eq_none h.paged fun entry hentry => by
      rw [hfirst] at hentry
      cases hentry
    exact (chunkAs_fail length hnone _).defined hsome
  | some entry =>
    obtain ⟨last, start, item⟩ := entry
    obtain ⟨hget, hlast, -⟩ := (OrderedMap.firstFrom_eq_some_iff _ _ _ _).mp hfirst
    by_cases hstart : start ≤ offset
    · simp only [hstart, if_true]
      cases item with
      | none => exact ⟨_, rfl⟩
      | some item =>
        have hback := h.overlay.items hget
        have hfits := hback.fits
        rw [view_item h.paged hget hstart hlast] at hsome
        exact hback.lawful.chunk_defined _ _ (by omega) (by omega) hsome
    · have hnone : context.view offset = none := view_eq_none h.paged fun entry hentry => by
        rw [hfirst] at hentry
        cases hentry
        exact Nat.lt_of_not_le hstart
      simp only [hstart, if_false]
      exact (chunkAs_fail length hnone _).defined hsome

theorem lt_of_view_eq_some {offset : Nat} {byte : UInt8} (hview : context.view offset = some byte) :
    offset < context.storage.length := by
  rw [view] at hview
  cases hloc : locate context.overlay offset with
  | none =>
    rw [hloc] at hview
    cases hview
  | some item =>
    obtain ⟨last, start, item', hget, hstart, hlast, -⟩ :=
      (h.overlay.separate.locate_eq_some_iff offset item).mp hloc
    have := h.overlay.inside hget
    omega

/-- A read out of bounds, of nothing, or of at least one byte in bounds. -/
theorem read_cases (offset : Nat) (buffer : List UInt8) :
    (context.storage.length < offset + buffer.length ∧ ∃ stop,
      read 1 context offset buffer = (buffer, .error stop) ∧
        (offset + buffer.length < Usize.limit → ∃ e, stop = .error e)) ∨
    (buffer = [] ∧ read 1 context offset buffer = (buffer, .ok ())) ∨
    (offset + buffer.length ≤ context.storage.length ∧
      ReadsAs context.view offset buffer (read 1 context offset buffer)) := by
  by_cases hbounds : offset + buffer.length ≤ context.storage.length
  · by_cases hbuffer : buffer = []
    · refine .inr (.inl ⟨hbuffer, ?_⟩)
      rw [read, if_neg (not_not.mpr (Nat.mod_one _)), Usize.add_eq_ok (lt_limit h.paged hbounds)]
      simp only
      rw [if_neg (by omega), if_pos (by rw [hbuffer]; rfl)]
      rfl
    · exact .inr (.inr ⟨hbounds, read_spec h.paged (Nat.mod_one _) hbuffer hbounds⟩)
  · refine .inl ⟨by omega, ?_⟩
    rw [read, if_neg (not_not.mpr (Nat.mod_one _))]
    by_cases hlimit : offset + buffer.length < Usize.limit
    · rw [Usize.add_eq_ok hlimit]
      simp only
      rw [if_pos (by omega)]
      exact ⟨_, rfl, fun _ => ⟨_, rfl⟩⟩
    · rw [Usize.add_eq_crash hlimit]
      exact ⟨_, rfl, fun hlt => absurd hlt hlimit⟩

theorem toRef_lawful : context.toRef.Lawful where
  size_le := h.storage_le
  byte_lt := lt_of_view_eq_some h
  read_length := by
    intro o buffer
    change (read 1 context o buffer).1.length = _
    rcases read_cases h o buffer with ⟨-, stop, hread, -⟩ | ⟨-, hread⟩ | ⟨-, hread⟩
    · rw [hread]
    · rw [hread]
    · exact hread.length
  read_returns := by
    intro o buffer hlimit
    change Returns (read 1 context o buffer).2
    rcases read_cases h o buffer with ⟨-, stop, hread, hstop⟩ | ⟨-, hread⟩ | ⟨-, hread⟩
    · obtain ⟨e, rfl⟩ := hstop hlimit
      rw [hread]
      exact returns_fail e
    · rw [hread]
      exact returns_ok ()
    · exact hread.returns
  read_bytes := by
    intro o buffer hok i hi
    change (read 1 context o buffer).1[i]? = _
    change (read 1 context o buffer).2 = _ at hok
    rcases read_cases h o buffer with ⟨-, stop, hread, -⟩ | ⟨rfl, -⟩ | ⟨-, hread⟩
    · rw [hread] at hok
      cases hok
    · cases hi
    · exact hread.bytes hok i hi
  read_defined := by
    intro o buffer hpos hall
    change (read 1 context o buffer).2 = _
    rcases read_cases h o buffer with ⟨hlt, -⟩ | ⟨rfl, -⟩ | ⟨-, hread⟩
    · obtain ⟨byte, hbyte⟩ := Option.isSome_iff_exists.mp (hall (buffer.length - 1) (by omega))
      have := lt_of_view_eq_some h hbyte
      omega
    · cases hpos
    · exact hread.defined hall
  chunk_returns := fun o n hlimit => returns_getChunkRef h.paged hlimit
  chunk_bytes := by
    intro o n chunk hpos hok
    by_cases hbounds : o + n ≤ context.storage.length
    · exact (getChunkRef_spec h hpos hbounds).bytes chunk hok
    · obtain ⟨readEnd, hadd, hok⟩ := (bind_eq_ok_iff _ _ _).mp hok
      obtain ⟨-, rfl⟩ := Usize.add_eq_ok_iff.mp hadd
      rw [if_pos (by omega)] at hok
      cases hok
  chunk_defined := fun o n hpos hbounds hsome => (getChunkRef_spec h hpos hbounds).defined hsome

end Valid

end Dandelion.KvmContext
