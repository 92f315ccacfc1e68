import Dandelion.ContextValidity

/-!
# Copies into the storage of a write

A write fills the rest of the first and the last page it touches with the bytes that were
there before. Where the page is in the storage they are there already, where it belongs to
an item they are read from its context, and where there was no page they are set to zero.
-/

namespace Dandelion.KvmContext

open Outcome Segments Stateful

theorem length_copyInto {storage bytes : List UInt8} {start : Nat}
    (h : start + bytes.length ≤ storage.length) :
    (copyInto storage start bytes).length = storage.length := by
  simp only [copyInto, List.length_append, List.length_take, List.length_drop]
  omega

theorem getElem?_copyInto {storage bytes : List UInt8} {start : Nat}
    (h : start + bytes.length ≤ storage.length) (o : Nat) :
    (copyInto storage start bytes)[o]? =
      if start ≤ o ∧ o < start + bytes.length then bytes[o - start]? else storage[o]? := by
  have htake : (storage.take start).length = start := by
    rw [List.length_take]
    omega
  rw [copyInto, List.append_assoc]
  by_cases hlt : o < start
  · rw [if_neg (by omega), List.getElem?_append_left (by omega), List.getElem?_take, if_pos hlt]
  · rw [List.getElem?_append_right (by omega), htake]
    by_cases hin : o < start + bytes.length
    · rw [if_pos (by omega), List.getElem?_append_left (by omega)]
    · rw [if_neg (by omega), List.getElem?_append_right (by omega), List.getElem?_drop]
      congr 1
      omega

theorem copyInto_nil (storage : List UInt8) (start : Nat) : copyInto storage start [] = storage := by
  rw [copyInto, List.append_nil, List.length_nil, Nat.add_zero, List.take_append_drop]

theorem getElem?_zeros {start stop o : Nat} (h : start ≤ o) (h' : o < stop) :
    (List.replicate (stop - start) (0 : UInt8))[o - start]? = some 0 := by
  rw [List.getElem?_replicate, if_pos (by omega)]

theorem fillZero_runs {start stop : Nat} {storage : List UInt8} (h : start ≤ stop)
    (h' : stop ≤ storage.length) {E : List UInt8 → Prop} :
    Runs (fillZero start stop) storage (fun _ storage' => storage'.length = storage.length ∧
      ∀ o, storage'[o]? = if start ≤ o ∧ o < stop then some 0 else storage[o]?) E := by
  have hlen : start + (List.replicate (stop - start) (0 : UInt8)).length ≤ storage.length := by
    rw [List.length_replicate]
    omega
  rw [fillZero, runs_get_bind, if_pos ⟨h, h'⟩]
  refine ⟨length_copyInto hlen, fun o => ?_⟩
  rw [getElem?_copyInto hlen, List.length_replicate, Nat.add_sub_cancel' h]
  by_cases ho : start ≤ o ∧ o < stop
  · rw [if_pos ho, if_pos ho, getElem?_zeros ho.1 ho.2]
  · rw [if_neg ho, if_neg ho]

/-- Every read inside the first `length` bytes of an item succeeds. -/
def Readable (item : OverlayItem) (length : Nat) : Prop :=
  ∀ distance buffer, distance + buffer.length ≤ length →
    (item.context.read (item.offset + distance) buffer).2 = .ok ()

/-- Every read inside the items of an overlay succeeds. -/
def Solid (overlay : Overlay) : Prop :=
  ∀ last start item, overlay.get? last = some (start, some item) →
    Readable item (last + 1 - start)

/-- Two storages that differ in a range at most. -/
structure SameOutside (start stop : Nat) (storage storage' : List UInt8) : Prop where
  length : storage'.length = storage.length
  outside : ∀ o, ¬ (start ≤ o ∧ o < stop) → storage'[o]? = storage[o]?

theorem readIntoStorage_runs {item : OverlayItem} {length distance start stop : Nat}
    {storage : List UInt8} (hitem : item.Addresses length) (hle : start ≤ stop)
    (hstop : stop ≤ storage.length) (hdist : distance + (stop - start) ≤ length) :
    Runs (readIntoStorage item distance start stop) storage
      (fun _ storage' => SameOutside start stop storage storage' ∧ ∀ o, start ≤ o → o < stop →
        storage'[o]? = item.context.byte (item.offset + (distance + (o - start))))
      (fun storage' => SameOutside start stop storage storage' ∧
        ¬ Readable item length) := by
  have hlt := hitem.lt
  have hbuffer : ((storage.drop start).take (stop - start)).length = stop - start := by
    rw [List.length_take, List.length_drop]
    omega
  generalize hb : (storage.drop start).take (stop - start) = buffer at hbuffer
  have hread := hitem.lawful.read_length (item.offset + distance) buffer
  have hreturns := hitem.lawful.read_returns (item.offset + distance) buffer (by omega)
  have hbytes := hitem.lawful.read_bytes (item.offset + distance) buffer
  rw [readIntoStorage, Usize.add_eq_ok (by omega), runs_lift_ok_bind, runs_get_bind,
    if_pos ⟨hle, hstop⟩, hb]
  cases hr : item.context.read (item.offset + distance) buffer with
  | mk bytes result =>
    rw [hr] at hread hreturns hbytes
    simp only at hread hreturns hbytes
    have hfits : start + bytes.length ≤ storage.length := by omega
    have hsame : SameOutside start stop storage (copyInto storage start bytes) := by
      refine ⟨length_copyInto hfits, fun o ho => ?_⟩
      rw [getElem?_copyInto hfits, if_neg (by omega)]
    change Runs (set (copyInto storage start bytes) >>= fun _ => lift result) storage _ _
    rw [runs_set_bind]
    cases result with
    | ok value =>
      refine ⟨hsame, fun o ho ho' => ?_⟩
      rw [getElem?_copyInto hfits, if_pos (by omega), hbytes rfl _ (by omega), Nat.add_assoc]
    | error stop =>
      refine ⟨hreturns stop rfl, hsame, fun hreadable => ?_⟩
      have := hreadable distance buffer (by omega)
      rw [hr] at this
      cases this

/-- The bytes of a range are in the storage. -/
def Loaded (context : KvmContext) (lo hi : Nat) (storage : List UInt8) : Prop :=
  ∀ o, lo ≤ o → o < hi → ∃ byte, context.view o = some byte ∧ storage[o]? = some byte

def Absent (context : KvmContext) (lo hi : Nat) : Prop :=
  ∀ o, lo ≤ o → o < hi → context.view o = none

section View

variable {context : KvmContext} (h : Paged context) {last start o : Nat}
include h

theorem view_item {item : OverlayItem} (hget : context.overlay.get? last = some (start, some item))
    (ho : start ≤ o) (ho' : o ≤ last) :
    context.view o = item.context.byte (item.offset + (o - start)) := by
  rw [view, h.overlay.separate.locate_of_mem hget ho ho', vadd_some]

theorem view_stored (hget : context.overlay.get? last = some (start, none))
    (ho : start ≤ o) (ho' : o ≤ last) :
    context.view o = context.storage[o]? ∧ locate context.overlay o = some none := by
  rw [view, h.overlay.separate.locate_of_mem hget ho ho', vadd_none]
  exact ⟨rfl, rfl⟩

theorem absent_header {offset : Nat}
    (hnone : locate context.overlay (roundDownToPage offset) = none) :
    Absent context (roundDownToPage offset) offset := by
  rw [h.overlay.separate.locate_eq_none_iff] at hnone
  intro o ho ho'
  have hloc : locate context.overlay o = none := by
    rw [h.overlay.separate.locate_eq_none_iff]
    intro last start item hget hstart
    have hround := lt_roundDownToPage_add offset
    have := hnone last start item hget (le_roundDownToPage_of_lt (h.overlay.aligned hget).1 (by omega))
    omega
  rw [view, hloc]

theorem absent_trailer {writeEnd : Nat}
    (hnone : locate context.overlay (nextPage writeEnd - 1) = none) :
    Absent context writeEnd (nextPage writeEnd) := by
  rw [h.overlay.separate.locate_eq_none_iff] at hnone
  intro o ho ho'
  have hloc : locate context.overlay o = none := by
    rw [h.overlay.separate.locate_eq_none_iff]
    intro last start item hget hstart
    by_contra hlast
    have h1 := nextPage_le (h.overlay.aligned hget).2 (show writeEnd ≤ last + 1 by omega)
    have h2 := hnone last start item hget (by omega)
    omega
  rw [view, hloc]

end View

/-- The storage between the loop and the end of a write: only the rest of the first and of the
last page has changed, and nothing that an entry without item covers. -/
structure Kept (context : KvmContext) (offset writeEnd : Nat) (storage : List UInt8) : Prop where
  length : storage.length = context.storage.length
  stored : ∀ o, locate context.overlay o = some none → storage[o]? = context.storage[o]?
  outside : ∀ o, ¬ (roundDownToPage offset ≤ o ∧ o < offset) →
    ¬ (writeEnd ≤ o ∧ o < nextPage writeEnd) → storage[o]? = context.storage[o]?

/-- The storage where a write stops early: a read from an item has failed. -/
structure Halted (context : KvmContext) (offset writeEnd : Nat) (storage : List UInt8) : Prop
    extends Kept context offset writeEnd storage where
  unreadable : ¬ Solid context.overlay

section Copies

variable {context : KvmContext} (h : Paged context) {offset writeEnd : Nat}
  {last start : Nat} {item : Option OverlayItem}
  (hget : context.overlay.get? last = some (start, item)) {storage : List UInt8}
  (hs : Kept context offset writeEnd storage)
include h hget hs

/-- What follows a copy of the bytes from `lo` to `hi` of an entry. -/
theorem copyPart_runs {α : Type} {lo hi : Nat} (hlo : start ≤ lo) (hle : lo ≤ hi)
    (hhi : hi ≤ last + 1) (hin : hi ≤ context.storage.length) (hpart : ∀ o, lo ≤ o → o < hi →
      roundDownToPage offset ≤ o ∧ o < offset ∨ writeEnd ≤ o ∧ o < nextPage writeEnd)
    {next : StorageM α} {Q : α → List UInt8 → Prop}
    (hnext : ∀ storage', Kept context offset writeEnd storage' → SameOutside lo hi storage storage' →
      Loaded context lo hi storage' → Runs next storage' Q (Halted context offset writeEnd)) :
    Runs (do
      if let some item := item then readIntoStorage item (lo - start) lo hi
      next) storage Q (Halted context offset writeEnd) := by
  cases item with
  | none =>
    refine hnext storage hs ⟨rfl, fun _ _ => rfl⟩ fun o ho ho' => ?_
    obtain ⟨hview, hloc⟩ := view_stored h hget (o := o) (by omega) (by omega)
    rw [hview, hs.stored o hloc, List.getElem?_eq_getElem (by omega)]
    exact ⟨_, rfl, rfl⟩
  | some item =>
    have hkept : ∀ storage', SameOutside lo hi storage storage' →
        Kept context offset writeEnd storage' := by
      intro storage' hsame
      refine ⟨hsame.length.trans hs.length, fun o ho => ?_, fun o ho ho' => ?_⟩
      · rw [hsame.outside o, hs.stored o ho]
        rintro ⟨h1, h2⟩
        rw [h.overlay.separate.locate_of_mem hget (by omega) (by omega), vadd_some] at ho
        cases ho
      · rw [hsame.outside o, hs.outside o ho ho']
        rintro ⟨h1, h2⟩
        rcases hpart o h1 h2 with hp | hp
        · exact ho hp
        · exact ho' hp
    have hread := readIntoStorage_runs (h.overlay.items hget) hle (hs.length.symm ▸ hin)
      (show lo - start + (hi - lo) ≤ last + 1 - start by omega)
    have hhalted : ∀ storage', SameOutside lo hi storage storage' ∧
        ¬ Readable item (last + 1 - start) → Halted context offset writeEnd storage' :=
      fun storage' hstop => ⟨hkept _ hstop.1, fun hsolid => hstop.2 (hsolid _ _ _ hget)⟩
    refine (hread.mono (fun _ _ hq => hq) hhalted).bind fun _ storage' hq => ?_
    refine hnext storage' (hkept _ hq.1) hq.1 fun o ho ho' => ?_
    have hbyte := hq.2 o ho ho'
    rw [show lo - start + (o - lo) = o - start by omega,
      ← view_item h hget (by omega) (by omega)] at hbyte
    rw [← hbyte, List.getElem?_eq_getElem (by rw [hq.1.length, hs.length]; omega)]
    exact ⟨_, rfl, rfl⟩

/-- The header of a write from the entry that covers its first page. -/
theorem copyHeader_runs (hstart : start ≤ roundDownToPage offset) (hlast : roundDownToPage offset ≤ last)
    (hin : offset ≤ context.storage.length) {state : WriteState}
    (hnew : state.edit.newStart ≤ roundDownToPage offset)
    (hzero : state.zeroHeader = roundDownToPage offset) :
    Runs (copyHeader offset start item state) storage
      (fun state' storage' => state'.edit = state.edit ∧ state'.zeroTrailer = state.zeroTrailer ∧
        Kept context offset writeEnd storage' ∧ state'.zeroHeader = offset ∧
        Loaded context (roundDownToPage offset) offset storage')
      (Halted context offset writeEnd) := by
  have hle := roundDownToPage_le offset
  have hround := lt_roundDownToPage_add offset
  have hpage := add_pageSize_le (dvd_roundDownToPage offset) (h.overlay.aligned hget).2 (by omega)
  rw [copyHeader]
  by_cases hcopy : state.edit.newStart < offset ∧ start ≤ offset
  · rw [if_pos hcopy]
    exact copyPart_runs h hget hs hstart hle (by omega) hin (fun o ho ho' => .inl ⟨ho, ho'⟩)
      (fun storage' hkept _ hloaded => (runs_pure _).mpr ⟨rfl, rfl, hkept, rfl, hloaded⟩)
  · rw [if_neg hcopy]
    have heq : roundDownToPage offset = offset := by omega
    refine ⟨rfl, rfl, hs, hzero.trans heq, fun o ho ho' => ?_⟩
    omega

/-- The trailer of a write from the entry that covers its last page. -/
theorem copyTrailer_runs (hstart : start < nextPage writeEnd) (hlast : nextPage writeEnd - 1 ≤ last)
    (hin : nextPage writeEnd ≤ context.storage.length) {state : WriteState}
    (hzero : state.zeroTrailer = nextPage writeEnd) :
    Runs (copyTrailer writeEnd (nextPage writeEnd) last start item state) storage
      (fun state' storage' => state'.edit = state.edit ∧ state'.zeroHeader = state.zeroHeader ∧
        Kept context offset writeEnd storage' ∧ state'.zeroTrailer = writeEnd ∧
        SameOutside writeEnd (nextPage writeEnd) storage storage' ∧
        Loaded context writeEnd (nextPage writeEnd) storage')
      (Halted context offset writeEnd) := by
  have hle := le_nextPage writeEnd
  have hround := nextPage_lt_add writeEnd
  have hpage := add_pageSize_le (h.overlay.aligned hget).1 (dvd_nextPage writeEnd) (by omega)
  rw [copyTrailer]
  by_cases hcopy : nextPage writeEnd - 1 ≤ last ∧ writeEnd < nextPage writeEnd
  · rw [if_pos hcopy]
    exact copyPart_runs h hget hs (by omega) hle (by omega) hin (fun o ho ho' => .inr ⟨ho, ho'⟩)
      (fun storage' hkept hsame hloaded =>
        (runs_pure _).mpr ⟨rfl, rfl, hkept, rfl, hsame, hloaded⟩)
  · rw [if_neg hcopy]
    have heq : nextPage writeEnd = writeEnd := by omega
    refine ⟨rfl, rfl, hs, hzero.trans heq, ⟨rfl, fun _ _ => rfl⟩, fun o ho ho' => ?_⟩
    omega

end Copies

end Dandelion.KvmContext
