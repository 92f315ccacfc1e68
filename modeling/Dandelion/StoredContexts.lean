import Dandelion.StoredOverlays

/-!
# Entries without pages

An entry without pages in a context that was only written to is never found: reads and
transfers behave as if it was not there. Without such entries the context is valid, so that what
is known about transfers from valid contexts holds for it.
-/

namespace Dandelion.KvmContext

open Outcome Segments Stateful

def HasPages (entry : OverlayEntry) : Prop := entry.2.1 ≤ entry.1

instance (entry : OverlayEntry) : Decidable (HasPages entry) := inferInstanceAs (Decidable (_ ≤ _))

/-- The context without the entries that have no pages. -/
def withoutEmpty (context : KvmContext) : KvmContext where
  overlay := ⟨context.overlay.entries.filter fun entry => HasPages entry,
    context.overlay.sorted.filter _⟩
  storage := context.storage

theorem get?_withoutEmpty (context : KvmContext) {last start : Nat} {item : Option OverlayItem} :
    context.withoutEmpty.overlay.get? last = some (start, item) ↔
      context.overlay.get? last = some (start, item) ∧ start ≤ last := by
  rw [OrderedMap.get?_eq_some_iff, OrderedMap.get?_eq_some_iff]
  change (last, start, item) ∈ context.overlay.entries.filter _ ↔ _
  rw [List.mem_filter, decide_eq_true_eq]
  rfl

theorem rangeFrom_withoutEmpty (context : KvmContext) (k : Nat) :
    context.withoutEmpty.overlay.rangeFrom k =
      (context.overlay.rangeFrom k).filter fun entry => HasPages entry := by
  change (context.overlay.entries.filter _).filter _ = (context.overlay.entries.filter _).filter _
  rw [List.filter_filter, List.filter_filter]
  simp only [Bool.and_comm]

section Reads

/-- Where the first entry starts behind an offset, so do those that have pages. -/
theorem StoredEntries.beyond {entry : OverlayEntry} {entries : List OverlayEntry}
    (h : StoredEntries (entry :: entries)) {offset : Nat} (hoffset : offset < entry.2.1) :
    ∀ entry' ∈ (entry :: entries).filter fun entry => HasPages entry, offset < entry'.2.1 := by
  intro entry' hmem
  rcases List.mem_cons.mp (List.mem_of_mem_filter hmem) with rfl | htail
  · exact hoffset
  · have := (List.pairwise_cons.mp h.apart).1 entry' htail
    have := h.ordered entry List.mem_cons_self
    omega

theorem readLoop_beyond (storage : List UInt8) {entries : List OverlayEntry} {offset : Nat}
    (h : ∀ entry ∈ entries, offset < entry.2.1) (buffer : List UInt8) :
    readLoop storage entries offset buffer = (buffer, fail .invalidRead) := by
  cases entries with
  | nil => rfl
  | cons entry entries => exact if_pos (h entry List.mem_cons_self)

theorem readLoop_filter (storage : List UInt8) {entries : List OverlayEntry} (h : StoredEntries entries)
    {offset : Nat} (hkeys : ∀ entry ∈ entries, offset ≤ entry.1) (buffer : List UInt8) :
    readLoop storage (entries.filter fun entry => HasPages entry) offset buffer =
      readLoop storage entries offset buffer := by
  induction entries generalizing offset buffer with
  | nil => rfl
  | cons entry entries ih =>
    obtain ⟨last, start, item⟩ := entry
    by_cases hbeyond : offset < start
    · rw [readLoop_beyond storage (h.beyond hbeyond), readLoop, if_pos hbeyond]
    have hkey : offset ≤ last := hkeys _ List.mem_cons_self
    have hpages : HasPages (last, start, item) := by
      change start ≤ last
      omega
    rw [List.filter_cons_of_pos (by simpa using hpages), readLoop, readLoop, if_neg hbeyond,
      if_neg hbeyond]
    by_cases hempty : buffer.isEmpty
    · rw [if_pos hempty, if_pos hempty]
    rw [if_neg hempty, if_neg hempty]
    dsimp only
    cases hpart : readPart storage start item offset
        (buffer.take (min (last - offset + 1) buffer.length)) with
    | mk bytes result =>
      cases result with
      | error stop => rfl
      | ok value =>
        dsimp only
        by_cases hdone : (buffer.drop (min (last - offset + 1) buffer.length)).isEmpty
        · rw [if_pos hdone, if_pos hdone]
        · -- the rest of the buffer starts behind the entry
          have hlong : last - offset + 1 < buffer.length := by
            rw [List.isEmpty_iff, List.drop_eq_nil_iff] at hdone
            omega
          have hkeys' : ∀ entry ∈ entries,
              offset + min (last - offset + 1) buffer.length ≤ entry.1 := by
            intro entry hentry
            have := (List.pairwise_cons.mp h.apart).1 entry hentry
            have := h.ordered entry (List.mem_cons_of_mem _ hentry)
            dsimp only at *
            omega
          rw [if_neg hdone, if_neg hdone, ih h.tail hkeys']

end Reads

section Shared

variable {context : KvmContext} (h : StoredContext context)
include h

omit h in
theorem view_withoutEmpty (context : KvmContext) (o : Nat) :
    context.withoutEmpty.view o = context.view o := by
  have hlocate : locate context.withoutEmpty.overlay o = locate context.overlay o := by
    unfold locate
    change ((context.overlay.entries.filter _).find? _).map _ = _
    rw [List.find?_filter]
    congr 2
    funext entry
    by_cases hin : entry.2.1 ≤ o ∧ o ≤ entry.1
    · have hpages : HasPages entry := le_trans hin.1 hin.2
      simp [hin, hpages]
    · simp [hin]
  rw [view, view, hlocate]
  rfl

theorem read_withoutEmpty (offset : Nat) (buffer : List UInt8) :
    context.withoutEmpty.read 1 offset buffer = context.read 1 offset buffer := by
  have hloop : readLoop context.storage (context.withoutEmpty.overlay.rangeFrom offset) offset buffer =
      readLoop context.storage (context.overlay.rangeFrom offset) offset buffer := by
    rw [rangeFrom_withoutEmpty]
    exact readLoop_filter _ (h.rangeFrom offset)
      (fun entry hentry => ((OrderedMap.mem_rangeFrom _ _ _).mp hentry).2) buffer
  have hstorage : context.withoutEmpty.storage = context.storage := rfl
  unfold read
  rw [hstorage, hloop]

theorem getChunkRef_withoutEmpty (offset length : Nat) :
    context.withoutEmpty.getChunkRef offset length = context.getChunkRef offset length := by
  unfold getChunkRef OrderedMap.firstFrom
  rw [rangeFrom_withoutEmpty]
  have hrange := h.rangeFrom offset
  have hkeys : ∀ entry ∈ context.overlay.rangeFrom offset, offset ≤ entry.1 :=
    fun entry hentry => ((OrderedMap.mem_rangeFrom _ _ _).mp hentry).2
  cases hentries : context.overlay.rangeFrom offset with
  | nil => rfl
  | cons entry entries =>
    rw [hentries] at hrange hkeys
    obtain ⟨last, start, item⟩ := entry
    by_cases hbeyond : offset < start
    · refine bind_congr fun readEnd => ?_
      change (if context.storage.length < readEnd then _ else _) = _
      by_cases hbounds : context.storage.length < readEnd
      · rw [if_pos hbounds, if_pos hbounds]
      rw [if_neg hbounds, if_neg hbounds, List.head?_cons]
      have hfilter := hrange.beyond hbeyond
      cases hpages : ((last, start, item) :: entries).filter (fun entry => HasPages entry) with
      | nil => exact (if_neg (Nat.not_le.mpr hbeyond)).symm
      | cons entry' entries' =>
        rw [hpages] at hfilter
        have hbeyond' := hfilter entry' List.mem_cons_self
        exact (if_neg (Nat.not_le.mpr hbeyond')).trans (if_neg (Nat.not_le.mpr hbeyond)).symm
    · have hkey : offset ≤ last := hkeys _ List.mem_cons_self
      have hpages : HasPages (last, start, item) := by
        change start ≤ last
        omega
      rw [List.filter_cons_of_pos (by simpa using hpages)]
      rfl

/-- Others cannot tell the two contexts apart. -/
theorem toRef_withoutEmpty : context.withoutEmpty.toRef = context.toRef := by
  unfold toRef
  congr 1
  · funext o
    exact view_withoutEmpty context o
  · funext offset buffer
    exact read_withoutEmpty h offset buffer
  · funext offset length
    exact getChunkRef_withoutEmpty h offset length

theorem valid_withoutEmpty : Valid context.withoutEmpty := by
  refine ⟨⟨⟨fun hget => ?_, fun hget hget' hlt => ?_⟩, fun hget => ?_, fun hget => ?_, fun hget => ?_⟩,
    h.storage_pages, h.storage_le⟩
  · exact ((get?_withoutEmpty context).mp hget).2
  · have := h.apart ((get?_withoutEmpty context).mp hget).1 ((get?_withoutEmpty context).mp hget').1 hlt
    omega
  · exact (h.get_spec ((get?_withoutEmpty context).mp hget).1).2.2.1
  · exact (h.get_spec ((get?_withoutEmpty context).mp hget).1).2.2.2
  · have := (h.get_spec ((get?_withoutEmpty context).mp hget).1).1
    cases this

omit h in
theorem OneEntry.withoutEmpty {lo hi : Nat} (hone : OneEntry context lo hi) (hlt : lo < hi) :
    OneEntry context.withoutEmpty lo hi := by
  obtain ⟨last, start, item, hget, hstart, hlast⟩ := hone
  exact ⟨last, start, item, (get?_withoutEmpty context).mpr ⟨hget, by omega⟩, hstart, hlast⟩

theorem OneEntry.view_eq {o : Nat} (hone : OneEntry context o (o + 1)) :
    context.view o = context.storage[o]? := by
  obtain ⟨last, start, item, hget, hstart, hlast⟩ := OneEntry.withoutEmpty hone (Nat.lt_succ_self o)
  obtain rfl : item = none := (h.get_spec ((get?_withoutEmpty context).mp hget).1).1
  rw [← view_withoutEmpty]
  exact (view_stored (valid_withoutEmpty h).paged hget hstart (by omega)).1

/-- The entry that covers an offset is the first one from the offset on. -/
theorem rangeFrom_stored {last start : Nat} {item : Option OverlayItem}
    (hget : context.overlay.get? last = some (start, item)) {o : Nat} (hstart : start ≤ o)
    (hlast : o ≤ last) : ∃ entries, context.overlay.rangeFrom o = (last, start, none) :: entries := by
  obtain rfl : item = none := (h.get_spec hget).1
  have hfirst : context.overlay.firstFrom o = some (last, start, none) := by
    rw [OrderedMap.firstFrom_eq_some_iff]
    refine ⟨hget, hlast, fun last' value hget' hle => ?_⟩
    by_contra hlt
    have := h.apart hget' hget (Nat.lt_of_not_le hlt)
    omega
  exact List.head?_eq_some_iff.mp hfirst

omit h in
/-- On pages that one stored entry covers the loop takes one round. -/
theorem overlayLoop_stored (source : KvmContext) (hi : Nat) {lo n last start : Nat}
    (entries : List OverlayEntry) (hn : 0 < n) (hstart : start ≤ lo) (hlast : lo + n ≤ last + 1) :
    overlayLoop source hi n lo ((last, start, none) :: entries) 0 = (do
      let destination ← get
      let destination ← lift (insertIntoOverlay destination hi (hi + n) (some ⟨source.toRef, lo⟩))
      set destination
      pure n) := by
  have hbytes : min (last + 1) (lo + n) - lo + 0 = n := by omega
  have hdone : overlayLoop source hi n lo entries (0 + n) = pure n := by
    rw [Nat.zero_add]
    cases entries with
    | nil => rfl
    | cons entry entries =>
      obtain ⟨last', start', item'⟩ := entry
      rw [overlayLoop, if_pos (.inl (Nat.le_refl _))]
  rw [overlayLoop, if_neg (by omega), if_pos (by omega)]
  simp only [hbytes, hdone]
  rfl

/-- The loop over the pages of one entry does not see the entries without pages. -/
theorem overlayLoop_withoutEmpty {lo n : Nat} (hpos : 0 < n) (hone : OneEntry context lo (lo + n)) :
    overlayLoop context.withoutEmpty lo n lo (context.withoutEmpty.overlay.rangeFrom lo) 0 =
      overlayLoop context lo n lo (context.overlay.rangeFrom lo) 0 := by
  obtain ⟨last, start, item, hget, hstart, hlast⟩ := hone
  obtain ⟨entries, hentries⟩ := rangeFrom_stored h hget hstart (by omega)
  have hpages : HasPages (last, start, none) := by
    change start ≤ last
    omega
  rw [rangeFrom_withoutEmpty, hentries, List.filter_cons_of_pos (by simpa using hpages),
    overlayLoop_stored _ _ _ hpos hstart (by omega), overlayLoop_stored _ _ _ hpos hstart (by omega),
    toRef_withoutEmpty h]

/-- A transfer to the same place finds the pages that it takes over in one entry. -/
theorem transferPages_withoutEmpty {offset size : Nat}
    (hone : nextPage offset < roundDownToPage (offset + size) →
      OneEntry context (nextPage offset) (roundDownToPage (offset + size))) :
    transferPages context.withoutEmpty offset offset size =
      transferPages context offset offset size := by
  unfold transferPages
  dsimp only
  by_cases horder : nextPage offset ≤ roundDownToPage (offset + size)
  · rw [Usize.sub_eq_ok horder, lift_ok_bind, lift_ok_bind, toRef_withoutEmpty h]
    by_cases hzero : roundDownToPage (offset + size) - nextPage offset = 0
    · rw [if_neg (not_not_intro hzero), if_neg (not_not_intro hzero)]
    · have hend : nextPage offset + (roundDownToPage (offset + size) - nextPage offset) =
          roundDownToPage (offset + size) := by omega
      have hentry := hone (by omega)
      rw [← hend] at hentry
      rw [if_pos hzero, if_pos hzero, overlayLoop_withoutEmpty h (Nat.pos_of_ne_zero hzero) hentry]
  · rw [Usize.sub_eq_crash (Nat.lt_of_not_le horder), lift_crash_bind, lift_crash_bind]

theorem transferInto_withoutEmpty (destination : KvmContext) {offset size : Nat}
    (hone : nextPage offset < roundDownToPage (offset + size) →
      OneEntry context (nextPage offset) (roundDownToPage (offset + size))) :
    transferInto destination (.kvm context.withoutEmpty) offset offset size =
      transferInto destination (.kvm context) offset offset size := by
  unfold transferInto transferAll TransferSource.toRef
  simp only [toRef_withoutEmpty h, transferPages_withoutEmpty h hone]

/-- A transfer to the same place moves exactly the requested bytes. -/
theorem transferInto_stored {destination : KvmContext} (hd : Valid destination) {offset size : Nat}
    (hfits : offset + size ≤ context.storage.length)
    (hone : nextPage offset < roundDownToPage (offset + size) →
      OneEntry context (nextPage offset) (roundDownToPage (offset + size)))
    (hok : (transferInto destination (.kvm context) offset offset size).2 = .ok ()) :
    Valid (transferInto destination (.kvm context) offset offset size).1 ∧
      Transferred destination (transferInto destination (.kvm context) offset offset size).1
        context.view offset offset size := by
  have hlimit : offset + size < Usize.limit := by
    have := h.storage_le
    unfold Usize.isizeMax at this
    unfold Usize.limit
    omega
  have hwhen : Remappable destination context.withoutEmpty offset offset size :=
    ⟨hlimit, fun _ => ⟨hlimit, fun _ _ _ hlt _ _ => (hone hlt).withoutEmpty hlt⟩⟩
  have hview : context.withoutEmpty.view = context.view := funext (view_withoutEmpty context)
  have hmoves := (transferInto_moves hd (valid_withoutEmpty h) hwhen).2
  rw [transferInto_withoutEmpty h destination hone, hview] at hmoves
  exact hmoves hok

end Shared

end Dandelion.KvmContext
