import Dandelion.ChunkCopies

/-!
# Correctness of transfers

A transfer moves exactly the requested bytes, if the pages that it remaps belong to a
single entry of the source. With a second entry the loop counts the bytes of the first one
twice.
-/

namespace Dandelion.KvmContext

open Outcome Segments Stateful

def OneEntry (context : KvmContext) (lo hi : Nat) : Prop :=
  ∃ last start item, context.overlay.get? last = some (start, item) ∧ start ≤ lo ∧ hi ≤ last + 1

section Pages

variable {source destination : KvmContext} (hs : Valid source) (hd : Valid destination)

include hs in
/-- The entry that covers an offset is the first one from the offset on. -/
theorem rangeFrom_cover {last start : Nat} {item : Option OverlayItem}
    (hget : source.overlay.get? last = some (start, item)) {o : Nat} (hstart : start ≤ o)
    (hlast : o ≤ last) : ∃ entries, source.overlay.rangeFrom o = (last, start, item) :: entries := by
  have hfirst : source.overlay.firstFrom o = some (last, start, item) := by
    rw [OrderedMap.firstFrom_eq_some_iff]
    refine ⟨hget, hlast, fun last' value hget' hle => ?_⟩
    by_contra hlt
    have := hs.overlay.separate.apart hget' hget (Nat.lt_of_not_le hlt)
    omega
  exact List.head?_eq_some_iff.mp hfirst

include hs in
/-- The item of the first entry stands for the pages of the source from the start on. -/
theorem transferItem_spec {last start : Nat} {item : Option OverlayItem}
    (hget : source.overlay.get? last = some (start, item)) {lo size : Nat} (hstart : start ≤ lo)
    (hlast : lo + size ≤ last + 1) :
    ∃ newItem, transferItem source lo 0 start item = .ok newItem ∧ newItem.Backs size ∧
      ∀ d < size, newItem.context.byte (newItem.offset + d) = source.view (lo + d) := by
  have hinside := hs.overlay.inside hget
  cases item with
  | none => exact ⟨⟨source.toRef, lo⟩, rfl, ⟨toRef_lawful hs, by simp only [toRef]; omega⟩,
      fun d _ => rfl⟩
  | some item =>
    have hback := hs.overlay.items hget
    have hfits := hback.fits
    have hsize := hback.lawful.size_le
    have hstorage := hs.storage_le
    have hlimit : item.offset + lo < Usize.limit := by
      unfold Usize.isizeMax at hsize hstorage
      unfold Usize.limit
      omega
    refine ⟨⟨item.context, item.offset + lo - start⟩, ?_, ⟨hback.lawful, ?_⟩, fun d hd => ?_⟩
    · rw [transferItem, Usize.add_eq_ok hlimit]
      change (Usize.sub .checked (item.offset + lo) start >>= _) = _
      rw [Usize.sub_eq_ok (by omega)]
      rfl
    · simp only
      omega
    · rw [view_item hs.paged hget (by omega) (by omega)]
      congr 1
      simp only
      omega

include hs hd in
theorem overlayLoop_runs {lo hi size : Nat} (hcover : OneEntry source lo (lo + size))
    (hpos : 0 < size) (hpage : pageSize ∣ hi) (hpages : pageSize ∣ size)
    (hfits : hi + size ≤ destination.storage.length) :
    Runs (overlayLoop source hi size lo (source.overlay.rangeFrom lo) 0) destination
      (fun overlayed after => overlayed = size ∧ Valid after ∧
        ∀ o, after.view o =
          if hi ≤ o ∧ o < hi + size then source.view (lo + (o - hi)) else destination.view o)
      (fun _ => True) := by
  obtain ⟨last, start, item, hget, hstart, hlast⟩ := hcover
  obtain ⟨entries, hentries⟩ := rangeFrom_cover hs hget hstart (by omega)
  obtain ⟨newItem, hitem, hback, hbyte⟩ := transferItem_spec hs hget hstart hlast
  have hbytes : min (last + 1) (lo + size) - lo + 0 = size := by omega
  have hnew : ∀ it, some newItem = some it → it.Backs (hi + size - hi) := by
    intro it hit
    cases hit
    rwa [Nat.add_sub_cancel_left]
  obtain ⟨overlay, hinsert, hvalid, hlocate⟩ := insertIntoOverlay_spec hd
    (show hi < hi + size by omega) hpage (Nat.dvd_add hpage hpages) hfits hnew
  rw [hentries, overlayLoop, if_neg (by omega), if_pos (by omega)]
  simp only [hbytes, Nat.add_zero, hitem, Nat.zero_add]
  rw [runs_lift_ok_bind, runs_get_bind, hinsert, runs_lift_ok_bind, runs_set_bind]
  have hdone : overlayLoop source hi size lo entries size = pure size := by
    cases entries with
    | nil => rfl
    | cons entry entries =>
      obtain ⟨last', start', item'⟩ := entry
      rw [overlayLoop, if_pos (.inl (Nat.le_refl _))]
  rw [hdone, runs_pure]
  refine ⟨rfl, ⟨hvalid, hd.storage_pages, hd.storage_le⟩, fun o => ?_⟩
  rw [view, hlocate]
  by_cases ho : hi ≤ o ∧ o < hi + size
  · rw [if_pos ho, if_pos ho, vadd_some]
    exact hbyte (o - hi) (by omega)
  · rw [if_neg ho, if_neg ho]
    rfl

/-- The parts of a transfer: the rest of the first page, the start of the last page and the
pages between them. -/
theorem transferred_of_parts {before middle copy after : KvmContext} {byte : Nat → Option UInt8}
    {destinationOffset sourceOffset size lo hi : Nat} (hlo : destinationOffset ≤ lo) (hle : lo ≤ hi)
    (hhi : hi ≤ destinationOffset + size)
    (hheader : Copied before middle byte destinationOffset sourceOffset (lo - destinationOffset))
    (htrailer : Copied middle copy byte hi (sourceOffset + (hi - destinationOffset))
      (destinationOffset + size - hi))
    (hview : ∀ o, after.view o = if lo ≤ o ∧ o < hi then
      byte (sourceOffset + (o - destinationOffset)) else copy.view o) :
    Transferred before after byte destinationOffset sourceOffset size where
  copied := by
    intro i hi'
    rw [hview]
    by_cases hin : lo ≤ destinationOffset + i ∧ destinationOffset + i < hi
    · rw [if_pos hin, Nat.add_sub_cancel_left]
    · rw [if_neg hin]
      by_cases hlt : destinationOffset + i < lo
      · obtain ⟨b, hb⟩ := Option.isSome_iff_exists.mp (hheader.defined i (by omega))
        rw [hb]
        exact htrailer.kept _ b (by omega) ((hheader.copied i (by omega)).trans hb)
      · have := htrailer.copied (destinationOffset + i - hi) (by omega)
        rwa [show hi + (destinationOffset + i - hi) = destinationOffset + i by omega,
          show sourceOffset + (hi - destinationOffset) + (destinationOffset + i - hi) =
            sourceOffset + i by omega] at this
  kept := by
    intro o b hout hb
    rw [hview, if_neg (by omega)]
    exact htrailer.kept o b (by omega) (hheader.kept o b (by omega) hb)
  fresh := by
    intro o hout hnone hsome
    rw [hview, if_neg (by omega)] at hsome
    cases hmiddle : middle.view o with
    | none => exact (htrailer.fresh o (by omega) hmiddle hsome).mono (by omega) (by omega)
    | some b =>
      exact (hheader.fresh o (by omega) hnone (by rw [hmiddle]; rfl)).mono (by omega) (by omega)

variable {destinationOffset sourceOffset size : Nat}

include hs hd in
theorem transferPages_runs (hread : sourceOffset + size ≤ source.storage.length)
    (hwrite : destinationOffset + size ≤ destination.storage.length) (hsize : pageSize ≤ size)
    (hsame : sourceOffset % pageSize = destinationOffset % pageSize)
    (hcover : nextPage sourceOffset < roundDownToPage (sourceOffset + size) →
      (∀ o, sourceOffset ≤ o → o < nextPage sourceOffset → (source.view o).isSome) →
      (∀ o, roundDownToPage (sourceOffset + size) ≤ o → o < sourceOffset + size →
        (source.view o).isSome) →
      OneEntry source (nextPage sourceOffset) (roundDownToPage (sourceOffset + size))) :
    Runs (transferPages source destinationOffset sourceOffset size) destination
      (fun _ after => Valid after ∧
        Transferred destination after source.view destinationOffset sourceOffset size)
      (fun _ => True) := by
  have hstart := nextPage_add_eq hsame
  have hstop := roundDownToPage_add_eq hsame size
  have hle := le_nextPage destinationOffset
  have hle' := roundDownToPage_le (destinationOffset + size)
  have horder : nextPage destinationOffset ≤ roundDownToPage (destinationOffset + size) := by
    have := nextPage_lt_add destinationOffset
    exact le_roundDownToPage (dvd_nextPage _) (by omega)
  have hpages := Nat.dvd_sub (dvd_roundDownToPage (destinationOffset + size))
    (dvd_nextPage destinationOffset)
  rw [transferPages]
  simp only
  rw [Usize.sub_eq_ok horder, runs_lift_ok_bind]
  have hlawful := toRef_lawful hs
  have hheaderSize : sourceOffset + (nextPage destinationOffset - destinationOffset) ≤
      source.toRef.size := by
    simp only [toRef]
    omega
  refine (copyChunks_runs hlawful hheaderSize (by omega) hd).bind fun _ middle hheader => ?_
  -- the last page is as far from the start in the source as in the destination
  rw [show nextPage sourceOffset + (roundDownToPage (destinationOffset + size) -
      nextPage destinationOffset) = sourceOffset +
      (roundDownToPage (destinationOffset + size) - destinationOffset) by omega]
  have htrailerSize : sourceOffset + (roundDownToPage (destinationOffset + size) -
      destinationOffset) + (destinationOffset + size - roundDownToPage (destinationOffset + size)) ≤
      source.toRef.size := by
    simp only [toRef]
    omega
  have hlength := hheader.length
  refine (copyChunks_runs hlawful htrailerSize (by omega) hheader.valid).bind fun _ copy htrailer => ?_
  have hlength' := htrailer.length
  by_cases hzero : roundDownToPage (destinationOffset + size) - nextPage destinationOffset = 0
  · rw [if_neg (not_not.mpr hzero), runs_pure]
    refine ⟨htrailer.valid, transferred_of_parts hle horder hle' hheader htrailer fun o => ?_⟩
    rw [if_neg (by omega)]
  · rw [if_pos hzero]
    have hentry := hcover (by omega)
      (fun o ho ho' => by
        have := hheader.defined (o - sourceOffset) (by omega)
        rwa [Nat.add_sub_cancel' ho] at this)
      (fun o ho ho' => by
        have := htrailer.defined (o - roundDownToPage (sourceOffset + size)) (by omega)
        rwa [show sourceOffset + (roundDownToPage (destinationOffset + size) - destinationOffset) +
          (o - roundDownToPage (sourceOffset + size)) = o by omega] at this)
    rw [show roundDownToPage (sourceOffset + size) = nextPage sourceOffset +
      (roundDownToPage (destinationOffset + size) - nextPage destinationOffset) by omega] at hentry
    refine (overlayLoop_runs hs htrailer.valid hentry (by omega) (dvd_nextPage destinationOffset)
      hpages (by omega)).bind fun overlayed after hafter => ?_
    obtain ⟨rfl, hvalid, hview⟩ := hafter
    rw [if_neg (not_not.mpr rfl), runs_pure]
    refine ⟨hvalid, transferred_of_parts hle horder hle' hheader htrailer fun o => ?_⟩
    rw [hview o, Nat.add_sub_cancel' horder]
    by_cases ho : nextPage destinationOffset ≤ o ∧ o < roundDownToPage (destinationOffset + size)
    · rw [if_pos ho, if_pos ho, show nextPage sourceOffset + (o - nextPage destinationOffset) =
        sourceOffset + (o - destinationOffset) by omega]
    · rw [if_neg ho, if_neg ho]

end Pages

/-- The sums of the bounds checks do not overflow, and a single entry of the source covers the
pages that are remapped, if the copies of the first and the last page find their bytes. -/
def Remappable (destination source : KvmContext) (destinationOffset sourceOffset size : Nat) : Prop :=
  sourceOffset + size < Usize.limit ∧
    (sourceOffset + size ≤ source.storage.length → destinationOffset + size < Usize.limit ∧
      (destinationOffset + size ≤ destination.storage.length → pageSize ≤ size →
        sourceOffset % pageSize = destinationOffset % pageSize →
        nextPage sourceOffset < roundDownToPage (sourceOffset + size) →
        (∀ o, sourceOffset ≤ o → o < nextPage sourceOffset → (source.view o).isSome) →
        (∀ o, roundDownToPage (sourceOffset + size) ≤ o → o < sourceOffset + size →
          (source.view o).isSome) →
        OneEntry source (nextPage sourceOffset) (roundDownToPage (sourceOffset + size))))

theorem transferAll_runs {destination source : KvmContext} (hd : Valid destination) (hs : Valid source)
    {destinationOffset sourceOffset size : Nat}
    (hwhen : Remappable destination source destinationOffset sourceOffset size) :
    Runs (transferAll (.kvm source) destinationOffset sourceOffset size) destination
      (fun _ after => Valid after ∧
        Transferred destination after source.view destinationOffset sourceOffset size)
      (fun _ => True) := by
  obtain ⟨hlimit, hwhen⟩ := hwhen
  rw [transferAll, Usize.add_eq_ok hlimit, runs_lift_ok_bind]
  by_cases hread : sourceOffset + size ≤ source.storage.length
  · obtain ⟨hlimit', hwhen⟩ := hwhen hread
    have hsize : source.toRef.size = source.storage.length := rfl
    have hchunks : destinationOffset + size ≤ destination.storage.length →
        Runs (copyChunks source.toRef sourceOffset destinationOffset size) destination
          (fun _ after => Valid after ∧
            Transferred destination after source.view destinationOffset sourceOffset size)
          (fun _ => True) := fun hwrite =>
      (copyChunks_runs (toRef_lawful hs) (hsize ▸ hread) hwrite hd).imp fun _ after hcopied =>
        ⟨hcopied.valid, hcopied.toTransferred⟩
    rw [TransferSource.toRef, hsize, if_neg (Nat.not_lt.mpr hread), Usize.add_eq_ok hlimit',
      runs_lift_ok_bind, runs_get_bind]
    by_cases hwrite : destinationOffset + size ≤ destination.storage.length
    · rw [if_neg (Nat.not_lt.mpr hwrite)]
      by_cases hsmall : size < pageSize
      · rw [if_pos hsmall]
        exact hchunks hwrite
      · rw [if_neg hsmall]
        by_cases hsame : sourceOffset % pageSize = destinationOffset % pageSize
        · rw [if_neg (not_not.mpr hsame)]
          exact transferPages_runs hs hd hread hwrite (by omega) hsame
            (hwhen hwrite (by omega) hsame)
        · rw [if_pos hsame]
          exact hchunks hwrite
    · rw [if_pos (Nat.lt_of_not_le hwrite), runs_fail]
      trivial
  · rw [if_pos (by simp only [TransferSource.toRef, toRef]; omega), runs_fail]
    trivial

/-- A transfer between valid contexts returns, and moves exactly the requested bytes. -/
theorem transferInto_moves {destination source : KvmContext} (hd : Valid destination)
    (hs : Valid source) {destinationOffset sourceOffset size : Nat}
    (hwhen : Remappable destination source destinationOffset sourceOffset size) :
    Returns (transferInto destination (.kvm source) destinationOffset sourceOffset size).2 ∧
      ((transferInto destination (.kvm source) destinationOffset sourceOffset size).2 = .ok () →
        Valid (transferInto destination (.kvm source) destinationOffset sourceOffset size).1 ∧
        Transferred destination
          (transferInto destination (.kvm source) destinationOffset sourceOffset size).1
          source.view destinationOffset sourceOffset size) := by
  have hruns := transferAll_runs hd hs hwhen
  unfold Runs at hruns
  rw [transferInto]
  cases hexec : exec (transferAll (.kvm source) destinationOffset sourceOffset size) destination with
  | mk result after =>
    rw [hexec] at hruns
    cases result with
    | ok value => exact ⟨returns_ok _, fun _ => hruns⟩
    | error stop =>
      obtain ⟨⟨e, rfl⟩, -⟩ := hruns
      exact ⟨returns_fail e, fun hok => by cases hok⟩

/-- Two pages that nothing was written to yet. -/
def blankPages : KvmContext := ⟨OrderedMap.empty, List.replicate 8192 0⟩

/-- Two pages that were written to together. -/
def joinedPages : KvmContext := ⟨⟨[(8191, 0, none)], by decide⟩, List.replicate 8192 7⟩

/-- Two pages, the first one remapped from another context and the second one written to. -/
def splitPages : KvmContext :=
  ⟨⟨[(4095, 0, some ⟨joinedPages.toRef, 0⟩), (8191, 4096, none)], by decide⟩,
    List.replicate 8192 7⟩

theorem valid_twoPages {overlay : Overlay} {byte : UInt8}
    (hentries : ∀ entry ∈ overlay.entries, entry.2.1 ≤ entry.1 ∧
      (pageSize ∣ entry.2.1 ∧ pageSize ∣ entry.1 + 1) ∧ entry.1 < 8192)
    (hapart : ∀ e ∈ overlay.entries, ∀ f ∈ overlay.entries, e.1 < f.1 → e.1 < f.2.1)
    (hitems : ∀ entry ∈ overlay.entries, ∀ item, entry.2.2 = some item →
      item.Backs (entry.1 + 1 - entry.2.1)) :
    Valid ⟨overlay, List.replicate 8192 byte⟩ := by
  have hlength : (List.replicate 8192 byte).length = 8192 := List.length_replicate
  exact valid_of_entries (hlength.symm ▸ hentries) hapart hitems (hlength.symm ▸ by decide)
    (hlength.symm ▸ by decide)

theorem valid_blankPages : Valid blankPages :=
  valid_twoPages (by decide) (by decide) (fun entry hentry => by cases hentry)

theorem valid_joinedPages : Valid joinedPages := by
  refine valid_twoPages (by decide) (by decide) fun entry hentry item hitem => ?_
  obtain rfl := List.mem_singleton.mp hentry
  cases hitem

theorem valid_splitPages : Valid splitPages := by
  refine valid_twoPages (by decide) (by decide) fun entry hentry item hitem => ?_
  rcases List.mem_pair.mp hentry with rfl | rfl
  · obtain rfl := Option.some.inj hitem
    refine ⟨toRef_lawful valid_joinedPages, ?_⟩
    simp only [toRef, joinedPages, List.length_replicate]
    omega
  · cases hitem

theorem joinedPages_moved :
    (transferInto blankPages (.kvm joinedPages) 0 0 8192).2 = .ok () ∧
      ∀ i < 8192, (transferInto blankPages (.kvm joinedPages) 0 0 8192).1.view (0 + i) =
        joinedPages.view (0 + i) := by
  have hok : (transferInto blankPages (.kvm joinedPages) 0 0 8192).2 = .ok () := by decide +kernel
  have hwhen : Remappable blankPages joinedPages 0 0 8192 := by
    refine ⟨by decide, fun _ => ⟨by decide, fun _ _ _ _ _ _ => ?_⟩⟩
    exact ⟨8191, 0, none, rfl, by decide, by decide⟩
  have hmoves := transferInto_moves valid_blankPages valid_joinedPages hwhen
  exact ⟨hok, (hmoves.2 hok).2.copied⟩

/-- The second round counts the first page again. -/
theorem splitPages_panics : Valid blankPages ∧ Valid splitPages ∧
    ¬ Returns (transferInto blankPages (.kvm splitPages) 0 0 8192).2 := by
  have hpanics : (transferInto blankPages (.kvm splitPages) 0 0 8192).2 = crash := by decide +kernel
  refine ⟨valid_blankPages, valid_splitPages, ?_⟩
  rw [hpanics]
  exact not_returns_crash

end Dandelion.KvmContext
