import Dandelion.FunctionImages
import Dandelion.StoredContexts

/-!
# Static contexts

What the two drivers leave in the static context of a function. In that of the KVM driver each
segment is at its address, and its pages belong to one overlay entry; a segment that shares a page
with another one finds the page stored and keeps its bytes.
-/

namespace Dandelion

open Outcome KvmContext

variable {function : List UInt8}

theorem filePart_ok {header : ProgramHeader} (hfile : header.WellFormed function) {data : List UInt8}
    (hok : filePart function header.source = .ok data) :
    data.length = header.pFilesz ∧
      ∀ i < header.pFilesz, data[i]? = function[header.pOffset + i]? := by
  have hfits := hfile.inFile
  obtain ⟨stop, hstop, hok⟩ := (bind_eq_ok_iff _ _ _).mp hok
  obtain ⟨-, rfl⟩ := Usize.add_eq_ok_iff.mp hstop
  dsimp only [ProgramHeader.source] at hok
  rw [slice, if_pos (by omega)] at hok
  cases hok
  rw [Nat.add_sub_cancel_left]
  refine ⟨by rw [List.length_take, List.length_drop]; omega, fun i hi => ?_⟩
  rw [List.getElem?_take, if_pos hi, List.getElem?_drop]

theorem tryWrite_eq_ok_iff {context after : ContextType} {offset : Nat} {data : List UInt8} :
    context.tryWrite offset data = .ok after ↔ context.write offset data = (after, .ok ()) := by
  unfold ContextType.tryWrite
  cases hwrite : context.write offset data with
  | mk context' result =>
    cases result with
    | ok value => simp
    | error stop => simp

namespace KvmDriver

theorem write_fits {context after : KvmContext} {offset : Nat} {data : List UInt8}
    (hok : context.write 1 offset data = (after, .ok ())) :
    offset + data.length ≤ context.storage.length := by
  rw [KvmContext.write, if_neg (by omega)] at hok
  cases hadd : (Usize.add .checked offset data.length : DandelionResult Nat) with
  | error stop =>
    rw [hadd] at hok
    cases hok
  | ok writeEnd =>
    rw [hadd] at hok
    obtain ⟨-, rfl⟩ := Usize.add_eq_ok_iff.mp hadd
    dsimp only at hok
    by_contra hlt
    rw [if_pos (by omega)] at hok
    cases hok

theorem tryWrite_stored {context : KvmContext} (h : StoredContext context) {offset : Nat}
    (hpos : 0 < offset) {data : List UInt8} {after : ContextType}
    (hok : ContextType.tryWrite (.stored (.kvm context)) offset data = .ok after) :
    offset + data.length ≤ context.storage.length ∧
      ∃ written, after = .stored (.kvm written) ∧ StoredWrite context offset data written := by
  rw [tryWrite_eq_ok_iff] at hok
  cases hwrite : context.write 1 offset data with
  | mk written result =>
    change Prod.map ContextType.stored id (Prod.map DataContext.kvm id (context.write 1 offset data))
      = _ at hok
    rw [hwrite] at hok
    obtain ⟨rfl, rfl⟩ := Prod.mk.inj hok
    have hfits := write_fits hwrite
    have hnext := le_nextPage (offset + data.length)
    obtain ⟨written', heq, hstored⟩ := write_stored h hfits (by omega)
    rw [hwrite] at heq
    obtain ⟨rfl, -⟩ := Prod.mk.inj heq
    exact ⟨hfits, written, rfl, hstored⟩

/-- A segment is in its place, in pages of one entry. -/
structure Placed (function : List UInt8) (context : KvmContext) (header : ProgramHeader) : Prop where
  pages : OneEntry context (roundDownToPage header.pVaddr)
    (nextPage (header.pVaddr + header.pMemsz))
  bytes : ∀ i < header.pMemsz,
    context.storage[header.pVaddr + i]? = header.byte function i
  fits : header.pVaddr + header.pMemsz ≤ context.storage.length

/-- What writing a segment does to the context. -/
structure PlacesSegment (function : List UInt8) (context : KvmContext) (header : ProgramHeader)
    (after : KvmContext) : Prop where
  stored : StoredContext after
  length : after.storage.length = context.storage.length
  placed : Placed function after header
  grown : ∀ {lo hi}, OneEntry context lo hi → OneEntry after lo hi
  kept : ∀ {o}, OneEntry context o (o + 1) → ¬ header.required.covers o →
    after.storage[o]? = context.storage[o]?

theorem OneEntry.mono {context : KvmContext} {lo hi lo' hi' : Nat} (h : OneEntry context lo hi)
    (hlo : lo ≤ lo') (hhi : hi' ≤ hi) : OneEntry context lo' hi' := by
  obtain ⟨last, start, item, hget, hstart, hlast⟩ := h
  exact ⟨last, start, item, hget, by omega, by omega⟩

section Segment

variable {context : KvmContext} {header : ProgramHeader} {data : List UInt8} {written : KvmContext}
  (hheader : header.WellFormed function) (hlength : data.length = header.pFilesz)
  (hdata : ∀ i < header.pFilesz, data[i]? = function[header.pOffset + i]?)
  (hwritten : StoredWrite context header.pVaddr data written)
include hlength hdata hwritten

include hheader in
theorem placesSegment_full (hfull : ¬ header.pFilesz < header.pMemsz)
    (hfits : header.pVaddr + data.length ≤ context.storage.length) :
    PlacesSegment function context header written := by
  have hsize : header.pMemsz = header.pFilesz := Nat.le_antisymm (Nat.le_of_not_lt hfull) hheader.filesz_le
  have hlen := hwritten.length
  refine ⟨hwritten.stored, hlen, ⟨?_, fun i hi => ?_, by omega⟩, hwritten.grown, fun hone hout => ?_⟩
  · rw [hsize, ← hlength]
    exact hwritten.covers
  · rw [ProgramHeader.byte, if_pos (by omega), hwritten.written i (by omega), hdata i (by omega)]
  · refine hwritten.kept hone ?_
    rw [hlength, ← hsize]
    exact hout

/-- A segment that is filled up with zeros. Its two writes touch or adjoin the same page. -/
theorem placesSegment_padded (hpadded : header.pFilesz < header.pMemsz) {after : KvmContext}
    (hzeros : StoredWrite written (header.pVaddr + header.pFilesz)
      (List.replicate (header.pMemsz - header.pFilesz) 0) after)
    (hfits : header.pVaddr + header.pFilesz +
      (List.replicate (header.pMemsz - header.pFilesz) (0 : UInt8)).length ≤ written.storage.length) :
    PlacesSegment function context header after := by
  have hend : header.pVaddr + header.pFilesz +
      (List.replicate (header.pMemsz - header.pFilesz) (0 : UInt8)).length =
        header.pVaddr + header.pMemsz := by
    rw [List.length_replicate]
    omega
  have hround := roundDownToPage_le header.pVaddr
  have hround' := roundDownToPage_le (header.pVaddr + header.pFilesz)
  have hnext := le_nextPage (header.pVaddr + header.pFilesz)
  have hnext' := le_nextPage (header.pVaddr + header.pMemsz)
  have hcovers := hwritten.covers
  have hlen := hwritten.length
  have hlen' := hzeros.length
  rw [hlength] at hcovers
  have hjoined := hzeros.joins hcovers (by rw [hend]; omega) (by omega)
  rw [hend] at hjoined
  refine ⟨hzeros.stored, by omega, ⟨?_, fun i hi => ?_, by omega⟩,
    fun hone => hzeros.grown (hwritten.grown hone), fun hone hout => ?_⟩
  · exact OneEntry.mono hjoined (by omega) (by omega)
  · rw [ProgramHeader.byte]
    by_cases hfile : i < header.pFilesz
    · have hone : OneEntry written (header.pVaddr + i) (header.pVaddr + i + 1) :=
        OneEntry.mono hcovers (by omega) (by omega)
      rw [if_pos hfile, hzeros.kept hone (by omega), hwritten.written i (by omega), hdata i hfile]
    · have hzero := hzeros.written (i - header.pFilesz) (by rw [List.length_replicate]; omega)
      rw [show header.pVaddr + header.pFilesz + (i - header.pFilesz) = header.pVaddr + i by omega]
        at hzero
      rw [if_neg hfile, hzero, List.getElem?_replicate, if_pos (by omega)]
  · unfold Position.covers ProgramHeader.required at hout
    dsimp only at hout
    rw [hzeros.kept (hwritten.grown hone) (by omega), hwritten.kept hone (by omega)]

end Segment

theorem copyAll_round {context : KvmContext} (h : StoredContext context) {header : ProgramHeader}
    (hheader : header.WellFormed function) {pairs : List (Position × Position)}
    {buffers : List DataItem} {result : ContextType × List DataItem}
    (hok : copyAll function ((header.required, header.source) :: pairs) (.stored (.kvm context))
      buffers = .ok result) :
    ∃ after, PlacesSegment function context header after ∧
      copyAll function pairs (.stored (.kvm after)) (buffers ++ [⟨"", header.required, 0⟩])
        = .ok result := by
  have hpos := hheader.vaddr_pos
  rw [copyAll] at hok
  obtain ⟨data, hpart, hok⟩ := (bind_eq_ok_iff _ _ _).mp hok
  obtain ⟨hlength, hdata⟩ := filePart_ok hheader hpart
  obtain ⟨first, hfirst, hok⟩ := (bind_eq_ok_iff _ _ _).mp hok
  obtain ⟨hfits, written, rfl, hwritten⟩ := tryWrite_stored h hpos hfirst
  dsimp only at hok
  by_cases hpadded : header.source.size < header.required.size
  · rw [if_pos hpadded] at hok
    obtain ⟨start, hstart, hok⟩ := (bind_eq_ok_iff _ _ _).mp hok
    obtain ⟨-, rfl⟩ := Usize.add_eq_ok_iff.mp hstart
    obtain ⟨second, hsecond, hok⟩ := (bind_eq_ok_iff _ _ _).mp hok
    obtain ⟨hfits', after, rfl, hzeros⟩ := tryWrite_stored hwritten.stored
      (Nat.lt_add_right _ hpos) hsecond
    exact ⟨after, placesSegment_padded hlength hdata hwritten hpadded hzeros hfits', hok⟩
  · rw [if_neg hpadded] at hok
    exact ⟨written, placesSegment_full hheader hlength hdata hwritten hpadded hfits, hok⟩

theorem Placed.kept {context after : KvmContext} {header other : ProgramHeader}
    (h : Placed function context other) (hplaces : PlacesSegment function context header after)
    (hdisjoint : other.DisjointFrom header) : Placed function after other := by
  have hround := roundDownToPage_le other.pVaddr
  have hnext := le_nextPage (other.pVaddr + other.pMemsz)
  refine ⟨hplaces.grown h.pages, fun i hi => ?_, by rw [hplaces.length]; exact h.fits⟩
  have hone : OneEntry context (other.pVaddr + i) (other.pVaddr + i + 1) :=
    OneEntry.mono h.pages (by omega) (by omega)
  have hin : other.required.covers (other.pVaddr + i) := by
    unfold Position.covers ProgramHeader.required
    dsimp only
    omega
  rw [hplaces.kept hone fun hcovers => hdisjoint _ ⟨hin, hcovers⟩, h.bytes i hi]

theorem copyAll_places {segments : List ProgramHeader}
    (hsegments : ∀ header ∈ segments, header.WellFormed function)
    (hdisjoint : segments.Pairwise ProgramHeader.DisjointFrom) {context : KvmContext}
    (h : StoredContext context) {buffers : List DataItem} {after : ContextType}
    {buffers' : List DataItem} (done : List ProgramHeader)
    (hdone : ∀ header ∈ done, Placed function context header)
    (hapart : ∀ header ∈ done, ∀ other ∈ segments, header.DisjointFrom other)
    (hok : copyAll function (segments.map fun header => (header.required, header.source))
      (.stored (.kvm context)) buffers = .ok (after, buffers')) :
    ∃ placed, after = .stored (.kvm placed) ∧ StoredContext placed ∧
      (∀ header ∈ done ++ segments, Placed function placed header) ∧
      buffers' = buffers ++ segments.map fun header => ⟨"", header.required, 0⟩ := by
  induction segments generalizing context buffers done with
  | nil =>
    obtain ⟨rfl, rfl⟩ := Prod.mk.inj (Except.ok.inj hok)
    refine ⟨context, rfl, h, ?_, by simp⟩
    rw [List.append_nil]
    exact hdone
  | cons header segments ih =>
    rw [List.map_cons] at hok
    obtain ⟨next, hplaces, hok⟩ := copyAll_round h (hsegments header List.mem_cons_self) hok
    obtain ⟨hfirst, hrest⟩ := List.pairwise_cons.mp hdisjoint
    have hdone' : ∀ other ∈ done ++ [header], Placed function next other := by
      refine List.forall_mem_append.mpr ⟨fun other hother => ?_, ?_⟩
      · exact (hdone other hother).kept hplaces (hapart other hother header List.mem_cons_self)
      · exact List.forall_mem_singleton.mpr hplaces.placed
    have hapart' : ∀ other ∈ done ++ [header], ∀ later ∈ segments, other.DisjointFrom later := by
      refine List.forall_mem_append.mpr ⟨fun other hother later hlater => ?_, ?_⟩
      · exact hapart other hother later (List.mem_cons_of_mem _ hlater)
      · exact List.forall_mem_singleton.mpr hfirst
    obtain ⟨placed, hafter, hstored, hplaced, hbuffers⟩ :=
      ih (fun other hother => hsegments other (List.mem_cons_of_mem _ hother)) hrest hplaces.stored
        (done ++ [header]) hdone' hapart' hok
    refine ⟨placed, hafter, hstored, ?_, ?_⟩
    · rw [List.append_assoc] at hplaced
      exact hplaced
    · rw [hbuffers, List.append_assoc]
      rfl

theorem acquired_stored {contextSize : Nat} {acquired : Context}
    (hacquired : Acquired contextSize acquired) :
    ∃ context, acquired.context = .stored (.kvm context) ∧ StoredContext context ∧
      Valid context ∧ acquired.size = context.storage.length ∧
      acquired.occupation = clearedOccupation acquired.size := by
  obtain ⟨storage, hlength, hpool⟩ := hacquired
  have hpages : pageSize ∣ storage.length := by
    rw [hlength]
    exact Dvd.intro_left _ rfl
  have hle : storage.length ≤ Usize.isizeMax := by
    rw [hlength]
    unfold pageSize at hpool ⊢
    unfold Usize.isizeMax
    omega
  refine ⟨⟨OrderedMap.empty, storage⟩, rfl, ?_, ?_, rfl, rfl⟩
  · have hentries : StoredEntries [] :=
      ⟨List.forall_mem_nil _, List.forall_mem_nil _, List.forall_mem_nil _, .nil⟩
    exact ⟨hentries, List.forall_mem_nil _, hpages, hle⟩
  · exact valid_of_entries (List.forall_mem_nil _) (List.forall_mem_nil _) (List.forall_mem_nil _)
      hpages hle

theorem parseFunction_ok {acquireContext : Nat → DandelionResult Context}
    (hdomain : ∀ size context, acquireContext size = .ok context → Acquired size context)
    {programHeaderTable : List ProgramHeader}
    (hsegments : ∀ header ∈ loadedSegments programHeaderTable, header.WellFormed function)
    (hdisjoint : (loadedSegments programHeaderTable).Pairwise ProgramHeader.DisjointFrom)
    {parsed : Function} (hok : parseFunction acquireContext function programHeaderTable = .ok parsed) :
    parsed.staticRequirements = (loadedSegments programHeaderTable).map ProgramHeader.required ∧
      ∃ context, parsed.context.context = .stored (.kvm context) ∧ StoredContext context ∧
        (∀ header ∈ loadedSegments programHeaderTable, Placed function context header) ∧
        parsed.context.content = [some ⟨"static",
          (loadedSegments programHeaderTable).map fun header => ⟨"", header.required, 0⟩⟩] := by
  rw [parseFunction, getLayoutPair_eq] at hok
  obtain ⟨size, -, hok⟩ := (bind_eq_ok_iff _ _ _).mp hok
  obtain ⟨acquired, hacquire, hok⟩ := (bind_eq_ok_iff _ _ _).mp hok
  obtain ⟨⟨after, buffers⟩, hcopy, hok⟩ := (bind_eq_ok_iff _ _ _).mp hok
  cases hok
  obtain ⟨context, hcontext, hstored, -⟩ := acquired_stored (hdomain size acquired hacquire)
  rw [hcontext, List.zip_map'] at hcopy
  obtain ⟨placed, rfl, hplaced, hsegments', hbuffers⟩ := copyAll_places hsegments hdisjoint hstored
    [] (List.forall_mem_nil _) (List.forall_mem_nil _) hcopy
  exact ⟨rfl, placed, rfl, hplaced, hsegments', by rw [Context.withStatic, hbuffers]; rfl⟩

end KvmDriver

namespace MmuDriver

theorem tryWrite_mmu {storage : List UInt8} {offset : Nat} {data : List UInt8} {after : ContextType}
    (hok : ContextType.tryWrite (.stored (.mmu storage)) offset data = .ok after) :
    offset + data.length ≤ storage.length ∧
      after = .stored (.mmu (copyInto storage offset data)) := by
  rw [tryWrite_eq_ok_iff] at hok
  change Prod.map ContextType.stored id (DataContext.updated (.mmu storage)
    (DataContext.mmu <$> writeStorage storage offset data)) = _ at hok
  cases hwrite : writeStorage storage offset data with
  | error stop =>
    rw [hwrite] at hok
    cases hok
  | ok written =>
    rw [hwrite] at hok
    obtain ⟨rfl, -⟩ := Prod.mk.inj hok
    obtain ⟨writeEnd, hadd, hwrite⟩ := (bind_eq_ok_iff _ _ _).mp hwrite
    obtain ⟨-, rfl⟩ := Usize.add_eq_ok_iff.mp hadd
    split_ifs at hwrite with hbounds
    · cases hwrite
    · cases hwrite
      exact ⟨by omega, rfl⟩

/-- The item holds the part of the file that belongs to a segment. -/
structure Packed (function storage : List UInt8) (header : ProgramHeader) (item : DataItem) : Prop where
  size : item.data.size = header.pFilesz
  fits : item.data.offset + header.pFilesz ≤ storage.length
  bytes : ∀ i < header.pFilesz,
    storage[item.data.offset + i]? = function[header.pOffset + i]?

theorem copyAll_packs {segments : List ProgramHeader}
    (hsegments : ∀ header ∈ segments, header.WellFormed function) {storage : List UInt8}
    {writeCounter : Nat} {buffers : List DataItem} {after : ContextType} {buffers' : List DataItem}
    (hok : copyAll function (segments.map ProgramHeader.source) (.stored (.mmu storage)) writeCounter
      buffers = .ok (after, buffers')) :
    ∃ storage' items, after = .stored (.mmu storage') ∧ storage'.length = storage.length ∧
      buffers' = buffers ++ items ∧ List.Forall₂ (Packed function storage') segments items ∧
      ∀ o < writeCounter, storage'[o]? = storage[o]? := by
  induction segments generalizing storage writeCounter buffers with
  | nil =>
    obtain ⟨rfl, rfl⟩ := Prod.mk.inj (Except.ok.inj hok)
    exact ⟨storage, [], rfl, rfl, (List.append_nil _).symm, .nil, fun _ _ => rfl⟩
  | cons header segments ih =>
    rw [List.map_cons, copyAll] at hok
    obtain ⟨data, hpart, hok⟩ := (bind_eq_ok_iff _ _ _).mp hok
    obtain ⟨hlength, hdata⟩ := filePart_ok (hsegments header List.mem_cons_self) hpart
    obtain ⟨written, hwrite, hok⟩ := (bind_eq_ok_iff _ _ _).mp hok
    obtain ⟨hfits, rfl⟩ := tryWrite_mmu hwrite
    obtain ⟨nextCounter, hadd, hok⟩ := (bind_eq_ok_iff _ _ _).mp hok
    obtain ⟨-, rfl⟩ := Usize.add_eq_ok_iff.mp hadd
    dsimp only [ProgramHeader.source] at hok
    obtain ⟨storage', items, hafter, hlength', hbuffers, hpacked, hkept⟩ :=
      ih (fun other hother => hsegments other (List.mem_cons_of_mem _ hother)) hok
    rw [length_copyInto hfits] at hlength'
    refine ⟨storage', ⟨"", ⟨writeCounter, header.pFilesz⟩, 0⟩ :: items, hafter, hlength', ?_,
      .cons ⟨rfl, by dsimp only; omega, ?_⟩ hpacked, ?_⟩
    · rw [hbuffers, List.append_assoc]
      rfl
    · intro i hi
      dsimp only
      rw [hkept _ (by omega), getElem?_copyInto hfits, if_pos (by omega), Nat.add_sub_cancel_left,
        hdata i hi]
    · intro o ho
      rw [hkept o (by omega), getElem?_copyInto hfits, if_neg (by omega)]

theorem parseFunction_ok {acquireContext : Nat → DandelionResult Context}
    (hdomain : ∀ size context, acquireContext size = .ok context → MmuAcquired size context)
    {programHeaderTable : List ProgramHeader}
    (hsegments : ∀ header ∈ loadedSegments programHeaderTable, header.WellFormed function)
    {parsed : Function} (hok : parseFunction acquireContext function programHeaderTable = .ok parsed) :
    parsed.staticRequirements = (loadedSegments programHeaderTable).map ProgramHeader.required ∧
      ∃ storage items, parsed.context.context = .stored (.mmu storage) ∧
        List.Forall₂ (Packed function storage) (loadedSegments programHeaderTable) items ∧
        parsed.context.content = [some ⟨"static", items⟩] := by
  rw [parseFunction, getLayoutPair_eq] at hok
  obtain ⟨size, -, hok⟩ := (bind_eq_ok_iff _ _ _).mp hok
  obtain ⟨acquired, hacquire, hok⟩ := (bind_eq_ok_iff _ _ _).mp hok
  obtain ⟨⟨after, buffers⟩, hcopy, hok⟩ := (bind_eq_ok_iff _ _ _).mp hok
  cases hok
  obtain ⟨storage, hlength, hpool⟩ := hdomain size acquired hacquire
  obtain ⟨storage', items, rfl, -, hbuffers, hpacked, -⟩ := copyAll_packs hsegments hcopy
  exact ⟨rfl, storage', items, rfl, hpacked, by rw [Context.withStatic, hbuffers]; rfl⟩

end MmuDriver

end Dandelion
