import Dandelion.StaticImages

/-!
# Loading an image

`load_static` on the static contexts of both drivers. On KVM each segment is transferred from
where it was placed, and all of its bytes were written. On the MMU the parts of the file are
transferred, and the rest of a segment is memory that was zero before.
-/

namespace Dandelion

open Outcome KvmContext

variable {function : List UInt8}

theorem mem_loadedSegments {programHeaderTable : List ProgramHeader} {header : ProgramHeader}
    (hheader : header ∈ programHeaderTable) (htype : header.pType = 1) :
    header ∈ loadedSegments programHeaderTable :=
  List.mem_filter.mpr ⟨hheader, decide_eq_true htype⟩

theorem eq_of_covers {segments : List ProgramHeader}
    (hdisjoint : segments.Pairwise ProgramHeader.DisjointFrom) {header other : ProgramHeader}
    (hheader : header ∈ segments) (hother : other ∈ segments) {o : Nat}
    (hcovers : header.required.covers o) (hcovers' : other.required.covers o) : header = other := by
  have hsame : segments.Pairwise fun header other =>
      header.required.covers o → other.required.covers o → header = other :=
    hdisjoint.imp fun hnone hleft hright => absurd ⟨hleft, hright⟩ (hnone o)
  refine hsame.forall_of_forall_of_flip (fun _ _ _ _ => rfl) ?_ hheader hother hcovers hcovers'
  exact hdisjoint.imp fun hnone hright hleft => absurd ⟨hleft, hright⟩ (hnone o)

/-! ## The loop over the items -/

theorem loadItems_round {staticContext : Context} {item : DataItem} {requirement : Position}
    {pairs : List (DataItem × Position)} {context : ContextType} {maxEnd : Nat}
    {result : ContextType × Nat}
    (hok : loadItems staticContext ((item, requirement) :: pairs) context maxEnd = .ok result) :
    item.data.size ≤ requirement.size ∧ ∃ next,
      transferMemory context staticContext requirement.offset item.data.offset item.data.size
        = (next, .ok ()) ∧
      loadItems staticContext pairs next (max maxEnd (requirement.offset + requirement.size))
        = .ok result := by
  rw [loadItems] at hok
  split_ifs at hok with hsize
  · cases hok
  · cases htransfer : transferMemory context staticContext requirement.offset item.data.offset
        item.data.size with
    | mk next outcome =>
      rw [htransfer] at hok
      cases outcome with
      | error stop => cases hok
      | ok value =>
        obtain ⟨requirementEnd, hadd, hok⟩ := (bind_eq_ok_iff _ _ _).mp hok
        obtain ⟨-, rfl⟩ := Usize.add_eq_ok_iff.mp hadd
        exact ⟨Nat.le_of_not_lt hsize, next, rfl, hok⟩

theorem loadItems_maxEnd {staticContext : Context} {pairs : List (DataItem × Position)}
    {context after : ContextType} {maxEnd maxEnd' : Nat}
    (hok : loadItems staticContext pairs context maxEnd = .ok (after, maxEnd')) :
    maxEnd ≤ maxEnd' ∧ ∀ pair ∈ pairs, pair.2.offset + pair.2.size ≤ maxEnd' := by
  induction pairs generalizing context maxEnd with
  | nil =>
    obtain ⟨-, rfl⟩ := Prod.mk.inj (Except.ok.inj hok)
    exact ⟨Nat.le_refl _, List.forall_mem_nil _⟩
  | cons pair pairs ih =>
    obtain ⟨item, requirement⟩ := pair
    obtain ⟨-, next, -, hok⟩ := loadItems_round hok
    obtain ⟨hle, hpairs⟩ := ih hok
    exact ⟨by omega, List.forall_mem_cons.mpr ⟨by dsimp only; omega, hpairs⟩⟩

/-- What `load_static` returns: the context after the loop, with the required positions occupied. -/
theorem loadStatic_cases {acquired staticContext loaded : Context} {items : List DataItem}
    {staticRequirements : List Position} (hcontent : staticContext.content = [some ⟨"static", items⟩])
    (hlimit : acquired.size < Usize.limit)
    (hoccupation : acquired.occupation = clearedOccupation acquired.size)
    (hok : loadStatic acquired staticContext staticRequirements = .ok loaded) :
    ∃ maxEnd, loadItems staticContext (items.zip staticRequirements) acquired.context 0
        = .ok (loaded.context, maxEnd) ∧
      ∀ requirement ∈ staticRequirements, requirement.offset + requirement.size ≤ acquired.size ∧
        ∀ o, requirement.covers o → Occupied loaded.occupation o := by
  rw [loadStatic, hcontent] at hok
  dsimp only at hok
  split_ifs at hok with hcount
  · cases hok
  · obtain ⟨⟨context, maxEnd⟩, hitems, hok⟩ := (bind_eq_ok_iff _ _ _).mp hok
    obtain ⟨pageEnd, hadd, hok⟩ := (bind_eq_ok_iff _ _ _).mp hok
    obtain ⟨-, rfl⟩ := Usize.add_eq_ok_iff.mp hadd
    obtain ⟨occupation, hoccupy, hok⟩ := (bind_eq_ok_iff _ _ _).mp hok
    cases hok
    have hend := occupySpace_ok_le hoccupy
    rw [hoccupation] at hoccupy
    obtain ⟨-, hoccupied⟩ := occupySpace_cleared hlimit (Nat.one_dvd _) hoccupy
    obtain ⟨-, hends⟩ := loadItems_maxEnd hitems
    refine ⟨maxEnd, hitems, fun requirement hrequirement => ?_⟩
    have hzip : (items.zip staticRequirements).map Prod.snd = staticRequirements :=
      List.map_snd_zip (by omega)
    rw [← hzip] at hrequirement
    obtain ⟨pair, hpair, rfl⟩ := List.mem_map.mp hrequirement
    have hpairEnd := hends pair hpair
    refine ⟨by omega, fun o hcovers => hoccupied o ?_⟩
    have := hcovers.2
    omega

namespace KvmDriver

theorem Placed.view_eq {source : KvmContext} (hsource : StoredContext source) {header : ProgramHeader}
    (h : Placed function source header) {i : Nat} (hi : i < header.pMemsz) :
    source.view (header.pVaddr + i) = header.byte function i := by
  have hround := roundDownToPage_le header.pVaddr
  have hnext := le_nextPage (header.pVaddr + header.pMemsz)
  have hone : OneEntry source (header.pVaddr + i) (header.pVaddr + i + 1) :=
    OneEntry.mono h.pages (by omega) (by omega)
  rw [hone.view_eq hsource, h.bytes i hi]

theorem Placed.byte_isSome {source : KvmContext} {header : ProgramHeader}
    (h : Placed function source header) {i : Nat} (hi : i < header.pMemsz) :
    ∃ b, header.byte function i = some b := by
  have hfits := h.fits
  rw [← h.bytes i hi]
  exact ⟨_, List.getElem?_eq_getElem (by omega)⟩

theorem transferMemory_places {source : KvmContext} (hsource : StoredContext source)
    {staticContext : Context} (hstatic : staticContext.context = .stored (.kvm source))
    {header : ProgramHeader} (hplaced : Placed function source header) {destination : KvmContext}
    (hd : Valid destination) {next : ContextType}
    (htransfer : transferMemory (.stored (.kvm destination)) staticContext header.pVaddr header.pVaddr
      header.pMemsz = (next, .ok ())) :
    ∃ after, next = .stored (.kvm after) ∧ Valid after ∧
      Transferred destination after source.view header.pVaddr header.pVaddr header.pMemsz := by
  have hround := roundDownToPage_le header.pVaddr
  have hround' := roundDownToPage_le (header.pVaddr + header.pMemsz)
  have hnext := le_nextPage header.pVaddr
  have hnext' := le_nextPage (header.pVaddr + header.pMemsz)
  have hone : nextPage header.pVaddr < roundDownToPage (header.pVaddr + header.pMemsz) →
      OneEntry source (nextPage header.pVaddr)
        (roundDownToPage (header.pVaddr + header.pMemsz)) :=
    fun _ => OneEntry.mono hplaced.pages (by omega) (by omega)
  unfold transferMemory at htransfer
  rw [hstatic] at htransfer
  change Prod.map ContextType.stored id (Prod.map DataContext.kvm id
    (destination.transferInto (.kvm source) header.pVaddr header.pVaddr header.pMemsz)) = _ at htransfer
  obtain ⟨rfl, hok⟩ := Prod.mk.inj htransfer
  obtain ⟨hvalid, hmoved⟩ := transferInto_stored hsource hd hplaced.fits hone hok
  exact ⟨_, rfl, hvalid, hmoved⟩

/-- The loop puts each segment in its place, and keeps what is in other places. -/
theorem loadItems_places {source : KvmContext} (hsource : StoredContext source)
    {staticContext : Context} (hstatic : staticContext.context = .stored (.kvm source))
    {segments : List ProgramHeader} (hplaced : ∀ header ∈ segments, Placed function source header)
    (hdisjoint : segments.Pairwise ProgramHeader.DisjointFrom) {destination : KvmContext}
    (hd : Valid destination) {maxEnd maxEnd' : Nat} {after : ContextType}
    (hok : loadItems staticContext
      (segments.map fun header => (⟨"", header.required, 0⟩, header.required))
      (.stored (.kvm destination)) maxEnd = .ok (after, maxEnd')) :
    ∃ loaded, after = .stored (.kvm loaded) ∧
      (∀ o b, destination.view o = some b → (∀ header ∈ segments, ¬ header.required.covers o) →
        loaded.view o = some b) ∧
      ∀ header ∈ segments, ∀ i < header.pMemsz,
        loaded.view (header.pVaddr + i) = header.byte function i := by
  induction segments generalizing destination maxEnd with
  | nil =>
    obtain ⟨rfl, -⟩ := Prod.mk.inj (Except.ok.inj hok)
    exact ⟨destination, rfl, fun _ _ hb _ => hb, List.forall_mem_nil _⟩
  | cons header segments ih =>
    obtain ⟨hfirst, hrest⟩ := List.pairwise_cons.mp hdisjoint
    obtain ⟨hheader, hplaced⟩ := List.forall_mem_cons.mp hplaced
    rw [List.map_cons] at hok
    obtain ⟨-, next, htransfer, hok⟩ := loadItems_round hok
    obtain ⟨context, rfl, hvalid, hmoved⟩ := transferMemory_places hsource hstatic hheader hd htransfer
    obtain ⟨loaded, hafter, hkept, hbytes⟩ := ih hplaced hrest hvalid hok
    refine ⟨loaded, hafter, fun o b hb hout => ?_, List.forall_mem_cons.mpr ⟨fun i hi => ?_, hbytes⟩⟩
    · obtain ⟨hhead, htail⟩ := List.forall_mem_cons.mp hout
      exact hkept o b (hmoved.kept o b hhead hb) htail
    · obtain ⟨b, hb⟩ := hheader.byte_isSome hi
      have hcopied := hmoved.copied i hi
      rw [hheader.view_eq hsource hi, hb] at hcopied
      rw [hb]
      refine hkept _ b hcopied fun other hother hcovers => hfirst other hother _ ⟨?_, hcovers⟩
      unfold Position.covers ProgramHeader.required
      dsimp only
      omega

theorem holdsImage {programHeaderTable : List ProgramHeader}
    (hsegments : ∀ header ∈ loadedSegments programHeaderTable, header.WellFormed function)
    (hdisjoint : (loadedSegments programHeaderTable).Pairwise ProgramHeader.DisjointFrom)
    {acquireContext : Nat → DandelionResult Context}
    (hdomain : ∀ size context, acquireContext size = .ok context → Acquired size context)
    {parsed : Function} (hparse : parseFunction acquireContext function programHeaderTable = .ok parsed)
    {contextSize : Nat} {acquired loaded : Context} (hacquired : Acquired contextSize acquired)
    (hload : loadStatic acquired parsed.context parsed.staticRequirements = .ok loaded) :
    HoldsImage function programHeaderTable loaded := by
  obtain ⟨hrequirements, source, hstatic, hsource, hplaced, hcontent⟩ :=
    parseFunction_ok hdomain hsegments hdisjoint hparse
  obtain ⟨destination, hcontext, hstored, hd, hsize, hoccupation⟩ := acquired_stored hacquired
  have hlimit : acquired.size < Usize.limit := by
    have := hstored.storage_le
    unfold Usize.isizeMax at this
    unfold Usize.limit
    omega
  obtain ⟨maxEnd, hitems, hoccupied⟩ := loadStatic_cases hcontent hlimit hoccupation hload
  rw [hrequirements, List.zip_map', hcontext] at hitems
  rw [hrequirements] at hoccupied
  obtain ⟨image, hloaded, -, hbytes⟩ := loadItems_places hsource hstatic hplaced hdisjoint hd hitems
  have hview : ∀ header ∈ programHeaderTable, header.pType = 1 → ∀ i < header.pMemsz,
      loaded.byte (header.pVaddr + i) = header.byte function i := by
    intro header hheader htype i hi
    rw [Context.byte, hloaded]
    exact hbytes header (mem_loadedSegments hheader htype) i hi
  refine ⟨fun header hheader htype i hi => ?_, fun header hheader htype i hle hlt => ?_,
    fun header hheader htype o hcovers => ?_⟩
  · have hfilesz := (hsegments header (mem_loadedSegments hheader htype)).filesz_le
    rw [hview header hheader htype i (by omega), ProgramHeader.byte, if_pos hi]
  · rw [hview header hheader htype i hlt, ProgramHeader.byte, if_neg (by omega)]
  · have hmem := List.mem_map_of_mem (f := ProgramHeader.required) (mem_loadedSegments hheader htype)
    exact (hoccupied _ hmem).2 o hcovers

end KvmDriver

namespace MmuDriver

theorem transferMemory_copies {source storage : List UInt8} {staticContext : Context}
    (hstatic : staticContext.context = .stored (.mmu source))
    {destinationOffset sourceOffset size : Nat} {next : ContextType}
    (htransfer : transferMemory (.stored (.mmu storage)) staticContext destinationOffset sourceOffset
      size = (next, .ok ())) :
    sourceOffset + size ≤ source.length ∧ destinationOffset + size ≤ storage.length ∧
      next = .stored (.mmu
        (copyInto storage destinationOffset ((source.drop sourceOffset).take size))) := by
  unfold transferMemory at htransfer
  rw [hstatic] at htransfer
  change Prod.map ContextType.stored id (DataContext.updated (.mmu storage) (DataContext.mmu <$>
    storageTransfer storage source destinationOffset sourceOffset size)) = _ at htransfer
  cases hcopy : storageTransfer storage source destinationOffset sourceOffset size with
  | error stop =>
    rw [hcopy] at htransfer
    cases htransfer
  | ok copy =>
    rw [hcopy] at htransfer
    obtain ⟨rfl, -⟩ := Prod.mk.inj htransfer
    obtain ⟨sourceEnd, hadd, hcopy⟩ := (bind_eq_ok_iff _ _ _).mp hcopy
    obtain ⟨-, rfl⟩ := Usize.add_eq_ok_iff.mp hadd
    split_ifs at hcopy with hread
    · cases hcopy
    · obtain ⟨destinationEnd, hadd', hcopy⟩ := (bind_eq_ok_iff _ _ _).mp hcopy
      obtain ⟨-, rfl⟩ := Usize.add_eq_ok_iff.mp hadd'
      split_ifs at hcopy with hwrite
      · cases hcopy
      · cases hcopy
        exact ⟨by omega, by omega, rfl⟩

/-- The loop copies the parts of the file to the start of each segment. -/
theorem loadItems_copies {source : List UInt8} {staticContext : Context}
    (hstatic : staticContext.context = .stored (.mmu source)) {segments : List ProgramHeader}
    (hsegments : ∀ header ∈ segments, header.WellFormed function)
    (hdisjoint : segments.Pairwise ProgramHeader.DisjointFrom) {items : List DataItem}
    (hpacked : List.Forall₂ (Packed function source) segments items) {storage : List UInt8}
    {maxEnd maxEnd' : Nat} {after : ContextType}
    (hok : loadItems staticContext (items.zip (segments.map ProgramHeader.required))
      (.stored (.mmu storage)) maxEnd = .ok (after, maxEnd')) :
    ∃ storage', after = .stored (.mmu storage') ∧
      (∀ o, (∀ header ∈ segments, ¬ (header.pVaddr ≤ o ∧ o < header.pVaddr + header.pFilesz)) →
        storage'[o]? = storage[o]?) ∧
      ∀ header ∈ segments, ∀ i < header.pFilesz,
        storage'[header.pVaddr + i]? = function[header.pOffset + i]? := by
  induction hpacked generalizing storage maxEnd with
  | nil =>
    obtain ⟨rfl, -⟩ := Prod.mk.inj (Except.ok.inj hok)
    exact ⟨storage, rfl, fun _ _ => rfl, List.forall_mem_nil _⟩
  | @cons header item segments items hitem _ ih =>
    obtain ⟨hfirst, hrest⟩ := List.pairwise_cons.mp hdisjoint
    obtain ⟨hheader, hsegments⟩ := List.forall_mem_cons.mp hsegments
    rw [List.map_cons, List.zip_cons_cons] at hok
    obtain ⟨-, next, htransfer, hok⟩ := loadItems_round hok
    obtain ⟨hread, hwrite, rfl⟩ := transferMemory_copies hstatic htransfer
    obtain ⟨storage', hafter, hkept, hbytes⟩ := ih hsegments hrest hok
    dsimp only [ProgramHeader.required] at hwrite hkept
    rw [hitem.size] at hread hwrite hkept
    have hlength : ((source.drop item.data.offset).take header.pFilesz).length = header.pFilesz := by
      rw [List.length_take, List.length_drop]
      omega
    have hcopy : header.pVaddr + ((source.drop item.data.offset).take header.pFilesz).length ≤
        storage.length := by omega
    refine ⟨storage', hafter, fun o hout => ?_, List.forall_mem_cons.mpr ⟨fun i hi => ?_, hbytes⟩⟩
    · obtain ⟨hhead, htail⟩ := List.forall_mem_cons.mp hout
      rw [hkept o htail, getElem?_copyInto hcopy, hlength, if_neg hhead]
    · have hout : ∀ other ∈ segments, ¬ (other.pVaddr ≤ header.pVaddr + i ∧
          header.pVaddr + i < other.pVaddr + other.pFilesz) := by
        intro other hother hin
        have hle := hheader.filesz_le
        have hle' := (hsegments other hother).filesz_le
        refine hfirst other hother (header.pVaddr + i) ⟨?_, ?_⟩
        · exact ⟨Nat.le_add_right _ _, by dsimp only [ProgramHeader.required]; omega⟩
        · exact ⟨hin.1, by dsimp only [ProgramHeader.required]; omega⟩
      rw [hkept _ hout, getElem?_copyInto hcopy, hlength, if_pos (by omega), Nat.add_sub_cancel_left,
        List.getElem?_take, if_pos hi, List.getElem?_drop, hitem.bytes i hi]

/-- The image in a context of the MMU driver, whose memory was zero before. -/
theorem holdsImage {programHeaderTable : List ProgramHeader}
    (hsegments : ∀ header ∈ loadedSegments programHeaderTable, header.WellFormed function)
    (hdisjoint : (loadedSegments programHeaderTable).Pairwise ProgramHeader.DisjointFrom)
    {acquireContext : Nat → DandelionResult Context}
    (hdomain : ∀ size context, acquireContext size = .ok context → MmuAcquired size context)
    {parsed : Function} (hparse : parseFunction acquireContext function programHeaderTable = .ok parsed)
    {contextSize : Nat} {acquired loaded : Context} (hacquired : MmuAcquired contextSize acquired)
    (hzero : ∀ o b, acquired.byte o = some b → b = 0)
    (hload : loadStatic acquired parsed.context parsed.staticRequirements = .ok loaded) :
    HoldsImage function programHeaderTable loaded := by
  obtain ⟨hrequirements, source, items, hstatic, hpacked, hcontent⟩ :=
    parseFunction_ok hdomain hsegments hparse
  obtain ⟨storage, hlength, hpool⟩ := hacquired
  have hlimit : storage.length < Usize.limit := by
    rw [hlength]
    unfold slabSize at hpool ⊢
    unfold Usize.limit
    omega
  obtain ⟨maxEnd, hitems, hoccupied⟩ := loadStatic_cases hcontent hlimit rfl hload
  rw [hrequirements] at hitems hoccupied
  obtain ⟨image, hloaded, hkept, hbytes⟩ := loadItems_copies hstatic hsegments hdisjoint hpacked hitems
  refine ⟨fun header hheader htype i hi => ?_, fun header hheader htype i hle hlt => ?_,
    fun header hheader htype o hcovers => ?_⟩
  · rw [Context.byte, hloaded]
    exact hbytes header (mem_loadedSegments hheader htype) i hi
  · have hmem := mem_loadedSegments hheader htype
    have hfits : header.pVaddr + header.pMemsz ≤ storage.length :=
      (hoccupied _ (List.mem_map_of_mem hmem)).1
    have hout : ∀ other ∈ loadedSegments programHeaderTable, ¬ (other.pVaddr ≤ header.pVaddr + i ∧
        header.pVaddr + i < other.pVaddr + other.pFilesz) := by
      intro other hother hin
      have hle' := (hsegments other hother).filesz_le
      have hcovers : header.required.covers (header.pVaddr + i) :=
        ⟨Nat.le_add_right _ _, Nat.add_lt_add_left hlt _⟩
      have hcovers' : other.required.covers (header.pVaddr + i) :=
        ⟨hin.1, by dsimp only [ProgramHeader.required]; omega⟩
      obtain rfl := eq_of_covers hdisjoint hmem hother hcovers hcovers'
      omega
    have hbyte : storage[header.pVaddr + i]? = some storage[header.pVaddr + i] :=
      List.getElem?_eq_getElem (by omega)
    rw [Context.byte, hloaded]
    change image[header.pVaddr + i]? = some 0
    rw [hkept _ hout, hbyte, hzero _ _ hbyte]
  · have hmem := List.mem_map_of_mem (f := ProgramHeader.required) (mem_loadedSegments hheader htype)
    exact (hoccupied _ hmem).2 o hcovers

end MmuDriver

/-- Both drivers place the same image: each context that is loaded from a function they parsed holds
the parts of the file and zeros behind them, whatever was in the memory of the KVM domain before. -/
theorem loaders_holdImage {programHeaderTable : List ProgramHeader}
    (hsegments : ∀ header ∈ programHeaderTable, header.pType = 1 → header.WellFormed function)
    (hdisjoint : (loadedSegments programHeaderTable).Pairwise ProgramHeader.DisjointFrom) :
    (∀ acquireContext parsed contextSize acquired loaded,
      (∀ size context, acquireContext size = .ok context → KvmDriver.Acquired size context) →
      KvmDriver.parseFunction acquireContext function programHeaderTable = .ok parsed →
      KvmDriver.Acquired contextSize acquired →
      loadStatic acquired parsed.context parsed.staticRequirements = .ok loaded →
      HoldsImage function programHeaderTable loaded) ∧
    ∀ acquireContext parsed contextSize acquired loaded,
      (∀ size context, acquireContext size = .ok context → MmuAcquired size context) →
      MmuDriver.parseFunction acquireContext function programHeaderTable = .ok parsed →
      MmuAcquired contextSize acquired → (∀ o b, acquired.byte o = some b → b = 0) →
      loadStatic acquired parsed.context parsed.staticRequirements = .ok loaded →
      HoldsImage function programHeaderTable loaded := by
  have hloaded : ∀ header ∈ loadedSegments programHeaderTable, header.WellFormed function := by
    intro header hheader
    obtain ⟨hmem, htype⟩ := List.mem_filter.mp hheader
    exact hsegments header hmem (of_decide_eq_true htype)
  constructor
  · intro acquireContext parsed contextSize acquired loaded hdomain hparse hacquired hload
    exact KvmDriver.holdsImage hloaded hdisjoint hdomain hparse hacquired hload
  · intro acquireContext parsed contextSize acquired loaded hdomain hparse hacquired hzero hload
    exact MmuDriver.holdsImage hloaded hdisjoint hdomain hparse hacquired hzero hload

section Shared

theorem exists_ok_of_isOk {α : Type} {result : DandelionResult α} (h : result.isOk = true) :
    ∃ a, result = .ok a := by
  cases result with
  | ok a => exact ⟨a, rfl⟩
  | error stop => cases h

/-- Two segments that share a page, the first one with a byte behind its part of the file. -/
def sharedPage : List ProgramHeader := [⟨1, 0, 1, 1, 2⟩, ⟨1, 1, 4, 1, 1⟩]

theorem sharedPage_wellFormed :
    (∀ header ∈ sharedPage, header.pType = 1 → header.WellFormed [7, 8]) ∧
      (loadedSegments sharedPage).Pairwise ProgramHeader.DisjointFrom := by
  have hloaded : loadedSegments sharedPage = sharedPage := by decide
  refine ⟨List.forall_mem_cons.mpr ⟨fun _ => ⟨by decide, by decide, by decide⟩,
    List.forall_mem_singleton.mpr fun _ => ⟨by decide, by decide, by decide⟩⟩, ?_⟩
  rw [hloaded]
  refine List.pairwise_pair.mpr fun o ho => ?_
  unfold Position.covers ProgramHeader.required at ho
  dsimp only at ho
  omega

def acquirePage (size : Nat) : DandelionResult Context :=
  if size ≤ 4096 then
    let storage := List.replicate ((size + pageSize - 1) / pageSize * pageSize) 9
    pure (Context.new (.stored (.kvm ⟨OrderedMap.empty, storage⟩)) storage.length)
  else fail (.domainError .reachedCapacity)

theorem acquirePage_ok {size : Nat} {context : Context} (hok : acquirePage size = .ok context) :
    KvmDriver.Acquired size context := by
  unfold acquirePage at hok
  split_ifs at hok with hsize
  · cases hok
    exact ⟨_, List.length_replicate, by unfold pageSize; omega⟩
  · cases hok

theorem sharedPage_loads : (do
    let parsed ← KvmDriver.parseFunction acquirePage [7, 8] sharedPage
    let acquired ← acquirePage 5
    loadStatic acquired parsed.context parsed.staticRequirements).isOk = true := by
  decide +kernel

def acquireSlab (size : Nat) : DandelionResult Context :=
  if 0 < size ∧ size ≤ slabSize then
    pure (Context.new (.stored (.mmu (List.replicate slabSize 0))) slabSize)
  else fail (.domainError .reachedCapacity)

theorem acquireSlab_ok {size : Nat} {context : Context} (hok : acquireSlab size = .ok context) :
    MmuAcquired size context ∧ ∀ o b, context.byte o = some b → b = 0 := by
  unfold acquireSlab at hok
  split_ifs at hok with hsize
  · obtain rfl := Except.ok.inj hok
    have hlength : (List.replicate slabSize (0 : UInt8)).length = slabSize := List.length_replicate
    refine ⟨?_, fun o b hb => List.eq_of_mem_replicate (List.mem_of_getElem? hb)⟩
    nth_rewrite 2 [← hlength]
    refine ⟨_, ?_, ?_⟩
    · rw [hlength]
      unfold slabSize at hsize ⊢
      omega
    · unfold slabSize at hsize ⊢
      omega
  · cases hok

theorem tryWrite_slab {storage : List UInt8} (hlength : storage.length = slabSize) {offset : Nat}
    {data : List UInt8} (hfits : offset + data.length ≤ slabSize) :
    ContextType.tryWrite (.stored (.mmu storage)) offset data
      = .ok (.stored (.mmu (copyInto storage offset data))) := by
  rw [tryWrite_eq_ok_iff]
  change Prod.map ContextType.stored id (DataContext.updated (.mmu storage)
    (DataContext.mmu <$> writeStorage storage offset data)) = _
  rw [writeStorage_eq (by rw [hlength]; decide) (by rw [hlength]; exact hfits)]
  rfl

theorem transferMemory_slab {source storage : List UInt8} (hsource : source.length = slabSize)
    (hlength : storage.length = slabSize) {staticContext : Context}
    (hstatic : staticContext.context = .stored (.mmu source)) {destinationOffset sourceOffset size : Nat}
    (hread : sourceOffset + size ≤ slabSize) (hwrite : destinationOffset + size ≤ slabSize) :
    transferMemory (.stored (.mmu storage)) staticContext destinationOffset sourceOffset size
      = (.stored (.mmu (copyInto storage destinationOffset ((source.drop sourceOffset).take size))),
        .ok ()) := by
  have hslab : slabSize < Usize.limit := by decide
  have hcopy : storageTransfer storage source destinationOffset sourceOffset size
      = .ok (copyInto storage destinationOffset ((source.drop sourceOffset).take size)) := by
    rw [storageTransfer, Usize.add_eq_ok (by omega), ok_bind, if_neg (by omega),
      Usize.add_eq_ok (by omega), ok_bind, if_neg (by omega)]
    rfl
  unfold transferMemory
  rw [hstatic]
  change Prod.map ContextType.stored id (DataContext.updated (.mmu storage) (DataContext.mmu <$>
    storageTransfer storage source destinationOffset sourceOffset size)) = _
  rw [hcopy]
  rfl

theorem sharedPage_packs {storage : List UInt8} (hlength : storage.length = slabSize) :
    MmuDriver.copyAll [7, 8] [⟨0, 1⟩, ⟨1, 1⟩] (.stored (.mmu storage)) 0 []
      = .ok (.stored (.mmu (copyInto (copyInto storage 0 [7]) 1 [8])),
        [⟨"", ⟨0, 1⟩, 0⟩, ⟨"", ⟨1, 1⟩, 0⟩]) := by
  have hfirst : filePart [7, 8] ⟨0, 1⟩ = .ok [7] := by decide
  have hsecond : filePart [7, 8] ⟨1, 1⟩ = .ok [8] := by decide
  have hlength' : (copyInto storage 0 [7]).length = slabSize := by
    rw [length_copyInto (by rw [hlength]; decide), hlength]
  rw [MmuDriver.copyAll, hfirst, ok_bind, tryWrite_slab hlength (by decide), ok_bind,
    Usize.add_eq_ok (by decide), ok_bind, MmuDriver.copyAll, hsecond, ok_bind,
    tryWrite_slab hlength' (by decide), ok_bind, Usize.add_eq_ok (by decide), ok_bind]
  rfl

theorem sharedPage_copies (staticContext : Context) {source storage : List UInt8}
    (hsource : source.length = slabSize) (hlength : storage.length = slabSize)
    (hstatic : staticContext.context = .stored (.mmu source))
    (hcontent : staticContext.content
      = [some ⟨"static", [⟨"", ⟨0, 1⟩, 0⟩, ⟨"", ⟨1, 1⟩, 0⟩]⟩]) :
    ∃ loaded, loadStatic (Context.new (.stored (.mmu storage)) slabSize) staticContext
      [⟨1, 2⟩, ⟨4, 1⟩] = .ok loaded := by
  have hfirst := transferMemory_slab hsource hlength hstatic
    (show 0 + 1 ≤ slabSize by decide) (show 1 + 1 ≤ slabSize by decide)
  have hlength' : (copyInto storage 1 ((source.drop 0).take 1)).length = slabSize := by
    rw [length_copyInto, hlength]
    rw [List.length_take, List.length_drop, hsource, hlength]
    decide
  have hsecond := transferMemory_slab hsource hlength' hstatic
    (show 1 + 1 ≤ slabSize by decide) (show 4 + 1 ≤ slabSize by decide)
  have hitems : loadItems staticContext [(⟨"", ⟨0, 1⟩, 0⟩, ⟨1, 2⟩), (⟨"", ⟨1, 1⟩, 0⟩, ⟨4, 1⟩)]
      (.stored (.mmu storage)) 0 = .ok (.stored (.mmu (copyInto (copyInto storage 1
        ((source.drop 0).take 1)) 4 ((source.drop 1).take 1))), 5) := by
    rw [loadItems, if_neg (by decide)]
    dsimp only
    rw [hfirst]
    dsimp only
    rw [Usize.add_eq_ok (by decide), ok_bind, loadItems, if_neg (by decide)]
    dsimp only
    rw [hsecond]
    rfl
  have hoccupy : ∃ occupation, occupySpace .checked slabSize (clearedOccupation slabSize) 0 4096
      = .ok occupation := ⟨[⟨0, 4096⟩, ⟨slabSize, 0⟩], by decide +kernel⟩
  obtain ⟨occupation, hoccupy⟩ := hoccupy
  rw [loadStatic, hcontent]
  dsimp only
  rw [if_neg (by decide)]
  change ∃ loaded, (loadItems staticContext
    [(⟨"", ⟨0, 1⟩, 0⟩, ⟨1, 2⟩), (⟨"", ⟨1, 1⟩, 0⟩, ⟨4, 1⟩)] (.stored (.mmu storage)) 0 >>= _) = _
  rw [hitems, ok_bind]
  dsimp only
  rw [Usize.add_eq_ok (by decide), ok_bind]
  change ∃ loaded, (occupySpace .checked slabSize (clearedOccupation slabSize) 0 4096 >>= _) = _
  rw [hoccupy, ok_bind]
  exact ⟨_, rfl⟩

/-- Both drivers load the two segments. -/
theorem sharedPage_images : ∃ kvmLoaded mmuLoaded,
    HoldsImage [7, 8] sharedPage kvmLoaded ∧ HoldsImage [7, 8] sharedPage mmuLoaded := by
  obtain ⟨hsegments, hdisjoint⟩ := sharedPage_wellFormed
  obtain ⟨hkvm, hmmu⟩ := loaders_holdImage hsegments hdisjoint
  obtain ⟨kvmLoaded, hkvmLoads⟩ := exists_ok_of_isOk sharedPage_loads
  obtain ⟨kvmParsed, hkvmParse, hkvmLoads⟩ := (bind_eq_ok_iff _ _ _).mp hkvmLoads
  obtain ⟨kvmAcquired, hkvmAcquire, hkvmLoads⟩ := (bind_eq_ok_iff _ _ _).mp hkvmLoads
  refine ⟨kvmLoaded, ?_⟩
  have hkvmImage := hkvm acquirePage kvmParsed 5 kvmAcquired kvmLoaded
    (fun _ _ hok => acquirePage_ok hok) hkvmParse (acquirePage_ok hkvmAcquire) hkvmLoads
  have hlength : (List.replicate slabSize (0 : UInt8)).length = slabSize := List.length_replicate
  have hacquire (size : Nat) (hsize : 0 < size ∧ size ≤ slabSize) : acquireSlab size
      = .ok (Context.new (.stored (.mmu (List.replicate slabSize 0))) slabSize) := if_pos hsize
  have hpacked : (copyInto (copyInto (List.replicate slabSize (0 : UInt8)) 0 [7]) 1 [8]).length
      = slabSize := by
    rw [length_copyInto, length_copyInto, hlength]
    · rw [hlength]
      decide
    · rw [length_copyInto, hlength]
      · decide
      · rw [hlength]
        decide
  have hmmuParse : MmuDriver.parseFunction acquireSlab [7, 8] sharedPage = .ok
      ⟨[⟨1, 2⟩, ⟨4, 1⟩], (Context.new (.stored (.mmu (List.replicate slabSize 0))) slabSize).withStatic
        (.stored (.mmu (copyInto (copyInto (List.replicate slabSize 0) 0 [7]) 1 [8])))
        [⟨"", ⟨0, 1⟩, 0⟩, ⟨"", ⟨1, 1⟩, 0⟩]⟩ := by
    have hlayout : getLayoutPair sharedPage = ([⟨1, 2⟩, ⟨4, 1⟩], [⟨0, 1⟩, ⟨1, 1⟩]) := by decide
    have htotal : MmuDriver.totalSize [⟨0, 1⟩, ⟨1, 1⟩] 0 = .ok 2 := by decide
    rw [MmuDriver.parseFunction, hlayout]
    dsimp only
    rw [htotal, ok_bind, hacquire 2 (by decide), ok_bind]
    change (MmuDriver.copyAll [7, 8] [⟨0, 1⟩, ⟨1, 1⟩] (.stored (.mmu (List.replicate slabSize 0))) 0 []
      >>= _) = _
    rw [sharedPage_packs hlength, ok_bind]
    rfl
  obtain ⟨mmuLoaded, hmmuLoads⟩ := sharedPage_copies
    ((Context.new (.stored (.mmu (List.replicate slabSize 0))) slabSize).withStatic
      (.stored (.mmu (copyInto (copyInto (List.replicate slabSize 0) 0 [7]) 1 [8])))
      [⟨"", ⟨0, 1⟩, 0⟩, ⟨"", ⟨1, 1⟩, 0⟩]) hpacked hlength rfl rfl
  obtain ⟨hacquired, hzero⟩ := acquireSlab_ok (hacquire 5 (by decide))
  exact ⟨mmuLoaded, hkvmImage, hmmu acquireSlab _ 5 _ mmuLoaded (fun _ _ hok => (acquireSlab_ok hok).1)
    hmmuParse hacquired hzero hmmuLoads⟩

end Shared

end Dandelion
