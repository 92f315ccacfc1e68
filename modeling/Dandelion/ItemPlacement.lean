import Dandelion.ContextValidity
import Dandelion.PageTables

/-!
# Placement of zero copy items

Before a function runs, the loop of `run` over the overlay maps the pages of other contexts to
the end of the storage, one block for each entry with an item. A block is as far from the next
large page as the range it is for, and the next block comes before it.
-/

open Outcome Segments

namespace Dandelion.Kvm

open KvmContext

/-- Where the pages of a remappable context are: the file and the first page in it. -/
structure PoolPages where
  fd : Int
  rangepoolStart : Nat

/-- A call of `mmap`. -/
structure MapCall where
  address : Nat
  size : Nat
  fd : Int
  fileOffset : Nat

/-- The variables of the loop, and the calls of `mmap` so far. -/
structure Placement where
  stackStart : Nat
  mappings : List PresentRange
  calls : List MapCall

/-- `mappig_start` for a range: at the end of what is free, after padding. -/
def blockStart (stackStart overlayStart overlaySize : Nat) : DandelionResult Nat := do
  let mappingStart ← Usize.sub .checked stackStart overlaySize
  let virtualLarge ← Usize.nextMultipleOf .checked overlayStart largePage
  let virtualLargeOffset := virtualLarge - overlayStart
  let mappingLarge ← Usize.nextMultipleOf .checked mappingStart largePage
  let mappingLargeOffset := mappingLarge - mappingStart
  let additionalOffset :=
    if mappingLargeOffset ≤ virtualLargeOffset then virtualLargeOffset - mappingLargeOffset
    else virtualLargeOffset + largePage - mappingLargeOffset
  Usize.sub .checked mappingStart additionalOffset

theorem nextMultipleOf_ok {n m unit : Nat} (hunit : 0 < unit)
    (h : (Usize.nextMultipleOf .checked n unit : DandelionResult Nat) = .ok m) :
    n ≤ m ∧ m % unit = 0 ∧ m - n < unit := by
  have hmod := Nat.mod_lt n hunit
  rw [Usize.nextMultipleOf, if_neg (Nat.pos_iff_ne_zero.mp hunit)] at h
  by_cases hzero : n % unit = 0
  · rw [if_pos hzero] at h
    cases h
    exact ⟨Nat.le_refl n, hzero, by omega⟩
  · rw [if_neg hzero] at h
    obtain ⟨-, rfl⟩ := Usize.add_eq_ok_iff.mp h
    refine ⟨by omega, ?_, by omega⟩
    have heq : n + (unit - n % unit) = unit * (n / unit + 1) := by
      have := Nat.div_add_mod n unit
      rw [Nat.mul_add, Nat.mul_one]
      omega
    rw [heq, Nat.mul_mod_right]

/-- The block ends at or below what was free, and is placed like its range in a large page. -/
theorem blockStart_ok {stackStart overlayStart overlaySize block : Nat}
    (h : blockStart stackStart overlayStart overlaySize = .ok block) :
    block + overlaySize ≤ stackStart ∧ block % largePage = overlayStart % largePage := by
  obtain ⟨mappingStart, hmapping, h⟩ := (bind_eq_ok_iff _ _ _).mp h
  obtain ⟨virtualLarge, hvirtual, h⟩ := (bind_eq_ok_iff _ _ _).mp h
  obtain ⟨mappingLarge, hlarge, h⟩ := (bind_eq_ok_iff _ _ _).mp h
  have hfree := Usize.sub_eq_ok_iff.mp hmapping
  have hblock := Usize.sub_eq_ok_iff.mp h
  obtain ⟨hv, hvmod, hvlt⟩ := nextMultipleOf_ok (by decide) hvirtual
  obtain ⟨hm, hmmod, hmlt⟩ := nextMultipleOf_ok (by decide) hlarge
  unfold largePage at *
  split_ifs at hblock with hle
  · omega
  · omega

theorem dvd_of_mod_largePage {block start : Nat} (h : block % largePage = start % largePage)
    (hstart : pageSize ∣ start) : pageSize ∣ block := by
  unfold pageSize largePage at *
  omega

section Loop

variable (pages : ContextRef → Option PoolPages) (mmap : MapCall → DandelionResult Unit)
  (storageAddress : Nat)

/-- One entry of the overlay; a context that cannot be remapped panics, as does a failed `mmap`. -/
def placeEntry (placement : Placement) (entry : OverlayEntry) : DandelionResult Placement :=
  let (overlayEnd, overlayStart, overlayItem) := entry
  match overlayItem with
  | none =>
    pure { placement with mappings := placement.mappings ++ [(overlayStart, overlayEnd, none)] }
  | some item =>
    match pages item.context with
    | none => crash
    | some source => do
      let distance ← Usize.sub .checked overlayEnd overlayStart
      let overlaySize ← Usize.add .checked distance 1
      let stackStart ← blockStart placement.stackStart overlayStart overlaySize
      let address ← Usize.add .checked storageAddress stackStart
      let firstByte ← Usize.mul .checked source.rangepoolStart pageSize
      let fileOffset ← Usize.add .checked firstByte item.offset
      let call := ⟨address, overlaySize, source.fd, fileOffset⟩
      mmap call
      pure { stackStart,
             mappings := placement.mappings ++ [(overlayStart, overlayEnd, some stackStart)],
             calls := placement.calls ++ [call] }

def placeItems (storageLength : Nat) (overlay : Overlay) : DandelionResult Placement :=
  overlay.entries.foldlM (placeEntry pages mmap storageAddress) ⟨storageLength, [], []⟩

/-- The blocks of some entries, one below the other, with the mappings and calls for them. -/
inductive Laid : List OverlayEntry → Nat → List PresentRange → List MapCall → Nat → Prop
  | nil (top : Nat) : Laid [] top [] [] top
  | present {entries : List OverlayEntry} {top bottom : Nat} {mappings : List PresentRange}
      {calls : List MapCall} (last start : Nat) (rest : Laid entries top mappings calls bottom) :
      Laid ((last, start, none) :: entries) top ((start, last, none) :: mappings) calls bottom
  | block {entries : List OverlayEntry} {top block bottom : Nat} {mappings : List PresentRange}
      {calls : List MapCall} {last start : Nat} {item : OverlayItem} {source : PoolPages}
      (hsource : pages item.context = some source) (hle : start ≤ last)
      (hfits : block + (last + 1 - start) ≤ top) (hlarge : block % largePage = start % largePage)
      (rest : Laid entries block mappings calls bottom) :
      Laid ((last, start, some item) :: entries) top ((start, last, some block) :: mappings)
        (⟨storageAddress + block, last + 1 - start, source.fd,
          source.rangepoolStart * pageSize + item.offset⟩ :: calls) bottom

section Run

variable {pages mmap storageAddress}

/-- One round puts a block, if the entry has an item, at the end of what was free. -/
theorem placeEntry_ok {placement placed : Placement} {last start : Nat} {item : Option OverlayItem}
    (h : placeEntry pages mmap storageAddress placement (last, start, item) = .ok placed) :
    (item = none ∧ placed = { placement with
      mappings := placement.mappings ++ [(start, last, none)] }) ∨
    ∃ it source, item = some it ∧ pages it.context = some source ∧ start ≤ last ∧
      placed.stackStart + (last + 1 - start) ≤ placement.stackStart ∧
      placed.stackStart % largePage = start % largePage ∧
      placed.mappings = placement.mappings ++ [(start, last, some placed.stackStart)] ∧
      placed.calls = placement.calls ++ [⟨storageAddress + placed.stackStart, last + 1 - start,
        source.fd, source.rangepoolStart * pageSize + it.offset⟩] := by
  cases item with
  | none =>
    cases h
    exact .inl ⟨rfl, rfl⟩
  | some item =>
    right
    unfold placeEntry at h
    dsimp only at h
    cases hsource : pages item.context with
    | none =>
      rw [hsource] at h
      cases h
    | some source =>
      rw [hsource] at h
      obtain ⟨distance, hdistance, h⟩ := (bind_eq_ok_iff _ _ _).mp h
      obtain ⟨overlaySize, hsize, h⟩ := (bind_eq_ok_iff _ _ _).mp h
      obtain ⟨block, hblock, h⟩ := (bind_eq_ok_iff _ _ _).mp h
      obtain ⟨address, haddress, h⟩ := (bind_eq_ok_iff _ _ _).mp h
      obtain ⟨firstByte, hfirst, h⟩ := (bind_eq_ok_iff _ _ _).mp h
      obtain ⟨fileOffset, hoffset, h⟩ := (bind_eq_ok_iff _ _ _).mp h
      obtain ⟨⟨⟩, -, h⟩ := (bind_eq_ok_iff _ _ _).mp h
      cases h
      have hdist := Usize.sub_eq_ok_iff.mp hdistance
      obtain ⟨-, rfl⟩ := Usize.add_eq_ok_iff.mp hsize
      obtain ⟨-, rfl⟩ := Usize.add_eq_ok_iff.mp haddress
      obtain ⟨-, rfl⟩ := Usize.add_eq_ok_iff.mp hoffset
      obtain rfl := Usize.mul_eq_ok_iff.mp hfirst |>.2
      have hspan : distance + 1 = last + 1 - start := by omega
      rw [hspan] at hblock ⊢
      obtain ⟨hfits, hlarge⟩ := blockStart_ok hblock
      exact ⟨item, source, rfl, hsource, by omega, hfits, hlarge, rfl, rfl⟩

theorem laid_of_foldlM {entries : List OverlayEntry} {placement placed : Placement}
    (h : entries.foldlM (placeEntry pages mmap storageAddress) placement = .ok placed) :
    ∃ mappings calls, placed.mappings = placement.mappings ++ mappings ∧
      placed.calls = placement.calls ++ calls ∧
      Laid pages storageAddress entries placement.stackStart mappings calls placed.stackStart := by
  induction entries generalizing placement with
  | nil =>
    cases h
    exact ⟨[], [], (List.append_nil _).symm, (List.append_nil _).symm, .nil _⟩
  | cons entry entries ih =>
    obtain ⟨last, start, item⟩ := entry
    rw [List.foldlM_cons] at h
    obtain ⟨next, hentry, h⟩ := (bind_eq_ok_iff _ _ _).mp h
    obtain ⟨mappings, calls, hmappings, hcalls, hlaid⟩ := ih h
    rcases placeEntry_ok hentry with
        ⟨rfl, rfl⟩ | ⟨it, source, rfl, hsource, hle, hfits, hlarge, hmap, hcall⟩
    · exact ⟨(start, last, none) :: mappings, calls, by rw [hmappings, List.append_assoc]; rfl,
        hcalls, .present last start hlaid⟩
    · rw [hmap, List.append_assoc] at hmappings
      rw [hcall, List.append_assoc] at hcalls
      exact ⟨_, _, hmappings, hcalls, .block hsource hle hfits hlarge hlaid⟩

end Run

section Blocks

variable {pages storageAddress} {entries : List OverlayEntry} {top bottom : Nat}
  {mappings : List PresentRange} {calls : List MapCall}
  (h : Laid pages storageAddress entries top mappings calls bottom)
include h

theorem Laid.bottom_le : bottom ≤ top := by
  induction h with
  | nil top => exact Nat.le_refl top
  | present last start rest ih => exact ih
  | block hsource hle hfits hlarge rest ih => omega

theorem Laid.ranges : mappings.map (fun mapping => (mapping.1, mapping.2.1, mapping.2.2.isSome)) =
    entries.map fun entry => (entry.2.1, entry.1, entry.2.2.isSome) := by
  induction h with
  | nil top => rfl
  | present last start rest ih => exact congrArg (List.cons _) ih
  | block hsource hle hfits hlarge rest ih => exact congrArg (List.cons _) ih

/-- What holds of the range of each entry holds of the range of each mapping. -/
theorem Laid.forall_ranges {P : Nat → Nat → Prop} (hP : ∀ entry ∈ entries, P entry.2.1 entry.1) :
    ∀ mapping ∈ mappings, P mapping.1 mapping.2.1 := by
  intro mapping hmem
  have hmap := List.mem_map_of_mem (f := fun mapping : PresentRange =>
    (mapping.1, mapping.2.1, mapping.2.2.isSome)) hmem
  rw [h.ranges] at hmap
  obtain ⟨entry, hentry, heq⟩ := List.mem_map.mp hmap
  have hranges := hP entry hentry
  rw [(Prod.mk.inj heq).1, (Prod.mk.inj (Prod.mk.inj heq).2).1] at hranges
  exact hranges

theorem Laid.ascending (hentries : entries.Pairwise fun entry entry' => entry.1 < entry'.2.1) :
    mappings.Pairwise fun mapping mapping' => mapping.2.1 < mapping'.1 := by
  have hmap : (mappings.map fun mapping => (mapping.1, mapping.2.1, mapping.2.2.isSome)).Pairwise
      fun range range' => range.2.1 < range'.1 := by
    rw [h.ranges, List.pairwise_map]
    exact hentries
  exact List.pairwise_map.mp hmap

theorem Laid.blocks : ∀ mapping ∈ mappings, ∀ block, mapping.2.2 = some block →
    bottom ≤ block ∧ block + (mapping.2.1 + 1 - mapping.1) ≤ top ∧
      block % largePage = mapping.1 % largePage := by
  induction h with
  | nil top => exact fun mapping hmem => absurd hmem List.not_mem_nil
  | present last start rest ih =>
    intro mapping hmem block hblock
    rcases List.mem_cons.mp hmem with rfl | hmem
    · cases hblock
    · exact ih mapping hmem block hblock
  | block hsource hle hfits hlarge rest ih =>
    intro mapping hmem block hblock
    rcases List.mem_cons.mp hmem with rfl | hmem
    · cases hblock
      exact ⟨rest.bottom_le, hfits, hlarge⟩
    · obtain ⟨hbottom, hend, hmod⟩ := ih mapping hmem block hblock
      exact ⟨hbottom, by omega, hmod⟩

theorem Laid.bottom_aligned (htop : pageSize ∣ top)
    (hstart : ∀ entry ∈ entries, pageSize ∣ entry.2.1) : pageSize ∣ bottom := by
  induction h with
  | nil top => exact htop
  | present last start rest ih =>
    exact ih htop fun entry hentry => hstart entry (List.mem_cons_of_mem _ hentry)
  | block hsource hle hfits hlarge rest ih =>
    exact ih (dvd_of_mod_largePage hlarge (hstart _ List.mem_cons_self))
      fun entry hentry => hstart entry (List.mem_cons_of_mem _ hentry)

theorem Laid.descending : mappings.Pairwise fun mapping mapping' => ∀ block block',
    mapping.2.2 = some block → mapping'.2.2 = some block' →
      block' + (mapping'.2.1 + 1 - mapping'.1) ≤ block := by
  induction h with
  | nil top => exact List.Pairwise.nil
  | present last start rest ih =>
    refine List.pairwise_cons.mpr ⟨fun mapping _ block block' hblock => ?_, ih⟩
    cases hblock
  | block hsource hle hfits hlarge rest ih =>
    refine List.pairwise_cons.mpr ⟨fun mapping hmem block block' hblock hblock' => ?_, ih⟩
    cases hblock
    exact (rest.blocks mapping hmem block' hblock').2.1

theorem Laid.calls_eq : calls.map (fun call => (call.address, call.size)) =
    mappings.filterMap fun mapping => mapping.2.2.map fun block =>
      (storageAddress + block, mapping.2.1 + 1 - mapping.1) := by
  induction h with
  | nil top => rfl
  | present last start rest ih => exact ih
  | block hsource hle hfits hlarge rest ih => exact congrArg (List.cons _) ih

end Blocks

end Loop

theorem pairwise_entries {overlay : Overlay} (h : Separate overlay) :
    overlay.entries.Pairwise fun entry entry' => entry.1 < entry'.2.1 := by
  have hget : ∀ entry ∈ overlay.entries, overlay.get? entry.1 = some (entry.2.1, entry.2.2) :=
    fun entry hentry => (OrderedMap.get?_eq_some_iff _ _ _).mpr hentry
  exact overlay.sorted.imp_of_mem fun hentry hentry' hlt =>
    h.apart (hget _ hentry) (hget _ hentry') hlt

/-- The blocks of the entries with an item are page aligned, have the size of their entry, do not
overlap, lie between the final start of the stack and the end of the storage, and are placed
like their range in a large page; there is one mapping for each entry, in ascending order. -/
theorem placeItems_separate {pages : ContextRef → Option PoolPages}
    {mmap : MapCall → DandelionResult Unit} {storageAddress storageLength : Nat} {overlay : Overlay}
    {placement : Placement} (hseparate : Separate overlay)
    (haligned : ∀ {last start item}, overlay.get? last = some (start, item) →
      pageSize ∣ start ∧ pageSize ∣ last + 1)
    (hstorage : pageSize ∣ storageLength)
    (hplace : placeItems pages mmap storageAddress storageLength overlay = .ok placement) :
    (∀ mapping ∈ placement.mappings, ∀ block, mapping.2.2 = some block →
      pageSize ∣ block ∧ placement.stackStart ≤ block ∧
        block + (mapping.2.1 + 1 - mapping.1) ≤ storageLength ∧
        block % largePage = mapping.1 % largePage) ∧
    placement.calls.map (fun call => (call.address, call.size)) =
      (placement.mappings.filterMap fun mapping => mapping.2.2.map fun block =>
        (storageAddress + block, mapping.2.1 + 1 - mapping.1)) ∧
    (placement.mappings.Pairwise fun mapping mapping' => ∀ block block',
      mapping.2.2 = some block → mapping'.2.2 = some block' →
        block' + (mapping'.2.1 + 1 - mapping'.1) ≤ block) ∧
    placement.mappings.map (fun mapping => (mapping.1, mapping.2.1, mapping.2.2.isSome)) =
      overlay.entries.map (fun entry => (entry.2.1, entry.1, entry.2.2.isSome)) ∧
    (∀ mapping ∈ placement.mappings, mapping.1 ≤ mapping.2.1) ∧
    (placement.mappings.Pairwise fun mapping mapping' => mapping.2.1 < mapping'.1) ∧
    pageSize ∣ placement.stackStart := by
  obtain ⟨mappings, calls, hmappings, hcalls, hlaid⟩ := laid_of_foldlM hplace
  rw [List.nil_append] at hmappings hcalls
  have hget : ∀ entry ∈ overlay.entries, overlay.get? entry.1 = some (entry.2.1, entry.2.2) :=
    fun entry hentry => (OrderedMap.get?_eq_some_iff _ _ _).mpr hentry
  have hstart := hlaid.forall_ranges (P := fun start _ => pageSize ∣ start)
    fun entry hentry => (haligned (hget entry hentry)).1
  rw [hmappings, hcalls]
  refine ⟨fun mapping hmem block hblock => ?_, hlaid.calls_eq, hlaid.descending, hlaid.ranges,
    hlaid.forall_ranges fun entry hentry => hseparate.pos (hget entry hentry),
    hlaid.ascending (pairwise_entries hseparate), ?_⟩
  · obtain ⟨hbottom, hend, hlarge⟩ := hlaid.blocks mapping hmem block hblock
    exact ⟨dvd_of_mod_largePage hlarge (hstart mapping hmem), hbottom, hend, hlarge⟩
  · exact hlaid.bottom_aligned hstorage fun entry hentry => (haligned (hget entry hentry)).1

/-- Two entries with an item and one in the storage between them. -/
def sharedOverlay : Overlay :=
  ⟨[(8191, 4096, some ⟨toRef ⟨.empty, []⟩, 0⟩), (12287, 8192, none),
    (20479, 12288, some ⟨toRef ⟨.empty, []⟩, 8192⟩)], by simp⟩

theorem sharedOverlay_cases {last start : Nat} {item : Option OverlayItem}
    (h : sharedOverlay.get? last = some (start, item)) :
    (last = 8191 ∧ start = 4096) ∨ (last = 12287 ∧ start = 8192) ∨ (last = 20479 ∧ start = 12288) := by
  have hmem := (OrderedMap.get?_eq_some_iff _ _ _).mp h
  simp only [sharedOverlay, List.mem_cons, Prod.mk.injEq, List.not_mem_nil, or_false] at hmem
  tauto

theorem sharedOverlay_separate : Separate sharedOverlay := by
  constructor
  · intro last start item hget
    have := sharedOverlay_cases hget
    omega
  · intro last start item last' start' item' hget hget' hlt
    have := sharedOverlay_cases hget
    have := sharedOverlay_cases hget'
    omega

/-- The first block is in the last large page, the second one in the large page before. -/
def sharedPlacement : Placement where
  stackStart := 12595200
  mappings := [(4096, 8191, some 14684160), (8192, 12287, none), (12288, 20479, some 12595200)]
  calls := [⟨4309651456, 4096, 3, 40960⟩, ⟨4307562496, 8192, 3, 49152⟩]

theorem sharedOverlay_placed : placeItems (fun _ => some ⟨3, 10⟩) (fun _ => .ok ()) 4294967296
    16777216 sharedOverlay = .ok sharedPlacement := rfl

theorem sharedPlacement_separate :
    (∀ mapping ∈ sharedPlacement.mappings, ∀ block, mapping.2.2 = some block →
      pageSize ∣ block ∧ 12595200 ≤ block ∧ block + (mapping.2.1 + 1 - mapping.1) ≤ 16777216 ∧
        block % largePage = mapping.1 % largePage) ∧
    (sharedPlacement.mappings.Pairwise fun mapping mapping' => ∀ block block',
      mapping.2.2 = some block → mapping'.2.2 = some block' →
        block' + (mapping'.2.1 + 1 - mapping'.1) ≤ block) := by
  have haligned : ∀ {last start item}, sharedOverlay.get? last = some (start, item) →
      pageSize ∣ start ∧ pageSize ∣ last + 1 := by
    intro last start item hget
    have := sharedOverlay_cases hget
    unfold pageSize
    omega
  obtain ⟨hblocks, -, hdescending, -⟩ :=
    placeItems_separate sharedOverlay_separate haligned (by decide) sharedOverlay_placed
  exact ⟨hblocks, hdescending⟩

end Dandelion.Kvm
