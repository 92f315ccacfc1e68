import Dandelion.AddressSpace
import Dandelion.AllocationLimits
import Dandelion.InterruptTables
import Dandelion.ItemPlacement
import Dandelion.KvmReads

/-!
# The layout of a context for a virtual machine

What `run` puts into the storage before the function starts, from the end down: the blocks of the
zero copy items, the pages of the handlers, the page tables and the stack. The checks for room come
after the addresses have been computed, so a context that is too small underflows before it can
be rejected.
-/

open Outcome Segments

namespace Dandelion.Kvm

open KvmContext

/-- The machine before its first instruction. -/
structure VcpuState where
  memory : Words
  registers : InterruptRegisters
  cr3 : Nat
  rip : Nat
  rsp : Nat
  rbp : Nat
  rflags : Nat

/-- `init_vcpu` -/
def initVcpu (handlers : FaultHandlers) (entryPoint : Nat) (guestMem : GuestMem)
    (initializedPages : List PresentRange) (stackPointer lastAddress : Nat) :
    DandelionResult (VcpuState × PageFaultMetadata) := do
  let interruptEnd := stackPointer
  let (guestMem, registers, interruptStart) ← setInterruptTable handlers guestMem stackPointer
  let (memory, cr3, metadata) ← setPageTable guestMem.words initializedPages interruptStart
    (interruptStart, interruptEnd) lastAddress
  let rsp ← Usize.sub .checked metadata.stackStart 32
  pure ({ memory, registers, cr3, rip := entryPoint, rsp, rbp := rsp, rflags := 2 }, metadata)

/-- The layout of `run`: the placement of the items, the machine, and the check of the stack.
`guestMem` is the storage after the items have been mapped; the end of the heap, which is written
into it before the check, is left out. -/
def layoutContext (pages : ContextRef → Option PoolPages) (mmap : MapCall → DandelionResult Unit)
    (storageAddress : Nat) (handlers : FaultHandlers) (entryPoint : Nat) (guestMem : GuestMem)
    (overlay : Overlay) (minStackStart : Nat) : DandelionResult (VcpuState × Nat) := do
  let placement ← placeItems pages mmap storageAddress guestMem.length overlay
  let (state, metadata) ← initVcpu handlers entryPoint guestMem placement.mappings
    placement.stackStart guestMem.length
  let stackStart := metadata.stackStart
  if stackAccepted minStackStart stackStart then pure (state, stackStart)
  else fail (.userError .smallContext)

/-! ## Room for the items -/

/-- Where the block of a range starts, as a number that may be below zero. -/
def blockBottom (top : Int) (start size : Nat) : Int :=
  top - size - (top - size - start) % largePage

/-- Where the last block of some entries starts, as a number that may be below zero. -/
def itemsBottom : List OverlayEntry → Int → Int
  | [], top => top
  | (_, _, none) :: entries, top => itemsBottom entries top
  | (last, start, some _) :: entries, top =>
    itemsBottom entries (blockBottom top start (last + 1 - start))

/-- Where the page tables start, as a number that may be below zero: below the blocks are two pages
for the handlers, the p4 and the p3 table, and 513 pages for each p2 table with its p1 tables. -/
def tableBottom (overlay : Overlay) (length : Nat) : Int :=
  itemsBottom overlay.entries length - 4 * pageSize - 513 * pageSize * p2TableNumber length

section Room

theorem blockBottom_le (top : Int) (start size : Nat) : blockBottom top start size ≤ top - size := by
  have := Int.emod_nonneg (top - size - start) (show (largePage : Int) ≠ 0 by decide)
  unfold blockBottom
  omega

theorem itemsBottom_le (entries : List OverlayEntry) (top : Int) : itemsBottom entries top ≤ top := by
  induction entries generalizing top with
  | nil => exact Int.le_refl top
  | cons entry entries ih =>
    obtain ⟨last, start, item⟩ := entry
    cases item with
    | none => exact ih top
    | some item =>
      have := ih (blockBottom top start (last + 1 - start))
      have := blockBottom_le top start (last + 1 - start)
      rw [itemsBottom]
      omega

theorem nextMultipleOf_eq_ok' (n : Nat) {unit : Nat} (hunit : 0 < unit) (hlimit : n + unit < Usize.limit) :
    ∃ m, (Usize.nextMultipleOf .checked n unit : DandelionResult Nat) = .ok m := by
  rw [Usize.nextMultipleOf, if_neg (Nat.pos_iff_ne_zero.mp hunit)]
  split
  · exact ⟨n, rfl⟩
  · exact ⟨_, Usize.add_eq_ok (by omega)⟩

theorem blockStart_cases {top start : Nat} (size : Nat) (htop : top + largePage < Usize.limit)
    (hstart : start + largePage < Usize.limit) :
    (blockBottom top start size < 0 ∧ blockStart top start size = crash) ∨
      ∃ block, blockStart top start size = .ok block ∧ (block : Int) = blockBottom top start size := by
  by_cases hsize : top < size
  · refine .inl ⟨?_, ?_⟩
    · have := blockBottom_le top start size
      omega
    · rw [blockStart, Usize.sub_eq_crash hsize]
      rfl
  · obtain ⟨virtualLarge, hvirtual⟩ := nextMultipleOf_eq_ok' start (by decide) hstart
    obtain ⟨mappingLarge, hmapping⟩ :=
      nextMultipleOf_eq_ok' (top - size) (show 0 < largePage by decide) (by omega)
    obtain ⟨hv, hvmod, hvlt⟩ := nextMultipleOf_ok (by decide) hvirtual
    obtain ⟨hm, hmmod, hmlt⟩ := nextMultipleOf_ok (by decide) hmapping
    have hcall : blockStart top start size = Usize.sub .checked (top - size)
        (if mappingLarge - (top - size) ≤ virtualLarge - start then
          virtualLarge - start - (mappingLarge - (top - size))
        else virtualLarge - start + largePage - (mappingLarge - (top - size))) := by
      rw [blockStart, Usize.sub_eq_ok (by omega), ok_bind, hvirtual, ok_bind, hmapping, ok_bind]
    rw [hcall]
    generalize hadditional : (if mappingLarge - (top - size) ≤ virtualLarge - start then
      virtualLarge - start - (mappingLarge - (top - size))
      else virtualLarge - start + largePage - (mappingLarge - (top - size))) = additional
    have hbottom : blockBottom top start size = (top - size : Nat) - (additional : Int) := by
      rw [← hadditional]
      unfold blockBottom largePage at *
      split_ifs
      · omega
      · omega
    by_cases hle : additional ≤ top - size
    · exact .inr ⟨_, Usize.sub_eq_ok hle, by omega⟩
    · exact .inl ⟨by omega, Usize.sub_eq_crash (by omega)⟩

variable {pages : ContextRef → Option PoolPages} {mmap : MapCall → DandelionResult Unit}
  {storageAddress length : Nat}

/-- The contexts of the items can be mapped, from pages with 32 bit numbers, and `mmap` does so;
the storage has addresses. -/
structure Mappable (pages : ContextRef → Option PoolPages) (mmap : MapCall → DandelionResult Unit)
    (storageAddress length : Nat) (entries : List OverlayEntry) : Prop where
  source : ∀ entry ∈ entries, ∀ item, entry.2.2 = some item →
    ∃ source, pages item.context = some source ∧ source.rangepoolStart < 2 ^ 32
  mapped : ∀ call, mmap call = .ok ()
  storage : storageAddress + length ≤ Usize.limit

theorem Mappable.tail {entry : OverlayEntry} {entries : List OverlayEntry}
    (h : Mappable pages mmap storageAddress length (entry :: entries)) :
    Mappable pages mmap storageAddress length entries :=
  ⟨fun e he => h.source e (List.mem_cons_of_mem _ he), h.mapped, h.storage⟩

/-- The loop over the overlay goes through if there is room for all blocks. -/
theorem placeEntries_cases {entries : List OverlayEntry}
    (h : Mappable pages mmap storageAddress length entries)
    (hentries : ∀ entry ∈ entries, entry.2.1 ≤ entry.1 ∧ entry.1 < 2 ^ 39)
    (hoffsets : ∀ entry ∈ entries, ∀ item, entry.2.2 = some item → item.offset ≤ Usize.isizeMax)
    (hlength : length < 2 ^ 39) (placement : Placement) (htop : placement.stackStart ≤ length) :
    (itemsBottom entries placement.stackStart < 0 ∧
        entries.foldlM (placeEntry pages mmap storageAddress) placement = crash) ∨
      ∃ placed, entries.foldlM (placeEntry pages mmap storageAddress) placement = .ok placed ∧
        (placed.stackStart : Int) = itemsBottom entries placement.stackStart := by
  induction entries generalizing placement with
  | nil => exact .inr ⟨placement, rfl, rfl⟩
  | cons entry entries ih =>
    obtain ⟨last, start, item⟩ := entry
    obtain ⟨hle, hlast⟩ := hentries _ List.mem_cons_self
    have hrest := fun e he => hentries e (List.mem_cons_of_mem _ he)
    have hoffsets' := fun e he => hoffsets e (List.mem_cons_of_mem _ he)
    rw [List.foldlM_cons]
    cases item with
    | none =>
      exact ih h.tail hrest hoffsets'
        { placement with mappings := placement.mappings ++ [(start, last, none)] } htop
    | some item =>
      obtain ⟨source, hsource, hpool⟩ := h.source _ List.mem_cons_self item rfl
      have hoffset := hoffsets _ List.mem_cons_self item rfl
      have hstorage := h.storage
      have hfile : source.rangepoolStart * pageSize + item.offset < Usize.limit := by
        unfold pageSize Usize.isizeMax Usize.limit at *
        omega
      dsimp only at hle hlast
      rw [itemsBottom, placeEntry]
      dsimp only
      rw [hsource]
      dsimp only
      rw [Usize.sub_eq_ok hle, ok_bind, Usize.add_eq_ok (by unfold Usize.limit; omega), ok_bind,
        show last - start + 1 = last + 1 - start by omega]
      have htopLimit : placement.stackStart + largePage < Usize.limit := by
        unfold Usize.limit largePage
        omega
      have hstartLimit : start + largePage < Usize.limit := by
        unfold Usize.limit largePage
        omega
      rcases blockStart_cases (last + 1 - start) htopLimit hstartLimit with
          ⟨hbottom, hblock⟩ | ⟨block, hblock, hbottom⟩
      · have := itemsBottom_le entries (blockBottom placement.stackStart start (last + 1 - start))
        refine .inl ⟨by omega, ?_⟩
        rw [hblock]
        rfl
      · have := blockBottom_le placement.stackStart start (last + 1 - start)
        rw [hblock, ok_bind, Usize.add_eq_ok (by omega), ok_bind, Usize.mul_eq_ok (by omega),
          ok_bind, Usize.add_eq_ok hfile, ok_bind, h.mapped, ok_bind, ← hbottom]
        exact ih h.tail hrest hoffsets' ⟨block, _, _⟩ (by dsimp only; omega)

end Room

/-! ## Room for the tables -/

theorem checkPresent_cases (stackStart : Nat) (ranges : List PresentRange) :
    checkPresent stackStart ranges = .ok () ∨
      (ranges ≠ [] ∧ checkPresent stackStart ranges = fail .contextFull) := by
  rw [checkPresent]
  cases hlast : ranges.getLast? with
  | none => exact .inl rfl
  | some range =>
    have hne : ranges ≠ [] := by
      rintro rfl
      cases hlast
    dsimp only
    split
    · exact .inr ⟨hne, rfl⟩
    · exact .inl rfl

section Tables

variable {ranges : List PresentRange} {stackStart lastAddress : Nat} {interruptRange : Nat × Nat}

/-- `set_page_table` underflows if there is no room for the tables. -/
theorem setPageTable_eq_crash (words : Words) (hlast : lastAddress < 2 ^ 39)
    (hroom : stackStart < 513 * pageSize * p2TableNumber lastAddress + 2 * pageSize) :
    setPageTable words ranges stackStart interruptRange lastAddress = crash := by
  have hbytes : (p2TableNumber lastAddress + p2TableNumber lastAddress * tableSize) * pageSize =
      513 * pageSize * p2TableNumber lastAddress := by
    unfold tableSize
    ring
  unfold setPageTable
  by_cases hp4 : stackStart < pageSize
  · rw [Usize.sub_eq_crash hp4]
    rfl
  rw [Usize.sub_eq_ok (by omega), ok_bind]
  by_cases hp3 : stackStart - pageSize < pageSize
  · rw [Usize.sub_eq_crash hp3]
    rfl
  rw [Usize.sub_eq_ok (by omega), ok_bind, if_neg (not_not.mpr hlast)]
  change (Usize.sub .checked (stackStart - pageSize - pageSize)
    ((p2TableNumber lastAddress + p2TableNumber lastAddress * tableSize) * pageSize) >>= _) = _
  rw [hbytes, Usize.sub_eq_crash (by omega)]
  rfl

/-- With room for the tables it ends with them, or with the report that a range reaches into
them. -/
theorem setPageTable_cases (hpromised : Promised ranges stackStart interruptRange lastAddress)
    (words : Words) (hmemory : stackStart ≤ 8 * words.length) (hlast : lastAddress < 2 ^ 39)
    {base : Nat} (hroom : stackStart = base + 513 * pageSize * p2TableNumber lastAddress + 2 * pageSize) :
    (ranges ≠ [] ∧
        setPageTable words ranges stackStart interruptRange lastAddress = fail .contextFull) ∨
      (∀ range ∈ ranges, range.2.1 < base) ∧ ∃ memory cr3 metadata,
        setPageTable words ranges stackStart interruptRange lastAddress =
          .ok (memory, cr3, metadata) ∧ metadata.stackStart = base := by
  obtain ⟨L, hL⟩ := hpromised.describes hlast hroom
  have htables : L.tables = p2TableNumber (4096 * L.last) := by rw [hL.last_eq, hL.tables_eq]
  have hlast' : 4096 * L.last < 2 ^ 39 := by rwa [hL.last_eq]
  have hstack := hL.stack_eq
  have hp4 : L.p4 + 1 ≤ words.length / 512 := by omega
  rw [← hL.stack_eq, ← hL.interrupt_eq, ← hL.last_eq]
  rcases checkPresent_cases base ranges with hcheck | ⟨hne, hcheck⟩
  · have hends := ends_of_ascending hcheck (fun range h => (hpromised.range_aligned range h).2.2)
      hpromised.ascending
    obtain ⟨memory, hcall, -⟩ := setPageTable_layout (L := L) words htables hlast' hp4 hL.placed
      hpromised.ascending (by rw [hL.base_eq]; exact hends)
    exact .inr ⟨hends, memory, _, _, hcall, hL.base_eq⟩
  · obtain ⟨p4Table, p3Table, T₀, -, -, -, -, -, hcall⟩ :=
      setPageTable_linked (L := L) words htables hlast' hp4
    refine .inl ⟨hne, ?_⟩
    rw [hcall, hL.base_eq, hcheck]
    rfl

end Tables

/-! ## The whole layout -/

/-- The tables start above zero; at zero only a range that reaches into them is reported. -/
def HasRoom (overlay : Overlay) (length : Nat) : Prop :=
  0 < tableBottom overlay length ∨ tableBottom overlay length = 0 ∧ overlay.entries ≠ []

/-- The outcome is a layout whose stack is above the items and the entries of the overlay, or a
report that the context is too small. -/
def Rejecting (overlay : Overlay) (minStackStart : Nat)
    (x : DandelionResult (VcpuState × Nat)) : Prop :=
  (∃ state stackStart, x = .ok (state, stackStart) ∧ minStackStart < stackStart ∧
    ∀ entry ∈ overlay.entries, entry.1 < stackStart) ∨
  x = fail .contextFull ∨ x = fail (.userError .smallContext)

theorem not_rejecting_crash (overlay : Overlay) (minStackStart : Nat) :
    ¬ Rejecting overlay minStackStart crash := by
  rintro (⟨state, stackStart, heq, -⟩ | heq | heq)
  · cases heq
  · cases heq
  · cases heq

section Whole

variable {pages : ContextRef → Option PoolPages} {mmap : MapCall → DandelionResult Unit}
  {storageAddress : Nat} {overlay : Overlay} {length : Nat} {placement : Placement}

/-- The placement keeps what it promises to `set_page_table`. -/
theorem placement_promised (hvalid : ValidOverlay length overlay) (hpages : pageSize ∣ length)
    (hplace : placeItems pages mmap storageAddress length overlay = .ok placement)
    (hroom : 2 * pageSize ≤ placement.stackStart) (hle : placement.stackStart ≤ length) :
    Promised placement.mappings (placement.stackStart - 2 * pageSize)
      (placement.stackStart - 2 * pageSize, placement.stackStart) length := by
  obtain ⟨mappings, calls, hmappings, hcalls, hlaid⟩ := laid_of_foldlM hplace
  rw [List.nil_append] at hmappings hcalls
  have hget : ∀ entry ∈ overlay.entries, overlay.get? entry.1 = some (entry.2.1, entry.2.2) :=
    fun entry hentry => (OrderedMap.get?_eq_some_iff _ _ _).mpr hentry
  have haligned := hlaid.forall_ranges
    (P := fun start last => pageSize ∣ start ∧ pageSize ∣ last + 1 ∧ start ≤ last)
    fun entry hentry => ⟨(hvalid.aligned (hget entry hentry)).1,
      (hvalid.aligned (hget entry hentry)).2, hvalid.separate.pos (hget entry hentry)⟩
  have hbottom := hlaid.bottom_aligned hpages
    fun entry hentry => (hvalid.aligned (hget entry hentry)).1
  rw [hmappings]
  unfold pageSize at *
  refine ⟨by omega, ⟨by dsimp only; omega, by dsimp only; omega⟩, by omega, Nat.le_refl _,
    Nat.sub_le _ _, hle, fun range hrange => ?_, hlaid.ascending (pairwise_entries hvalid.separate),
    fun range hrange block hblock => ?_⟩
  · obtain ⟨hstart, hend, hrangeLe⟩ := haligned range hrange
    omega
  · obtain ⟨hmin, hmax, hlarge⟩ := hlaid.blocks range hrange block hblock
    exact ⟨hlarge, hmin, hmax⟩

theorem entries_lt (hplace : placeItems pages mmap storageAddress length overlay = .ok placement)
    {base : Nat} (h : ∀ range ∈ placement.mappings, range.2.1 < base) :
    ∀ entry ∈ overlay.entries, entry.1 < base := by
  obtain ⟨mappings, calls, hmappings, -, hlaid⟩ := laid_of_foldlM hplace
  rw [List.nil_append] at hmappings
  intro entry hentry
  have hmap := List.mem_map_of_mem (f := fun entry : OverlayEntry =>
    (entry.2.1, entry.1, entry.2.2.isSome)) hentry
  rw [← hlaid.ranges, ← hmappings] at hmap
  obtain ⟨range, hrange, heq⟩ := List.mem_map.mp hmap
  rw [← (Prod.mk.inj (Prod.mk.inj heq).2).1]
  exact h range hrange

theorem mappings_eq_nil (hplace : placeItems pages mmap storageAddress length overlay = .ok placement)
    (h : overlay.entries = []) : placement.mappings = [] := by
  rw [placeItems, h] at hplace
  cases hplace
  rfl

variable {handlers : FaultHandlers} (hhandlers : handlers.OnePage) (entryPoint : Nat)
  {guestMem : GuestMem}

include hhandlers

/-- `init_vcpu` behind the placement: it underflows without room, and else ends with tables above
zero or with a report. -/
theorem initVcpu_cases (hvalid : ValidOverlay guestMem.length overlay)
    (hpages : pageSize ∣ guestMem.length) (hsize : guestMem.length < 2 ^ 39)
    (hplace : placeItems pages mmap storageAddress guestMem.length overlay = .ok placement)
    (hle : placement.stackStart ≤ guestMem.length)
    (hbottom : (placement.stackStart : Int) = itemsBottom overlay.entries guestMem.length) :
    (¬ HasRoom overlay guestMem.length ∧ initVcpu handlers entryPoint guestMem placement.mappings
        placement.stackStart guestMem.length = crash) ∨
      HasRoom overlay guestMem.length ∧
        (initVcpu handlers entryPoint guestMem placement.mappings placement.stackStart
            guestMem.length = fail .contextFull ∨
          ∃ state metadata, initVcpu handlers entryPoint guestMem placement.mappings
              placement.stackStart guestMem.length = .ok (state, metadata) ∧
            ∀ entry ∈ overlay.entries, entry.1 < metadata.stackStart) := by
  have htables : tableBottom overlay guestMem.length = (placement.stackStart : Int) - 4 * pageSize -
      513 * pageSize * p2TableNumber guestMem.length := by
    rw [tableBottom, hbottom]
  by_cases hinterrupt : placement.stackStart < 2 * pageSize
  · refine .inl ⟨?_, ?_⟩
    · unfold HasRoom pageSize at *
      omega
    · rw [initVcpu, setInterruptTable_eq_crash hhandlers hle hinterrupt]
      rfl
  obtain ⟨mem, hcall, hlength⟩ := setInterruptTable_eq_ok hhandlers hle (Nat.le_of_not_lt hinterrupt)
  rw [initVcpu, hcall, ok_bind]
  dsimp only
  by_cases htable : placement.stackStart - 2 * pageSize <
      513 * pageSize * p2TableNumber guestMem.length + 2 * pageSize
  · refine .inl ⟨?_, ?_⟩
    · unfold HasRoom pageSize at *
      omega
    · rw [setPageTable_eq_crash mem.words hsize htable]
      rfl
  -- the tables start at `base`, and this is at the start of a page
  obtain ⟨base, hbase⟩ := Nat.exists_eq_add_of_le' (Nat.le_of_not_lt htable)
  rw [← Nat.add_assoc] at hbase
  have hpromised := placement_promised hvalid hpages hplace (Nat.le_of_not_lt hinterrupt) hle
  have hwords : placement.stackStart - 2 * pageSize ≤ 8 * mem.words.length := by
    change _ ≤ 8 * (mem.length / 8)
    rw [hlength]
    unfold pageSize at *
    omega
  have hbottom' : tableBottom overlay guestMem.length = base := by
    unfold pageSize at *
    omega
  have haligned : base % 4096 = 0 := by
    have := hpromised.stack_aligned
    unfold pageSize at *
    omega
  rcases setPageTable_cases hpromised mem.words hwords hsize hbase with
      ⟨hne, htables'⟩ | ⟨hends, memory, cr3, metadata, htables', hstack⟩
  · have hentries : overlay.entries ≠ [] := fun heq => hne (mappings_eq_nil hplace heq)
    refine .inr ⟨?_, .inl ?_⟩
    · rcases Nat.eq_zero_or_pos base with hzero | hpos
      · exact .inr ⟨by omega, hentries⟩
      · exact .inl (by omega)
    · rw [htables']
      rfl
  · have hlt := entries_lt hplace hends
    rw [htables', ok_bind]
    dsimp only
    rw [hstack]
    by_cases hzero : base = 0
    · have hentries : overlay.entries = [] := by
        rw [List.eq_nil_iff_forall_not_mem]
        intro entry hentry
        have := hlt entry hentry
        omega
      refine .inl ⟨?_, ?_⟩
      · rintro (hpos | ⟨-, hne⟩)
        · omega
        · exact hne hentries
      · rw [Usize.sub_eq_crash (by omega)]
        rfl
    · rw [Usize.sub_eq_ok (by omega), ok_bind]
      exact .inr ⟨.inl (by omega), .inr ⟨_, metadata, rfl, by rwa [hstack]⟩⟩

/-- The layout is computed, or the context is rejected as too small, exactly when the page tables,
the pages of the handlers and the blocks with their padding have room in the context; otherwise
an address goes below zero and the call panics. -/
theorem layoutContext_iff {minStackStart : Nat} (hvalid : ValidOverlay guestMem.length overlay)
    (hpages : pageSize ∣ guestMem.length) (hsize : guestMem.length < 2 ^ 39)
    (hmappable : Mappable pages mmap storageAddress guestMem.length overlay.entries) :
    Rejecting overlay minStackStart (layoutContext pages mmap storageAddress handlers entryPoint
      guestMem overlay minStackStart) ↔ HasRoom overlay guestMem.length := by
  have hget : ∀ entry ∈ overlay.entries, overlay.get? entry.1 = some (entry.2.1, entry.2.2) :=
    fun entry hentry => (OrderedMap.get?_eq_some_iff _ _ _).mpr hentry
  have hentries : ∀ entry ∈ overlay.entries, entry.2.1 ≤ entry.1 ∧ entry.1 < 2 ^ 39 :=
    fun entry hentry => ⟨hvalid.separate.pos (hget entry hentry),
      (hvalid.inside (hget entry hentry)).trans hsize⟩
  have hoffsets : ∀ entry ∈ overlay.entries, ∀ item, entry.2.2 = some item →
      item.offset ≤ Usize.isizeMax := by
    intro entry hentry item hitem
    have hbacks := hvalid.items (hitem ▸ hget entry hentry)
    have := hbacks.fits
    have := hbacks.lawful.size_le
    omega
  rw [layoutContext]
  rcases placeEntries_cases hmappable hentries hoffsets hsize ⟨guestMem.length, [], []⟩
    (Nat.le_refl _) with ⟨hbottom, hplace⟩ | ⟨placement, hplace, hbottom⟩
  · have hnot : ¬ HasRoom overlay guestMem.length := by
      unfold HasRoom tableBottom pageSize
      dsimp only at hbottom
      omega
    rw [placeItems, hplace]
    exact iff_of_false (not_rejecting_crash _ _) hnot
  · have hle := itemsBottom_le overlay.entries guestMem.length
    dsimp only at hbottom
    rw [← placeItems] at hplace
    rw [hplace, ok_bind]
    rcases initVcpu_cases hhandlers entryPoint hvalid hpages hsize hplace (by omega) hbottom with
        ⟨hnot, hinit⟩ | ⟨hroom, hinit | ⟨state, metadata, hinit, hlt⟩⟩
    · rw [hinit]
      exact iff_of_false (not_rejecting_crash _ _) hnot
    · rw [hinit]
      exact iff_of_true (.inr (.inl rfl)) hroom
    · rw [hinit, ok_bind]
      dsimp only
      by_cases haccepted : stackAccepted minStackStart metadata.stackStart = true
      · rw [if_pos haccepted]
        refine iff_of_true (.inl ⟨state, _, rfl, ?_, hlt⟩) hroom
        simpa [stackAccepted] using haccepted
      · rw [if_neg haccepted]
        exact iff_of_true (.inr (.inr rfl)) hroom

end Whole

/-- Handlers of a thousand bytes. -/
def shortHandlers : FaultHandlers := ⟨List.replicate 1000 0x90, fun i => 5 * i⟩

theorem shortHandlers_onePage : shortHandlers.OnePage := by
  unfold FaultHandlers.OnePage shortHandlers
  rw [List.length_replicate]
  decide

/-- A page that was not written to. -/
def blankPage : KvmContext := ⟨.empty, List.replicate 4096 0⟩

theorem valid_blankPage : Valid blankPage := by
  refine valid_of_entries (List.forall_mem_nil _) (List.forall_mem_nil _) (List.forall_mem_nil _) ?_ ?_
  · rw [List.length_replicate]
    decide
  · rw [List.length_replicate]
    decide

/-- An overlay with one zero copy page. -/
def onePageOverlay : Overlay := ⟨[(8191, 4096, some ⟨blankPage.toRef, 0⟩)], by simp⟩

theorem onePageOverlay_valid : ValidOverlay 16777216 onePageOverlay := by
  have hcases : ∀ {last start item}, onePageOverlay.get? last = some (start, item) →
      last = 8191 ∧ start = 4096 ∧ item = some ⟨blankPage.toRef, 0⟩ := by
    intro last start item hget
    have hmem := (OrderedMap.get?_eq_some_iff _ _ _).mp hget
    simpa only [onePageOverlay, List.mem_singleton, Prod.mk.injEq] using hmem
  refine ⟨⟨fun hget => ?_, fun hget hget' hlt => ?_⟩, fun hget => ?_, fun hget => ?_, fun hget => ?_⟩
  · have := hcases hget
    omega
  · have := hcases hget
    have := hcases hget'
    omega
  · obtain ⟨rfl, rfl, -⟩ := hcases hget
    decide
  · have := hcases hget
    omega
  · obtain ⟨rfl, rfl, hitem⟩ := hcases hget
    obtain rfl := Option.some.inj hitem
    refine ⟨toRef_lawful valid_blankPage, ?_⟩
    simp only [toRef, blankPage, List.length_replicate]
    omega

theorem onePageOverlay_laidOut : Rejecting onePageOverlay 8192 (layoutContext
    (fun _ => some ⟨3, 10⟩) (fun _ => .ok ()) 4294967296 shortHandlers 4096 ⟨16777216, fun _ => 0⟩
      onePageOverlay 8192) := by
  refine (layoutContext_iff shortHandlers_onePage 4096 onePageOverlay_valid (by decide) (by decide)
    ⟨fun _ _ _ _ => ⟨_, rfl, by decide⟩, fun _ => rfl, by decide⟩).mpr (.inl ?_)
  decide

/-- A context of two megabytes has no room for the page tables of a started gigabyte. -/
theorem smallContext_not_rejected : ¬ Rejecting .empty 0 (layoutContext (fun _ => none)
    (fun _ => .ok ()) 4294967296 shortHandlers 4096 ⟨2097152, fun _ => 0⟩ .empty 0) := by
  have hcrash : initVcpu shortHandlers 4096 ⟨2097152, fun _ => 0⟩ [] 2097152 2097152 = crash := by
    obtain ⟨mem, hcall, -⟩ := setInterruptTable_eq_ok shortHandlers_onePage
      (show 2097152 ≤ (GuestMem.mk 2097152 fun _ => 0).length from Nat.le_refl _) (by decide)
    rw [initVcpu, hcall, ok_bind]
    dsimp only
    rw [setPageTable_eq_crash _ (by decide) (by decide)]
    rfl
  have hlayout : layoutContext (fun _ => none) (fun _ => .ok ()) 4294967296 shortHandlers 4096
      ⟨2097152, fun _ => 0⟩ .empty 0 = crash := by
    have hplace : placeItems (fun _ => none) (fun _ => .ok ()) 4294967296 2097152 .empty =
        .ok ⟨2097152, [], []⟩ := rfl
    rw [layoutContext, hplace, ok_bind, hcrash]
    rfl
  rw [hlayout]
  exact not_rejecting_crash _ _

end Dandelion.Kvm
