import Dandelion.ContextLayout
import Dandelion.CopyOnWrite
import Dandelion.FlatMemory
import Dandelion.PositionWrites

/-!
# The start of a function

Before a function runs, the pages of its items are mapped into the storage and the machine is set up in
what is left of it. Below the stack the function then sees what its context shows: the storage where
the overlay has pages in it, the bytes of an item where the overlay has one, and zeros elsewhere.
-/

open Outcome Segments Paging Bson

namespace Dandelion.Kvm

open KvmContext

/-! ## Bytes and words -/

/-- A word by the bytes of a memory. -/
def wordOf (byte : Nat → UInt8) (w : Nat) : Nat := ofLeBytes ((List.range 8).map fun j => byte (8 * w + j))

/-- A byte by the words of a memory. -/
def byteOf (word : Nat → Nat) (o : Nat) : UInt8 := UInt8.ofNat (word (o / 8) / 256 ^ (o % 8))

theorem ofNat_ofLeBytes_div (bytes : List UInt8) (i : Nat) :
    UInt8.ofNat (ofLeBytes bytes / 256 ^ i) = bytes.getD i 0 := by
  induction bytes generalizing i with
  | nil => simp [ofLeBytes]
  | cons b bytes ih =>
    have hb := b.toNat_lt
    have hcons : ofLeBytes (b :: bytes) = b.toNat + 256 * ofLeBytes bytes := rfl
    cases i with
    | zero =>
      apply UInt8.toNat_inj.mp
      rw [hcons, pow_zero, Nat.div_one, UInt8.toNat_ofNat', List.getD_cons_zero]
      omega
    | succ i =>
      rw [hcons, pow_succ', ← Nat.div_div_eq_div_mul, List.getD_cons_succ, ← ih]
      congr 2
      omega

theorem byteOf_wordOf (byte : Nat → UInt8) (o : Nat) : byteOf (wordOf byte) o = byte o := by
  have hlt : o % 8 < 8 := Nat.mod_lt _ (by decide)
  rw [byteOf, wordOf, ofNat_ofLeBytes_div, List.getD_eq_getElem?_getD, List.getElem?_map,
    List.getElem?_range hlt]
  exact congrArg byte (Nat.div_add_mod o 8)

/-! ## The mapped pages -/

section Mapped

variable (pages : ContextRef → Option PoolPages) (file : Int → Nat → UInt8) (storageAddress : Nat)

/-- `mmap` of a part of a file at a fixed address of the storage. -/
def mapPages (mem : GuestMem) (call : MapCall) : GuestMem where
  length := mem.length
  byte o :=
    if call.address ≤ storageAddress + o ∧ storageAddress + o < call.address + call.size then
      file call.fd (call.fileOffset + (storageAddress + o - call.address))
    else mem.byte o

/-- The memory of the machine: the storage, with the pages that have been mapped into it. -/
def guestMemory (storage : List UInt8) (calls : List MapCall) : GuestMem :=
  calls.foldl (mapPages file storageAddress) ⟨storage.length, fun o => storage.getD o 0⟩

/-- The pages of the items are pages of files. -/
def FilesHold (overlay : Overlay) : Prop :=
  ∀ {last start item source}, overlay.get? last = some (start, some item) →
    pages item.context = some source → ∀ i < last + 1 - start,
      item.context.byte (item.offset + i) =
        some (file source.fd (source.rangepoolStart * pageSize + item.offset + i))

/-- The mapping of an entry: a block for an item has its pages. -/
inductive Backed (mem : GuestMem) : OverlayEntry → PresentRange → Prop
  | stored (last start : Nat) : Backed mem (last, start, none) (start, last, none)
  | block {last start block : Nat} {item : OverlayItem} {source : PoolPages}
      (hsource : pages item.context = some source)
      (hbytes : ∀ i < last + 1 - start, mem.byte (block + i) =
        file source.fd (source.rangepoolStart * pageSize + item.offset + i)) :
      Backed mem (last, start, some item) (start, last, some block)

section Laid

variable {pages file storageAddress} {entries : List OverlayEntry} {top bottom : Nat}
  {mappings : List PresentRange} {calls : List MapCall}

theorem mapPages_eq_of_lt (mem : GuestMem) (block size fileOffset : Nat) (fd : Int) {o : Nat}
    (ho : o < block ∨ block + size ≤ o) :
    (mapPages file storageAddress mem ⟨storageAddress + block, size, fd, fileOffset⟩).byte o = mem.byte o :=
  if_neg (by dsimp only; omega)

theorem mapPages_block (mem : GuestMem) (block size fileOffset : Nat) (fd : Int) {i : Nat} (hi : i < size) :
    (mapPages file storageAddress mem ⟨storageAddress + block, size, fd, fileOffset⟩).byte (block + i) =
      file fd (fileOffset + i) := by
  have heq : storageAddress + (block + i) - (storageAddress + block) = i := by omega
  exact (if_pos (by dsimp only; omega)).trans (by rw [heq])

/-- The blocks have the pages of their items, and below and above them nothing has changed. -/
theorem Laid.mapped (h : Laid pages storageAddress entries top mappings calls bottom) (mem : GuestMem) :
    (calls.foldl (mapPages file storageAddress) mem).length = mem.length ∧
    (∀ o, o < bottom ∨ top ≤ o →
      (calls.foldl (mapPages file storageAddress) mem).byte o = mem.byte o) ∧
    List.Forall₂ (Backed pages file (calls.foldl (mapPages file storageAddress) mem)) entries mappings := by
  induction h generalizing mem with
  | nil top => exact ⟨rfl, fun _ _ => rfl, .nil⟩
  | present last start rest ih =>
    obtain ⟨hlength, hother, hall⟩ := ih mem
    exact ⟨hlength, hother, .cons (.stored last start) hall⟩
  | @block entries top block bottom mappings calls last start item source hsource hle hfits hlarge rest ih =>
    -- the blocks that follow are below this one
    obtain ⟨hlength, hother, hall⟩ := ih (mapPages file storageAddress mem
      ⟨storageAddress + block, last + 1 - start, source.fd, source.rangepoolStart * pageSize + item.offset⟩)
    have hbottom := rest.bottom_le
    rw [List.foldl_cons]
    refine ⟨hlength, fun o ho => ?_, .cons (.block hsource fun i hi => ?_) hall⟩
    · rw [hother o (by omega), mapPages_eq_of_lt mem _ _ _ _ (by omega)]
    · rw [hother _ (Or.inr (Nat.le_add_right _ _)), mapPages_block mem _ _ _ _ hi]

end Laid

end Mapped

/-! ## The handlers -/

/-- Only bytes in a range have changed. -/
structure ChangedWithin (a b : Nat) (mem mem' : GuestMem) : Prop where
  length : mem'.length = mem.length
  byte : ∀ o, o < a ∨ b ≤ o → mem'.byte o = mem.byte o

theorem ChangedWithin.trans {a b : Nat} {mem mem' mem'' : GuestMem} (h : ChangedWithin a b mem mem')
    (h' : ChangedWithin a b mem' mem'') : ChangedWithin a b mem mem'' :=
  ⟨h'.length.trans h.length, fun o ho => (h'.byte o ho).trans (h.byte o ho)⟩

/-- The call changes bytes in a range. -/
def Inside (a b : Nat) (mem : GuestMem) (x : DandelionResult GuestMem) : Prop :=
  ∀ mem', x = .ok mem' → ChangedWithin a b mem mem'

section Handlers

variable {a b start : Nat} {mem : GuestMem}

theorem Inside.bind {x : DandelionResult GuestMem} {f : GuestMem → DandelionResult GuestMem}
    (h : Inside a b mem x) (hf : ∀ mem', Inside a b mem' (f mem')) : Inside a b mem (x >>= f) := by
  intro mem' hok
  obtain ⟨mem₁, hfirst, hrest⟩ := (bind_eq_ok_iff _ _ _).mp hok
  exact (h mem₁ hfirst).trans (hf mem₁ mem' hrest)

theorem inside_bind_unit {x : DandelionResult Unit} {y : DandelionResult GuestMem} (h : Inside a b mem y) :
    Inside a b mem (x >>= fun _ => y) := by
  intro mem' hok
  obtain ⟨_, -, hrest⟩ := (bind_eq_ok_iff _ _ _).mp hok
  exact h mem' hrest

theorem inside_fillZero {past : Nat} (hstart : a ≤ start) (hpast : past ≤ b) :
    Inside a b mem (mem.fillZero start past) := by
  apply inside_bind_unit
  intro mem' hok
  cases hok
  exact ⟨rfl, fun o ho => if_neg (by omega)⟩

theorem inside_copy (bytes : List UInt8) (hstart : a ≤ start) (hpast : start + bytes.length ≤ b) :
    Inside a b mem (mem.copy start bytes) := by
  apply inside_bind_unit
  intro mem' hok
  cases hok
  refine ⟨rfl, fun o ho => ?_⟩
  by_cases hle : start ≤ o
  · refine (if_pos hle).trans ?_
    rw [List.getElem?_eq_none (by omega)]
    rfl
  · exact if_neg hle

theorem inside_setupSegment (privilegeLevel segmentType : Nat) (hstart : a ≤ start)
    (hpast : start + 16 ≤ b) : Inside a b mem (setupSegment mem start privilegeLevel segmentType) := by
  apply inside_bind_unit
  refine (inside_copy _ hstart ?_).bind fun mem' => inside_copy _ (by omega) ?_
  · rw [List.length_cons, List.length_singleton]
    omega
  · rw [List.length_cons, List.length_singleton]
    omega

theorem inside_setupInterruptGate (selector address : Nat) (hstart : a ≤ start) (hpast : start + 16 ≤ b) :
    Inside a b mem (setupInterruptGate mem start selector address) := by
  apply inside_bind_unit
  refine (inside_copy _ hstart ?_).bind fun mem₁ => ?_
  · rw [List.length_take, length_leBytes]
    omega
  refine (inside_copy _ (by omega) ?_).bind fun mem₂ => ?_
  · rw [List.length_drop, length_leBytes]
    omega
  refine (inside_copy _ (by omega) ?_).bind fun mem₃ => inside_copy _ (by omega) ?_
  · rw [length_leBytes]
    omega
  · rw [List.length_cons, List.length_singleton]
    omega

theorem inside_setupSegments {gdt : Nat} (hstart : a ≤ gdt) (hpast : gdt + gdtSize ≤ b) :
    Inside a b mem (setupSegments mem gdt) := by
  unfold gdtSize at hpast
  refine (inside_setupSegment 0 10 (by omega) (by omega)).bind fun mem₁ => ?_
  refine (inside_setupSegment 0 2 (by omega) (by omega)).bind fun mem₂ => ?_
  exact (inside_setupSegment 3 10 (by omega) (by omega)).bind fun mem₃ =>
    inside_setupSegment 3 2 (by omega) (by omega)

theorem inside_setupGates (handlers : FaultHandlers) (interruptHandler : Nat) {idtBase : Nat}
    (hstart : a ≤ idtBase) (hpast : idtBase + 33 * 16 ≤ b) :
    Inside a b mem (setupGates handlers mem interruptHandler idtBase) := by
  have hfold : ∀ gates : List Nat, (∀ i ∈ gates, i < 33) → ∀ mem, Inside a b mem
      (gates.foldlM (fun mem i => setupInterruptGate mem (idtBase + i * 16) (2 <<< 3)
        (interruptHandler + handlers.entry i)) mem) := by
    intro gates hgates
    induction gates with
    | nil =>
      intro mem mem' hok
      cases hok
      exact ⟨rfl, fun _ _ => rfl⟩
    | cons i gates ih =>
      obtain ⟨hi, hrest⟩ := List.forall_mem_cons.mp hgates
      intro mem
      rw [List.foldlM_cons]
      exact (inside_setupInterruptGate _ _ (by omega) (by omega)).bind fun mem₁ => ih hrest mem₁
  exact hfold _ (fun i hi => List.mem_range.mp hi) mem

/-- The tables and the handlers are in the last two pages of what was free. -/
theorem setInterruptTable_inside {handlers : FaultHandlers} (hhandlers : handlers.OnePage)
    {stackStart interruptStart : Nat} {mem' : GuestMem} {registers : InterruptRegisters}
    (hok : setInterruptTable handlers mem stackStart = .ok (mem', registers, interruptStart)) :
    interruptStart + 2 * pageSize = stackStart ∧ ChangedWithin interruptStart stackStart mem mem' := by
  have hcode := hhandlers.code_le
  have hpage := hhandlers
  unfold FaultHandlers.OnePage at hpage
  obtain ⟨interruptHandler, hsub, hok⟩ := (bind_eq_ok_iff _ _ _).mp hok
  obtain ⟨mem₁, h₁, hok⟩ := (bind_eq_ok_iff _ _ _).mp hok
  rw [descriptorPage_eq hhandlers, ok_bind] at hok
  dsimp only at hok
  obtain ⟨mem₂, h₂, hok⟩ := (bind_eq_ok_iff _ _ _).mp hok
  obtain ⟨_, -, hok⟩ := (bind_eq_ok_iff _ _ _).mp hok
  obtain ⟨mem₃, h₃, hok⟩ := (bind_eq_ok_iff _ _ _).mp hok
  obtain ⟨stackTop, hsub', hok⟩ := (bind_eq_ok_iff _ _ _).mp hok
  obtain ⟨mem₄, h₄, hok⟩ := (bind_eq_ok_iff _ _ _).mp hok
  obtain ⟨mem₅, h₅, hok⟩ := (bind_eq_ok_iff _ _ _).mp hok
  obtain ⟨mem₆, h₆, hok⟩ := (bind_eq_ok_iff _ _ _).mp hok
  cases hok
  have hle := Usize.sub_eq_ok_iff.mp hsub
  have hle' := Usize.sub_eq_ok_iff.mp hsub'
  refine ⟨by omega, ?_⟩
  refine (inside_fillZero ?_ ?_ mem₁ h₁).trans ?_
  · omega
  · omega
  refine (inside_setupSegments ?_ ?_ mem₂ h₂).trans ?_
  · omega
  · omega
  refine (inside_copy _ ?_ ?_ mem₃ h₃).trans ?_
  · omega
  · rw [length_leBytes]
    unfold tssSize at hpage
    omega
  refine (inside_fillZero ?_ ?_ mem₄ h₄).trans ?_
  · omega
  · omega
  refine (inside_copy _ ?_ ?_ mem₅ h₅).trans ?_
  · omega
  · omega
  refine inside_setupGates handlers _ ?_ ?_ _ h₆
  · omega
  · omega

end Handlers

/-! ## What the function sees -/

section Seen

variable {memory : Nat → Nat} {root o : Nat}

theorem byteOf_seen {t : Translation} (h : walk memory root (o / 4096) = some t) :
    byteOf (seen memory root) o = byteOf memory (4096 * t.frame + o % 4096) := by
  have hpage : o / 8 / 512 = o / 4096 := by omega
  have hword : (4096 * t.frame + o % 4096) / 8 = 512 * t.frame + o / 8 % 512 := by omega
  have hbyte : (4096 * t.frame + o % 4096) % 8 = o % 8 := by omega
  rw [byteOf, byteOf, seen, hpage, content_eq h, hword, hbyte]

theorem byteOf_seen_absent (h : walk memory root (o / 4096) = none) : byteOf (seen memory root) o = 0 := by
  have hpage : o / 8 / 512 = o / 4096 := by omega
  rw [byteOf, seen, hpage, content_eq_zero h, Nat.zero_div]
  rfl

end Seen

/-- A machine that has been set up for a context: the tables have its mappings, and behind them are
the storage and the pages of the items. -/
structure Starts (pages : ContextRef → Option PoolPages) (file : Int → Nat → UInt8) (context : KvmContext)
    (L : Layout) (mappings : List PresentRange) (memory : Nat → Nat) : Prop where
  built : ∃ words, Built L mappings words memory
  placed : ∀ range ∈ mappings, Placed L range
  ascending : mappings.Pairwise fun range range' => range.2.1 < range'.1
  stored : ∀ o < 4096 * L.stackStart, byteOf memory o = context.storage.getD o 0
  backed : List.Forall₂ (Backed pages file ⟨context.storage.length, byteOf memory⟩)
    context.overlay.entries mappings

section Start

variable {pages : ContextRef → Option PoolPages} {file : Int → Nat → UInt8} {context : KvmContext}
  {L : Layout} {mappings : List PresentRange} {memory : Nat → Nat}

theorem Layout.stackStart_lt (L : Layout) : L.stackStart < 2 ^ 27 := by
  have hp4 := L.p4_lt
  unfold Layout.p4 Layout.p3 at hp4
  unfold Layout.stackStart
  omega

theorem Starts.walk_eq (h : Starts pages file context L mappings memory) {page : Nat}
    (hpage : page < L.stackStart) :
    walk memory L.p4 page = resolve1 ((presentEntry mappings page).getD 0) := by
  obtain ⟨words, hbuilt⟩ := h.built
  have hfit := L.tables_fit
  have hinterrupt := L.interrupt_le
  have hend := L.interruptEnd_le
  have hlast := L.last_le
  have htables := L.tables_le
  have hstart : L.stackStart ≤ L.base := by
    unfold Layout.stackStart
    omega
  have hreserved : ¬ L.Reserved page := by
    unfold Layout.Reserved
    omega
  have hlow : page % 512 ^ 3 = page := by omega
  rw [hbuilt.walk_eq, if_pos (by omega), hlow, Layout.entryAt, if_neg (by omega), if_neg hreserved]

/-- Below the stack the function sees what the context shows, and zeros where it has no pages. -/
theorem Starts.seen_eq (h : Starts pages file context L mappings memory)
    (hvalid : ValidOverlay context.storage.length context.overlay)
    (hfiles : FilesHold pages file context.overlay) {o : Nat} (ho : o < 4096 * L.stackStart) :
    byteOf (seen memory L.p4) o = (context.view o).getD 0 := by
  have hwalk := h.walk_eq (by omega : o / 4096 < L.stackStart)
  cases hlocate : locate context.overlay o with
  | none =>
    have hnone : presentEntry mappings (o / 4096) = none := by
      cases hpresent : presentEntry mappings (o / 4096) with
      | none => rfl
      | some e =>
        obtain ⟨range, hrange, hfirst, hpast, -⟩ := exists_range_of_present hpresent
        obtain ⟨⟨last, start, item⟩, hentry, hbacked⟩ := PositionWrites.exists_left_of_mem h.backed hrange
        have hget := (OrderedMap.get?_eq_some_iff _ _ _).mpr hentry
        have hlt := (hvalid.separate.locate_eq_none_iff o).mp hlocate last start item hget
        have hplaced := h.placed range hrange
        have hstart := hplaced.start_aligned
        have hend := hplaced.end_aligned
        have hrange : range.1 = start ∧ range.2.1 = last := by
          cases hbacked with
          | stored => exact ⟨rfl, rfl⟩
          | block => exact ⟨rfl, rfl⟩
        unfold firstPage at hfirst
        unfold pastPage at hpast
        omega
    rw [hnone] at hwalk
    rw [byteOf_seen_absent hwalk, view, hlocate]
    rfl
  | some located =>
    obtain ⟨last, start, item, hget, hstart, hlast, rfl⟩ :=
      (hvalid.separate.locate_eq_some_iff o located).mp hlocate
    obtain ⟨range, hrange, hbacked⟩ := PositionWrites.exists_right_of_mem h.backed
      ((OrderedMap.get?_eq_some_iff _ _ _).mp hget)
    have hplaced := h.placed range hrange
    have hstartAligned := hplaced.start_aligned
    have hendAligned := hplaced.end_aligned
    have hview : context.view o = ((o - start) +ᵥ item).elim context.storage[o]?
        fun item => item.context.byte item.offset := by
      rw [view, hlocate]
      cases item with
      | none => rfl
      | some item => rfl
    cases hbacked with
    | stored =>
      have hpast : o / 4096 < (last + 1) / 4096 := by
        dsimp only at hendAligned
        omega
      rw [presentEntry_of_mem h.ascending hrange (Nat.div_le_div_right hstart) hpast, Option.getD_some,
        (entryIn_none rfl).1, resolve1_own (by have := L.stackStart_lt; omega)] at hwalk
      rw [byteOf_seen hwalk, hview, vadd_none, Option.elim_none, Nat.div_add_mod, h.stored o ho]
      exact List.getD_eq_getElem?_getD ..
    | @block _ _ block item source hsource hbytes =>
      have hpast : o / 4096 < (last + 1) / 4096 := by
        dsimp only at hendAligned
        omega
      obtain ⟨hplace, -, hmax⟩ := hplaced.block block rfl
      have hlast := L.last_le
      have htables := L.tables_le
      unfold largePage at hplace
      dsimp only at hstartAligned hplace hmax
      rw [presentEntry_of_mem h.ascending hrange (Nat.div_le_div_right hstart) hpast, Option.getD_some,
        entryIn, resolve1_copy (by unfold firstPage; dsimp only; omega)] at hwalk
      have hframe : 4096 * (block / 4096 + (o / 4096 - start / 4096)) + o % 4096 = block + (o - start) := by
        omega
      have hbyte : byteOf memory (block + (o - start)) = _ := hbytes (o - start) (by omega)
      rw [byteOf_seen hwalk, hview, vadd_some, Option.elim_some]
      dsimp only [firstPage]
      rw [hframe, hbyte, hfiles hget hsource (o - start) (by omega), Option.getD_some]

/-- The bytes of a memory by its words, where two memories have the same. -/
theorem byteOf_congr {word word' : Nat → Nat} {o : Nat} (h : word' (o / 8) = word (o / 8)) :
    byteOf word' o = byteOf word o := by
  rw [byteOf, byteOf, h]

/-- The machine that `init_vcpu` leaves behind the placement. -/
theorem initVcpu_starts {mmap : MapCall → DandelionResult Unit} {storageAddress entryPoint : Nat}
    {placement : Placement} {handlers : FaultHandlers} {state : VcpuState} {metadata : PageFaultMetadata}
    (hvalid : ValidOverlay context.storage.length context.overlay)
    (hpages : pageSize ∣ context.storage.length) (hhandlers : handlers.OnePage)
    (hplace : placeItems pages mmap storageAddress context.storage.length context.overlay = .ok placement)
    (hinit : initVcpu handlers entryPoint (guestMemory file storageAddress context.storage placement.calls)
      placement.mappings placement.stackStart context.storage.length = .ok (state, metadata)) :
    ∃ L words interruptStart, SetUp L placement.mappings words state.memory interruptStart
        (interruptStart, placement.stackStart) context.storage.length state.cr3 metadata ∧
      Starts pages file context L placement.mappings state.memory.word := by
  obtain ⟨mappings, calls, hmappings, hcalls, hlaid⟩ := laid_of_foldlM hplace
  rw [List.nil_append] at hmappings hcalls
  obtain ⟨hlength, hother, hall⟩ := @Laid.mapped _ file _ _ _ _ _ _ hlaid
    ⟨context.storage.length, fun o => context.storage.getD o 0⟩
  rw [← hcalls] at hlength hother hall
  rw [← hmappings] at hall
  obtain ⟨⟨mem, registers, interruptStart⟩, htable, hinit⟩ := (bind_eq_ok_iff _ _ _).mp hinit
  obtain ⟨⟨memory', cr3, metadata'⟩, hset, hinit⟩ := (bind_eq_ok_iff _ _ _).mp hinit
  obtain ⟨rsp, -, hinit⟩ := (bind_eq_ok_iff _ _ _).mp hinit
  cases hinit
  obtain ⟨hroom, hchanged⟩ := setInterruptTable_inside hhandlers htable
  have hinterrupt : placement.stackStart - 2 * pageSize = interruptStart := by omega
  have hpromised := placement_promised hvalid hpages hplace (by omega) hlaid.bottom_le
  rw [hinterrupt] at hpromised
  obtain ⟨L, h⟩ := setPageTable_setUp hpromised hset
  have hstack := h.stack_eq
  have hrange := Prod.mk.inj h.interrupt_eq
  have hp4 : L.p4 = L.base + 513 * L.tables + 1 := rfl
  have hstart : L.stackStart ≤ L.base := by
    unfold Layout.stackStart
    omega
  have hbytes : ∀ o, o / 4096 < L.stackStart ∨ L.p4 < o / 4096 → byteOf memory'.word o = mem.byte o := by
    intro o ho
    rw [byteOf_congr (h.built.other (o / 8) (by omega))]
    exact byteOf_wordOf mem.byte o
  refine ⟨L, _, _, h, ⟨_, h.built⟩, h.placed, hpromised.ascending, fun o ho => ?_, ?_⟩
  · rw [hbytes o (Or.inl (by omega)), hchanged.byte o (Or.inl (by omega))]
    exact hother o (Or.inl (by omega))
  · have hpair := (List.forall₂_and_left _ _).mpr ⟨h.placed, hall.flip⟩
    refine hpair.flip.imp fun entry range hbacked => ?_
    obtain ⟨hplaced, hbacked⟩ := hbacked
    cases hbacked with
    | stored last start => exact .stored last start
    | @block last start block item source hsource hblock =>
      -- the blocks are behind the handlers
      have hmin := (hplaced.block block rfl).2.1
      refine .block hsource fun i hi => ?_
      refine ((hbytes _ (Or.inr (by omega))).trans (hchanged.byte _ (Or.inr ?_))).trans (hblock i hi)
      omega

/-- A page of the storage is mapped as one that the function may write, also among the large pages
of the stack. -/
theorem SetUp.walk_stored {guestMem guestMem' : Words} {stackStart lastAddress cr3 : Nat}
    {interruptRange : Nat × Nat} {metadata : PageFaultMetadata}
    (h : SetUp L mappings guestMem guestMem' stackStart interruptRange lastAddress cr3 metadata)
    (hstarts : Starts pages file context L mappings memory)
    (hvalid : ValidOverlay context.storage.length context.overlay) {o : Nat}
    (hstored : locate context.overlay o = some none) :
    o / 4096 < L.base ∧ walk guestMem'.word L.p4 (o / 4096) = some ⟨o / 4096, true, true⟩ := by
  obtain ⟨last, start, item, hget, hstart, hlast, hitem⟩ :=
    (hvalid.separate.locate_eq_some_iff o none).mp hstored
  obtain ⟨range, hrange, hbacked⟩ := PositionWrites.exists_right_of_mem hstarts.backed
    ((OrderedMap.get?_eq_some_iff _ _ _).mp hget)
  have hend := h.end_lt range hrange
  have hendAligned := (h.placed range hrange).end_aligned
  have hfit := L.tables_fit
  have hinterrupt := L.interrupt_le
  have hinterruptEnd := L.interruptEnd_le
  have hlastLe := L.last_le
  have htables := L.tables_le
  cases hbacked with
  | stored =>
    dsimp only at hend hendAligned
    have hbelow : o / 4096 < L.base := by omega
    have hpast : o / 4096 < (last + 1) / 4096 := by omega
    have hlow : o / 4096 % 512 ^ 3 = o / 4096 := by omega
    have hreserved : ¬ L.Reserved (o / 4096) := by
      unfold Layout.Reserved
      omega
    refine ⟨hbelow, ?_⟩
    rw [h.built.walk_eq, if_pos (by omega), hlow, Layout.entryAt]
    by_cases hstack : L.stackStart ≤ o / 4096
    · rw [if_pos ⟨hstack, hbelow⟩, resolve1_own (by omega)]
    · rw [if_neg (fun hin => hstack hin.1), if_neg hreserved, presentEntry_of_mem hstarts.ascending hrange
        (Nat.div_le_div_right hstart) hpast, Option.getD_some, (entryIn_none rfl).1,
        resolve1_own (by omega)]
  | block => cases hitem

end Start

/-! ## The end of the heap -/

/-- `write_heap_end`, which `run` calls when the machine has been set up. -/
def writeHeapEnd (context : KvmContext) (baseAddress heapEnd : Nat) : DandelionResult KvmContext := do
  let offset ← Usize.add .checked baseAddress 16
  let after := context.write 8 offset (leBytes 8 heapEnd)
  after.2
  pure after.1

/-- A memory with the end of the heap in it. -/
def withHeapEnd (memory : Nat → Nat) (baseAddress heapEnd : Nat) : Nat → Nat :=
  Function.update memory ((baseAddress + 16) / 8) heapEnd

theorem byteOf_withHeapEnd (memory : Nat → Nat) (baseAddress heapEnd o : Nat) :
    byteOf (withHeapEnd memory baseAddress heapEnd) o =
      if o / 8 = (baseAddress + 16) / 8 then byteOf (fun _ => heapEnd) o else byteOf memory o := by
  rw [withHeapEnd, byteOf, Function.update_apply]
  split_ifs
  · rfl
  · rfl

theorem getElem?_leBytes (size n : Nat) {i : Nat} (hi : i < size) :
    (leBytes size n)[i]? = some (UInt8.ofNat (n / 256 ^ i)) := by
  induction size generalizing n i with
  | zero => exact absurd hi (Nat.not_lt_zero i)
  | succ size ih =>
    cases i with
    | zero =>
      rw [pow_zero, Nat.div_one]
      rfl
    | succ i =>
      rw [pow_succ', ← Nat.div_div_eq_div_mul]
      exact ih (n / 256) (Nat.lt_of_succ_lt_succ hi)

theorem locate_stored_of_page {overlay : Overlay} (h : PagedOverlay overlay) {o o' : Nat}
    (hpage : o' / 4096 = o / 4096) (hstored : locate overlay o = some none) :
    locate overlay o' = some none := by
  obtain ⟨last, start, item, hget, hstart, hlast, hitem⟩ :=
    (h.separate.locate_eq_some_iff o none).mp hstored
  obtain ⟨hstartAligned, hendAligned⟩ := h.aligned hget
  unfold pageSize at hstartAligned hendAligned
  refine (h.separate.locate_eq_some_iff o' none).mpr ⟨last, start, item, hget, by omega, by omega, ?_⟩
  cases item with
  | none => rfl
  | some item => cases hitem

theorem view_of_stored {context : KvmContext} {o : Nat} (hstored : locate context.overlay o = some none)
    (ho : o < context.storage.length) : context.view o = some (context.storage.getD o 0) := by
  rw [view, hstored, List.getD_eq_getElem?_getD, List.getElem?_eq_getElem ho, Option.getD_some]

/-- The end of the heap has been written to a page of the storage, and nothing else. -/
structure HeapEndWritten (context : KvmContext) (baseAddress heapEnd : Nat) (after : KvmContext) : Prop where
  valid : Valid after
  length : after.storage.length = context.storage.length
  view : ∀ o, after.view o =
    if o / 8 = (baseAddress + 16) / 8 then some (byteOf (fun _ => heapEnd) o) else context.view o
  shown : ∀ o, (after.view o).isSome ↔ (context.view o).isSome
  stored : ∀ o, locate after.overlay o = some none → locate context.overlay o = some none

theorem heapEndWritten {context after : KvmContext} (hvalid : Valid context) {baseAddress heapEnd : Nat}
    (hstored : locate context.overlay (baseAddress + 16) = some none)
    (hok : writeHeapEnd context baseAddress heapEnd = .ok after) :
    HeapEndWritten context baseAddress heapEnd after := by
  obtain ⟨offset, hadd, hok⟩ := (bind_eq_ok_iff _ _ _).mp hok
  obtain ⟨-, rfl⟩ := Usize.add_eq_ok_iff.mp hadd
  obtain ⟨_, hwrite, hok⟩ := (bind_eq_ok_iff _ _ _).mp hok
  cases hok
  have haligned : (baseAddress + 16) % 8 = 0 := by
    by_contra hne
    rw [KvmContext.write, if_pos hne] at hwrite
    cases hwrite
  have hlength : (leBytes 8 heapEnd).length = 8 := length_leBytes 8 heapEnd
  have hdata : leBytes 8 heapEnd ≠ [] := List.length_pos_iff.mp (by omega)
  have hinside : baseAddress + 16 < context.storage.length := by
    obtain ⟨last, start, item, hget, -, hlast, -⟩ :=
      (hvalid.overlay.separate.locate_eq_some_iff _ none).mp hstored
    exact lt_of_le_of_lt hlast (hvalid.overlay.inside hget)
  have hlimit : baseAddress + 16 + (leBytes 8 heapEnd).length < Usize.limit := by
    have hle := hvalid.storage_le
    unfold Usize.isizeMax at hle
    unfold Usize.limit
    omega
  -- the bytes of the end lie in one page, which is in the storage
  have hpages : ∀ o, roundDownToPage (baseAddress + 16) ≤ o ∧
      o < nextPage (baseAddress + 16 + 8) → locate context.overlay o = some none ∧
      o < context.storage.length := by
    intro o ho
    have hdvd := hvalid.storage_pages
    unfold roundDownToPage nextPage pageSize at ho
    unfold pageSize at hdvd
    exact ⟨locate_stored_of_page hvalid.overlay.paged (by omega) hstored, by omega⟩
  have hspec := write_spec hvalid 8 hdata hlimit
  have hview : ∀ o, (context.write 8 (baseAddress + 16) (leBytes 8 heapEnd)).1.view o =
      if o / 8 = (baseAddress + 16) / 8 then some (byteOf (fun _ => heapEnd) o) else context.view o := by
    intro o
    rw [hspec.view_ok hwrite o, KvmContext.written, hlength]
    by_cases hin : baseAddress + 16 ≤ o ∧ o < baseAddress + 16 + 8
    · have hbyte : o - (baseAddress + 16) = o % 8 := by omega
      rw [if_pos hin, if_pos (by omega), getElem?_leBytes 8 heapEnd (by omega), hbyte]
      rfl
    · have hword : ¬ o / 8 = (baseAddress + 16) / 8 := by omega
      rw [if_neg hin, if_neg hword]
      split_ifs with htouched
      · obtain ⟨hpage, hlt⟩ := hpages o htouched
        rw [view_of_stored hpage hlt, Option.getD_some]
      · rfl
  refine ⟨hspec.valid, hspec.length, hview, fun o => ?_, fun o hlocate => ?_⟩
  · rw [hview]
    split_ifs with heq
    · have hroom := hpages (baseAddress + 16 + o % 8) ⟨?_, ?_⟩
      · have hbyte : baseAddress + 16 + o % 8 = o := by omega
        rw [hbyte] at hroom
        rw [view_of_stored hroom.1 hroom.2]
        exact iff_of_true rfl rfl
      · exact le_trans (roundDownToPage_le _) (Nat.le_add_right _ _)
      · exact lt_of_lt_of_le (by omega) (le_nextPage _)
    · exact Iff.rfl
  · rcases write_cases hvalid.paged (touched_lt hdata (baseAddress + 16)) 8 hlimit with
      ⟨e, storage, heq, -⟩ | ⟨-, storage, heq, -⟩
    · rw [heq] at hwrite
      cases hwrite
    · rw [heq, locate_planEdit hvalid.overlay.separate (touched_lt hdata _) none o, hlength] at hlocate
      split_ifs at hlocate with htouched
      · exact (hpages o htouched).1
      · exact hlocate

end Dandelion.Kvm
