import Dandelion.DirtyPages
import Dandelion.GuestStart
import Dandelion.RecordedStores
import Dandelion.SetUpSafety

/-!
# Runs of a function

A function runs in the memory that its context has been laid out in, and the pages that the machine has
stored to are taken into the storage afterwards. Below the stack the context then shows what it
showed before with the stores of the function, byte for byte: copies on write, pages on demand and
the bookkeeping of the handler leave no other trace.
-/

open Outcome Stateful Segments Paging PagedMachine Transitions Bson

namespace Dandelion.Kvm

open KvmContext

/-! ## What a run stores to -/

/-- The words that an event stores to. -/
def Event.stores (cr3 : Nat) (memory : Nat → Nat) : Event → List Nat
  | .store word _ =>
    match translate memory (cr3 / pageSize) (8 * word) with
    | some t => [512 * t.frame + word % 512]
    | none => []
  | .fault cr2 => (exec (pageFaultExceptionHandler cr2 cr3) ⟨memory, []⟩).2.stores

/-- The words that a run stores to. -/
def storesAlong (cr3 : Nat) : (Nat → Nat) → List Event → List Nat
  | _, [] => []
  | memory, event :: events =>
    event.stores cr3 memory ++
      match stepMachine cr3 memory event with
      | some memory' => storesAlong cr3 memory' events
      | none => []

section Handler

variable (root cr2 : Nat)

theorem recorded_zeroPage (address : Nat) : Relates Recorded (zeroPage root address) := by
  unfold zeroPage
  exact relates_times (fun _ => recorded_storeVectors _ _ _ _ _) _

theorem recorded_copyPage (source target : Nat) : Relates Recorded (copyPage root source target) := by
  unfold copyPage
  refine relates_times (fun round => ?_) _
  exact (recorded_loadVectors _ _ _ _).bind fun _ => recorded_storeVectors _ _ _ _ _

theorem recorded_fillTable (r15 rax : Nat) : Relates Recorded (fillTable root r15 rax) := by
  unfold fillTable
  exact relates_times (fun _ => recorded_storeWords _ _ _ _) _

theorem recorded_demandPage (r13 r15 : Nat) : Relates Recorded (demandPage root cr2 r13 r15) :=
  (recorded_storeWords _ _ _ _).bind fun _ => recorded_zeroPage root _

theorem recorded_demandTable (r12 r13 r14 r15 : Nat) :
    Relates Recorded (demandTable root cr2 r12 r13 r14 r15) :=
  (recorded_zeroPage root _).bind fun _ => (recorded_storeWords _ _ _ _).bind fun _ =>
    recorded_demandPage root cr2 r13 r15

theorem recorded_copyOnWrite (r8 r9 r13 r15 : Nat) :
    Relates Recorded (copyOnWrite root cr2 r8 r9 r13 r15) :=
  (recorded_storeWords _ _ _ _).bind fun _ => recorded_copyPage root _ _

theorem recorded_splitPage (r8 r9 r12 r13 r14 r15 : Nat) :
    Relates Recorded (splitPage root cr2 r8 r9 r12 r13 r14 r15) :=
  (recorded_fillTable root _ _).bind fun _ => (recorded_storeWords _ _ _ _).bind fun _ =>
    recorded_copyOnWrite root cr2 r8 r9 r13 r15

theorem recorded_handleEntries (r8 r9 r12 r13 r14 r15 : Nat) :
    Relates Recorded (handleEntries root cr2 r8 r9 r12 r13 r14 r15) := by
  unfold handleEntries
  split_ifs
  · exact recorded_splitPage root cr2 r8 r9 r12 r13 r14 r15
  · exact recorded_copyOnWrite root cr2 r8 r9 r13 r15
  · exact relates_lift _
  · exact recorded_demandPage root cr2 r13 r15
  · exact relates_lift _
  · exact recorded_demandTable root cr2 r12 r13 r14 r15

theorem recorded_pageFaultExceptionHandler (cr3 : Nat) :
    Relates Recorded (pageFaultExceptionHandler cr2 cr3) := by
  unfold pageFaultExceptionHandler
  refine (recorded_load _ _ _).bind fun rbx => ?_
  refine (recorded_load _ _ _).bind fun r14 => ?_
  refine (recorded_load _ _ _).bind fun r8 => ?_
  refine (recorded_load _ _ _).bind fun r9 => ?_
  exact recorded_handleEntries _ cr2 r8 r9 _ _ _ _

end Handler

/-! ## Tracked memory -/

/-- The page has a frame of its own that may be written. -/
def OwnPage (L : Layout) (memory : Nat → Nat) (page : Nat) : Prop :=
  walk memory L.p4 page = some ⟨page, true, true⟩

/-- No page beyond the memory is the function's own. -/
def OwnBelow (L : Layout) (memory : Nat → Nat) : Prop :=
  ∀ page < L.pages, ¬ L.Reserved page → OwnPage L memory page → page < L.last

/-- What was stored to since: tables, and pages of the function that are its own now. -/
structure Tracked (L : Layout) (memory memory' : Nat → Nat) (stores : List Nat) : Prop where
  other : ∀ w, w ∉ stores → memory' w = memory w
  frames : ∀ w ∈ stores, L.TableFrame (w / 512) ∨
    (w / 512 < L.last ∧ ¬ L.Reserved (w / 512) ∧ OwnPage L memory' (w / 512))
  own : ∀ page < L.pages, ¬ L.Reserved page → OwnPage L memory page → OwnPage L memory' page

theorem Tracked.refl (L : Layout) (memory : Nat → Nat) : Tracked L memory memory [] :=
  ⟨fun _ _ => rfl, List.forall_mem_nil _, fun _ _ _ h => h⟩

theorem Tracked.trans {L : Layout} {memory memory' memory'' : Nat → Nat} {stores stores' : List Nat}
    (h : Tracked L memory memory' stores) (h' : Tracked L memory' memory'' stores') :
    Tracked L memory memory'' (stores ++ stores') where
  other w hw := by
    rw [h'.other w fun hnew => hw (List.mem_append_right _ hnew),
      h.other w fun hold => hw (List.mem_append_left _ hold)]
  frames w hw := by
    rcases List.mem_append.mp hw with hold | hnew
    · rcases h.frames w hold with htable | ⟨hpage, hfree, hown⟩
      · exact Or.inl htable
      · exact Or.inr ⟨hpage, hfree, h'.own _ (lt_of_lt_of_le hpage L.last_le) hfree hown⟩
    · exact h'.frames w hnew
  own page hpage hfree hown := h'.own page hpage hfree (h.own page hpage hfree hown)

section Steps

variable {L : Layout} {memory memory' : Nat → Nat} {word value : Nat} {event : Event}
  {events : List Event}

theorem translate_own {root : Nat} (hpage : word / 512 < L.pages)
    (hown : walk memory root (word / 512) = some ⟨word / 512, true, true⟩) :
    PagedMachine.translate memory root (8 * word) = some ⟨word / 512, true, true⟩ := by
  have hle := L.pages_le
  have haddress : 8 * word / 4096 = word / 512 := by omega
  have hcanonical : Canonical (8 * word) := Or.inl (by omega)
  rw [PagedMachine.translate, if_pos hcanonical, haddress, hown]

theorem step_own (hpage : word / 512 < L.pages)
    (hown : walk memory L.p4 (word / 512) = some ⟨word / 512, true, true⟩) :
    stepMachine (4096 * L.p4) memory (.store word value) = some (Function.update memory word value) := by
  have hroot : 4096 * L.p4 / pageSize = L.p4 := Nat.mul_div_cancel_left _ (by decide)
  rw [stepMachine, hroot, translate_own hpage hown]
  exact congrArg (fun w => some (Function.update memory w value)) (Nat.div_add_mod word 512)

theorem Inv.stores_store (hinv : Inv L memory)
    (hstep : stepMachine (4096 * L.p4) memory (.store word value) = some memory') :
    (Event.store word value).stores (4096 * L.p4) memory = [word] := by
  obtain ⟨hpage, -, hown, -⟩ := hinv.store_cases hstep
  have hroot : 4096 * L.p4 / pageSize = L.p4 := Nat.mul_div_cancel_left _ (by decide)
  rw [Event.stores, hroot, translate_own hpage hown]
  exact congrArg (fun w => [w]) (Nat.div_add_mod word 512)

theorem Inv.of_step (hinv : Inv L memory) (hbelow : event.Below (4096 * L.last))
    (hstep : stepMachine (4096 * L.p4) memory event = some memory') : Inv L memory' := by
  have hlast := L.last_le
  cases event with
  | store word value => exact hinv.of_store hstep
  | fault cr2 =>
    have hlt : cr2 < 4096 * L.last := hbelow
    exact hinv.of_fault (Or.inl (by unfold Layout.pages; omega)) hstep

theorem Inv.tracked_step (hinv : Inv L memory) (hbelow : event.Below (4096 * L.last))
    (hstep : stepMachine (4096 * L.p4) memory event = some memory') (hbound : OwnBelow L memory) :
    OwnBelow L memory' ∧ Tracked L memory memory' (event.stores (4096 * L.p4) memory) := by
  have hinv' := hinv.of_step hbelow hstep
  have hlast := L.last_le
  cases event with
  | store word value =>
    rw [hinv.stores_store hstep]
    obtain ⟨hpage, hfree, hown, rfl⟩ := hinv.store_cases hstep
    have hwalk : ∀ page < L.pages, walk (Function.update memory word value) L.p4 page =
        walk memory L.p4 page := fun page hpage => hinv.walk_store hfree hpage value
    refine ⟨fun page hlow hopen hnew => hbound page hlow hopen ((hwalk page hlow).symm.trans hnew),
      fun w hw => Function.update_of_ne (List.ne_of_not_mem_cons hw) _ _, fun w hw => ?_, ?_⟩
    · rw [List.mem_singleton.mp hw]
      exact Or.inr ⟨hbound _ hpage hfree hown, hfree, (hwalk _ hpage).trans hown⟩
    · exact fun page hpage _ hold => (hwalk page hpage).trans hold
  | fault cr2 =>
    have hlt : cr2 < 4096 * L.last := hbelow
    have hcovered : cr2 < 4096 * L.pages := by
      unfold Layout.pages
      omega
    rw [stepMachine] at hstep
    split_ifs at hstep with hallowed
    rcases hinv.fault_cases hcovered hallowed.2 with ⟨-, hexec⟩ | ⟨hfree, machine, hexec, hhandled, hstored⟩
    · rw [hexec] at hstep
      cases hstep
    · have hrecorded := recorded_pageFaultExceptionHandler cr2 (4096 * L.p4) ⟨memory, []⟩
      rw [Event.stores, hexec]
      rw [hexec] at hstep hrecorded
      cases hstep
      have hpage : cr2 / 4096 < L.pages := by omega
      have hwalk : ∀ page < L.pages, walk machine.memory L.p4 page =
          if page = cr2 / 4096 then some ⟨page, true, true⟩ else walk memory L.p4 page := by
        intro page hlow
        rw [hinv'.linked.walk_of_lt hlow, hinv.linked.walk_of_lt hlow, hhandled.lookup page hlow]
        have hle := L.pages_le
        split_ifs with heq
        · rw [heq, resolve1_own (by omega)]
        · rfl
      refine ⟨fun page hlow hopen hnew => ?_, hrecorded.other, fun w hw => ?_, fun page hlow _ hown => ?_⟩
      · by_cases heq : page = cr2 / 4096
        · omega
        · rw [OwnPage, hwalk page hlow, if_neg heq] at hnew
          exact hbound page hlow hopen hnew
      · rcases hstored w hw with hold | hown | htable
        · cases hold
        · rw [hown]
          exact Or.inr ⟨by omega, hfree, (hwalk _ hpage).trans (if_pos rfl)⟩
        · exact Or.inl htable
      · rw [OwnPage, hwalk page hlow]
        split_ifs with heq
        · rfl
        · exact hown

theorem Inv.tracked_run (hinv : Inv L memory) (hbelow : ∀ event ∈ events, event.Below (4096 * L.last))
    (hrun : run (stepMachine (4096 * L.p4)) memory events = some memory') (hbound : OwnBelow L memory) :
    Tracked L memory memory' (storesAlong (4096 * L.p4) memory events) := by
  induction events generalizing memory with
  | nil =>
    cases hrun
    exact .refl L _
  | cons event events ih =>
    obtain ⟨hfirst, hrest⟩ := List.forall_mem_cons.mp hbelow
    obtain ⟨next, hstep, hlater⟩ := Option.bind_eq_some_iff.mp hrun
    obtain ⟨hbound', htracked⟩ := hinv.tracked_step hfirst hstep hbound
    rw [storesAlong, hstep]
    exact htracked.trans (ih (hinv.of_step hfirst hstep) hrest hlater hbound')

/-- A word that a run has not stored to is as it was in a flat memory, too. -/
theorem Inv.foldl_onFlat_of_not_mem (hinv : Inv L memory)
    (hbelow : ∀ event ∈ events, event.Below (4096 * L.last))
    (hrun : run (stepMachine (4096 * L.p4)) memory events = some memory') {w : Nat}
    (hw : w ∉ storesAlong (4096 * L.p4) memory events) (flat : Nat → Nat) :
    events.foldl Event.onFlat flat w = flat w := by
  induction events generalizing memory flat with
  | nil => rfl
  | cons event events ih =>
    obtain ⟨hfirst, hrest⟩ := List.forall_mem_cons.mp hbelow
    obtain ⟨next, hstep, hlater⟩ := Option.bind_eq_some_iff.mp hrun
    rw [storesAlong, hstep] at hw
    rw [List.foldl_cons,
      ih (hinv.of_step hfirst hstep) hrest hlater fun hnew => hw (List.mem_append_right _ hnew)]
    cases event with
    | store word value =>
      rw [hinv.stores_store hstep] at hw
      exact Function.update_of_ne (List.ne_of_not_mem_cons hw) _ _
    | fault cr2 => rfl

/-- A byte after a run of a flat memory depends on that byte alone. -/
theorem byteOf_foldl_onFlat {flat flat' : Nat → Nat} {o : Nat} (h : byteOf flat o = byteOf flat' o)
    (events : List Event) :
    byteOf (events.foldl Event.onFlat flat) o = byteOf (events.foldl Event.onFlat flat') o := by
  induction events generalizing flat flat' with
  | nil => exact h
  | cons event events ih =>
    apply ih
    cases event with
    | store word value =>
      by_cases heq : o / 8 = word
      · apply byteOf_congr
        rw [Event.onFlat, Event.onFlat, heq, Function.update_self, Function.update_self]
      · rw [Event.onFlat, Event.onFlat, byteOf_congr (Function.update_of_ne heq value flat),
          byteOf_congr (Function.update_of_ne heq value flat'), h]
    | fault cr2 => exact h

end Steps

theorem SetUp.ownBelow {L : Layout} {ranges : List PresentRange} {guestMem guestMem' : Words}
    {stackStart lastAddress cr3 : Nat} {interruptRange : Nat × Nat} {metadata : PageFaultMetadata}
    (h : SetUp L ranges guestMem guestMem' stackStart interruptRange lastAddress cr3 metadata) :
    OwnBelow L guestMem'.word := by
  intro page hpage hfree hown
  by_contra hge
  have hfit := L.tables_fit
  have hinterrupt := L.interrupt_le
  have hend := L.interruptEnd_le
  have htables := L.tables_le
  unfold Layout.pages at hpage
  have hlow : page % 512 ^ 3 = page := by omega
  have hnone : presentEntry ranges page = none := by
    cases hpresent : presentEntry ranges page with
    | none => rfl
    | some e =>
      obtain ⟨range, hrange, -, hpast, -⟩ := exists_range_of_present hpresent
      have hbelow := h.end_lt range hrange
      unfold pastPage at hpast
      omega
  rw [OwnPage, h.built.walk_eq, if_pos (by omega), hlow, Layout.entryAt, if_neg (by omega), if_neg hfree,
    hnone] at hown
  cases hown

theorem SetUp.step_heapEnd {L : Layout} {ranges : List PresentRange} {guestMem guestMem' : Words}
    {stackStart lastAddress cr3 : Nat} {interruptRange : Nat × Nat} {metadata : PageFaultMetadata}
    (h : SetUp L ranges guestMem guestMem' stackStart interruptRange lastAddress cr3 metadata)
    {pages : ContextRef → Option PoolPages} {file : Int → Nat → UInt8} {context : KvmContext}
    (hstarts : Starts pages file context L ranges guestMem'.word)
    (hvalid : ValidOverlay context.storage.length context.overlay) {baseAddress : Nat}
    (hstored : locate context.overlay (baseAddress + 16) = some none) (heapEnd : Nat) :
    stepMachine (4096 * L.p4) guestMem'.word (.store ((baseAddress + 16) / 8) heapEnd) =
      some (withHeapEnd guestMem'.word baseAddress heapEnd) := by
  obtain ⟨hbase, hown⟩ := h.walk_stored hstarts hvalid hstored
  have hfit := L.tables_fit
  have hinterrupt := L.interrupt_le
  have hend := L.interruptEnd_le
  have hlast := L.last_le
  have hword : (baseAddress + 16) / 8 / 512 = (baseAddress + 16) / 4096 := by omega
  apply step_own
  · unfold Layout.pages
    omega
  · rw [hword]
    exact hown

/-! ## The context afterwards -/

/-- The storage holds the memory of the machine up to the bound. Behind it the machine and its handlers
keep notes that no event tells of: saved registers on the interrupt stack, accessed bits in the tables. -/
structure StoredUpTo (bound : Nat) (memory : Nat → Nat) (storage : List UInt8) (length : Nat) : Prop where
  length_eq : storage.length = length
  bytes : ∀ o < bound, storage[o]? = some (byteOf memory o)

/-- What a context shows, with zeros where it has no pages. -/
def shownWord (context : KvmContext) : Nat → Nat := wordOf fun o => (context.view o).getD 0

theorem exists_storedUpTo {bound length : Nat} (hle : bound ≤ length) (memory : Nat → Nat) :
    ∃ storage, StoredUpTo bound memory storage length := by
  refine ⟨(List.range length).map (byteOf memory), ?_, fun o ho => ?_⟩
  · rw [List.length_map, List.length_range]
  · rw [List.getElem?_map, List.getElem?_range (ho.trans_le hle)]
    rfl

theorem byteOf_shownWord (context : KvmContext) (o : Nat) :
    byteOf (shownWord context) o = (context.view o).getD 0 :=
  byteOf_wordOf _ o

theorem Layout.open_of_lt (L : Layout) {o : Nat} (ho : o < 4096 * L.stackStart) :
    o < 4096 * L.last ∧ o / 4096 < L.pages ∧ ¬ L.Reserved (o / 4096) := by
  have hfit := L.tables_fit
  have hinterrupt := L.interrupt_le
  have hend := L.interruptEnd_le
  have hlast := L.last_le
  unfold Layout.stackStart at ho
  refine ⟨by omega, ?_, ?_⟩
  · unfold Layout.pages
    omega
  · unfold Layout.Reserved
    omega

section Runs

variable {pages : ContextRef → Option PoolPages} {file : Int → Nat → UInt8}
  {mmap : MapCall → DandelionResult Unit} {storageAddress entryPoint : Nat} {context : KvmContext}
  {placement : Placement} {handlers : FaultHandlers} {state : VcpuState} {metadata : PageFaultMetadata}
  {events : List Event} {memory : Nat → Nat} {dirtyLog : List DirtyWord} {systemDataOffset : Nat}
  {after : KvmContext} {storage : List UInt8} {bound : Nat}

/-- The dirty log has pages of the memory, up to the bound just those that the machine has stored to. -/
structure Logs (dirtyLog : List DirtyWord) (stores : List Nat) (bound length : Nat) : Prop where
  inside : ∀ page, dirtyBit dirtyLog page = true → page < length / pageSize
  stored : ∀ o < bound,
    (dirtyBit dirtyLog (o / pageSize) = true ↔ ∃ w ∈ stores, w / 512 = o / pageSize)

theorem exists_dirtyLog (n : Nat) (p : Nat → Bool) :
    ∃ dirtyLog, ∀ page, dirtyBit dirtyLog page = true ↔ page < n ∧ p page = true := by
  refine ⟨(List.range n).map fun i => (BitVec.ofBoolListLE
    ((List.range 64).map fun j => decide (64 * i + j < n) && p (64 * i + j))).setWidth 64, fun page => ?_⟩
  rw [dirtyBit, List.getD_eq_getElem?_getD, List.getElem?_map]
  by_cases hpage : page / 64 < n
  · have hbit : page % 64 < 64 := Nat.mod_lt _ (by decide)
    rw [List.getElem?_range hpage, Option.map_some, Option.getD_some, BitVec.getLsbD_setWidth,
      BitVec.getLsbD_ofBoolListLE, List.getD_eq_getElem?_getD, List.getElem?_map, List.getElem?_range hbit,
      Option.map_some, Option.getD_some, Nat.div_add_mod, decide_eq_true hbit, Bool.true_and,
      Bool.and_eq_true, decide_eq_true_iff]
  · rw [List.getElem?_eq_none (by rw [List.length_range]; omega), Option.map_none, Option.getD_none]
    exact iff_of_false (fun hbit => Bool.false_ne_true (BitVec.getLsbD_zero.symm.trans hbit))
      (fun hlt => by omega)

theorem exists_logs (stores : List Nat) {length : Nat}
    (hbound : ∀ o < bound, o / pageSize < length / pageSize) :
    ∃ dirtyLog, Logs dirtyLog stores bound length := by
  obtain ⟨dirtyLog, hbits⟩ := exists_dirtyLog (length / pageSize)
    fun page => decide (∃ w ∈ stores, w / 512 = page)
  refine ⟨dirtyLog, fun page hdirty => ((hbits page).mp hdirty).1, fun o ho => ?_⟩
  rw [hbits, decide_eq_true_iff, and_iff_right (hbound o ho)]

/-- The pages of the log have been taken into the storage. -/
structure TakenBack (context : KvmContext) (dirtyLog : List DirtyWord) (storage : List UInt8)
    (context' : KvmContext) : Prop where
  storage : context'.storage = storage
  paged : PagedOverlay context'.overlay
  located : ∀ o, locate context'.overlay o =
    if dirtyBit dirtyLog (o / pageSize) then some none else locate context.overlay o

theorem Logs.ownPage {L : Layout} {memory' : Nat → Nat} {stores : List Nat} {length o : Nat}
    (hlog : Logs dirtyLog stores bound length) (h : Tracked L memory memory' stores) (ho : o < bound)
    (hfree : ¬ L.Reserved (o / pageSize)) (hdirty : dirtyBit dirtyLog (o / pageSize) = true) :
    OwnPage L memory' (o / pageSize) := by
  obtain ⟨w, hw, hpage⟩ := (hlog.stored o ho).mp hdirty
  rw [← hpage] at hfree ⊢
  rcases h.frames w hw with htable | ⟨-, -, hown⟩
  · exact absurd (Layout.Reserved.of_table htable) hfree
  · exact hown

theorem Logs.not_mem {stores : List Nat} {length o : Nat} (hlog : Logs dirtyLog stores bound length)
    (ho : o < bound) (hclean : dirtyBit dirtyLog (o / pageSize) = false) : o / 8 ∉ stores := by
  intro hw
  have hset := (hlog.stored o ho).mpr ⟨o / 8, hw, by unfold pageSize; omega⟩
  rw [hclean] at hset
  cases hset

theorem exists_takenBack (hvalid : Valid context)
    (hpages : ∀ page, dirtyBit dirtyLog page = true → page < context.storage.length / pageSize)
    (storage : List UInt8) :
    ∃ context', applyDirtyLog takeIntoStorage dirtyLog ⟨context.overlay, storage⟩ = .ok context' ∧
      TakenBack context dirtyLog storage context' := by
  have hbytes : ∀ start stop, BitRuns.IsRun (dirtyBit dirtyLog) start stop →
      stop * pageSize < Usize.limit := by
    intro start stop hrun
    have hlt := hrun.lt
    have hpage := hpages (stop - 1) (hrun.ones (by omega) (by omega))
    have hlength := hvalid.storage_le
    unfold pageSize at hpage
    unfold pageSize Usize.limit
    unfold Usize.isizeMax at hlength
    omega
  obtain ⟨-, -, -, -, htaken⟩ := applyDirtyLog_runs dirtyLog hbytes
  obtain ⟨overlay, hok, hpaged, hlocate⟩ := htaken ⟨context.overlay, storage⟩ hvalid.overlay.paged
  exact ⟨_, hok, rfl, hpaged, hlocate⟩

theorem TakenBack.valid {context' : KvmContext} (h : TakenBack context dirtyLog storage context')
    (hvalid : Valid context) (hstorage : storage.length = context.storage.length)
    (hdirty : ∀ page, dirtyBit dirtyLog page = true → page < context.storage.length / pageSize) :
    Valid context' := by
  have hlength : context'.storage.length = context.storage.length := by rw [h.storage, hstorage]
  -- what is at an offset now was there, or is in the storage
  have hcases : ∀ {last start o item}, context'.overlay.get? last = some (start, item) → start ≤ o →
      o ≤ last → (o < context.storage.length ∧ (o - start) +ᵥ item = none) ∨
        ∃ last' start' item', context.overlay.get? last' = some (start', item') ∧ start' ≤ o ∧ o ≤ last' ∧
          (o - start) +ᵥ item = (o - start') +ᵥ item' := by
    intro last start o item hget hstart hlast
    have hlocate := (h.paged.separate.locate_of_mem hget hstart hlast).symm.trans (h.located o)
    cases hbit : dirtyBit dirtyLog (o / pageSize) with
    | true =>
      rw [hbit, if_pos rfl] at hlocate
      have hpage := hdirty _ hbit
      unfold pageSize at hpage
      exact Or.inl ⟨by omega, Option.some.inj hlocate⟩
    | false =>
      rw [hbit, if_neg Bool.false_ne_true] at hlocate
      exact Or.inr ((hvalid.overlay.separate.locate_eq_some_iff o _).mp hlocate.symm)
  refine ⟨⟨h.paged.separate, h.paged.aligned, fun {last start item} hget => ?_,
    fun {last start item} hget => ⟨(h.paged.items hget).lawful, ?_⟩⟩, ?_, ?_⟩
  · rw [hlength]
    rcases hcases hget (h.paged.separate.pos hget) (Nat.le_refl _) with
      ⟨hlt, -⟩ | ⟨last', _, _, hget', -, hle, -⟩
    · exact hlt
    · exact lt_of_le_of_lt hle (hvalid.overlay.inside hget')
  · rcases hcases hget (h.paged.separate.pos hget) (Nat.le_refl _) with
      ⟨-, hnone⟩ | ⟨last', start', item', hget', hstart', hle, heq⟩
    · cases hnone
    · cases item' with
      | none => cases heq
      | some item' =>
        rw [vadd_some, vadd_some, Option.some.injEq, OverlayItem.mk.injEq] at heq
        have hfits := (hvalid.overlay.items hget').fits
        have hpos := h.paged.separate.pos hget
        rw [heq.1]
        omega
  · rw [hlength]
    exact hvalid.storage_pages
  · rw [hlength]
    exact hvalid.storage_le

/-- A page that the function has stored to or that the handler has made its own: it is in the storage,
with what the function sees there. -/
theorem TakenBack.view_dirty {context' : KvmContext} (h : TakenBack context dirtyLog storage context')
    {L : Layout} {length o : Nat} (hstorage : StoredUpTo bound memory storage length) (ho : o < bound)
    (hdirty : dirtyBit dirtyLog (o / pageSize) = true) (hown : OwnPage L memory (o / pageSize)) :
    context'.view o = some (byteOf (seen memory L.p4) o) := by
  have hlocate := h.located o
  rw [hdirty, if_pos rfl] at hlocate
  have hbyte : byteOf (seen memory L.p4) o = byteOf memory o := by
    rw [byteOf_seen hown]
    exact congrArg (byteOf memory) (Nat.div_add_mod o pageSize)
  rw [view, hlocate, h.storage, hbyte]
  exact hstorage.bytes o ho

/-- A page that was not stored to is where it was, with the bytes that it had. -/
theorem TakenBack.view_clean {context' : KvmContext} (h : TakenBack context dirtyLog storage context')
    {length o : Nat} (hstorage : StoredUpTo bound memory storage length) (ho : o < bound)
    (hclean : dirtyBit dirtyLog (o / pageSize) = false)
    (hsame : locate context.overlay o = some none → context.view o = some (byteOf memory o)) :
    context'.view o = context.view o := by
  have hlocate := h.located o
  rw [hclean, if_neg Bool.false_ne_true] at hlocate
  rw [view, hlocate]
  cases hold : locate context.overlay o with
  | none => rw [view, hold]
  | some located =>
    cases located with
    | some item => rw [view, hold]
    | none =>
      rw [hsame hold]
      dsimp only
      rw [h.storage]
      exact hstorage.bytes o ho

/-- After a run whose page faults are all in the memory, the context shows below the large page of the
stack what it showed before with the end of the heap and the stores of the function. It has the pages
that it had, and those that were stored to. -/
theorem context_after_run (hvalid : Valid context) (hhandlers : handlers.OnePage)
    (hfiles : FilesHold pages file context.overlay)
    (hplace : placeItems pages mmap storageAddress context.storage.length context.overlay = .ok placement)
    (hinit : initVcpu handlers entryPoint (guestMemory file storageAddress context.storage placement.calls)
      placement.mappings placement.stackStart context.storage.length = .ok (state, metadata))
    (hstored : locate context.overlay (systemDataOffset + 16) = some none)
    (hend : writeHeapEnd context systemDataOffset metadata.stackStart = .ok after)
    (hbelow : ∀ event ∈ events, event.Below context.storage.length)
    (hrun : run (stepMachine state.cr3)
      (withHeapEnd state.memory.word systemDataOffset metadata.stackStart) events = some memory)
    (hlog : Logs dirtyLog (storesAlong state.cr3
        (withHeapEnd state.memory.word systemDataOffset metadata.stackStart) events)
      (metadata.stackStart / largePage * largePage) context.storage.length)
    (hstorage : StoredUpTo (metadata.stackStart / largePage * largePage) memory storage
      context.storage.length) :
    ∃ context', applyDirtyLog takeIntoStorage dirtyLog ⟨after.overlay, storage⟩ = .ok context' ∧
      Valid context' ∧
      ∀ o < metadata.stackStart / largePage * largePage,
        (context'.view o).getD 0 = byteOf (events.foldl Event.onFlat
          (withHeapEnd (shownWord context) systemDataOffset metadata.stackStart)) o ∧
        ((context'.view o).isSome ↔ (context.view o).isSome ∨ dirtyBit dirtyLog (o / pageSize) = true) := by
  obtain ⟨L, words, interruptStart, hsetUp, hstarts⟩ :=
    initVcpu_starts hvalid.overlay hvalid.storage_pages hhandlers hplace hinit
  have hinv := hsetUp.built.inv hsetUp.placed
  have hwritten := heapEndWritten hvalid hstored hend
  have hbelow' : ∀ event ∈ events, event.Below (4096 * L.last) := hsetUp.last_eq ▸ hbelow
  -- the end of the heap is written like a store of the function
  have hstep := hsetUp.step_heapEnd hstarts hvalid.overlay hstored metadata.stackStart
  have hinv' := hinv.of_store hstep
  have hfirst : (Event.store ((systemDataOffset + 16) / 8) metadata.stackStart).Below (4096 * L.last) :=
    trivial
  have hbound := (hinv.tracked_step hfirst hstep hsetUp.ownBelow).1
  have hall : run (stepMachine state.cr3) state.memory.word
      (.store ((systemDataOffset + 16) / 8) metadata.stackStart :: events) = some memory := by
    rw [run, hsetUp.cr3_eq, hstep, Option.bind_some, ← hsetUp.cr3_eq]
    exact hrun
  rw [hsetUp.cr3_eq] at hrun hlog
  have htracked := hinv'.tracked_run hbelow' hrun hbound
  have hpages : ∀ page, dirtyBit dirtyLog page = true → page < after.storage.length / pageSize :=
    hwritten.length ▸ hlog.inside
  obtain ⟨context', hok, htaken⟩ := exists_takenBack hwritten.valid hpages storage
  refine ⟨context', hok,
    htaken.valid hwritten.valid (hstorage.length_eq.trans hwritten.length.symm) hpages, fun o ho => ?_⟩
  have hstart : o < 4096 * L.stackStart := by
    rw [hsetUp.metadata_eq] at ho
    unfold largePage at ho
    unfold Layout.stackStart
    dsimp only at ho
    omega
  obtain ⟨hin, hlow, hfree⟩ := L.open_of_lt hstart
  cases hdirty : dirtyBit dirtyLog (o / pageSize) with
  | true =>
    -- the page is the function's own, which sees a flat memory
    have hpage : o / 8 / 512 = o / 4096 := by omega
    have hallBelow : ∀ event ∈ Event.store ((systemDataOffset + 16) / 8) metadata.stackStart :: events,
        event.Below context.storage.length := List.forall_mem_cons.mpr ⟨trivial, hbelow⟩
    have hseen := hsetUp.seen_run hallBelow hall (hpage ▸ hlow) (hpage ▸ hfree)
    rw [List.foldl_cons] at hseen
    have hpatched :
        byteOf (withHeapEnd (seen state.memory.word L.p4) systemDataOffset metadata.stackStart) o =
          byteOf (withHeapEnd (shownWord context) systemDataOffset metadata.stackStart) o := by
      rw [byteOf_withHeapEnd, byteOf_withHeapEnd, hstarts.seen_eq hvalid.overlay hfiles hstart,
        byteOf_shownWord]
    rw [htaken.view_dirty hstorage ho hdirty (hlog.ownPage htracked ho hfree hdirty), Option.getD_some,
      byteOf_congr hseen]
    exact ⟨byteOf_foldl_onFlat hpatched events, by simp⟩
  | false =>
    -- the page is where it was, and the function has stored nothing to it
    have hclean := hlog.not_mem ho hdirty
    have hsame : locate after.overlay o = some none → after.view o = some (byteOf memory o) := by
      intro hlocate
      rw [hwritten.view, byteOf_congr (htracked.other _ hclean), byteOf_withHeapEnd]
      split_ifs with heq
      · rfl
      · rw [view_of_stored (hwritten.stored o hlocate) (hsetUp.last_eq ▸ hin), hstarts.stored o hstart]
    rw [htaken.view_clean hstorage ho hdirty hsame, hwritten.shown,
      byteOf_congr (hinv'.foldl_onFlat_of_not_mem hbelow' hrun hclean _), byteOf_withHeapEnd, hwritten.view]
    refine ⟨?_, by simp⟩
    split_ifs with heq
    · rfl
    · exact (byteOf_shownWord context o).symm

end Runs

def filePage : KvmContext := ⟨⟨[(4095, 0, none)], by decide⟩, List.replicate 4096 7⟩

theorem valid_filePage : Valid filePage := by
  refine valid_of_entries ?_ (by simp) (by simp) ?_ ?_
  · intro entry hentry
    rw [List.mem_singleton.mp hentry, List.length_replicate]
    decide
  · rw [List.length_replicate]
    decide
  · rw [List.length_replicate]
    decide

theorem filePage_view {o : Nat} (ho : o < 4096) : filePage.view o = some 7 := by
  have hlocate : locate filePage.overlay o = some none := by
    refine congrArg _ ((List.find?_cons_of_pos ?_).trans rfl)
    exact decide_eq_true ⟨Nat.zero_le o, by dsimp only; omega⟩
  rw [view, hlocate]
  exact (List.getElem?_replicate_of_lt ho)

/-- A context of eight megabytes with the page of the file, and a page for the system data. -/
def filePageContext : KvmContext :=
  ⟨⟨[(8191, 4096, some ⟨filePage.toRef, 0⟩), (12287, 8192, none)], by simp⟩, List.replicate 8388608 0⟩

theorem length_filePageContext : filePageContext.storage.length = 8388608 := List.length_replicate

theorem valid_filePageContext : Valid filePageContext := by
  refine valid_of_entries ?_ (by simp) ?_ ?_ ?_
  · intro entry hentry
    rcases List.mem_pair.mp hentry with rfl | rfl
    · rw [List.length_replicate]
      decide
    · rw [List.length_replicate]
      decide
  · intro entry hentry item hitem
    rcases List.mem_pair.mp hentry with rfl | rfl
    · cases hitem
      refine ⟨toRef_lawful valid_filePage, ?_⟩
      exact le_of_eq List.length_replicate.symm
    · cases hitem
  · rw [List.length_replicate]
    decide
  · rw [List.length_replicate]
    decide

/-- The page of the file can be read, so that writes to the context succeed. -/
theorem solid_filePageContext : Solid filePageContext.overlay := by
  intro last start item hget distance buffer hle
  rcases List.mem_pair.mp ((OrderedMap.get?_eq_some_iff _ _ _).mp hget) with heq | heq
  · cases heq
    dsimp only at hle ⊢
    rw [Nat.zero_add]
    rcases Nat.eq_zero_or_pos buffer.length with hzero | hpos
    · change (KvmContext.read 1 filePage distance buffer).2 = _
      rw [KvmContext.read, if_neg (by omega), Usize.add_eq_ok (by unfold Usize.limit; omega)]
      dsimp only
      rw [filePage, List.length_replicate, if_neg (by omega), if_pos hzero]
      rfl
    · refine (toRef_lawful valid_filePage).read_defined distance buffer hpos fun i hi => ?_
      change (filePage.view (distance + i)).isSome
      rw [filePage_view (by omega)]
      rfl
  · cases heq

theorem writeHeapEnd_filePage (heapEnd : Nat) : ∃ after,
    writeHeapEnd filePageContext 8192 heapEnd = .ok after := by
  have hdata : (leBytes 8 heapEnd).length = 8 := length_leBytes 8 heapEnd
  have hlimit : 8192 + 16 + (leBytes 8 heapEnd).length < Usize.limit := by
    rw [hdata]
    decide
  have hfits : 8192 + 16 + (leBytes 8 heapEnd).length ≤ filePageContext.storage.length := by
    rw [hdata, length_filePageContext]
    decide
  have hok := (write_solid valid_filePageContext.paged solid_filePageContext (by decide : (8192 + 16) % 8 = 0)
    (List.length_pos_iff.mp (by omega)) hlimit hfits).1
  refine ⟨(write 8 filePageContext (8192 + 16) (leBytes 8 heapEnd)).1, ?_⟩
  rw [writeHeapEnd, Usize.add_eq_ok (by decide), ok_bind]
  dsimp only
  rw [hok]
  rfl

/-- Its pages: those of the file are a block at the end of the memory. -/
def filePageRanges : List PresentRange := [(4096, 8191, some 6295552), (8192, 12287, none)]

theorem filePageRanges_promised : Promised filePageRanges 6287360 (6287360, 6295552) 8388608 where
  stack_aligned := by decide
  interrupt_aligned := by decide
  last_aligned := by decide
  stack_le := by decide
  interrupt_le := by decide
  interrupt_last := by decide
  range_aligned := by decide
  ascending := by decide
  block := by
    intro range hrange block hblock
    rcases List.mem_pair.mp hrange with rfl | rfl
    · cases hblock
      decide
    · cases hblock

theorem initVcpu_filePage (guestMem : GuestMem) (hlength : guestMem.length = 8388608) :
    ∃ state metadata, initVcpu shortHandlers 4096 guestMem filePageRanges 6295552 8388608 =
        .ok (state, metadata) ∧ metadata.stackStart = 4177920 := by
  obtain ⟨mem, htable, hsame⟩ := setInterruptTable_eq_ok shortHandlers_onePage
    (show 6295552 ≤ guestMem.length by omega) (by decide)
  have hroom : 6287360 = 4177920 + 513 * 4096 * p2TableNumber 8388608 + 8192 := by decide
  obtain ⟨L, hL⟩ := filePageRanges_promised.describes (by decide) hroom
  have hstack := hL.stack_eq
  have hlast := hL.last_eq
  have htables : L.tables = p2TableNumber (4096 * L.last) := by rw [hlast, hL.tables_eq]
  have hmemory : L.p4 + 1 ≤ mem.words.length / 512 := by
    change _ ≤ mem.length / 8 / 512
    omega
  have hend : ∀ range ∈ filePageRanges, range.2.1 < 4096 * L.base := by
    rw [hL.base_eq]
    decide
  obtain ⟨memory, hset, -⟩ := setPageTable_layout mem.words htables (by rw [hlast]; decide) hmemory
    hL.placed filePageRanges_promised.ascending hend
  rw [hstack, hL.interrupt_eq, hlast, hL.base_eq] at hset
  rw [initVcpu, htable, ok_bind]
  dsimp only
  rw [show 6295552 - 2 * pageSize = 6287360 from rfl, hset, ok_bind]
  exact ⟨_, _, rfl, rfl⟩

/-- The store to the page of the file is in the storage afterwards, with the rest of the page and the
end of the heap. -/
theorem filePage_after_run : ∃ state metadata after events memory storage dirtyLog context',
    initVcpu shortHandlers 4096
        (guestMemory (fun _ _ => 7) 4294967296 filePageContext.storage [⟨4301262848, 4096, 3, 40960⟩])
        filePageRanges 6295552 filePageContext.storage.length = .ok (state, metadata) ∧
      writeHeapEnd filePageContext 8192 metadata.stackStart = .ok after ∧
      run (stepMachine state.cr3) (withHeapEnd state.memory.word 8192 metadata.stackStart) events =
        some memory ∧
      StoredUpTo (metadata.stackStart / largePage * largePage) memory storage
        filePageContext.storage.length ∧
      applyDirtyLog takeIntoStorage dirtyLog ⟨after.overlay, storage⟩ = .ok context' ∧
      (context'.view 4096).getD 0 = 5 ∧ (context'.view 4104).getD 0 = 7 ∧
      (context'.view 8209).getD 0 = 192 := by
  have hlength := length_filePageContext
  have hplace : placeItems (fun _ => some ⟨3, 10⟩) (fun _ => .ok ()) 4294967296
      filePageContext.storage.length filePageContext.overlay =
      .ok ⟨6295552, filePageRanges, [⟨4301262848, 4096, 3, 40960⟩]⟩ := by
    rw [hlength]
    rfl
  have hfiles : FilesHold (fun _ => some ⟨3, 10⟩) (fun _ _ => 7) filePageContext.overlay := by
    intro last start item source hget _ i hi
    rcases List.mem_pair.mp ((OrderedMap.get?_eq_some_iff _ _ _).mp hget) with heq | heq
    · cases heq
      dsimp only [toRef] at hi ⊢
      rw [Nat.zero_add]
      exact filePage_view (by omega)
    · cases heq
  have hstored : locate filePageContext.overlay (8192 + 16) = some none := rfl
  obtain ⟨state, metadata, hinit, hstack⟩ := initVcpu_filePage
    (guestMemory (fun _ _ => 7) 4294967296 filePageContext.storage [⟨4301262848, 4096, 3, 40960⟩]) hlength
  rw [← hlength] at hinit
  obtain ⟨after, hend⟩ := writeHeapEnd_filePage metadata.stackStart
  obtain ⟨L, words, interruptStart, hsetUp, hstarts⟩ := initVcpu_starts valid_filePageContext.overlay
    valid_filePageContext.storage_pages shortHandlers_onePage hplace hinit
  have hinv := (hsetUp.built.inv hsetUp.placed).of_store
    (hsetUp.step_heapEnd hstarts valid_filePageContext.overlay hstored metadata.stackStart)
  have hbase := congrArg PageFaultMetadata.stackStart hsetUp.metadata_eq
  dsimp only at hbase
  have hfit := L.tables_fit
  have hinterrupt := L.interrupt_le
  have hinterruptEnd := L.interruptEnd_le
  have hlast := L.last_le
  have hlow : 512 / 512 < L.pages := by
    unfold Layout.pages
    omega
  have hfree : ¬ L.Reserved (512 / 512) := by
    rintro (⟨hbelow, -⟩ | ⟨hbelow, -⟩)
    · omega
    · omega
  -- the store is made at once or after a fault, which does not show
  obtain ⟨events, memory, hrun, hbelow, hflat⟩ : ∃ events memory,
      run (stepMachine state.cr3) (withHeapEnd state.memory.word 8192 metadata.stackStart) events =
        some memory ∧
      (∀ event ∈ events, event.Below filePageContext.storage.length) ∧
      ∀ flat, events.foldl Event.onFlat flat = Function.update flat 512 5 := by
    rw [hsetUp.cr3_eq, hlength]
    obtain ⟨memory, hrun | hrun⟩ := hinv.exists_stored hlow hfree 5
    · exact ⟨_, memory, hrun, List.forall_mem_singleton.mpr trivial, fun _ => rfl⟩
    · exact ⟨_, memory, hrun, List.forall_mem_cons.mpr
        ⟨(by decide : 8 * 512 < 8388608), List.forall_mem_singleton.mpr trivial⟩, fun _ => rfl⟩
  have hbound : metadata.stackStart / largePage * largePage = 2097152 := by rw [hstack]; rfl
  obtain ⟨dirtyLog, hlog⟩ := @exists_logs 2097152 (storesAlong state.cr3
    (withHeapEnd state.memory.word 8192 metadata.stackStart) events) 8388608 fun o ho => by
      unfold pageSize
      omega
  obtain ⟨storage, hstorage⟩ := exists_storedUpTo (by decide : 2097152 ≤ 8388608) memory
  rw [← hbound, ← hlength] at hlog hstorage
  obtain ⟨context', hok, -, hshows⟩ := context_after_run valid_filePageContext shortHandlers_onePage hfiles
    hplace hinit hstored hend hbelow hrun hlog hstorage
  refine ⟨state, metadata, after, events, memory, storage, dirtyLog, context', hinit, hend, hrun, hstorage,
    hok, ?_, ?_, ?_⟩
  · rw [(hshows 4096 (by rw [hstack]; decide)).1, hflat]
    exact (@byteOf_congr (fun _ => 5) _ 4096 (Function.update_self 512 5 _)).trans rfl
  · rw [(hshows 4104 (by rw [hstack]; decide)).1, hflat, byteOf_congr (Function.update_of_ne (by decide) _ _),
      byteOf_withHeapEnd, if_neg (by decide), byteOf_shownWord]
    exact congrArg (fun b => b.getD 0) (filePage_view (by decide : 8 < 4096))
  · rw [(hshows 8209 (by rw [hstack]; decide)).1, hflat, byteOf_congr (Function.update_of_ne (by decide) _ _),
      byteOf_withHeapEnd, if_pos (by decide), hstack]
    rfl

end Dandelion.Kvm
