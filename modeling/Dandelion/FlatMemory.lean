import Dandelion.PageFaultSafety

/-!
# The memory of a function

Behind its page tables the function has one flat memory: at a word it finds what it has stored there
last, or what was there when it started. Faults are steps of a run too, but they do not change this
memory; and a store to a page that is not closed to the function can always be made, after a fault
of the page if it needs one.
-/

open Outcome Stateful Paging PagedMachine Transitions

namespace Dandelion.Kvm

/-- What the function finds at a word of its address space. -/
def seen (memory : Nat → Nat) (root word : Nat) : Nat := content memory root (word / 512) (word % 512)

/-- A flat memory after an event. -/
def Event.onFlat (flat : Nat → Nat) : Event → Nat → Nat
  | .store word value => Function.update flat word value
  | .fault _ => flat

/-- The page is not one of those that are there but closed to the function. -/
def OpenPage (memory : Nat → Nat) (root page : Nat) : Prop :=
  ∀ t, walk memory root page = some t → t.user = true

section Steps

variable {L : Layout} {memory memory' : Nat → Nat} {word value page : Nat}

theorem Inv.openPage_iff (hinv : Inv L memory) (hpage : page < L.pages) :
    OpenPage memory L.p4 page ↔ ¬ L.Reserved page := by
  constructor
  · intro huser hreserved
    have hclosed := huser _ (hinv.walk_reserved hreserved)
    cases hclosed
  · intro hfree t hwalk
    rcases hinv.walk_cases hpage hfree with hnone | hown | ⟨f, hcopy, -, -⟩
    · cases hnone.symm.trans hwalk
    · cases hown.symm.trans hwalk
      rfl
    · cases hcopy.symm.trans hwalk
      rfl

/-- A store goes to the page of its own address, which is not reserved. -/
theorem Inv.store_cases (hinv : Inv L memory)
    (hstep : stepMachine (4096 * L.p4) memory (.store word value) = some memory') :
    word / 512 < L.pages ∧ ¬ L.Reserved (word / 512)
      ∧ walk memory L.p4 (word / 512) = some ⟨word / 512, true, true⟩
      ∧ memory' = Function.update memory word value := by
  have hroot : 4096 * L.p4 / pageSize = L.p4 := Nat.mul_div_cancel_left _ (by decide)
  have hpage : 8 * word / 4096 = word / 512 := by omega
  rw [stepMachine, hroot] at hstep
  cases ht : PagedMachine.translate memory L.p4 (8 * word) with
  | none =>
    rw [ht] at hstep
    cases hstep
  | some t =>
    rw [ht] at hstep
    dsimp only at hstep
    split_ifs at hstep with hallowed
    obtain ⟨hwritable, huser⟩ := Bool.and_eq_true_iff.mp hallowed
    unfold PagedMachine.translate at ht
    split_ifs at ht with hcanonical
    rw [hpage] at ht
    have hlt : word / 512 < L.pages := by
      rw [hinv.linked.walk_eq] at ht
      split_ifs at ht with hin
      -- no canonical address but a low one has the first p4 entry
      unfold Canonical at hcanonical
      unfold Layout.pages
      omega
    have hfree : ¬ L.Reserved (word / 512) := by
      intro hreserved
      rw [hinv.walk_reserved hreserved] at ht
      cases ht
      cases huser
    refine ⟨hlt, hfree, ?_⟩
    rcases hinv.walk_cases hlt hfree with hnone | hown | ⟨f, hcopy, -, -⟩
    · cases hnone.symm.trans ht
    · refine ⟨hown, ?_⟩
      cases hown.symm.trans ht
      cases hstep
      rw [Nat.div_add_mod]
    · cases hcopy.symm.trans ht
      cases hwritable

/-- The tables are as before after a store to a page that is not reserved. -/
theorem Inv.walk_store (hinv : Inv L memory) (hfree : ¬ L.Reserved (word / 512)) (hpage : page < L.pages)
    (value : Nat) : walk (Function.update memory word value) L.p4 page = walk memory L.p4 page := by
  have hother : ∀ w, w / 512 ≠ word / 512 → Function.update memory word value w = memory w := by
    intro w hw
    apply Function.update_of_ne
    rintro rfl
    exact hw rfl
  obtain ⟨hlinked, hlookup⟩ := sameSpace_of_frame hinv.linked
    (fun hin => hfree (Layout.reserved_table hin.1 hin.2).1) hother
  rw [hlinked.walk_of_lt hpage, hlookup page hpage, hinv.linked.walk_of_lt hpage]

/-- A store shows at its word and at no other word of the function. -/
theorem Inv.seen_store (hinv : Inv L memory)
    (hown : walk memory L.p4 (word / 512) = some ⟨word / 512, true, true⟩)
    (hfree : ¬ L.Reserved (word / 512)) {w : Nat} (hw : w / 512 < L.pages)
    (hopen : ¬ L.Reserved (w / 512)) :
    seen (Function.update memory word value) L.p4 w
      = Function.update (seen memory L.p4) word value w := by
  have hwalk := hinv.walk_store hfree hw value
  have hword : 512 * (w / 512) + w % 512 = w := Nat.div_add_mod _ _
  rw [seen, Function.update_apply]
  split_ifs with heq
  · subst heq
    rw [content_eq (hwalk.trans hown)]
    dsimp only
    rw [hword, Function.update_self]
  · rw [seen]
    rcases hinv.walk_cases hw hopen with hnone | hself | ⟨f, hcopy, hmin, hmax⟩
    · rw [content_eq_zero hnone, content_eq_zero (hwalk.trans hnone)]
    · rw [content_eq hself, content_eq (hwalk.trans hself)]
      dsimp only
      rw [hword, Function.update_of_ne heq]
    · -- the frame of a copy is one of the blocks, which are reserved
      rw [content_eq hcopy, content_eq (hwalk.trans hcopy)]
      apply Function.update_of_ne
      rintro rfl
      apply hfree
      have hframe : (512 * f + w % 512) / 512 = f := by omega
      dsimp only
      rw [hframe]
      exact Or.inr ⟨le_trans L.interrupt_le hmin, hmax⟩

theorem Inv.seen_fault (hinv : Inv L memory) {cr2 : Nat} (hlt : cr2 < 4096 * L.pages)
    (hstep : stepMachine (4096 * L.p4) memory (.fault cr2) = some memory') {w : Nat}
    (hw : w / 512 < L.pages) (hopen : ¬ L.Reserved (w / 512)) :
    seen memory' L.p4 w = seen memory L.p4 w := by
  rw [stepMachine] at hstep
  split_ifs at hstep with hallowed
  have hmod : w % 512 < 512 := Nat.mod_lt _ (by decide)
  rcases hinv.fault_cases hlt hallowed.2 with ⟨-, hexec⟩ | ⟨hfree, machine, hexec, hresolves⟩
  · rw [hexec] at hstep
    cases hstep
  · rw [hexec] at hstep
    cases hstep
    have hv : cr2 / 4096 < L.pages := by omega
    by_cases heq : w / 512 = cr2 / 4096
    · rw [seen, seen, heq]
      exact (hresolves.1.transparent hinv hv hfree).same _ hmod
    · exact (hresolves.1.other_page hinv hfree hw heq ((hinv.openPage_iff hw).mpr hopen)).2 _ hmod

/-- A store to an open page, with a fault of the page before it if the page may not be written yet. -/
theorem Inv.exists_stored (hinv : Inv L memory) (hpage : word / 512 < L.pages)
    (hfree : ¬ L.Reserved (word / 512)) (value : Nat) :
    ∃ memory', run (stepMachine (4096 * L.p4)) memory [.store word value] = some memory'
      ∨ run (stepMachine (4096 * L.p4)) memory [.fault (8 * word), .store word value] = some memory' := by
  have hcr2 : 8 * word / 4096 = word / 512 := by omega
  by_cases hown : lookup (L.array memory) (word / 512) = entry 7 (word / 512)
  · refine ⟨Function.update memory word value, Or.inl ?_⟩
    rw [run, (hinv.exists_store word value hpage hfree hown).1]
    rfl
  · obtain ⟨memory₁, hfault, hhandled⟩ := hinv.exists_fault hpage hfree hcr2 hown
    have hinv₁ := hhandled.inv hinv hfree
    have hown₁ : lookup (L.array memory₁) (word / 512) = entry 7 (word / 512) := by
      rw [hhandled.lookup _ hpage, if_pos rfl]
    refine ⟨Function.update memory₁ word value, Or.inr ?_⟩
    rw [run, hfault, Option.bind_some, run, (hinv₁.exists_store word value hpage hfree hown₁).1]
    rfl

end Steps

section Runs

variable {ranges : List PresentRange} {guestMem guestMem' : Words} {stackStart lastAddress cr3 : Nat}
  {interruptRange : Nat × Nat} {metadata : PageFaultMetadata} {L : Layout} {memory memory' : Nat → Nat}

/-- One event changes what the function sees as it changes a flat memory. -/
theorem Inv.seen_step (hinv : Inv L memory) {event : Event} (hbelow : event.Below (4096 * L.last))
    (hstep : stepMachine (4096 * L.p4) memory event = some memory') {flat : Nat → Nat}
    (hflat : ∀ w, w / 512 < L.pages → ¬ L.Reserved (w / 512) → seen memory L.p4 w = flat w) {w : Nat}
    (hw : w / 512 < L.pages) (hopen : ¬ L.Reserved (w / 512)) :
    seen memory' L.p4 w = event.onFlat flat w := by
  have hlast := L.last_le
  cases event with
  | store word value =>
    obtain ⟨-, hfree, hown, rfl⟩ := hinv.store_cases hstep
    rw [hinv.seen_store hown hfree hw hopen, Event.onFlat, Function.update_apply,
      Function.update_apply, hflat w hw hopen]
  | fault cr2 =>
    have hlt : cr2 < 4096 * L.last := hbelow
    rw [hinv.seen_fault (by unfold Layout.pages; omega) hstep hw hopen]
    exact hflat w hw hopen

theorem SetUp.seen_run
    (h : SetUp L ranges guestMem guestMem' stackStart interruptRange lastAddress cr3 metadata)
    {events : List Event} (hbelow : ∀ event ∈ events, event.Below lastAddress)
    (hrun : run (stepMachine cr3) guestMem'.word events = some memory) {w : Nat}
    (hw : w / 512 < L.pages) (hopen : ¬ L.Reserved (w / 512)) :
    seen memory L.p4 w = events.foldl Event.onFlat (seen guestMem'.word L.p4) w := by
  rw [h.cr3_eq] at hrun
  rw [h.last_eq] at hbelow
  have hinv := h.built.inv h.placed
  revert hrun hinv
  generalize guestMem'.word = start
  intro hrun hinv
  have key : ∀ (flat : Nat → Nat), (∀ w, w / 512 < L.pages → ¬ L.Reserved (w / 512) →
      seen start L.p4 w = flat w) → seen memory L.p4 w = events.foldl Event.onFlat flat w := by
    induction events generalizing start with
    | nil =>
      intro flat hflat
      cases hrun
      exact hflat w hw hopen
    | cons event events ih =>
      intro flat hflat
      obtain ⟨next, hstep, hrest⟩ := Option.bind_eq_some_iff.mp hrun
      have hevent := hbelow event List.mem_cons_self
      have hnext : Inv L next := by
        cases event with
        | store word value => exact hinv.of_store hstep
        | fault cr2 =>
          have hlt : cr2 < 4096 * L.last := hevent
          have hlast := L.last_le
          exact hinv.of_fault (Or.inl (by unfold Layout.pages; omega)) hstep
      exact ih (fun event h => hbelow event (List.mem_cons_of_mem _ h)) next hrest hnext
        (event.onFlat flat) fun w hw hopen => hinv.seen_step hevent hstep hflat hw hopen
  exact key _ fun _ _ _ => rfl

/-- In every run of stores and faults the function sees a flat memory, which starts as what the
tables show it and changes by its stores alone; and every store to an open page can be made, at
once or after one fault. -/
theorem function_sees_flat_memory
    (hpromised : Promised ranges stackStart interruptRange lastAddress)
    (hok : setPageTable guestMem ranges stackStart interruptRange lastAddress
      = .ok (guestMem', cr3, metadata))
    {events : List Event} (hbelow : ∀ event ∈ events, event.Below lastAddress)
    (hrun : run (stepMachine cr3) guestMem'.word events = some memory) {word : Nat}
    (hword : 8 * word < lastAddress) (hopen : OpenPage memory (cr3 / pageSize) (word / 512)) :
    seen memory (cr3 / pageSize) word
        = events.foldl Event.onFlat (seen guestMem'.word (cr3 / pageSize)) word
      ∧ ∀ value, ∃ memory', run (stepMachine cr3) memory [.store word value] = some memory'
        ∨ run (stepMachine cr3) memory [.fault (8 * word), .store word value] = some memory' := by
  obtain ⟨L, h⟩ := setPageTable_setUp hpromised hok
  have hinv := h.inv_of_run hbelow hrun
  have hlast := L.last_le
  have hpage : word / 512 < L.pages := by
    rw [h.last_eq] at hword
    unfold Layout.pages
    omega
  rw [h.root_eq] at hopen ⊢
  have hfree := (hinv.openPage_iff hpage).mp hopen
  refine ⟨h.seen_run hbelow hrun hpage hfree, fun value => ?_⟩
  rw [h.cr3_eq]
  exact hinv.exists_stored hpage hfree value

/-- The copy of one page of a block leaves the next page as it was, which can still be written. -/
theorem copiedRanges_flat : ∃ guestMem' cr3 metadata memory,
    setPageTable onesMemory copiedRanges (1697 * 4096) (1697 * 4096, 1700 * 4096) (2048 * 4096)
        = .ok (guestMem', cr3, metadata)
      ∧ run (stepMachine cr3) guestMem'.word [.fault (164 * 4096)] = some memory
      ∧ seen memory (cr3 / pageSize) (165 * 512) = seen guestMem'.word (cr3 / pageSize) (165 * 512)
      ∧ ∀ value, ∃ memory', run (stepMachine cr3) memory [.store (165 * 512) value] = some memory'
        ∨ run (stepMachine cr3) memory [.fault (8 * (165 * 512)), .store (165 * 512) value]
          = some memory' := by
  obtain ⟨guestMem', cr3, metadata, hok⟩ :=
    setPageTable_eightMegabytes onesMemory rfl copiedRanges_promised (by decide)
  obtain ⟨L, h⟩ := setPageTable_setUp copiedRanges_promised hok
  obtain ⟨memory, hrun, hcopy, -⟩ := copiedRanges_fault h
  have hbelow : ∀ event ∈ [Event.fault (164 * 4096)], event.Below (2048 * 4096) := by
    intro event hevent
    rw [List.mem_singleton.mp hevent]
    exact (by decide : 164 * 4096 < 2048 * 4096)
  have hopen : OpenPage memory (cr3 / pageSize) (165 * 512 / 512) := by
    intro t ht
    cases hcopy.symm.trans ht
    rfl
  obtain ⟨hseen, hstores⟩ :=
    function_sees_flat_memory copiedRanges_promised hok hbelow hrun (by decide) hopen
  exact ⟨guestMem', cr3, metadata, memory, hok, hrun, hseen, hstores⟩

end Runs

end Dandelion.Kvm
