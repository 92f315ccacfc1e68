import Dandelion.PageFaultSteps

/-!
# Page faults and the function

The handler is run on a page of the tables: it resolves the fault, so that the function finds in
the page what was there, or it stops at a page that is not for the function. Beyond the pages of
the tables it takes page 0 for a table.
-/

open Outcome Stateful Paging PagedMachine Transitions

namespace Dandelion.Kvm

variable {L : Layout} {memory memory' : Nat → Nat}

/-- What is found at a word of a page, and zero if the page is not there. -/
def content (memory : Nat → Nat) (root page i : Nat) : Nat :=
  match walk memory root page with
  | some t => memory (512 * t.frame + i)
  | none => 0

section Entries

variable {v cr2 : Nat}

theorem entryOffset_p2 (hcr2 : cr2 / 4096 = v) : entryOffset cr2 18 = 8 * (v / 512 % 512) := by
  unfold entryOffset
  omega

theorem entryOffset_p1 (hcr2 : cr2 / 4096 = v) : entryOffset cr2 9 = 8 * (v % 512) := by
  unfold entryOffset
  omega

theorem entryOffset_p3 (hcr2 : cr2 / 4096 = v) :
    entryOffset cr2 27 = 8 * (v / 512 ^ 2 % 512) := by
  unfold entryOffset
  omega

theorem entryOffset_p4 (hcr2 : cr2 / 4096 = v) :
    entryOffset cr2 36 = 8 * (v / 512 ^ 3 % 512) := by
  unfold entryOffset
  omega

theorem pageAddress_entry {flags f : Nat} (hflags : flags < 4096) :
    pageAddress (entry flags f) = 4096 * f := by
  unfold pageAddress entry
  omega

theorem Inv.exec_loadEntry {machine : Machine} (hinv : Inv L machine.memory) {f n : Nat}
    (hmin : L.base ≤ f) (hmax : f ≤ L.p4) (hn : n < 512) :
    exec (load HandlerStop.nestedFault L.p4 (wrap (8 * n + 4096 * f))) machine
      = (.ok (machine.memory (512 * f + n)), machine) := by
  have hlt := L.p4_lt
  rw [wrap_eq (by omega), Nat.add_comm]
  exact exec_load (by omega) hn (hinv.walk_table hmin hmax)

/-- The handler goes through the tables to the entries of the page. -/
theorem exec_pageFaultExceptionHandler {machine : Machine} (hinv : Inv L machine.memory)
    (hv : v < L.pages) (hcr2 : cr2 / 4096 = v) :
    exec (pageFaultExceptionHandler cr2 (4096 * L.p4)) machine
      = exec (handleEntries L.p4 cr2 (L.array machine.memory (p2Index (v / 512)))
          (L.array machine.memory (p1Index v)) (8 * (v / 512 % 512)) (8 * (v % 512))
          (4096 * (L.base + v / 512 / 512 * 513)) (4096 * L.p1Frame (v / 512))) machine := by
  have hp3 : L.p3 = L.base + 513 * L.tables := rfl
  have hp4 : L.p4 = L.p3 + 1 := rfl
  have hlt := L.p4_lt
  have hregion := Layout.region_lt hv
  have hmax := (Layout.p1Frame_lt hregion).2
  have htables := L.tables_le
  have hroot : 4096 * L.p4 / pageSize = L.p4 := Nat.mul_div_cancel_left _ (by decide)
  have hp4Index : v / 512 ^ 3 % 512 = 0 := by omega
  have hp3Index : v / 512 ^ 2 % 512 = v / 512 / 512 := by omega
  have htable : L.base + 513 * (v / 512 / 512) = L.base + v / 512 / 512 * 513 := by omega
  have hr15 : wrap (8 * (v / 512 % 512) * 512 + pageSize + 4096 * (L.base + v / 512 / 512 * 513))
      = 4096 * L.p1Frame (v / 512) := by
    unfold Layout.p1Frame p1Page at *
    unfold wrap pageSize
    omega
  have hr8 : 512 * (L.base + v / 512 / 512 * 513) + v / 512 % 512
      = 512 * L.base + p2Index (v / 512) := by
    unfold p2Index
    omega
  have hr9 : 512 * L.p1Frame (v / 512) + v % 512 = 512 * L.base + p1Index v := by
    unfold Layout.p1Frame p1Index
    omega
  unfold pageFaultExceptionHandler
  dsimp only
  rw [hroot, entryOffset_p4 hcr2, entryOffset_p3 hcr2, entryOffset_p2 hcr2, entryOffset_p1 hcr2,
    hp4Index, hp3Index, exec_bind_ok (hinv.exec_loadEntry (by omega) (le_refl _) (by decide)),
    Nat.add_zero, hinv.linked.root, pageAddress_entry (by decide),
    exec_bind_ok (hinv.exec_loadEntry (by omega) (by omega) (by omega)),
    hinv.linked.p3 _ (by omega), pageAddress_entry (by decide), htable, hr15, Nat.add_comm
      (4096 * (L.base + v / 512 / 512 * 513)),
    exec_bind_ok (hinv.exec_loadEntry (by omega) (by omega) (by omega)), hr8,
    Nat.add_comm (4096 * L.p1Frame (v / 512)),
    exec_bind_ok (hinv.exec_loadEntry (by omega) (by omega) (by omega)), hr9]
  rfl

end Entries

/-! ## One fault -/

theorem content_eq_zero {root page : Nat} (h : walk memory root page = none) :
    content memory root page = fun _ => 0 := by
  funext i
  rw [content, h]

theorem content_eq {root page : Nat} {t : Translation} (h : walk memory root page = some t) :
    content memory root page = fun i => memory (512 * t.frame + i) := by
  funext i
  rw [content, h]

theorem present_reservedEntry (v : Nat) : present (L.reservedEntry v) = true := by
  unfold Layout.reservedEntry
  split_ifs
  · rw [present_entry]
    rfl
  · rw [present_entry]
    rfl

theorem user_reservedEntry (v : Nat) : user (L.reservedEntry v) = false := by
  unfold Layout.reservedEntry
  split_ifs
  · rw [user_entry]
    rfl
  · rw [user_entry]
    rfl

theorem flags_pointer (base r : Nat) : present (pointer base r) = true ∧ user (pointer base r) = true
    ∧ isPage (pointer base r) = false := by
  rw [pointer, present_entry, user_entry, isPage_entry]
  decide

theorem entry_inj {flags flags' f f' : Nat} (hflags : flags < 4096) (hflags' : flags' < 4096)
    (h : entry flags f = entry flags' f') : flags = flags' ∧ f = f' := by
  unfold entry at h
  omega

section Fault

variable {machine : Machine} {E : Machine → Prop} {v cr2 : Nat}

/-- A page that is not for the function: the handler stops, and has changed nothing. -/
theorem Inv.exec_reserved (hinv : Inv L machine.memory) (hreserved : L.Reserved v)
    (hcr2 : cr2 / 4096 = v) :
    exec (pageFaultExceptionHandler cr2 (4096 * L.p4)) machine = (fail .abort, machine) := by
  have hlookup := hinv.reserved v hreserved
  have hentry := hinv.linked.shape (v / 512) (Layout.region_lt hreserved.lt)
  have hpresent := present_reservedEntry (L := L) v
  have huser := user_reservedEntry (L := L) v
  rw [exec_pageFaultExceptionHandler hinv hreserved.lt hcr2]
  rw [Kvm.lookup] at hlookup
  generalize L.array machine.memory (p2Index (v / 512)) = r8 at hlookup hentry
  generalize L.array machine.memory (p1Index v) = r9 at hlookup
  rw [← hlookup] at hpresent huser
  cases hentry with
  | absent => cases hpresent
  | large hflags hlarge hf =>
    rw [hflags.resolve_large, user_entry] at huser
    simp only [handleEntries, present_entry, user_entry, hflags.present_large, hflags.user_large, huser]
    rfl
  | table =>
    rw [resolve_pointer] at hpresent huser
    simp only [handleEntries, flags_pointer, hpresent, huser]
    rfl

theorem Inv.runs_free (hinv : Inv L machine.memory) (hv : v < L.pages) (hfree : ¬ L.Reserved v)
    (hcr2 : cr2 / 4096 = v) (hne : lookup (L.array machine.memory) v ≠ entry 7 v) :
    Runs (pageFaultExceptionHandler cr2 (4096 * L.p4)) machine
      (fun _ => Resolves L v (content machine.memory L.p4 v) machine) E := by
  have hle := L.pages_le
  have hopen := hinv.free v hv hfree
  have hentry := hinv.linked.shape (v / 512) (Layout.region_lt hv)
  have hwalk := hinv.linked.walk_of_lt hv
  have hpage : pageAddress cr2 = 4096 * v := by
    unfold pageAddress
    omega
  rw [runs_congr (exec_pageFaultExceptionHandler hinv hv hcr2)]
  generalize he : lookup (L.array machine.memory) v = e at hopen hne hwalk
  rw [Kvm.lookup] at he
  generalize hr8 : L.array machine.memory (p2Index (v / 512)) = r8 at he hentry
  generalize hr9 : L.array machine.memory (p1Index v) = r9 at he
  cases hopen with
  | own => exact absurd rfl hne
  | absent =>
    rw [content_eq_zero hwalk]
    cases hentry with
    | absent => exact runs_demandTable hv hpage hinv hfree hr8
    | large hflags hlarge hf =>
      -- a large page is present
      have hpresent := hflags.isPresent
      rw [hflags.resolve_large] at he
      rw [← present_entry (f := _ + v % 512), he] at hpresent
      cases hpresent
    | table =>
      rw [resolve_pointer] at he
      simp only [handleEntries, flags_pointer, he]
      exact runs_demandPage hv hpage hinv hfree hr8
  | @copy f hmin hmax hplace =>
    have hlast := L.last_le
    rw [content_eq (hwalk.trans (resolve1_copy (by unfold Layout.pages at hle; omega)))]
    cases hentry with
    | absent =>
      rw [resolve_zero] at he
      unfold entry at he
      omega
    | large hflags hlarge hf =>
      rw [hflags.resolve_large] at he
      obtain ⟨rfl, rfl⟩ := entry_inj (hflags.lt.trans (by decide)) (by decide) he
      simp only [handleEntries, present_entry, user_entry, isPage_entry]
      exact runs_splitPage hv hpage hinv hfree rfl hr8 hlarge hmin hmax
    | table =>
      rw [resolve_pointer] at he
      have hsource : (if isPage (pointer L.base (v / 512)) then pointer L.base (v / 512)
          else entry 5 f) / largePage = f / 512 := by
        rw [(flags_pointer _ _).2.2, if_neg Bool.false_ne_true]
        unfold largePage entry
        omega
      simp only [handleEntries, flags_pointer, he, present_entry, user_entry]
      exact runs_copyOnWrite hv hpage hinv hfree hr8 hmin hmax hplace hsource

/-- Beyond the tables the handler takes page 0 for a table, and faults itself if that is absent. -/
theorem Inv.exec_beyond (hinv : Inv L machine.memory) (hcanonical : Canonical cr2)
    (hbeyond : 4096 * L.pages ≤ cr2) (habsent : walk machine.memory L.p4 0 = none) :
    exec (pageFaultExceptionHandler cr2 (4096 * L.p4)) machine = (fail .nestedFault, machine) := by
  have hp3 : L.p3 = L.base + 513 * L.tables := rfl
  have hp4 : L.p4 = L.p3 + 1 := rfl
  have htables := L.tables_le
  have hroot : 4096 * L.p4 / pageSize = L.p4 := Nat.mul_div_cancel_left _ (by decide)
  have hzero : pageAddress 0 = 0 := rfl
  have hload : ∀ n < 512, exec (load HandlerStop.nestedFault L.p4 (wrap (8 * n))) machine
      = (fail .nestedFault, machine) := by
    intro n hn
    have haddress : 8 * n = 4096 * 0 + 8 * n := by omega
    rw [wrap_eq (by omega), haddress]
    exact exec_load_absent (by decide) hn habsent
  unfold Canonical at hcanonical
  unfold Layout.pages at hbeyond
  unfold pageFaultExceptionHandler
  dsimp only
  rw [hroot, entryOffset_p4 rfl, entryOffset_p3 rfl, entryOffset_p2 rfl,
    exec_bind_ok (hinv.exec_loadEntry (by omega) (le_refl _) (by omega))]
  by_cases hindex : cr2 / 4096 / 512 ^ 3 % 512 = 0
  · rw [hindex, Nat.add_zero, hinv.linked.root, pageAddress_entry (by decide),
      exec_bind_ok (hinv.exec_loadEntry (by omega) (by omega) (by omega)),
      hinv.linked.p3_rest _ (by omega) (by omega), hzero, Nat.zero_add,
      exec_bind_error (hload _ (by omega))]
    rfl
  · rw [hinv.linked.root_rest _ (by omega) (by omega), hzero, Nat.add_zero,
      exec_bind_error (hload _ (by omega))]
    rfl

end Fault

/-! ## Runs -/

section Runs

variable {v cr2 : Nat}

theorem Handled.inv {g : Nat → Nat} (h : Handled L v g memory memory') (hinv : Inv L memory)
    (hfree : ¬ L.Reserved v) : Inv L memory' where
  linked := h.linked
  reserved := by
    intro v' hv'
    have hne : v' ≠ v := by
      rintro rfl
      exact hfree hv'
    rw [h.lookup v' hv'.lt, if_neg hne]
    exact hinv.reserved v' hv'
  free := by
    intro v' hv' hfree'
    rw [h.lookup v' hv']
    split_ifs with heq
    · rw [heq]
      exact .own
    · exact hinv.free v' hv' hfree'

/-- A page that is not reserved: absent, the page itself, or a page of the blocks. -/
theorem Inv.walk_cases (hinv : Inv L memory) (hv : v < L.pages) (hfree : ¬ L.Reserved v) :
    walk memory L.p4 v = none ∨ walk memory L.p4 v = some ⟨v, true, true⟩
      ∨ ∃ f, walk memory L.p4 v = some ⟨f, false, true⟩ ∧ L.interruptEnd ≤ f ∧ f < L.last := by
  have hle := L.pages_le
  have hlast := L.last_le
  have hopen := hinv.free v hv hfree
  rw [hinv.linked.walk_of_lt hv]
  generalize Kvm.lookup (L.array memory) v = e at hopen
  cases hopen with
  | absent => exact Or.inl rfl
  | own => exact Or.inr (Or.inl (resolve1_own (by omega)))
  | @copy f hmin hmax _ =>
    exact Or.inr (Or.inr ⟨f, resolve1_copy (by unfold Layout.pages at hle; omega), hmin, hmax⟩)

/-- A page that the function may write is mapped to itself, and is not reserved. -/
theorem Inv.own_of_writable (hinv : Inv L memory) {page : Nat} {t : Translation}
    (hwalk : walk memory L.p4 page = some t) (hwritable : t.writable = true) (huser : t.user = true) :
    ¬ L.Reserved t.frame := by
  have hsmall : page % 512 ^ 3 % 512 ^ 3 = page % 512 ^ 3 := by omega
  have hlow : walk memory L.p4 (page % 512 ^ 3) = some t := by
    rw [hinv.linked.walk_eq] at hwalk ⊢
    split_ifs at hwalk with hin
    rw [if_pos (by omega), hsmall, hwalk]
  have hv : page % 512 ^ 3 < L.pages := by
    rw [hinv.linked.walk_eq] at hwalk
    split_ifs at hwalk with hin
    unfold Layout.pages
    omega
  generalize page % 512 ^ 3 = v at hlow hv
  by_cases hreserved : L.Reserved v
  · rw [hinv.walk_reserved hreserved] at hlow
    cases hlow
    cases huser
  · rcases hinv.walk_cases hv hreserved with hnone | hown | ⟨f, hcopy, -, -⟩
    · rw [hnone] at hlow
      cases hlow
    · rw [hown] at hlow
      cases hlow
      exact hreserved
    · rw [hcopy] at hlow
      cases hlow
      cases hwritable

/-- A frame of the function may change. -/
theorem Inv.of_frame (hinv : Inv L memory) {f : Nat} (hfree : ¬ L.Reserved f)
    (hother : ∀ w, w / 512 ≠ f → memory' w = memory w) : Inv L memory' := by
  obtain ⟨hlinked, hlookup⟩ := sameSpace_of_frame hinv.linked
    (fun hin => hfree (Layout.reserved_table hin.1 hin.2).1) hother
  refine ⟨hlinked, fun v hv => ?_, fun v hv hopen => ?_⟩
  · rw [hlookup v hv.lt, hinv.reserved v hv]
  · rw [hlookup v hv]
    exact hinv.free v hv hopen

theorem Inv.of_store (hinv : Inv L memory) {word value : Nat}
    (hstep : stepMachine (4096 * L.p4) memory (.store word value) = some memory') : Inv L memory' := by
  have hroot : 4096 * L.p4 / pageSize = L.p4 := Nat.mul_div_cancel_left _ (by decide)
  rw [stepMachine, hroot] at hstep
  cases ht : PagedMachine.translate memory L.p4 (8 * word) with
  | none =>
    rw [ht] at hstep
    cases hstep
  | some t =>
    rw [ht] at hstep
    dsimp only at hstep
    split_ifs at hstep with hallowed
    obtain ⟨hwritable, huser⟩ := Bool.and_eq_true_iff.mp hallowed
    unfold PagedMachine.translate at ht
    split_ifs at ht
    have hfree := hinv.own_of_writable ht hwritable huser
    cases hstep
    apply hinv.of_frame hfree
    intro w hw
    apply Function.update_of_ne
    rintro rfl
    omega

theorem Inv.mayWrite_iff (hinv : Inv L memory) (hv : v < L.pages) (hfree : ¬ L.Reserved v)
    (hcr2 : cr2 / 4096 = v) :
    mayWrite memory (4096 * L.p4) cr2 = false ↔ lookup (L.array memory) v ≠ entry 7 v := by
  have hle := L.pages_le
  have hroot : 4096 * L.p4 / pageSize = L.p4 := Nat.mul_div_cancel_left _ (by decide)
  have hcanonical : Canonical cr2 := Or.inl (by omega)
  have hopen := hinv.free v hv hfree
  rw [mayWrite, hroot, PagedMachine.translate, if_pos hcanonical, hcr2, hinv.linked.walk_of_lt hv]
  generalize Kvm.lookup (L.array memory) v = e at hopen
  cases hopen with
  | absent => exact iff_of_true rfl (by unfold entry; omega)
  | own =>
    rw [resolve1_own (by omega)]
    exact iff_of_false (fun hwrite => by cases hwrite) (fun hne => hne rfl)
  | copy hmin hmax _ =>
    have hlast := L.last_le
    rw [resolve1_copy (by unfold Layout.pages at hle; omega)]
    exact iff_of_true rfl (by unfold entry; omega)

/-- A page of the tables: the handler stops at a reserved page, and resolves the fault of another. -/
theorem Inv.fault_cases (hinv : Inv L memory) (hlt : cr2 < 4096 * L.pages)
    (hfault : mayWrite memory (4096 * L.p4) cr2 = false) :
    (L.Reserved (cr2 / 4096)
        ∧ exec (pageFaultExceptionHandler cr2 (4096 * L.p4)) ⟨memory, []⟩ = (fail .abort, ⟨memory, []⟩))
      ∨ (¬ L.Reserved (cr2 / 4096)
        ∧ ∃ machine, exec (pageFaultExceptionHandler cr2 (4096 * L.p4)) ⟨memory, []⟩ = (.ok ⟨⟩, machine)
          ∧ Resolves L (cr2 / 4096) (content memory L.p4 (cr2 / 4096)) ⟨memory, []⟩ machine) := by
  have hv : cr2 / 4096 < L.pages := by omega
  by_cases hreserved : L.Reserved (cr2 / 4096)
  · exact Or.inl ⟨hreserved, hinv.exec_reserved hreserved rfl⟩
  · have hne := (hinv.mayWrite_iff hv hreserved rfl).mp hfault
    have hruns : Runs (pageFaultExceptionHandler cr2 (4096 * L.p4)) ⟨memory, []⟩
        (fun _ => Resolves L (cr2 / 4096) (content memory L.p4 (cr2 / 4096)) ⟨memory, []⟩)
        (fun _ => False) := Inv.runs_free hinv hv hreserved rfl hne
    obtain ⟨_, machine, hexec, hresolves⟩ := Runs.exists_ok hruns
    exact Or.inr ⟨hreserved, machine, hexec, hresolves⟩

theorem Inv.exists_fault (hinv : Inv L memory) (hv : v < L.pages) (hfree : ¬ L.Reserved v)
    (hcr2 : cr2 / 4096 = v) (hne : lookup (L.array memory) v ≠ entry 7 v) :
    ∃ memory', stepMachine (4096 * L.p4) memory (.fault cr2) = some memory'
      ∧ Handled L v (content memory L.p4 v) memory memory' := by
  have hle := L.pages_le
  have hfault := (hinv.mayWrite_iff hv hfree hcr2).mpr hne
  have hcanonical : Canonical cr2 := Or.inl (by omega)
  rcases hinv.fault_cases (by omega) hfault with ⟨hreserved, -⟩ | ⟨-, machine, hexec, hresolves⟩
  · rw [hcr2] at hreserved
    exact absurd hreserved hfree
  · rw [hcr2] at hresolves
    refine ⟨machine.memory, ?_, hresolves.1⟩
    rw [stepMachine, if_pos ⟨hcanonical, hfault⟩, hexec]

theorem Inv.of_fault (hinv : Inv L memory) (hguard : cr2 < 4096 * L.pages ∨ walk memory L.p4 0 = none)
    (hstep : stepMachine (4096 * L.p4) memory (.fault cr2) = some memory') : Inv L memory' := by
  rw [stepMachine] at hstep
  split_ifs at hstep with hallowed
  by_cases hlt : cr2 < 4096 * L.pages
  · rcases hinv.fault_cases hlt hallowed.2 with ⟨-, hexec⟩ | ⟨hfree, machine, hexec, hresolves⟩
    · rw [hexec] at hstep
      cases hstep
    · rw [hexec] at hstep
      cases hstep
      exact hresolves.1.inv hinv hfree
  · have habsent := hguard.resolve_left hlt
    rw [hinv.exec_beyond hallowed.1 (by omega) habsent] at hstep
    cases hstep

theorem Layout.Reserved.of_table {f : Nat} (h : L.TableFrame f) : L.Reserved f := by
  have hp4 : L.p4 = L.p3 + 1 := rfl
  exact (Layout.reserved_table h.1 (by have := h.2; omega)).1

/-- Where a page of the function is found: in itself or in the blocks, not in the tables. -/
theorem Inv.frame_of_user (hinv : Inv L memory) {page : Nat} (hpage : page < L.pages) {t : Translation}
    (hwalk : walk memory L.p4 page = some t) (huser : t.user = true) :
    (t.frame = page ∨ L.Reserved t.frame) ∧ ¬ L.TableFrame t.frame := by
  by_cases hreserved : L.Reserved page
  · rw [hinv.walk_reserved hreserved] at hwalk
    cases hwalk
    cases huser
  · rcases hinv.walk_cases hpage hreserved with hnone | hown | ⟨f, hcopy, hmin, hmax⟩
    · rw [hnone] at hwalk
      cases hwalk
    · rw [hown] at hwalk
      cases hwalk
      exact ⟨Or.inl rfl, fun htable => hreserved (.of_table htable)⟩
    · rw [hcopy] at hwalk
      cases hwalk
      refine ⟨Or.inr (Or.inr ⟨le_trans L.interrupt_le hmin, hmax⟩), fun htable => ?_⟩
      have hp3 : L.p3 = L.base + 513 * L.tables := rfl
      have hfit := L.tables_fit
      have hinterrupt := L.interrupt_le
      have hlt : f < L.p3 := htable.2
      omega

/-- Another page of the function, or one that is absent, is as it was. -/
theorem Handled.other_page {g : Nat → Nat} (h : Handled L v g memory memory') (hinv : Inv L memory)
    (hfree : ¬ L.Reserved v) {page : Nat} (hpage : page < L.pages) (hne : page ≠ v)
    (huser : ∀ t, walk memory L.p4 page = some t → t.user = true) :
    walk memory' L.p4 page = walk memory L.p4 page
      ∧ ∀ i < 512, content memory' L.p4 page i = content memory L.p4 page i := by
  have hwalk : walk memory' L.p4 page = walk memory L.p4 page := by
    rw [h.linked.walk_of_lt hpage, h.lookup page hpage, if_neg hne, hinv.linked.walk_of_lt hpage]
  refine ⟨hwalk, fun i hi => ?_⟩
  cases hold : walk memory L.p4 page with
  | none => rw [content_eq_zero hold, content_eq_zero (hwalk.trans hold)]
  | some t =>
    obtain ⟨hframe, htable⟩ := hinv.frame_of_user hpage hold (huser t hold)
    have hword : (512 * t.frame + i) / 512 = t.frame := by omega
    rw [content_eq hold, content_eq (hwalk.trans hold)]
    apply h.other
    · rw [hword]
      rintro rfl
      rcases hframe with hpage | hreserved
      · exact hne hpage.symm
      · exact hfree hreserved
    · rw [hword]
      exact htable

end Runs

/-! ## Faults do not show -/

/-- The fault of a page, as the function sees it: the page is there and may be written, it finds in
it what it found before, and no other page of the function and no page that is absent is changed. -/
structure Transparent (root last page : Nat) (memory memory' : Nat → Nat) : Prop where
  own : walk memory' root page = some ⟨page, true, true⟩
  same : ∀ i < 512, content memory' root page i = content memory root page i
  other : ∀ page' < last, page' ≠ page → (∀ t, walk memory root page' = some t → t.user = true) →
    walk memory' root page' = walk memory root page'
      ∧ ∀ i < 512, content memory' root page' i = content memory root page' i

theorem Handled.transparent {v : Nat}
    (h : Handled L v (content memory L.p4 v) memory memory') (hinv : Inv L memory)
    (hv : v < L.pages) (hfree : ¬ L.Reserved v) : Transparent L.p4 L.last v memory memory' := by
  have hle := L.pages_le
  have hown : walk memory' L.p4 v = some ⟨v, true, true⟩ := by
    rw [h.linked.walk_of_lt hv, h.lookup v hv, if_pos rfl, resolve1_own (by omega)]
  refine ⟨hown, fun i hi => ?_, fun page hpage hne huser => ?_⟩
  · rw [content_eq hown]
    exact h.page i hi
  · have hlast := L.last_le
    exact h.other_page hinv hfree (by unfold Layout.pages; omega) hne huser

/-- A store, or a fault below an address. -/
def Event.Below (lastAddress : Nat) : Event → Prop
  | .store _ _ => True
  | .fault cr2 => cr2 < lastAddress

section Faults

variable {ranges : List PresentRange} {guestMem guestMem' : Words} {stackStart lastAddress cr3 : Nat}
  {interruptRange : Nat × Nat} {metadata : PageFaultMetadata}

theorem SetUp.root_eq
    (h : SetUp L ranges guestMem guestMem' stackStart interruptRange lastAddress cr3 metadata) :
    cr3 / pageSize = L.p4 := by
  rw [h.cr3_eq]
  exact Nat.mul_div_cancel_left _ (by decide)

theorem SetUp.inv_of_run
    (h : SetUp L ranges guestMem guestMem' stackStart interruptRange lastAddress cr3 metadata)
    {events : List Event} (hbelow : ∀ event ∈ events, event.Below lastAddress)
    (hrun : run (stepMachine cr3) guestMem'.word events = some memory) : Inv L memory := by
  have hguarded : GuardedAlong (stepMachine cr3) (fun _ event => event.Below lastAddress)
      guestMem'.word events :=
    guardedAlong_of_forall (fun event hevent _ => hbelow event hevent) _
  refine hguarded.invariant ?_ hrun (h.built.inv h.placed)
  intro m event m' hinv hstep hguard
  rw [h.cr3_eq] at hstep
  cases event with
  | store word value => exact hinv.of_store hstep
  | fault cr2 =>
    have hlt : cr2 < lastAddress := hguard
    have hlast := L.last_le
    rw [h.last_eq] at hlt
    exact hinv.of_fault (Or.inl (by unfold Layout.pages; omega)) hstep

/-- In every run, a fault of a page of the function or of a page that is absent is resolved and does not
show, and a fault of any other page stops the machine. -/
theorem faults_transparent (hpromised : Promised ranges stackStart interruptRange lastAddress)
    (hok : setPageTable guestMem ranges stackStart interruptRange lastAddress
      = .ok (guestMem', cr3, metadata))
    {events : List Event} (hbelow : ∀ event ∈ events, event.Below lastAddress)
    (hrun : run (stepMachine cr3) guestMem'.word events = some memory) {cr2 : Nat}
    (hcr2 : cr2 < lastAddress) (hfault : mayWrite memory cr3 cr2 = false) :
    ((∀ t, walk memory (cr3 / pageSize) (cr2 / pageSize) = some t → t.user = true) →
        ∃ machine, exec (pageFaultExceptionHandler cr2 cr3) ⟨memory, []⟩ = (.ok ⟨⟩, machine)
          ∧ Transparent (cr3 / pageSize) (lastAddress / pageSize) (cr2 / pageSize) memory
            machine.memory)
      ∧ ∀ t, walk memory (cr3 / pageSize) (cr2 / pageSize) = some t → t.user = false →
        exec (pageFaultExceptionHandler cr2 cr3) ⟨memory, []⟩ = (fail .abort, ⟨memory, []⟩) := by
  obtain ⟨L, h⟩ := setPageTable_setUp hpromised hok
  have hinv := h.inv_of_run hbelow hrun
  have hlast := L.last_le
  have hlastPage : lastAddress / pageSize = L.last := by
    rw [h.last_eq]
    exact Nat.mul_div_cancel_left _ (by decide)
  rw [h.last_eq] at hcr2
  rw [h.root_eq, hlastPage, h.cr3_eq]
  rw [h.cr3_eq] at hfault
  have hlt : cr2 < 4096 * L.pages := by
    unfold Layout.pages
    omega
  rcases hinv.fault_cases hlt hfault with ⟨hreserved, hexec⟩ | ⟨hfree, machine, hexec, hresolves⟩
  · refine ⟨fun huser => ?_, fun _ _ _ => hexec⟩
    cases huser _ (hinv.walk_reserved hreserved)
  · refine ⟨fun _ => ⟨machine, hexec, hresolves.1.transparent hinv (by omega) hfree⟩, ?_⟩
    intro t hwalk huser
    -- a page of the function or an absent one is not closed to the function
    rcases hinv.walk_cases (show cr2 / 4096 < L.pages by omega) hfree with hnone | hown | ⟨f, hcopy, -, -⟩
    · cases hwalk.symm.trans hnone
    · cases hwalk.symm.trans hown
      cases huser
    · cases hwalk.symm.trans hcopy
      cases huser

end Faults

/-! ## A run -/

section Example

variable {guestMem' : Words} {cr3 : Nat} {metadata : PageFaultMetadata}
  (h : SetUp L copiedRanges onesMemory guestMem' (1697 * 4096) (1697 * 4096, 1700 * 4096) (2048 * 4096)
    cr3 metadata)
include h

theorem copiedRanges_layout : L.tables = 1 ∧ L.base = 1182 ∧ L.interruptStart = 1697 := by
  have htables : L.tables = 1 := h.tables_eq.trans (by decide)
  have hp4 : L.p4 = L.base + 513 * L.tables + 1 := rfl
  have hstack := h.stack_eq
  have hinterrupt := congrArg Prod.fst h.interrupt_eq
  dsimp only at hinterrupt
  exact ⟨htables, by omega, by omega⟩

theorem copiedRanges_lookup {v : Nat} (hv : v < 1024) : ¬ L.Reserved v ∧ v < L.pages
    ∧ lookup (L.array guestMem'.word) v = (presentEntry copiedRanges v).getD 0 := by
  obtain ⟨htables, hbase, hinterrupt⟩ := copiedRanges_layout h
  have hfree : ¬ L.Reserved v := by
    unfold Layout.Reserved
    omega
  have hlt : v < L.pages := by
    unfold Layout.pages
    omega
  have hstack : ¬ (L.stackStart ≤ v ∧ v < L.base) := by
    unfold Layout.stackStart
    omega
  refine ⟨hfree, hlt, ?_⟩
  rw [h.built.lookup v hlt, Layout.entryAt, if_neg hstack, if_neg hfree]

theorem copiedRanges_fault : ∃ memory,
    run (stepMachine cr3) guestMem'.word [.fault (164 * 4096)] = some memory
      ∧ walk memory (cr3 / pageSize) 165 = some ⟨1701, false, true⟩
      ∧ mayWrite memory cr3 (165 * 4096) = false := by
  have hinv := h.built.inv h.placed
  obtain ⟨hfree, hv, hlookup⟩ := copiedRanges_lookup h (show 164 < 1024 by decide)
  obtain ⟨hfree', hv', hlookup'⟩ := copiedRanges_lookup h (show 165 < 1024 by decide)
  obtain ⟨memory, hstep, hhandled⟩ := hinv.exists_fault hv hfree
    (show 164 * 4096 / 4096 = 164 by decide) (by rw [hlookup]; decide)
  have hinv' := hhandled.inv hinv hfree
  have hcopy : lookup (L.array memory) 165 = entry 5 1701 := by
    rw [hhandled.lookup 165 hv', hlookup']
    rfl
  refine ⟨memory, ?_, ?_, ?_⟩
  · rw [run, h.cr3_eq, hstep]
    rfl
  · rw [h.root_eq, hinv'.linked.walk_of_lt hv', hcopy, resolve1_copy (by decide)]
  · rw [h.cr3_eq]
    exact (hinv'.mayWrite_iff hv' hfree' rfl).mpr (by rw [hcopy]; decide)

end Example

theorem copiedRanges_transparent : ∃ guestMem' cr3 metadata memory machine,
    setPageTable onesMemory copiedRanges (1697 * 4096) (1697 * 4096, 1700 * 4096) (2048 * 4096)
        = .ok (guestMem', cr3, metadata)
      ∧ run (stepMachine cr3) guestMem'.word [.fault (164 * 4096)] = some memory
      ∧ exec (pageFaultExceptionHandler (165 * 4096) cr3) ⟨memory, []⟩ = (.ok ⟨⟩, machine)
      ∧ Transparent (cr3 / pageSize) 2048 165 memory machine.memory := by
  obtain ⟨guestMem', cr3, metadata, hok⟩ :=
    setPageTable_eightMegabytes onesMemory rfl copiedRanges_promised (by decide)
  obtain ⟨L, h⟩ := setPageTable_setUp copiedRanges_promised hok
  obtain ⟨memory, hrun, hcopy, hfault⟩ := copiedRanges_fault h
  have hbelow : ∀ event ∈ [Event.fault (164 * 4096)], event.Below (2048 * 4096) := by
    intro event hevent
    rw [List.mem_singleton.mp hevent]
    exact (by decide : 164 * 4096 < 2048 * 4096)
  have huser : ∀ t, walk memory (cr3 / pageSize) (165 * 4096 / pageSize) = some t → t.user = true := by
    intro t ht
    cases hcopy.symm.trans ht
    rfl
  obtain ⟨machine, hexec, htransparent⟩ :=
    (faults_transparent copiedRanges_promised hok hbelow hrun (by decide) hfault).1 huser
  exact ⟨guestMem', cr3, metadata, memory, machine, hok, hrun, hexec, htransparent⟩

/-! ## What the handler writes -/

/-- The addresses that the tables cover, or any address as long as page 0 is absent. -/
def Event.Walkable (lastAddress cr3 : Nat) (memory : Nat → Nat) : Event → Prop
  | .store _ _ => True
  | .fault cr2 =>
    cr2 < nextMultipleOf lastAddress hugePage ∨ walk memory (cr3 / pageSize) 0 = none

section Stores

variable {ranges : List PresentRange} {guestMem guestMem' : Words} {stackStart lastAddress cr3 : Nat}
  {interruptRange : Nat × Nat} {metadata : PageFaultMetadata}

theorem SetUp.covered_eq
    (h : SetUp L ranges guestMem guestMem' stackStart interruptRange lastAddress cr3 metadata) :
    nextMultipleOf lastAddress hugePage = 4096 * L.pages := by
  have htables := h.tables_eq
  unfold p2TableNumber nextMultipleOf hugePage at htables
  unfold Layout.pages nextMultipleOf hugePage
  omega

/-- In a run whose faults are at addresses that the tables cover, or come while page 0 is absent, the
handler writes to the p2 and p1 tables and to the page of the fault. -/
theorem fault_stores (hpromised : Promised ranges stackStart interruptRange lastAddress)
    (hok : setPageTable guestMem ranges stackStart interruptRange lastAddress
      = .ok (guestMem', cr3, metadata))
    {events : List Event}
    (hwalkable : GuardedAlong (stepMachine cr3) (Event.Walkable lastAddress cr3) guestMem'.word events)
    (hrun : run (stepMachine cr3) guestMem'.word events = some memory) {cr2 : Nat} (hcr2 : cr2 < 2 ^ 47)
    (hfault : mayWrite memory cr3 cr2 = false)
    (hnext : (Event.fault cr2).Walkable lastAddress cr3 memory) (word : Nat)
    (hword : word ∈ (exec (pageFaultExceptionHandler cr2 cr3) ⟨memory, []⟩).2.stores) :
    (metadata.tableBase ≤ 8 * word ∧ 8 * word < metadata.p3Address)
      ∨ 8 * word / pageSize = cr2 / pageSize := by
  obtain ⟨L, h⟩ := setPageTable_setUp hpromised hok
  have hinv : Inv L memory := by
    refine hwalkable.invariant ?_ hrun (h.built.inv h.placed)
    intro m event m' hinv hstep hguard
    rw [h.cr3_eq] at hstep
    cases event with
    | store word value => exact hinv.of_store hstep
    | fault cr2 =>
      rw [Event.Walkable, h.covered_eq, h.root_eq] at hguard
      exact hinv.of_fault hguard hstep
  rw [Event.Walkable, h.covered_eq, h.root_eq] at hnext
  rw [h.cr3_eq] at hword hfault
  by_cases hlt : cr2 < 4096 * L.pages
  · rcases hinv.fault_cases hlt hfault with ⟨-, hexec⟩ | ⟨-, machine, hexec, hresolves⟩
    · rw [hexec] at hword
      cases hword
    · rw [hexec] at hword
      rcases hresolves.2 word hword with hold | hpage | htable
      · cases hold
      · right
        unfold pageSize
        omega
      · left
        obtain ⟨hmin, hmax⟩ := htable
        rw [h.metadata_eq]
        dsimp only
        omega
  · rw [hinv.exec_beyond (Or.inl hcr2) (by omega) (hnext.resolve_left hlt)] at hword
    cases hword

end Stores

/-- Faults at the first two pages of a block. -/
theorem copiedRanges_stores : ∃ guestMem' cr3 metadata memory,
    setPageTable onesMemory copiedRanges (1697 * 4096) (1697 * 4096, 1700 * 4096) (2048 * 4096)
        = .ok (guestMem', cr3, metadata)
      ∧ run (stepMachine cr3) guestMem'.word [.fault (164 * 4096)] = some memory
      ∧ ∀ word ∈ (exec (pageFaultExceptionHandler (165 * 4096) cr3) ⟨memory, []⟩).2.stores,
        (metadata.tableBase ≤ 8 * word ∧ 8 * word < metadata.p3Address)
          ∨ 8 * word / pageSize = 165 := by
  obtain ⟨guestMem', cr3, metadata, hok⟩ :=
    setPageTable_eightMegabytes onesMemory rfl copiedRanges_promised (by decide)
  obtain ⟨L, h⟩ := setPageTable_setUp copiedRanges_promised hok
  obtain ⟨memory, hrun, hcopy, hfault⟩ := copiedRanges_fault h
  have hwalkable : GuardedAlong (stepMachine cr3) (Event.Walkable (2048 * 4096) cr3) guestMem'.word
      [.fault (164 * 4096)] := by
    intro _ _
    exact ⟨Or.inl (by decide), trivial⟩
  exact ⟨guestMem', cr3, metadata, memory, hok, hrun, fun word hword =>
    fault_stores copiedRanges_promised hok hwalkable hrun (by decide) hfault (Or.inl (by decide))
      word hword⟩

theorem Inv.exists_store (hinv : Inv L memory) (word value : Nat) (hv : word / 512 < L.pages)
    (hfree : ¬ L.Reserved (word / 512))
    (hown : lookup (L.array memory) (word / 512) = entry 7 (word / 512)) :
    stepMachine (4096 * L.p4) memory (.store word value) = some (Function.update memory word value)
      ∧ Inv L (Function.update memory word value)
      ∧ ∀ v < L.pages, lookup (L.array (Function.update memory word value)) v
        = lookup (L.array memory) v := by
  have hle := L.pages_le
  have hroot : 4096 * L.p4 / pageSize = L.p4 := Nat.mul_div_cancel_left _ (by decide)
  have hcanonical : Canonical (8 * word) := Or.inl (by omega)
  have hpage : 8 * word / 4096 = word / 512 := by omega
  have hword : 512 * (word / 512) + word % 512 = word := Nat.div_add_mod _ _
  have hother : ∀ w, w / 512 ≠ word / 512 → Function.update memory word value w = memory w := by
    intro w hw
    apply Function.update_of_ne
    rintro rfl
    exact hw rfl
  refine ⟨?_, hinv.of_frame hfree hother, ?_⟩
  · rw [stepMachine, hroot, PagedMachine.translate, if_pos hcanonical, hpage,
      hinv.linked.walk_of_lt hv, hown,
      resolve1_own (by omega)]
    dsimp only
    rw [hword]
    rfl
  · exact (sameSpace_of_frame hinv.linked
      (fun hin => hfree (Layout.reserved_table hin.1 hin.2).1) hother).2

theorem Inv.exec_zeroPage_beyond {machine : Machine} (hinv : Inv L machine.memory)
    (htables : L.tables = 1) :
    exec (zeroPage L.p4 (pageAddress (2 ^ 30))) machine = (fail .nestedFault, machine) := by
  have habsent : walk machine.memory L.p4 (2 ^ 18) = none := by
    rw [hinv.linked.walk_eq, htables]
    rfl
  have haddress : pageAddress (2 ^ 30) + 256 * 0 + 32 * 0 = 4096 * 2 ^ 18 + 8 * 0 := by decide
  unfold zeroPage
  apply exec_times_error (by decide)
  apply exec_times_error (by decide)
  rw [haddress]
  exact exec_storeWords_absent (by decide) (by decide) habsent

/-- With page 0 as its p2 table and page 1 as its p1 table, the handler writes an entry to page 1. -/
theorem Inv.exec_redirected {machine : Machine} (hinv : Inv L machine.memory) (htables : L.tables = 1)
    (hpage₀ : walk machine.memory L.p4 0 = some ⟨0, true, true⟩)
    (hpage₁ : walk machine.memory L.p4 1 = some ⟨1, true, true⟩) (hfree : ¬ L.Reserved 1)
    (hr8 : machine.memory 0 = 5) (hr9 : machine.memory 512 = 0) :
    512 ∈ (exec (pageFaultExceptionHandler (2 ^ 30) (4096 * L.p4)) machine).2.stores := by
  have hp3 : L.p3 = L.base + 513 * L.tables := rfl
  have hp4 : L.p4 = L.p3 + 1 := rfl
  have hroot : 4096 * L.p4 / pageSize = L.p4 := Nat.mul_div_cancel_left _ (by decide)
  have hoffset₄ : entryOffset (2 ^ 30) 36 = 8 * 0 := by decide
  have hoffset₃ : entryOffset (2 ^ 30) 27 = 8 * 1 := by decide
  have hoffset₂ : entryOffset (2 ^ 30) 18 = 8 * 0 := by decide
  have hoffset₁ : entryOffset (2 ^ 30) 9 = 8 * 0 := by decide
  have hzero : pageAddress 0 = 4096 * 0 := rfl
  have hr15 : wrap (8 * 0 * 512 + pageSize + 4096 * 0) = 4096 * 1 := by decide
  have hload₀ : exec (load HandlerStop.nestedFault L.p4 (wrap (4096 * 0 + 8 * 0))) machine
      = (.ok (machine.memory (512 * 0 + 0)), machine) := by
    rw [wrap_eq (by decide)]
    exact exec_load (by decide) (by decide) hpage₀
  have hload₁ : exec (load HandlerStop.nestedFault L.p4 (wrap (4096 * 1 + 8 * 0))) machine
      = (.ok (machine.memory (512 * 1 + 0)), machine) := by
    rw [wrap_eq (by decide)]
    exact exec_load (by decide) (by decide) hpage₁
  unfold pageFaultExceptionHandler
  dsimp only
  rw [hroot, hoffset₄, hoffset₃, hoffset₂, hoffset₁,
    exec_bind_ok (hinv.exec_loadEntry (by omega) (le_refl _) (by decide)), Nat.add_zero,
    hinv.linked.root, pageAddress_entry (by decide),
    exec_bind_ok (hinv.exec_loadEntry (by omega) (by omega) (by decide)),
    hinv.linked.p3_rest 1 (by omega) (by decide), hzero, hr15, exec_bind_ok hload₀,
    exec_bind_ok hload₁, Nat.mul_zero, Nat.mul_one, Nat.zero_add, Nat.add_zero, hr8, hr9]
  have hentries : handleEntries L.p4 (2 ^ 30) 5 0 0 0 0 4096 = demandPage L.p4 (2 ^ 30) 0 4096 := by
    simp only [handleEntries]
    rfl
  have hstored : exec (storeWords HandlerStop.nestedFault L.p4 (wrap (4096 + 0))
      [pageAddress (2 ^ 30) ||| pde64AllAllowed]) machine
      = (.ok ⟨⟩, ⟨Function.update machine.memory 512 (pageAddress (2 ^ 30) ||| pde64AllAllowed),
          512 :: machine.stores⟩) := by
    have haddress : wrap (4096 + 0) = 4096 * 1 + 8 * 0 := by decide
    rw [haddress, exec_storeWords (by decide) (by decide) hpage₁, writeWords_singleton]
    rfl
  have hinv' : Inv L (Function.update machine.memory 512 (pageAddress (2 ^ 30) ||| pde64AllAllowed)) := by
    apply hinv.of_frame hfree
    intro w hw
    apply Function.update_of_ne
    rintro rfl
    exact hw rfl
  rw [hentries, demandPage, exec_bind_ok hstored, Inv.exec_zeroPage_beyond hinv' htables]
  exact List.mem_cons_self

/-- The function has page 0 and page 1, and has put entries into them. -/
theorem exists_forged {guestMem' : Words} {cr3 : Nat} {metadata : PageFaultMetadata}
    (h : SetUp L copiedRanges onesMemory guestMem' (1697 * 4096) (1697 * 4096, 1700 * 4096)
      (2048 * 4096) cr3 metadata) :
    ∃ memory, run (stepMachine cr3) guestMem'.word [.fault 0, .store 0 5, .store 512 0] = some memory
      ∧ Inv L memory ∧ lookup (L.array memory) 0 = entry 7 0 ∧ lookup (L.array memory) 1 = entry 7 1
      ∧ memory 0 = 5 ∧ memory 512 = 0 := by
  obtain ⟨hfree₀, hv₀, hlookup₀⟩ := copiedRanges_lookup h (show 0 < 1024 by decide)
  obtain ⟨hfree₁, hv₁, hlookup₁⟩ := copiedRanges_lookup h (show 1 < 1024 by decide)
  have hinv := h.built.inv h.placed
  -- the fault gives page 0 to the function
  obtain ⟨memory, hfault, hhandled⟩ := hinv.exists_fault hv₀ hfree₀ (show 0 / 4096 = 0 by decide)
    (by rw [hlookup₀]; decide)
  have hinv₁ := hhandled.inv hinv hfree₀
  have hown₀ : lookup (L.array memory) 0 = entry 7 0 := by rw [hhandled.lookup 0 hv₀, if_pos rfl]
  have hown₁ : lookup (L.array memory) 1 = entry 7 1 := by
    rw [hhandled.lookup 1 hv₁, hlookup₁]
    rfl
  obtain ⟨hstore₂, hinv₂, hsame₂⟩ := hinv₁.exists_store 0 5 hv₀ hfree₀ hown₀
  obtain ⟨hstore₃, hinv₃, hsame₃⟩ := hinv₂.exists_store 512 0 hv₁ hfree₁ ((hsame₂ 1 hv₁).trans hown₁)
  refine ⟨Function.update (Function.update memory 0 5) 512 0, ?_, hinv₃, ?_, ?_, rfl, rfl⟩
  · rw [run, h.cr3_eq, hfault, Option.bind_some, run, hstore₂, Option.bind_some, run, hstore₃]
    rfl
  · rw [hsame₃ 0 hv₀, hsame₂ 0 hv₀, hown₀]
  · rw [hsame₃ 1 hv₁, hsame₂ 1 hv₁, hown₁]

/-- The handler takes the two pages for tables, and writes to page 1. -/
theorem fault_redirected : ∃ guestMem' cr3 metadata memory,
    setPageTable onesMemory copiedRanges (1697 * 4096) (1697 * 4096, 1700 * 4096) (2048 * 4096)
        = .ok (guestMem', cr3, metadata)
      ∧ run (stepMachine cr3) guestMem'.word [.fault 0, .store 0 5, .store 512 0] = some memory
      ∧ mayWrite memory cr3 (2 ^ 30) = false
      ∧ 512 ∈ (exec (pageFaultExceptionHandler (2 ^ 30) cr3) ⟨memory, []⟩).2.stores
      ∧ ¬ ((metadata.tableBase ≤ 8 * 512 ∧ 8 * 512 < metadata.p3Address)
        ∨ 8 * 512 / pageSize = 2 ^ 30 / pageSize) := by
  obtain ⟨guestMem', cr3, metadata, hok⟩ :=
    setPageTable_eightMegabytes onesMemory rfl copiedRanges_promised (by decide)
  obtain ⟨L, h⟩ := setPageTable_setUp copiedRanges_promised hok
  obtain ⟨htables, hbase, -⟩ := copiedRanges_layout h
  obtain ⟨-, hv₀, -⟩ := copiedRanges_lookup h (show 0 < 1024 by decide)
  obtain ⟨hfree₁, hv₁, -⟩ := copiedRanges_lookup h (show 1 < 1024 by decide)
  obtain ⟨memory, hrun, hinv, hown₀, hown₁, hword₀, hword₁⟩ := exists_forged h
  refine ⟨guestMem', cr3, metadata, memory, hok, hrun, ?_, ?_, ?_⟩
  · have habsent : walk memory L.p4 (2 ^ 30 / 4096) = none := by
      rw [hinv.linked.walk_eq, htables]
      rfl
    have hcanonical : Canonical (2 ^ 30) := by decide
    rw [mayWrite, h.root_eq, PagedMachine.translate, if_pos hcanonical, habsent]
    rfl
  · rw [h.cr3_eq]
    apply Inv.exec_redirected hinv htables _ _ hfree₁ hword₀ hword₁
    · rw [hinv.linked.walk_of_lt hv₀, hown₀, resolve1_own (by decide)]
    · rw [hinv.linked.walk_of_lt hv₁, hown₁, resolve1_own (by decide)]
  · rw [h.metadata_eq, hbase]
    dsimp only
    unfold pageSize
    omega

end Dandelion.Kvm
