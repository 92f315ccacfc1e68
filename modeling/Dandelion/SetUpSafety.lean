import Dandelion.AddressSpace

/-!
# What a function can reach, and what it finds there

After `set_page_table` no page that is open to the function leads to the tables or to the
handlers. The data of the present ranges is still there as long as no range reaches into the
large page in which the stack starts.
-/

open Outcome Paging

namespace Dandelion.Kvm

/-- The translation that a page of a range should have: itself with write permission, or the page of
the block it is a copy of, read only. -/
def translationIn (range : PresentRange) (page : Nat) : Translation :=
  match range.2.2 with
  | some block => ⟨block / 4096 + (page - firstPage range), false, true⟩
  | none => ⟨page, true, true⟩

/-- The entry of a page that is not reserved: absent, the page itself, or a page of the blocks at
the same place in its large page. -/
inductive OpenEntry (L : Layout) (page : Nat) : Nat → Prop
  | absent : OpenEntry L page 0
  | own : OpenEntry L page (entry 7 page)
  | copy {f : Nat} (hmin : L.interruptEnd ≤ f) (hmax : f < L.last) (hplace : f % 512 = page % 512) :
    OpenEntry L page (entry 5 f)

section Present

variable {L : Layout} {ranges : List PresentRange} {page : Nat}

theorem exists_range_of_present {e : Nat} (h : presentEntry ranges page = some e) :
    ∃ range ∈ ranges, firstPage range ≤ page ∧ page < pastPage range ∧ e = entryIn range page := by
  obtain ⟨range, hrange, he⟩ := List.exists_of_findSome?_eq_some h
  split_ifs at he with hin
  exact ⟨range, hrange, hin.1, hin.2, (Option.some.inj he).symm⟩

theorem presentEntry_of_mem (hascending : ranges.Pairwise fun range range' => range.2.1 < range'.1)
    {range : PresentRange} (hrange : range ∈ ranges) (hfirst : firstPage range ≤ page)
    (hpast : page < pastPage range) : presentEntry ranges page = some (entryIn range page) := by
  induction ranges with
  | nil => cases hrange
  | cons head ranges ih =>
    obtain ⟨hhead, htail⟩ := List.pairwise_cons.mp hascending
    rw [presentEntry, List.findSome?_cons]
    rcases List.mem_cons.mp hrange with rfl | hmem
    · rw [if_pos ⟨hfirst, hpast⟩]
    · have hnext : pastPage head ≤ firstPage range := Nat.div_le_div_right (hhead range hmem)
      rw [if_neg (by omega)]
      exact ih htail hmem

theorem entryIn_none {range : PresentRange} (horigin : range.2.2 = none) :
    entryIn range page = entry 7 page ∧ translationIn range page = ⟨page, true, true⟩ := by
  rw [entryIn, translationIn, horigin]
  exact ⟨rfl, rfl⟩

theorem Placed.entryIn_some {range : PresentRange} (h : Placed L range)
    (hfirst : firstPage range ≤ page) (hpast : page < pastPage range) {block : Nat}
    (horigin : range.2.2 = some block) :
    ∃ f, entryIn range page = entry 5 f ∧ translationIn range page = ⟨f, false, true⟩
      ∧ L.interruptEnd ≤ f ∧ f < L.last ∧ f % 512 = page % 512 := by
  obtain ⟨hcongruent, hmin, hmax⟩ := h.block block horigin
  have := h.start_aligned
  have := h.end_aligned
  have := h.start_le
  unfold largePage at hcongruent
  unfold firstPage pastPage at *
  rw [entryIn, translationIn, horigin]
  exact ⟨block / 4096 + (page - range.1 / 4096), rfl, rfl, by omega, by omega, by omega⟩

theorem Placed.openEntry {range : PresentRange} (h : Placed L range)
    (hfirst : firstPage range ≤ page) (hpast : page < pastPage range) :
    OpenEntry L page (entryIn range page) := by
  cases horigin : range.2.2 with
  | none =>
    rw [(entryIn_none horigin).1]
    exact .own
  | some block =>
    obtain ⟨f, heq, -, hmin, hmax, hplace⟩ := h.entryIn_some hfirst hpast horigin
    rw [heq]
    exact .copy hmin hmax hplace

theorem entryAt_reserved (h : L.Reserved page) : L.entryAt ranges page = L.reservedEntry page := by
  have hnot : ¬ (L.stackStart ≤ page ∧ page < L.base) := by
    have := L.tables_fit
    unfold Layout.Reserved at h
    omega
  rw [Layout.entryAt, if_neg hnot, if_pos h]

theorem entryAt_open (hplaced : ∀ range ∈ ranges, Placed L range) (h : ¬ L.Reserved page) :
    OpenEntry L page (L.entryAt ranges page) := by
  rw [Layout.entryAt, if_neg h]
  split_ifs with hstack
  · exact .own
  · cases hpresent : presentEntry ranges page with
    | none => exact .absent
    | some e =>
      obtain ⟨range, hrange, hfirst, hpast, rfl⟩ := exists_range_of_present hpresent
      exact (hplaced range hrange).openEntry hfirst hpast

theorem resolve1_reserved (hpage : page < 2 ^ 40) :
    resolve1 (L.reservedEntry page) = some ⟨page, decide (page < L.interruptEnd), false⟩ := by
  unfold Layout.reservedEntry
  split_ifs with hwritable
  · rw [PageFlags.resolve1 ⟨by decide, rfl⟩ hpage, decide_eq_true hwritable]
    rfl
  · rw [PageFlags.resolve1 ⟨by decide, rfl⟩ hpage, decide_eq_false hwritable]
    rfl

theorem resolve1_own (hpage : page < 2 ^ 40) : resolve1 (entry 7 page) = some ⟨page, true, true⟩ :=
  PageFlags.resolve1 ⟨by decide, rfl⟩ hpage

theorem resolve1_copy {f : Nat} (hf : f < 2 ^ 40) : resolve1 (entry 5 f) = some ⟨f, false, true⟩ :=
  PageFlags.resolve1 ⟨by decide, rfl⟩ hf

end Present

/-! ## Isolation -/

section Isolation

variable {ranges : List PresentRange} {guestMem guestMem' : Words} {stackStart lastAddress cr3 : Nat}
  {interruptRange : Nat × Nat} {metadata : PageFaultMetadata}

/-- No address that the function may use is translated to the tables or to the handlers. -/
theorem setPageTable_isolates (hpromised : Promised ranges stackStart interruptRange lastAddress)
    (hok : setPageTable guestMem ranges stackStart interruptRange lastAddress
      = .ok (guestMem', cr3, metadata)) (address : Nat) (t : Translation)
    (hwalk : walk guestMem'.word (cr3 / pageSize) (address / pageSize) = some t)
    (huser : t.user = true) :
    ¬ (metadata.tableBase ≤ t.frame * pageSize + address % pageSize
        ∧ t.frame * pageSize + address % pageSize < metadata.p4Address + pageSize)
      ∧ ¬ (interruptRange.1 ≤ t.frame * pageSize + address % pageSize
        ∧ t.frame * pageSize + address % pageSize < interruptRange.2) := by
  obtain ⟨L, h⟩ := setPageTable_setUp hpromised hok
  have hroot : cr3 / pageSize = L.p4 := by
    rw [h.cr3_eq]
    exact Nat.mul_div_cancel_left _ (by decide)
  rw [hroot, h.built.walk_eq] at hwalk
  split_ifs at hwalk with hin
  have hp4 : L.p4 = L.base + 513 * L.tables + 1 := rfl
  have hfit := L.tables_fit
  have hinterrupt := L.interrupt_le
  have hlast := L.interruptEnd_le
  have hlastLt := L.last_lt
  rw [h.metadata_eq, h.interrupt_eq]
  generalize hpage : address / pageSize % 512 ^ 3 = page at hwalk
  have hpageLt : page < 2 ^ 40 := by omega
  dsimp only
  unfold pageSize at *
  by_cases hreserved : L.Reserved page
  · rw [entryAt_reserved hreserved, resolve1_reserved hpageLt] at hwalk
    cases hwalk
    cases huser
  · have hopen := entryAt_open h.placed hreserved
    unfold Layout.Reserved at hreserved
    generalize L.entryAt ranges page = e at hwalk hopen
    cases hopen with
    | absent => cases hwalk
    | own =>
      rw [resolve1_own hpageLt] at hwalk
      cases hwalk
      dsimp only
      omega
    | copy hmin hmax _ =>
      rw [resolve1_copy (by omega)] at hwalk
      cases hwalk
      dsimp only
      omega

end Isolation

/-- A memory of 8 MB: the tables from the page 1182 on, the handlers, and blocks from the
page 1700 on. -/
def eightMegabytes : Layout where
  tables := 1
  base := 1182
  interruptStart := 1697
  interruptEnd := 1700
  last := 2048
  tables_le := by decide
  tables_fit := by decide
  interrupt_le := by decide
  interruptEnd_le := by decide
  last_le := by decide

/-- A memory of 8 MB in which no word is zero. -/
def onesMemory : Words := ⟨2048 * 512, fun _ => 1⟩

/-- Two pages of the function, and two pages that are copies of a block. -/
def copiedRanges : List PresentRange :=
  [(1 * 4096, 3 * 4096 - 1, none), (164 * 4096, 166 * 4096 - 1, some (1700 * 4096))]

theorem copiedRanges_promised :
    Promised copiedRanges (1697 * 4096) (1697 * 4096, 1700 * 4096) (2048 * 4096) where
  stack_aligned := by decide
  interrupt_aligned := by decide
  last_aligned := by decide
  stack_le := by decide
  interrupt_le := by decide
  interrupt_last := by decide
  range_aligned := by decide
  ascending := by decide
  block := by
    intro range hrange block hblock
    simp only [copiedRanges, List.mem_cons, List.not_mem_nil, or_false] at hrange
    rcases hrange with rfl | rfl
    · cases hblock
    · cases hblock
      decide

theorem setPageTable_eightMegabytes (guestMem : Words) (hlength : guestMem.length = 2048 * 512)
    {ranges : List PresentRange}
    (hpromised : Promised ranges (1697 * 4096) (1697 * 4096, 1700 * 4096) (2048 * 4096))
    (hend : ∀ range ∈ ranges, range.2.1 < 1182 * 4096) :
    ∃ guestMem' cr3 metadata,
      setPageTable guestMem ranges (1697 * 4096) (1697 * 4096, 1700 * 4096) (2048 * 4096)
        = .ok (guestMem', cr3, metadata) := by
  obtain ⟨guestMem', heq, -⟩ := setPageTable_layout (L := eightMegabytes) guestMem (by decide) (by decide)
    (by rw [hlength]; decide)
    (fun range hrange =>
      { start_aligned := (hpromised.range_aligned range hrange).1
        end_aligned := (hpromised.range_aligned range hrange).2.1
        start_le := (hpromised.range_aligned range hrange).2.2
        block := hpromised.block range hrange }) hpromised.ascending hend
  exact ⟨guestMem', _, _, heq⟩

theorem copiedRanges_isolated : ∃ guestMem' cr3 metadata,
    setPageTable onesMemory copiedRanges (1697 * 4096) (1697 * 4096, 1700 * 4096) (2048 * 4096)
        = .ok (guestMem', cr3, metadata)
      ∧ ∀ address t, walk guestMem'.word (cr3 / pageSize) (address / pageSize) = some t →
        t.user = true →
        ¬ (metadata.tableBase ≤ t.frame * pageSize + address % pageSize
          ∧ t.frame * pageSize + address % pageSize < metadata.p4Address + pageSize) := by
  obtain ⟨guestMem', cr3, metadata, hok⟩ :=
    setPageTable_eightMegabytes onesMemory rfl copiedRanges_promised (by decide)
  exact ⟨guestMem', cr3, metadata, hok, fun address t hwalk huser =>
    (setPageTable_isolates copiedRanges_promised hok address t hwalk huser).1⟩

/-! ## Data of the present ranges -/

/-- Every page of the ranges is translated as it should be, and the words there are as before. -/
def Intact (ranges : List PresentRange) (memory memory' : Nat → Nat) (cr3 : Nat) : Prop :=
  ∀ range ∈ ranges, ∀ page, firstPage range ≤ page → page < pastPage range →
    walk memory' (cr3 / pageSize) page = some (translationIn range page)
      ∧ ∀ i < 512, memory' (512 * (translationIn range page).frame + i)
        = memory (512 * (translationIn range page).frame + i)

/-- The address of the tables that end at an address. -/
def tableBaseOf (stackStart lastAddress : Nat) : Nat :=
  stackStart - (2 + 513 * p2TableNumber lastAddress) * pageSize

/-- A page of a range in the large pages of the stack and above is one that the function may
write, and holds zeros. -/
def ClearOfStack (ranges : List PresentRange) (memory : Nat → Nat) (stackStart lastAddress : Nat) :
    Prop :=
  ∀ range ∈ ranges, ∀ page, firstPage range ≤ page → page < pastPage range →
    page * pageSize < tableBaseOf stackStart lastAddress / largePage * largePage
      ∨ (range.2.2 = none ∧ ∀ i < 512, memory (512 * page + i) = 0)

section Data

variable {L : Layout} {ranges : List PresentRange} {memory memory' : Nat → Nat}

theorem Built.intact_iff (h : Built L ranges memory memory')
    (hplaced : ∀ range ∈ ranges, Placed L range)
    (hend : ∀ range ∈ ranges, range.2.1 < 4096 * L.base)
    (hascending : ranges.Pairwise fun range range' => range.2.1 < range'.1) {range : PresentRange}
    (hrange : range ∈ ranges) {page : Nat} (hfirst : firstPage range ≤ page)
    (hpast : page < pastPage range) :
    (walk memory' L.p4 page = some (translationIn range page)
        ∧ ∀ i < 512, memory' (512 * (translationIn range page).frame + i)
          = memory (512 * (translationIn range page).frame + i))
      ↔ page < L.stackStart ∨ (range.2.2 = none ∧ ∀ i < 512, memory (512 * page + i) = 0) := by
  have hbelow : page < L.base := by
    have := hend range hrange
    unfold pastPage at hpast
    omega
  have hp4 : L.p4 = L.base + 513 * L.tables + 1 := rfl
  have htables := L.tables_le
  have hfit := L.tables_fit
  have hinterrupt := L.interrupt_le
  have hlast := L.interruptEnd_le
  have hlastLe := L.last_le
  have hstart : L.stackStart ≤ L.base := by
    unfold Layout.stackStart
    omega
  have hpage : page % 512 ^ 3 = page := by omega
  have hreserved : ¬ L.Reserved page := by
    unfold Layout.Reserved
    omega
  rw [h.walk_eq, if_pos (by omega), hpage, Layout.entryAt, if_neg hreserved,
    presentEntry_of_mem hascending hrange hfirst hpast, Option.getD_some]
  cases horigin : range.2.2 with
  | none =>
    rw [(entryIn_none horigin).1, (entryIn_none horigin).2, ite_self, resolve1_own (by omega)]
    by_cases hstack : L.stackStart ≤ page
    · -- the page is where it was, but has been cleared
      have hcleared : ∀ i < 512, memory' (512 * page + i) = 0 := by
        intro i hi
        exact h.stack _ (by omega) (by omega)
      constructor
      · rintro ⟨-, hwords⟩
        exact Or.inr ⟨rfl, fun i hi => (hwords i hi).symm.trans (hcleared i hi)⟩
      · rintro (hlt | ⟨-, hzero⟩)
        · omega
        · exact ⟨rfl, fun i hi => (hcleared i hi).trans (hzero i hi).symm⟩
    · refine iff_of_true ⟨rfl, fun i hi => h.other _ (Or.inl ?_)⟩ (Or.inl (by omega))
      dsimp only
      omega
  | some block =>
    obtain ⟨f, hentry, htranslation, hmin, hmax, -⟩ :=
      (hplaced range hrange).entryIn_some hfirst hpast horigin
    rw [hentry, htranslation]
    by_cases hstack : L.stackStart ≤ page
    · -- the page is no copy of its block any more
      rw [if_pos ⟨hstack, hbelow⟩, resolve1_own (by omega)]
      constructor
      · rintro ⟨hsome, -⟩
        cases hsome
      · rintro (hlt | ⟨hnone, -⟩)
        · omega
        · cases hnone
    · rw [if_neg (fun hin => hstack hin.1), resolve1_copy (by omega)]
      refine iff_of_true ⟨rfl, fun i hi => h.other _ (Or.inr ?_)⟩ (Or.inl (by omega))
      dsimp only
      omega

end Data

/-- The data of the present ranges survives exactly if the ranges stay clear of the large pages of
the stack, or have nothing but zeros there. -/
theorem setPageTable_intact_iff {ranges : List PresentRange} {guestMem guestMem' : Words}
    {stackStart lastAddress cr3 : Nat} {interruptRange : Nat × Nat} {metadata : PageFaultMetadata}
    (hpromised : Promised ranges stackStart interruptRange lastAddress)
    (hok : setPageTable guestMem ranges stackStart interruptRange lastAddress
      = .ok (guestMem', cr3, metadata)) :
    Intact ranges guestMem.word guestMem'.word cr3
      ↔ ClearOfStack ranges guestMem.word stackStart lastAddress := by
  obtain ⟨L, h⟩ := setPageTable_setUp hpromised hok
  have hroot : cr3 / pageSize = L.p4 := by
    rw [h.cr3_eq]
    exact Nat.mul_div_cancel_left _ (by decide)
  have hbase : tableBaseOf stackStart lastAddress / largePage * largePage = 4096 * L.stackStart := by
    have hp4 : L.p4 = L.base + 513 * L.tables + 1 := rfl
    rw [tableBaseOf, ← h.tables_eq, h.stack_eq, hp4]
    unfold largePage pageSize Layout.stackStart
    omega
  unfold Intact ClearOfStack
  rw [hroot, hbase]
  refine forall₂_congr fun range hrange => forall₃_congr fun page hfirst hpast => ?_
  rw [h.built.intact_iff h.placed h.end_lt hpromised.ascending hrange hfirst hpast]
  have hlt : page * pageSize < 4096 * L.stackStart ↔ page < L.stackStart := by
    unfold pageSize
    omega
  rw [hlt]

theorem copiedRanges_intact : ∃ guestMem' cr3 metadata,
    setPageTable onesMemory copiedRanges (1697 * 4096) (1697 * 4096, 1700 * 4096) (2048 * 4096)
        = .ok (guestMem', cr3, metadata)
      ∧ Intact copiedRanges onesMemory.word guestMem'.word cr3 := by
  obtain ⟨guestMem', cr3, metadata, hok⟩ :=
    setPageTable_eightMegabytes onesMemory rfl copiedRanges_promised (by decide)
  refine ⟨guestMem', cr3, metadata, hok, (setPageTable_intact_iff copiedRanges_promised hok).mpr ?_⟩
  intro range hrange page hfirst hpast
  left
  have hend : ∀ range ∈ copiedRanges, pastPage range ≤ 166 := by decide
  have := hend range hrange
  have hbase : tableBaseOf (1697 * 4096) (2048 * 4096) / largePage * largePage = 1024 * 4096 := by
    decide
  rw [hbase]
  unfold pageSize
  omega

/-- As before, and two more pages of the function in the large page in which the stack starts. -/
def highRanges : List PresentRange := copiedRanges ++ [(1025 * 4096, 1027 * 4096 - 1, none)]

theorem highRanges_promised :
    Promised highRanges (1697 * 4096) (1697 * 4096, 1700 * 4096) (2048 * 4096) where
  stack_aligned := by decide
  interrupt_aligned := by decide
  last_aligned := by decide
  stack_le := by decide
  interrupt_le := by decide
  interrupt_last := by decide
  range_aligned := by decide
  ascending := by decide
  block := by
    intro range hrange block hblock
    rcases List.mem_append.mp hrange with hcopied | hhigh
    · exact copiedRanges_promised.block range hcopied block hblock
    · rw [List.mem_singleton.mp hhigh] at hblock
      cases hblock

/-- The call succeeds, and the pages hold zeros afterwards. -/
theorem highRanges_cleared : ∃ guestMem' cr3 metadata,
    setPageTable onesMemory highRanges (1697 * 4096) (1697 * 4096, 1700 * 4096) (2048 * 4096)
        = .ok (guestMem', cr3, metadata)
      ∧ ¬ Intact highRanges onesMemory.word guestMem'.word cr3 := by
  obtain ⟨guestMem', cr3, metadata, hok⟩ :=
    setPageTable_eightMegabytes onesMemory rfl highRanges_promised (by decide)
  refine ⟨guestMem', cr3, metadata, hok, fun hintact => ?_⟩
  obtain ⟨L, h⟩ := setPageTable_setUp highRanges_promised hok
  have htables : L.tables = 1 := h.tables_eq.trans (by decide)
  have hp4 : L.p4 = L.base + 513 * L.tables + 1 := rfl
  have hstack := h.stack_eq
  have hbase : L.base = 1182 := by omega
  have hcleared : guestMem'.word (512 * 1025) = 0 := by
    apply h.built.stack
    · rw [Layout.stackStart, hbase]
      decide
    · rw [hbase]
      decide
  have hkept := (hintact (1025 * 4096, 1027 * 4096 - 1, none) (by simp [highRanges]) 1025 (by decide)
    (by decide)).2 0 (by decide)
  change guestMem'.word (512 * 1025) = 1 at hkept
  rw [hcleared] at hkept
  cases hkept

end Dandelion.Kvm
