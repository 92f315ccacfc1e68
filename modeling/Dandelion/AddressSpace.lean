import Dandelion.TableRanges

/-!
# The address space of a virtual machine

What `set_page_table` leaves in guest memory. A `Layout` says in page numbers where the tables,
the handlers and the blocks are; `Built` is the address space that the calls of `set_range`
make of them.
-/

open Outcome Paging

namespace Dandelion.Kvm

/-- The parts of a guest memory, in page numbers: `tables` p2 tables with their p1 tables from the
page `base` on, then the p3 and the p4 table, the handlers, and the blocks up to `last`. -/
structure Layout where
  tables : Nat
  base : Nat
  interruptStart : Nat
  interruptEnd : Nat
  last : Nat
  tables_le : tables ≤ 512
  tables_fit : base + 513 * tables + 2 ≤ interruptStart
  interrupt_le : interruptStart ≤ interruptEnd
  interruptEnd_le : interruptEnd ≤ last
  last_le : last ≤ tables * 512 * 512

namespace Layout

variable (L : Layout)

def p3 : Nat := L.base + 513 * L.tables

def p4 : Nat := L.p3 + 1

/-- The first page of the stack, which starts with a large page. -/
def stackStart : Nat := L.base / 512 * 512

/-- The pages that set up the machine and are not for the function. -/
def Reserved (page : Nat) : Prop :=
  (L.base ≤ page ∧ page < L.p4 + 1) ∨ (L.interruptStart ≤ page ∧ page < L.last)

/-- The entry of a reserved page: the tables and the handlers may be written. -/
def reservedEntry (page : Nat) : Nat := entry (if page < L.interruptEnd then 3 else 1) page

end Layout

/-! ## Walks -/

/-- The joint array of the tables in a memory. -/
def Layout.array (L : Layout) (memory : Nat → Nat) : Nat → Nat := fun i => memory (512 * L.base + i)

/-- The root, the p3 table and the p2 entries are where the layout has them. -/
structure Linked (L : Layout) (memory : Nat → Nat) : Prop where
  root : memory (512 * L.p4) = entry 7 L.p3
  root_rest : ∀ i, 0 < i → i < 512 → memory (512 * L.p4 + i) = 0
  p3 : ∀ i < L.tables, memory (512 * L.p3 + i) = entry 7 (L.base + 513 * i)
  p3_rest : ∀ i, L.tables ≤ i → i < 512 → memory (512 * L.p3 + i) = 0
  shape : Shape L.base L.tables (L.array memory)

section Walks

variable {L : Layout} {memory : Nat → Nat}

theorem Layout.p3_lt (L : Layout) : L.p3 < 2 ^ 40 := by
  have := L.tables_fit
  have := L.interrupt_le
  have := L.interruptEnd_le
  have := L.last_le
  have := L.tables_le
  unfold Layout.p3
  omega

theorem resolve2_eq (h : Linked L memory) {page : Nat} (hpage : page / 512 < L.tables * 512) :
    resolve2 memory (L.array memory (p2Index (page / 512))) page
      = resolve1 (lookup (L.array memory) page) :=
  h.shape.resolve2_eq (Nat.le_of_lt L.p3_lt) (fun _ _ => rfl) hpage

/-- The walk of a page, whatever its address: only the first p4 entry and the p3 entries of the
tables lead anywhere. -/
theorem Linked.walk_eq (h : Linked L memory) (page : Nat) : walk memory L.p4 page
    = if page / 512 ^ 3 % 512 = 0 ∧ page / 512 ^ 2 % 512 < L.tables then
        resolve1 (lookup (L.array memory) (page % 512 ^ 3))
      else none := by
  have hp3 := L.p3_lt
  rw [walk]
  by_cases hroot : page / 512 ^ 3 % 512 = 0
  · rw [hroot, Nat.add_zero, h.root, resolve4_table _ hp3]
    by_cases htable : page / 512 ^ 2 % 512 < L.tables
    · have hindex : 512 * (L.base + 513 * (page / 512 ^ 2 % 512)) + page / 512 % 512
          = 512 * L.base + p2Index (page % 512 ^ 3 / 512) := by
        unfold p2Index
        omega
      rw [if_pos ⟨rfl, htable⟩, h.p3 _ htable,
        resolve3_table _ (by unfold Layout.p3 at hp3; omega), hindex,
        resolve2_congr memory (show page % 512 = page % 512 ^ 3 % 512 by omega)]
      exact resolve2_eq h (by omega)
    · rw [if_neg (fun hin => htable hin.2), h.p3_rest _ (by omega) (by omega)]
      rfl
  · rw [if_neg (fun hin => hroot hin.1), h.root_rest _ (by omega) (by omega)]
    rfl

end Walks

/-! ## Mappings -/

/-- The tables give the entries `f` to the pages, and none to the pages from `past` on. -/
structure Mapping (base n past : Nat) (f : Nat → Nat) (T : Words) : Prop where
  length : T.length = n * (513 * 512)
  lookup : ∀ v < n * 512 * 512, lookup T.word v = f v
  above : ∀ v, past ≤ v → f v = 0
  ready : past % 512 ≠ 0 → T.word (p2Index (past / 512)) = pointer base (past / 512)
  shape : Shape base n T.word

theorem Mapping.congr {base n past : Nat} {f g : Nat → Nat} {T : Words}
    (h : Mapping base n past f T) (hfg : ∀ v, f v = g v) : Mapping base n past g T := by
  obtain rfl : f = g := funext hfg
  exact h

/-- A call of `set_range` adds its range to the mapping, if that starts after the previous one, or
at a large page of which it takes all that the previous one had. -/
theorem Mapping.setRange {base n past flags s e b : Nat} {f : Nat → Nat} {T : Words}
    (h : Mapping base n past f T) (hflags : PageFlags flags) (hs : past ≤ s ∨ s % 512 = 0)
    (hpast : past ≤ e) (hse : s ≤ e) (he : e ≤ n * 512 * 512) (hb : b % 512 = s % 512)
    (hfit : b + (e - s) ≤ 2 ^ 40) :
    ∃ T', setRange T (4096 * base) (4096 * s) (4096 * e) flags (4096 * b) past = .ok (T', e)
      ∧ Mapping base n e (fun v =>
          if s ≤ v ∧ v < e then entry flags (b + (v - s)) else f v) T' := by
  have hready : s % 512 ≠ 0 → nextMultipleOf past tableSize ≤ s
      ∨ T.word (p2Index (s / 512)) = pointer base (s / 512) := by
    intro hmod
    rw [nextMultipleOf_tableSize]
    by_cases hregion : past / 512 = s / 512 ∧ past % 512 ≠ 0
    · rw [← hregion.1]
      exact Or.inr (h.ready hregion.2)
    · exact Or.inl (by omega)
  obtain ⟨T', heq, hset⟩ := setRange_spec hflags he h.length hse hb hfit hready
  refine ⟨T', heq, hset.length.trans h.length, ?_, ?_, hset.ready, hset.shape h.shape⟩
  · intro v hv
    rw [hset.lookup]
    split_ifs with hin hcleared
    · rfl
    · -- what `set_range` clears was not mapped
      rw [nextMultipleOf_tableSize] at hcleared
      exact (h.above v (by omega)).symm
    · exact h.lookup v hv
  · intro v hv
    rw [if_neg (by omega)]
    exact h.above v (by omega)

/-! ## Present ranges -/

def firstPage (range : PresentRange) : Nat := range.1 / 4096

def pastPage (range : PresentRange) : Nat := (range.2.1 + 1) / 4096

/-- The entry of a page of a range: the page itself, or that of the block it is a copy of. -/
def entryIn (range : PresentRange) (page : Nat) : Nat :=
  match range.2.2 with
  | some block => entry 5 (block / 4096 + (page - firstPage range))
  | none => entry 7 page

/-- The entry of a page by the first range that has it. -/
def presentEntry (ranges : List PresentRange) (page : Nat) : Option Nat :=
  ranges.findSome? fun range =>
    if firstPage range ≤ page ∧ page < pastPage range then some (entryIn range page) else none

/-- A range of whole pages, and a block at the same place in its large page. -/
structure Placed (L : Layout) (range : PresentRange) : Prop where
  start_aligned : range.1 % 4096 = 0
  end_aligned : (range.2.1 + 1) % 4096 = 0
  start_le : range.1 ≤ range.2.1 + 1
  block : ∀ block, range.2.2 = some block → block % largePage = range.1 % largePage
    ∧ 4096 * L.interruptEnd ≤ block ∧ block + (range.2.1 + 1 - range.1) ≤ 4096 * L.last

section Present

variable {L : Layout} {ranges : List PresentRange} {page past : Nat}

theorem presentEntry_eq_none (h : ∀ range ∈ ranges, page < firstPage range) :
    presentEntry ranges page = none := by
  rw [presentEntry, List.findSome?_eq_none_iff]
  intro range hrange
  have := h range hrange
  rw [if_neg (by omega)]

theorem Layout.last_lt (L : Layout) : L.last < 2 ^ 40 := by
  have := L.last_le
  have := L.tables_le
  omega

theorem setPresent_spec {T : Words} {f : Nat → Nat} {range : PresentRange}
    (h : Mapping L.base L.tables past f T) (hplaced : Placed L range)
    (hpast : past ≤ firstPage range) (hend : pastPage range ≤ L.tables * 512 * 512) :
    ∃ T', setPresent (4096 * L.base) T past range = .ok (T', pastPage range)
      ∧ Mapping L.base L.tables (pastPage range) (fun v =>
          if firstPage range ≤ v ∧ v < pastPage range then entryIn range v else f v) T' := by
  have hstart : 4096 * firstPage range = range.1 := by
    have := hplaced.start_aligned
    unfold firstPage
    omega
  have hlast : 4096 * pastPage range = range.2.1 + 1 := by
    have := hplaced.end_aligned
    unfold pastPage
    omega
  have hle : firstPage range ≤ pastPage range := Nat.div_le_div_right hplaced.start_le
  have htables := L.tables_le
  obtain ⟨start, last, origin⟩ := range
  cases origin with
  | none =>
    obtain ⟨T', heq, hmap⟩ := h.setRange (b := firstPage (start, last, none))
      (show PageFlags 7 from ⟨by decide, rfl⟩) (Or.inl hpast) (by omega) hle hend rfl (by omega)
    rw [hstart, hlast] at heq
    refine ⟨T', heq, hmap.congr fun v => ?_⟩
    by_cases hin : firstPage (start, last, none) ≤ v ∧ v < pastPage (start, last, none)
    · have hframe : firstPage (start, last, none) + (v - firstPage (start, last, none)) = v := by omega
      rw [if_pos hin, if_pos hin, hframe]
      rfl
    · rw [if_neg hin, if_neg hin]
  | some block =>
    obtain ⟨hcongruent, -, hfit⟩ := hplaced.block block rfl
    have hlastLt := L.last_lt
    unfold largePage at hcongruent
    dsimp only at hcongruent hfit hstart hlast
    have hblock : 4096 * (block / 4096) = block := by omega
    obtain ⟨T', heq, hmap⟩ := h.setRange (b := block / 4096)
      (show PageFlags 5 from ⟨by decide, rfl⟩) (Or.inl hpast) (by omega) hle hend (by omega) (by omega)
    rw [hstart, hlast, hblock] at heq
    exact ⟨T', heq, hmap⟩

theorem setAllPresent_spec {T : Words} {f : Nat → Nat}
    (h : Mapping L.base L.tables past f T) (hplaced : ∀ range ∈ ranges, Placed L range)
    (hascending : ranges.Pairwise fun range range' => range.2.1 < range'.1)
    (hpast : ∀ range ∈ ranges, past ≤ firstPage range) {bound : Nat} (hbound : past ≤ bound)
    (hend : ∀ range ∈ ranges, pastPage range ≤ bound) (hfit : bound ≤ L.tables * 512 * 512) :
    ∃ T' past', ranges.foldlM (fun (state : Words × Nat) range =>
        setPresent (4096 * L.base) state.1 state.2 range) (T, past) = .ok (T', past')
      ∧ past' ≤ bound
      ∧ Mapping L.base L.tables past' (fun v => (presentEntry ranges v).getD (f v)) T' := by
  induction ranges generalizing T past f with
  | nil => exact ⟨T, past, rfl, hbound, h⟩
  | cons range ranges ih =>
    obtain ⟨hfirst, hrest⟩ := List.pairwise_cons.mp hascending
    have hmem : range ∈ range :: ranges := List.mem_cons_self
    obtain ⟨T₁, heq₁, hmap₁⟩ := setPresent_spec h (hplaced range hmem) (hpast range hmem)
      (le_trans (hend range hmem) hfit)
    have hnext : ∀ range' ∈ ranges, pastPage range ≤ firstPage range' := by
      intro range' hrange'
      exact Nat.div_le_div_right (hfirst range' hrange')
    obtain ⟨T', past', heq', hle', hmap'⟩ := ih hmap₁
      (fun range' h' => hplaced range' (List.mem_cons_of_mem _ h')) hrest hnext (hend range hmem)
      (fun range' h' => hend range' (List.mem_cons_of_mem _ h'))
    refine ⟨T', past', ?_, hle', ?_⟩
    · rw [List.foldlM_cons, heq₁]
      exact heq'
    · apply hmap'.congr
      intro v
      by_cases hin : firstPage range ≤ v ∧ v < pastPage range
      · -- no later range has the page
        have hnone : presentEntry ranges v = none :=
          presentEntry_eq_none fun range' h' => by
            have := hnext range' h'
            omega
        rw [if_pos hin, hnone]
        simp [presentEntry, hin]
      · simp [presentEntry, hin]

end Present

/-! ## The calls of `set_page_table` -/

instance (L : Layout) (page : Nat) : Decidable (L.Reserved page) :=
  inferInstanceAs (Decidable (_ ∨ _))

/-- The address space of a machine: the stack first, then what is reserved, then the ranges. -/
def Layout.entryAt (L : Layout) (ranges : List PresentRange) (page : Nat) : Nat :=
  if L.stackStart ≤ page ∧ page < L.base then entry 7 page
  else if L.Reserved page then L.reservedEntry page
  else (presentEntry ranges page).getD 0

section Calls

variable {L : Layout} {ranges : List PresentRange}

theorem linkTable_eq {p3Table T : Words} {base n k : Nat} (hp3 : p3Table.length = 512)
    (hT : T.length = n * (513 * 512)) (hk : k < n) (hn : n ≤ 512) :
    linkTable (4096 * base) (p3Table, T) k
      = .ok ({ p3Table with word := Function.update p3Table.word k (entry 7 (base + 513 * k)) },
          { T with word := fun i =>
              if k * 513 * 512 ≤ i ∧ i < k * 513 * 512 + 512 then 0 else T.word i }) := by
  have hentry : pde64AllAllowed ||| (4096 * base + k * ((tableSize + 1) * pageSize))
      = entry 7 (base + 513 * k) := by
    have hflags : pde64AllAllowed = 7 := by decide
    unfold tableSize pageSize
    rw [hflags, or_eq_entry (by omega) (by omega)]
    congr 1
    omega
  unfold linkTable
  dsimp only
  rw [hentry, Words.set_eq _ (by omega), Words.fill_eq _ (Nat.le_add_right _ _)
    (by unfold tableSize; omega)]
  rfl

theorem linkTables_fold {p3Table T : Words} (base : Nat) {n k : Nat} (hp3 : p3Table.length = 512)
    (hT : T.length = n * (513 * 512)) (hk : k ≤ n) (hn : n ≤ 512) :
    ∃ p3Table' T', (List.range k).foldlM (linkTable (4096 * base)) (p3Table, T)
        = .ok (p3Table', T')
      ∧ p3Table'.length = 512 ∧ T'.length = n * (513 * 512)
      ∧ (∀ i < k, p3Table'.word i = entry 7 (base + 513 * i))
      ∧ (∀ r < k * 512, T'.word (p2Index r) = 0) := by
  induction k with
  | zero => exact ⟨p3Table, T, rfl, hp3, hT, fun i hi => by omega, fun r hr => by omega⟩
  | succ k ih =>
    obtain ⟨p3Table', T', heq, hp3', hT', hlinked, hcleared⟩ := ih (by omega)
    refine ⟨{ p3Table' with word := Function.update p3Table'.word k (entry 7 (base + 513 * k)) },
      { T' with word := fun i =>
          if k * 513 * 512 ≤ i ∧ i < k * 513 * 512 + 512 then 0 else T'.word i },
      ?_, hp3', hT', ?_, ?_⟩
    · rw [List.range_succ, List.foldlM_append, heq]
      change (linkTable _ _ _ >>= _) = _
      rw [linkTable_eq hp3' hT' (by omega) hn]
      rfl
    · intro i hi
      dsimp only
      rw [Function.update_apply]
      split_ifs with hik
      · rw [hik]
      · exact hlinked i (by omega)
    · intro r hr
      have hindex : r < k * 512 ∨ (k * 513 * 512 ≤ p2Index r ∧ p2Index r < k * 513 * 512 + 512) := by
        clear hcleared hlinked heq ih
        unfold p2Index
        omega
      dsimp only
      rcases hindex with hr' | hin
      · rw [hcleared r hr', ite_self]
      · rw [if_pos hin]

theorem linkTables_spec (base : Nat) (p3Table : Words) {T : Words} {n : Nat} (hp3 : p3Table.length = 512)
    (hT : T.length = n * (513 * 512)) (hn : n ≤ 512) :
    ∃ p3Table' T', linkTables (4096 * base) n p3Table T = .ok (p3Table', T')
      ∧ p3Table'.length = 512
      ∧ (∀ i < 512, p3Table'.word i = if i < n then entry 7 (base + 513 * i) else 0)
      ∧ Mapping base n 0 (fun _ => 0) T' := by
  obtain ⟨p3Table', T', heq, hp3', hT', hlinked, hcleared⟩ :=
    linkTables_fold base hp3 hT (le_refl n) hn
  refine ⟨{ p3Table' with word := fun i =>
    if n ≤ i ∧ i < p3Table'.length then 0 else p3Table'.word i }, T', ?_, hp3', ?_, ?_⟩
  · unfold linkTables
    rw [heq]
    change (Words.fill p3Table' n p3Table'.length 0 >>= _) = _
    rw [Words.fill_eq _ (by omega) (le_refl _)]
    rfl
  · intro i hi
    dsimp only
    by_cases hin : i < n
    · rw [if_pos hin, if_neg (by omega), hlinked i hin]
    · rw [if_neg hin, if_pos (by omega)]
  · refine ⟨hT', ?_, fun _ _ => rfl, fun h => absurd rfl h, ?_⟩
    · intro v hv
      rw [lookup, hcleared _ (by omega)]
      rfl
    · intro r hr
      rw [hcleared r hr]
      exact .absent

theorem mapRanges_spec {T : Words} (h : Mapping L.base L.tables 0 (fun _ => 0) T)
    (hplaced : ∀ range ∈ ranges, Placed L range)
    (hascending : ranges.Pairwise fun range range' => range.2.1 < range'.1)
    (hend : ∀ range ∈ ranges, pastPage range ≤ L.base) :
    ∃ T', mapRanges T (4096 * L.base) (4096 * L.p4) ranges
        (4096 * L.interruptStart, 4096 * L.interruptEnd) (4096 * L.last) = .ok T'
      ∧ Mapping L.base L.tables L.last (L.entryAt ranges) T' := by
  have hfit := L.tables_fit
  have hinterrupt := L.interrupt_le
  have hblocks := L.interruptEnd_le
  have hlast := L.last_le
  have htables := L.tables_le
  have hp4 : L.p4 = L.base + 513 * L.tables + 1 := rfl
  obtain ⟨T₁, past, heq₁, hpast, h₁⟩ := setAllPresent_spec h hplaced hascending
    (fun range _ => Nat.zero_le _) (Nat.zero_le _) hend (by omega)
  obtain ⟨T₂, heq₂, h₂⟩ := h₁.setRange (s := L.stackStart) (e := L.base) (b := L.stackStart)
    (show PageFlags 7 from ⟨by decide, rfl⟩) (Or.inr (by unfold Layout.stackStart; omega)) hpast
    (by unfold Layout.stackStart; omega) (by omega) rfl (by unfold Layout.stackStart; omega)
  obtain ⟨T₃, heq₃, h₃⟩ := h₂.setRange (s := L.base) (e := L.p4 + 1) (b := L.base)
    (show PageFlags 3 from ⟨by decide, rfl⟩) (Or.inl (le_refl _)) (by omega) (by omega) (by omega) rfl
    (by omega)
  obtain ⟨T₄, heq₄, h₄⟩ := h₃.setRange (s := L.interruptStart) (e := L.interruptEnd)
    (b := L.interruptStart) (show PageFlags 3 from ⟨by decide, rfl⟩) (Or.inl (by omega)) (by omega)
    (by omega) (by omega) rfl (by omega)
  obtain ⟨T₅, heq₅, h₅⟩ := h₄.setRange (s := L.interruptEnd) (e := L.last) (b := L.interruptEnd)
    (show PageFlags 1 from ⟨by decide, rfl⟩) (Or.inl (le_refl _)) (by omega) (by omega) (by omega) rfl
    (by omega)
  refine ⟨T₅, ?_, h₅.congr fun v => ?_⟩
  · have hstack : 4096 * L.base / largePage * largePage = 4096 * L.stackStart := by
      unfold Layout.stackStart largePage
      omega
    have hp4Past : 4096 * L.p4 + pageSize = 4096 * (L.p4 + 1) := by
      unfold pageSize
      omega
    unfold mapRanges
    dsimp only
    rw [heq₁, hstack, hp4Past]
    change (setRange T₁ _ _ _ 7 _ _ >>= _) = _
    rw [heq₂]
    change (setRange T₂ _ _ _ 3 _ _ >>= _) = _
    rw [heq₃]
    change (setRange T₃ _ _ _ 3 _ _ >>= _) = _
    rw [heq₄]
    change (setRange T₄ _ _ _ 1 _ _ >>= _) = _
    rw [heq₅]
    rfl
  · unfold Layout.entryAt Layout.reservedEntry
    by_cases hblock : L.interruptEnd ≤ v ∧ v < L.last
    · have hframe : L.interruptEnd + (v - L.interruptEnd) = v := by omega
      rw [if_pos hblock, if_neg (by omega), if_pos (show L.Reserved v from Or.inr (by omega)), hframe,
        if_neg (show ¬ v < L.interruptEnd by omega)]
    rw [if_neg hblock]
    by_cases hhandler : L.interruptStart ≤ v ∧ v < L.interruptEnd
    · have hframe : L.interruptStart + (v - L.interruptStart) = v := by omega
      rw [if_pos hhandler, if_neg (by omega), if_pos (show L.Reserved v from Or.inr (by omega)), hframe,
        if_pos (show v < L.interruptEnd by omega)]
    rw [if_neg hhandler]
    by_cases htable : L.base ≤ v ∧ v < L.p4 + 1
    · have hframe : L.base + (v - L.base) = v := by omega
      rw [if_pos htable, if_neg (by omega), if_pos (show L.Reserved v from Or.inl htable), hframe,
        if_pos (show v < L.interruptEnd by omega)]
    rw [if_neg htable, if_neg (show ¬ L.Reserved v by unfold Layout.Reserved; omega)]
    by_cases hstack : L.stackStart ≤ v ∧ v < L.base
    · have hframe : L.stackStart + (v - L.stackStart) = v := by omega
      rw [if_pos hstack, if_pos hstack, hframe]
    · rw [if_neg hstack, if_neg hstack]

end Calls

/-! ## Memory after the call -/

/-- What `set_page_table` makes of a memory: the address space of the layout, and a stack of zeros. -/
structure Built (L : Layout) (ranges : List PresentRange) (memory memory' : Nat → Nat) : Prop where
  linked : Linked L memory'
  lookup : ∀ v < L.tables * 512 * 512, lookup (L.array memory') v = L.entryAt ranges v
  stack : ∀ w, L.stackStart ≤ w / 512 → w / 512 < L.base → memory' w = 0
  other : ∀ w, w / 512 < L.stackStart ∨ L.p4 < w / 512 → memory' w = memory w

section Memory

variable {L : Layout} {ranges : List PresentRange}

theorem Built.walk_eq {memory memory' : Nat → Nat} (h : Built L ranges memory memory') (page : Nat) :
    walk memory' L.p4 page
      = if page / 512 ^ 3 % 512 = 0 ∧ page / 512 ^ 2 % 512 < L.tables then
          resolve1 (L.entryAt ranges (page % 512 ^ 3))
        else none := by
  rw [h.linked.walk_eq]
  split_ifs with hin
  · rw [h.lookup _ (by omega)]
  · rfl

theorem splice_word (words part : Words) (a w : Nat) : (words.splice (4096 * a) part).word w
    = if 512 * a ≤ w ∧ w < 512 * a + part.length then part.word (w - 512 * a) else words.word w := by
  have hindex : 4096 * a / 8 = 512 * a := by omega
  simp only [Words.splice, hindex]

theorem slice_eq (words : Words) {a n : Nat} (h : a + n ≤ words.length / 512) :
    words.slice (4096 * a) (n * pageSize) = .ok ⟨n * 512, fun i => words.word (512 * a + i)⟩ := by
  have hindex : 4096 * a / 8 = 512 * a := by omega
  have hlength : n * pageSize / 8 = n * 512 := by
    unfold pageSize
    omega
  unfold Words.slice
  rw [if_pos (by unfold pageSize; omega), hindex, hlength]
  rfl

section Parts

variable {words p4Table p3Table T : Words} (hT : T.length = L.tables * (513 * 512))
  (hp3 : p3Table.length = 512) (hp4 : p4Table.length = 512)

/-- The memory put together from its parts. -/
def assemble (L : Layout) (words p4Table p3Table T : Words) : Words :=
  ((words.splice (4096 * L.p4) p4Table).splice (4096 * L.p3) p3Table).splice (4096 * L.base) T

include hT

theorem assemble_array {i : Nat} (hi : i < L.tables * (513 * 512)) :
    (assemble L words p4Table p3Table T).word (512 * L.base + i) = T.word i := by
  rw [assemble, splice_word, if_pos (by omega), Nat.add_sub_cancel_left]

include hp3

theorem assemble_p3 {i : Nat} (hi : i < 512) :
    (assemble L words p4Table p3Table T).word (512 * L.p3 + i) = p3Table.word i := by
  have hbase : L.p3 = L.base + 513 * L.tables := rfl
  rw [assemble, splice_word, if_neg (by omega), splice_word, if_pos (by omega),
    Nat.add_sub_cancel_left]

include hp4

theorem assemble_p4 {i : Nat} (hi : i < 512) :
    (assemble L words p4Table p3Table T).word (512 * L.p4 + i) = p4Table.word i := by
  have hbase : L.p3 = L.base + 513 * L.tables := rfl
  have hroot : L.p4 = L.p3 + 1 := rfl
  rw [assemble, splice_word, if_neg (by omega), splice_word, if_neg (by omega), splice_word,
    if_pos (by omega), Nat.add_sub_cancel_left]

theorem assemble_other {w : Nat} (hw : w / 512 < L.base ∨ L.p4 < w / 512) :
    (assemble L words p4Table p3Table T).word w = words.word w := by
  have hbase : L.p3 = L.base + 513 * L.tables := rfl
  have hroot : L.p4 = L.p3 + 1 := rfl
  rw [assemble, splice_word, if_neg (by omega), splice_word, if_neg (by omega), splice_word,
    if_neg (by omega)]

end Parts

theorem built_assemble {words p4Table p3Table T : Words} {memory : Nat → Nat}
    (hp4 : p4Table.length = 512)
    (hroot : ∀ i < 512, p4Table.word i = if i = 0 then entry 7 L.p3 else 0)
    (hp3 : p3Table.length = 512)
    (hlinked : ∀ i < 512, p3Table.word i = if i < L.tables then entry 7 (L.base + 513 * i) else 0)
    (hT : Mapping L.base L.tables L.last (L.entryAt ranges) T)
    (hwords : ∀ w, words.word w
      = if 512 * L.stackStart ≤ w ∧ w < 512 * L.base then 0 else memory w) :
    Built L ranges memory (assemble L words p4Table p3Table T).word := by
  have harray : ∀ i < L.tables * (513 * 512),
      L.array (assemble L words p4Table p3Table T).word i = T.word i := fun i hi =>
    assemble_array hT.length hi
  have hstackStart : L.stackStart ≤ L.base := by
    unfold Layout.stackStart
    omega
  have hbase : L.p4 = L.base + 513 * L.tables + 1 := rfl
  refine ⟨⟨?_, ?_, ?_, ?_, ?_⟩, ?_, ?_, ?_⟩
  · have h : (assemble L words p4Table p3Table T).word (512 * L.p4 + 0) = _ :=
      assemble_p4 hT.length hp3 hp4 (by decide)
    rw [hroot 0 (by decide), if_pos rfl, Nat.add_zero] at h
    exact h
  · intro i hpos hi
    rw [assemble_p4 hT.length hp3 hp4 hi, hroot i hi, if_neg (by omega)]
  · intro i hi
    have := L.tables_le
    rw [assemble_p3 hT.length hp3 (by omega), hlinked i (by omega), if_pos hi]
  · intro i hle hi
    rw [assemble_p3 hT.length hp3 hi, hlinked i hi, if_neg (by omega)]
  · intro r hr
    rw [harray _ (p2Index_lt hr)]
    exact hT.shape r hr
  · intro v hv
    rw [Kvm.lookup, harray _ (p2Index_lt (by omega)), harray _ (p1Index_lt hv)]
    exact hT.lookup v hv
  · intro w hle hlt
    rw [assemble_other hT.length hp3 hp4 (Or.inl hlt), hwords, if_pos (by omega)]
  · intro w hw
    rw [assemble_other hT.length hp3 hp4 (by omega), hwords, if_neg (by omega)]

theorem rootTable_spec (guestMem : Words) (L : Layout) (h : L.p4 + 1 ≤ guestMem.length / 512) :
    ∃ p4Table, rootTable guestMem (4096 * L.p4) (4096 * L.p3) = .ok p4Table
      ∧ p4Table.length = 512 ∧ ∀ i < 512, p4Table.word i = if i = 0 then entry 7 L.p3 else 0 := by
  have hslice := slice_eq guestMem (a := L.p4) (n := 1) h
  rw [Nat.one_mul, Nat.one_mul] at hslice
  have hentry : pde64AllAllowed ||| 4096 * L.p3 = entry 7 L.p3 := or_small (by decide) _
  unfold rootTable
  rw [hslice, hentry, ok_bind, Words.fill_eq _ (Nat.zero_le _) (le_refl _), ok_bind,
    Words.set_eq _ (by dsimp only; omega)]
  refine ⟨_, rfl, rfl, fun i hi => ?_⟩
  dsimp only
  rw [Function.update_apply]
  split_ifs with hzero hin
  · rfl
  · rfl
  · omega

/-- `set_page_table` on a memory that has room for the layout: the tables are linked, and what
follows are the check of the ranges and their entries. -/
theorem setPageTable_linked (guestMem : Words) (htables : L.tables = p2TableNumber (4096 * L.last))
    (hlast : 4096 * L.last < 2 ^ 39) (hmemory : L.p4 + 1 ≤ guestMem.length / 512) :
    ∃ p4Table p3Table T₀ : Words, p4Table.length = 512
      ∧ (∀ i < 512, p4Table.word i = if i = 0 then entry 7 L.p3 else 0)
      ∧ p3Table.length = 512
      ∧ (∀ i < 512, p3Table.word i = if i < L.tables then entry 7 (L.base + 513 * i) else 0)
      ∧ Mapping L.base L.tables 0 (fun _ => 0) T₀
      ∧ ∀ ranges, setPageTable guestMem ranges (4096 * (L.p4 + 1))
          (4096 * L.interruptStart, 4096 * L.interruptEnd) (4096 * L.last)
        = do
          checkPresent (4096 * L.base) ranges
          let T ← mapRanges T₀ (4096 * L.base) (4096 * L.p4) ranges
            (4096 * L.interruptStart, 4096 * L.interruptEnd) (4096 * L.last)
          let words ← guestMem.fill (512 * L.stackStart) (512 * L.base) 0
          return (assemble L words p4Table p3Table T, 4096 * L.p4,
            ⟨4096 * L.p4, 4096 * L.p3, 4096 * L.base, 4096 * L.base⟩) := by
  have htablesLe := L.tables_le
  have hp3 : L.p3 = L.base + 513 * L.tables := rfl
  have hp4 : L.p4 = L.p3 + 1 := rfl
  have hsize : (L.tables + L.tables * tableSize) * pageSize = 513 * L.tables * pageSize := by
    unfold tableSize
    ring
  have hsub₁ : (Usize.sub .checked (4096 * (L.p4 + 1)) pageSize : DandelionResult Nat)
      = .ok (4096 * L.p4) := by
    apply Usize.sub_eq_ok_iff.mpr
    unfold pageSize
    omega
  have hsub₂ : (Usize.sub .checked (4096 * L.p4) pageSize : DandelionResult Nat)
      = .ok (4096 * L.p3) := by
    apply Usize.sub_eq_ok_iff.mpr
    unfold pageSize
    omega
  have hsub₃ : (Usize.sub .checked (4096 * L.p3) (513 * L.tables * pageSize) : DandelionResult Nat)
      = .ok (4096 * L.base) := by
    apply Usize.sub_eq_ok_iff.mpr
    unfold pageSize
    omega
  have hslice₃ : guestMem.slice (4096 * L.p3) pageSize
      = .ok ⟨512, fun i => guestMem.word (512 * L.p3 + i)⟩ := by
    have := slice_eq guestMem (a := L.p3) (n := 1) (by omega)
    rwa [Nat.one_mul] at this
  have hslice := slice_eq guestMem (a := L.base) (n := 513 * L.tables) (by omega)
  obtain ⟨p3Table, T₀, hlink, hp3Length, hlinked, hT₀⟩ := linkTables_spec L.base
    ⟨512, fun i => guestMem.word (512 * L.p3 + i)⟩
    (T := ⟨513 * L.tables * 512, fun i => guestMem.word (512 * L.base + i)⟩) rfl (by dsimp only; ring)
    htablesLe
  have hstack : 4096 * L.base / largePage * largePage / 8 = 512 * L.stackStart := by
    unfold largePage Layout.stackStart
    omega
  have hbase : 4096 * L.base / 8 = 512 * L.base := by omega
  obtain ⟨p4Table, hp4Table, hp4Length, hroot⟩ := rootTable_spec guestMem L (by omega)
  refine ⟨p4Table, p3Table, T₀, hp4Length, hroot, hp3Length, hlinked, hT₀, fun ranges => ?_⟩
  unfold setPageTable
  rw [hsub₁, ok_bind, hsub₂, ok_bind, if_neg (by omega)]
  change (Usize.sub .checked (4096 * L.p3)
    ((p2TableNumber (4096 * L.last) + p2TableNumber (4096 * L.last) * tableSize) * pageSize) >>= _) = _
  rw [← htables, hsize, hsub₃, ok_bind, hp4Table, ok_bind, hslice₃, ok_bind, hslice,
    ok_bind, hlink, ok_bind]
  dsimp only
  rw [hstack, hbase]
  rfl

/-- `set_page_table` on a memory that has room for the layout. -/
theorem setPageTable_layout (guestMem : Words) (htables : L.tables = p2TableNumber (4096 * L.last))
    (hlast : 4096 * L.last < 2 ^ 39) (hmemory : L.p4 + 1 ≤ guestMem.length / 512)
    (hplaced : ∀ range ∈ ranges, Placed L range)
    (hascending : ranges.Pairwise fun range range' => range.2.1 < range'.1)
    (hend : ∀ range ∈ ranges, range.2.1 < 4096 * L.base) :
    ∃ guestMem', setPageTable guestMem ranges (4096 * (L.p4 + 1))
        (4096 * L.interruptStart, 4096 * L.interruptEnd) (4096 * L.last)
        = .ok (guestMem', 4096 * L.p4,
          ⟨4096 * L.p4, 4096 * L.p3, 4096 * L.base, 4096 * L.base⟩)
      ∧ Built L ranges guestMem.word guestMem'.word := by
  have hp3 : L.p3 = L.base + 513 * L.tables := rfl
  have hp4 : L.p4 = L.p3 + 1 := rfl
  obtain ⟨p4Table, p3Table, T₀, hp4Length, hroot, hp3Length, hlinked, hT₀, hcall⟩ :=
    setPageTable_linked guestMem htables hlast hmemory
  obtain ⟨T, hmap, hT⟩ := mapRanges_spec hT₀ hplaced hascending (by
    intro range hrange
    have := hend range hrange
    unfold pastPage
    omega)
  have hguard : checkPresent (4096 * L.base) ranges = .ok () := by
    unfold checkPresent
    cases hgetLast : ranges.getLast? with
    | none => rfl
    | some range =>
      have := hend range (List.mem_of_getLast? hgetLast)
      exact if_neg (by omega)
  have hfill := @Words.fill_eq guestMem _ _ 0
    (show 512 * L.stackStart ≤ 512 * L.base by unfold Layout.stackStart; omega) (by omega)
  refine ⟨assemble L { guestMem with word := fun i =>
      if 512 * L.stackStart ≤ i ∧ i < 512 * L.base then 0 else guestMem.word i } p4Table p3Table T,
    ?_, built_assemble hp4Length hroot hp3Length hlinked hT fun w => rfl⟩
  rw [hcall, hguard, ok_bind, hmap, ok_bind, hfill, ok_bind]
  rfl

/-- What the callers of `set_page_table` promise: whole pages, the handlers between the tables and
the blocks, ranges in ascending order, and blocks at the same place in a large page as the ranges
they are mapped to. -/
structure Promised (presentPages : List PresentRange) (stackStart : Nat) (interruptRange : Nat × Nat)
    (lastAddress : Nat) : Prop where
  stack_aligned : stackStart % 4096 = 0
  interrupt_aligned : interruptRange.1 % 4096 = 0 ∧ interruptRange.2 % 4096 = 0
  last_aligned : lastAddress % 4096 = 0
  stack_le : stackStart ≤ interruptRange.1
  interrupt_le : interruptRange.1 ≤ interruptRange.2
  interrupt_last : interruptRange.2 ≤ lastAddress
  range_aligned : ∀ range ∈ presentPages,
    range.1 % 4096 = 0 ∧ (range.2.1 + 1) % 4096 = 0 ∧ range.1 ≤ range.2.1 + 1
  ascending : presentPages.Pairwise fun range range' => range.2.1 < range'.1
  block : ∀ range ∈ presentPages, ∀ block, range.2.2 = some block →
    block % largePage = range.1 % largePage ∧ interruptRange.2 ≤ block
      ∧ block + (range.2.1 + 1 - range.1) ≤ lastAddress

/-- The call has set up the tables of a layout. -/
structure SetUp (L : Layout) (presentPages : List PresentRange) (guestMem guestMem' : Words)
    (stackStart : Nat) (interruptRange : Nat × Nat) (lastAddress cr3 : Nat)
    (metadata : PageFaultMetadata) : Prop where
  tables_eq : L.tables = p2TableNumber lastAddress
  stack_eq : stackStart = 4096 * (L.p4 + 1)
  interrupt_eq : interruptRange = (4096 * L.interruptStart, 4096 * L.interruptEnd)
  last_eq : lastAddress = 4096 * L.last
  cr3_eq : cr3 = 4096 * L.p4
  metadata_eq : metadata = ⟨4096 * L.p4, 4096 * L.p3, 4096 * L.base, 4096 * L.base⟩
  placed : ∀ range ∈ presentPages, Placed L range
  end_lt : ∀ range ∈ presentPages, range.2.1 < 4096 * L.base
  built : Built L presentPages guestMem.word guestMem'.word

theorem ends_of_ascending {stackStart : Nat} (hcheck : checkPresent stackStart ranges = .ok ())
    (haligned : ∀ range ∈ ranges, range.1 ≤ range.2.1 + 1)
    (hascending : ranges.Pairwise fun range range' => range.2.1 < range'.1) :
    ∀ range ∈ ranges, range.2.1 < stackStart := by
  intro range hrange
  cases hlast : ranges.getLast? with
  | none =>
    rw [List.getLast?_eq_none_iff] at hlast
    rw [hlast] at hrange
    cases hrange
  | some last =>
    -- every range ends at or before the end of the last one
    obtain ⟨front, hfront⟩ := List.getLast?_eq_some_iff.mp hlast
    have hend : range.2.1 ≤ last.2.1 := by
      rw [hfront] at hrange hascending haligned
      have hlastLe := haligned last (by simp)
      rcases List.mem_append.mp hrange with hmem | hmem
      · have := (List.pairwise_append.mp hascending).2.2 range hmem last (by simp)
        omega
      · rw [List.mem_singleton.mp hmem]
    rw [checkPresent, hlast] at hcheck
    dsimp only at hcheck
    by_cases hle : stackStart ≤ last.2.1
    · rw [if_pos hle] at hcheck
      cases hcheck
    · omega

/-- A layout of what the callers promise, with the tables from `tableBase` on. -/
structure Describes (L : Layout) (presentPages : List PresentRange) (stackStart : Nat)
    (interruptRange : Nat × Nat) (lastAddress tableBase : Nat) : Prop where
  tables_eq : L.tables = p2TableNumber lastAddress
  base_eq : 4096 * L.base = tableBase
  stack_eq : 4096 * (L.p4 + 1) = stackStart
  interrupt_eq : (4096 * L.interruptStart, 4096 * L.interruptEnd) = interruptRange
  last_eq : 4096 * L.last = lastAddress
  placed : ∀ range ∈ presentPages, Placed L range

theorem Promised.describes {stackStart lastAddress tableBase : Nat} {interruptRange : Nat × Nat}
    (hpromised : Promised ranges stackStart interruptRange lastAddress)
    (hlastLt : lastAddress < 2 ^ 39)
    (hroom : stackStart = tableBase + 513 * 4096 * p2TableNumber lastAddress + 8192) :
    ∃ L, Describes L ranges stackStart interruptRange lastAddress tableBase := by
  have hstackAligned := hpromised.stack_aligned
  obtain ⟨hstartAligned, hendAligned⟩ := hpromised.interrupt_aligned
  have hlastAligned := hpromised.last_aligned
  have hstackLe := hpromised.stack_le
  have hinterruptLe := hpromised.interrupt_le
  have hinterruptLast := hpromised.interrupt_last
  have htables : p2TableNumber lastAddress = (lastAddress + (2 ^ 30 - 1)) / 2 ^ 30 := by
    unfold p2TableNumber nextMultipleOf hugePage
    exact Nat.mul_div_cancel _ (by decide)
  let L : Layout :=
    { tables := p2TableNumber lastAddress
      base := tableBase / 4096
      interruptStart := interruptRange.1 / 4096
      interruptEnd := interruptRange.2 / 4096
      last := lastAddress / 4096
      tables_le := by omega
      tables_fit := by omega
      interrupt_le := by omega
      interruptEnd_le := by omega
      last_le := by omega }
  have hbase' : 4096 * L.base = tableBase := by
    change 4096 * (tableBase / 4096) = _
    omega
  have hp4' : 4096 * (L.p4 + 1) = stackStart := by
    change 4096 * (tableBase / 4096 + 513 * p2TableNumber lastAddress + 1 + 1) = _
    omega
  have hlast' : 4096 * L.last = lastAddress := by
    change 4096 * (lastAddress / 4096) = _
    omega
  have hinterrupt' : (4096 * L.interruptStart, 4096 * L.interruptEnd) = interruptRange := by
    change (4096 * (interruptRange.1 / 4096), 4096 * (interruptRange.2 / 4096)) = _
    ext
    · omega
    · omega
  refine ⟨L, rfl, hbase', hp4', hinterrupt', hlast', fun range hrange => ?_⟩
  obtain ⟨hstart, hend, hle⟩ := hpromised.range_aligned range hrange
  refine ⟨hstart, hend, hle, fun block hblock => ?_⟩
  obtain ⟨hcongruent, hmin, hmax⟩ := hpromised.block range hrange block hblock
  rw [← hinterrupt'] at hmin
  exact ⟨hcongruent, hmin, hlast' ▸ hmax⟩

theorem setPageTable_setUp {guestMem guestMem' : Words} {stackStart lastAddress cr3 : Nat}
    {interruptRange : Nat × Nat} {metadata : PageFaultMetadata}
    (hpromised : Promised ranges stackStart interruptRange lastAddress)
    (hok : setPageTable guestMem ranges stackStart interruptRange lastAddress
      = .ok (guestMem', cr3, metadata)) :
    ∃ L, SetUp L ranges guestMem guestMem' stackStart interruptRange lastAddress cr3 metadata := by
  have hcall := hok
  unfold setPageTable at hcall
  obtain ⟨p4Address, hp4, hcall⟩ := (bind_eq_ok_iff _ _ _).mp hcall
  obtain ⟨p3Address, hp3, hcall⟩ := (bind_eq_ok_iff _ _ _).mp hcall
  dsimp only at hcall
  have hlastLt : lastAddress < 2 ^ 39 := by
    by_contra hge
    rw [if_pos hge] at hcall
    cases hcall
  rw [if_neg (not_not.mpr hlastLt)] at hcall
  obtain ⟨tableBase, hbase, hcall⟩ := (bind_eq_ok_iff _ _ _).mp hcall
  obtain ⟨p4Table, hroot, hcall⟩ := (bind_eq_ok_iff _ _ _).mp hcall
  obtain ⟨p3Table, -, hcall⟩ := (bind_eq_ok_iff _ _ _).mp hcall
  obtain ⟨tableArray, -, hcall⟩ := (bind_eq_ok_iff _ _ _).mp hcall
  obtain ⟨tables, -, hcall⟩ := (bind_eq_ok_iff _ _ _).mp hcall
  obtain ⟨⟨⟩, hcheck, -⟩ := (bind_eq_ok_iff _ _ _).mp hcall
  have hp4Eq := Usize.sub_eq_ok_iff.mp hp4
  have hp3Eq := Usize.sub_eq_ok_iff.mp hp3
  have hbaseEq := Usize.sub_eq_ok_iff.mp hbase
  have hroom : p4Address + pageSize ≤ 8 * guestMem.length := by
    obtain ⟨p4Slice, hslice, -⟩ := (bind_eq_ok_iff _ _ _).mp hroot
    by_contra hout
    rw [Words.slice, if_neg (fun h => hout h.2)] at hslice
    cases hslice
  have hends := ends_of_ascending hcheck (fun range h => (hpromised.range_aligned range h).2.2)
    hpromised.ascending
  unfold tableSize pageSize at hbaseEq
  unfold pageSize at hp4Eq hp3Eq hroom
  obtain ⟨L, hL⟩ := hpromised.describes hlastLt
    (show stackStart = tableBase + 513 * 4096 * p2TableNumber lastAddress + 8192 by omega)
  have hp4' := hL.stack_eq
  have hends' : ∀ range ∈ ranges, range.2.1 < 4096 * L.base := by
    rw [hL.base_eq]
    exact hends
  obtain ⟨built, hbuilt, hspec⟩ := setPageTable_layout (L := L) guestMem
    (by rw [hL.last_eq, hL.tables_eq]) (by rw [hL.last_eq]; exact hlastLt) (by omega) hL.placed
    hpromised.ascending hends'
  rw [hp4', hL.last_eq, hL.interrupt_eq, hok] at hbuilt
  cases hbuilt
  exact ⟨L, hL.tables_eq, hp4'.symm, hL.interrupt_eq.symm, hL.last_eq.symm, rfl, rfl, hL.placed,
    hends', hspec⟩

end Memory

end Dandelion.Kvm
