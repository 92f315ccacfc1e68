import Dandelion.AddressSpace

/-!
# Sequences of `set_range`

What a caller of `set_range` relies on: for ascending ranges, each call given what the previous
one returned, the tables translate the pages of the ranges and no others. The p2 tables are zero
at first, the p1 tables are not, and what they hold must never be reached.
-/

open Outcome Paging

namespace Dandelion.Kvm

/-- The arguments of a call of `set_range`. -/
structure RangeCall where
  virtualStart : Nat
  virtualEnd : Nat
  protectionFlags : Nat
  basePhysical : Nat

namespace RangeCall

/-- A range of whole pages below `n` huge pages, maybe an empty one, whose target is at the same
place in its large page and has an address of 52 bits. -/
structure Valid (n : Nat) (call : RangeCall) : Prop where
  start_aligned : call.virtualStart % pageSize = 0
  end_aligned : call.virtualEnd % pageSize = 0
  start_le : call.virtualStart ≤ call.virtualEnd
  end_le : call.virtualEnd ≤ n * hugePage
  flags : PageFlags call.protectionFlags
  congruent : call.basePhysical % largePage = call.virtualStart % largePage
  fits : call.basePhysical + (call.virtualEnd - call.virtualStart) ≤ 2 ^ 52

def Contains (call : RangeCall) (address : Nat) : Prop :=
  call.virtualStart ≤ address ∧ address < call.virtualEnd

instance (call : RangeCall) (address : Nat) : Decidable (call.Contains address) :=
  inferInstanceAs (Decidable (_ ∧ _))

/-- The entry of a page in the range. -/
def entryOf (call : RangeCall) (page : Nat) : Nat :=
  entry call.protectionFlags (call.basePhysical / pageSize + (page - call.virtualStart / pageSize))

end RangeCall

/-- One call after the other, each with the page past the range of the previous one. -/
def setRanges (tableArray : Words) (tableBase previousPastLastPage : Nat) (calls : List RangeCall) :
    DandelionResult (Words × Nat) :=
  calls.foldlM (fun state call => setRange state.1 tableBase call.virtualStart call.virtualEnd
    call.protectionFlags call.basePhysical state.2) (tableArray, previousPastLastPage)

/-- The entry of a page by the first range that has it. -/
def sequenceEntry (calls : List RangeCall) (page : Nat) : Option Nat :=
  (calls.find? fun call => call.Contains (page * pageSize)).map fun call => call.entryOf page

/-! ## The mapping of a sequence -/

section Mappings

variable {base n past : Nat} {f : Nat → Nat} {T : Words}

/-- Tables whose p2 entries are all zero map nothing, whatever the p1 entries. -/
theorem Mapping.zeroed (hT : T.length = n * (513 * 512))
    (hzero : ∀ r < n * 512, T.word (p2Index r) = 0) : Mapping base n 0 (fun _ => 0) T where
  length := hT
  lookup := by
    intro v hv
    rw [Kvm.lookup, hzero _ (by omega), resolve_zero]
  above := fun v _ => rfl
  ready := fun h => absurd rfl h
  shape := by
    intro r hr
    rw [hzero r hr]
    exact .absent

theorem Mapping.setCall {call : RangeCall} (h : Mapping base n past f T) (hcall : call.Valid n)
    (hpast : past * pageSize ≤ call.virtualStart) :
    ∃ T', Kvm.setRange T (4096 * base) call.virtualStart call.virtualEnd call.protectionFlags
        call.basePhysical past = .ok (T', call.virtualEnd / pageSize)
      ∧ Mapping base n (call.virtualEnd / pageSize) (fun v =>
          if call.Contains (v * pageSize) then call.entryOf v else f v) T' := by
  obtain ⟨hstart, hend, hle, hfit, hflags, hcongruent, hphysical⟩ := hcall
  unfold pageSize at *
  unfold hugePage at hfit
  unfold largePage at hcongruent
  obtain ⟨T', heq, hmap⟩ := h.setRange (s := call.virtualStart / 4096) (e := call.virtualEnd / 4096)
    (b := call.basePhysical / 4096) hflags (Or.inl (by omega)) (by omega) (by omega) (by omega)
    (by omega) (by omega)
  have hs : 4096 * (call.virtualStart / 4096) = call.virtualStart := by omega
  have he : 4096 * (call.virtualEnd / 4096) = call.virtualEnd := by omega
  have hb : 4096 * (call.basePhysical / 4096) = call.basePhysical := by omega
  rw [hs, he, hb] at heq
  refine ⟨T', heq, hmap.congr fun v => ?_⟩
  have hiff : (call.virtualStart / 4096 ≤ v ∧ v < call.virtualEnd / 4096)
      ↔ call.Contains (v * 4096) := by
    unfold RangeCall.Contains
    omega
  simp only [hiff]
  rfl

theorem sequenceEntry_cons (call : RangeCall) (calls : List RangeCall) (page : Nat) :
    sequenceEntry (call :: calls) page
      = if call.Contains (page * pageSize) then some (call.entryOf page)
        else sequenceEntry calls page := by
  unfold sequenceEntry
  rw [List.find?_cons]
  by_cases hin : call.Contains (page * pageSize)
  · simp only [hin, decide_true, if_true, Option.map_some]
  · simp only [hin, decide_false, if_false]

theorem sequenceEntry_eq_none {calls : List RangeCall} {page : Nat}
    (h : ∀ call ∈ calls, ¬ call.Contains (page * pageSize)) : sequenceEntry calls page = none := by
  rw [sequenceEntry, Option.map_eq_none_iff, List.find?_eq_none]
  intro call hcall hin
  exact h call hcall (of_decide_eq_true hin)

theorem sequenceEntry_eq_some {calls : List RangeCall} {call : RangeCall} {page : Nat}
    (hascending : calls.Pairwise fun call next => call.virtualEnd ≤ next.virtualStart)
    (hcall : call ∈ calls) (hin : call.Contains (page * pageSize)) :
    sequenceEntry calls page = some (call.entryOf page) := by
  induction calls with
  | nil => cases hcall
  | cons first calls ih =>
    obtain ⟨hfirst, hrest⟩ := List.pairwise_cons.mp hascending
    rw [sequenceEntry_cons]
    rcases List.mem_cons.mp hcall with rfl | hmem
    · rw [if_pos hin]
    · have hafter := hfirst call hmem
      rw [if_neg, ih hrest hmem]
      unfold RangeCall.Contains at *
      omega

/-- By induction on the calls: what the calls so far have mapped, and that the table of the region
they ended in is ready. -/
theorem Mapping.setRanges {calls : List RangeCall} (h : Mapping base n past f T)
    (hvalid : ∀ call ∈ calls, call.Valid n)
    (hascending : calls.Pairwise fun call next => call.virtualEnd ≤ next.virtualStart)
    (hpast : ∀ call ∈ calls, past * pageSize ≤ call.virtualStart) :
    ∃ T' past', Kvm.setRanges T (4096 * base) past calls = .ok (T', past')
      ∧ Mapping base n past' (fun v => (sequenceEntry calls v).getD (f v)) T' := by
  induction calls generalizing T past f with
  | nil => exact ⟨T, past, rfl, h⟩
  | cons call calls ih =>
    obtain ⟨hfirst, hrest⟩ := List.pairwise_cons.mp hascending
    have hcall := hvalid call List.mem_cons_self
    obtain ⟨T₁, heq₁, hmap₁⟩ := h.setCall hcall (hpast call List.mem_cons_self)
    have hend : call.virtualEnd / pageSize * pageSize = call.virtualEnd :=
      Nat.div_mul_cancel (Nat.dvd_of_mod_eq_zero hcall.end_aligned)
    obtain ⟨T', past', heq', hmap'⟩ := ih hmap₁
      (fun next hnext => hvalid next (List.mem_cons_of_mem _ hnext)) hrest
      (fun next hnext => by
        rw [hend]
        exact hfirst next hnext)
    refine ⟨T', past', ?_, hmap'.congr fun v => ?_⟩
    · unfold Kvm.setRanges
      rw [List.foldlM_cons, heq₁]
      exact heq'
    · rw [sequenceEntry_cons]
      by_cases hin : call.Contains (v * pageSize)
      · -- no later range has the page
        have hnone : sequenceEntry calls v = none := by
          apply sequenceEntry_eq_none
          intro next hnext hv
          have := hfirst next hnext
          unfold RangeCall.Contains at hv hin
          omega
        rw [if_pos hin, if_pos hin, hnone]
        rfl
      · rw [if_neg hin, if_neg hin]

end Mappings

/-! ## Walks -/

/-- Tables of a memory: the root leads to a p3 table, and that to the p2 tables of an array, which
is at the page `base`. -/
structure Rooted (memory : Nat → Nat) (root p3 base n : Nat) (word : Nat → Nat) : Prop where
  p3_lt : p3 < 2 ^ 40
  root : memory (512 * root) = entry 7 p3
  p3 : ∀ i < n, memory (512 * p3 + i) = entry 7 (base + 513 * i)
  array : ∀ i < n * (513 * 512), memory (512 * base + i) = word i

section Walks

variable {memory word : Nat → Nat} {root p3 base n : Nat}

theorem Rooted.walk_eq (h : Rooted memory root p3 base n word) (hshape : Shape base n word)
    (hn : n ≤ 512) (hbase : base + 513 * n ≤ 2 ^ 40) {page : Nat} (hpage : page < n * 512 * 512) :
    walk memory root page = resolve1 (lookup word page) := by
  have hroot : 512 * root + page / 512 ^ 3 % 512 = 512 * root := by omega
  have htable : page / 512 ^ 2 % 512 < n := by omega
  have hindex : 512 * (base + 513 * (page / 512 ^ 2 % 512)) + page / 512 % 512
      = 512 * base + p2Index (page / 512) := by
    unfold p2Index
    omega
  rw [walk, hroot, h.root, resolve4_table _ h.p3_lt, h.p3 _ htable,
    resolve3_table _ (by omega), hindex, h.array _ (p2Index_lt (by omega))]
  exact hshape.resolve2_eq hbase h.array (by omega)

end Walks

/-- A walk finds an address of a range at its place in the target, with the flags of the range. -/
def RangeCall.Translates (call : RangeCall) (address : Nat) (found : Option Translation) : Prop :=
  ∃ t, found = some t
    ∧ t.frame * pageSize + address % pageSize = call.basePhysical + (address - call.virtualStart)
    ∧ t.writable = writable call.protectionFlags ∧ t.user = user call.protectionFlags

theorem RangeCall.Valid.translates {n address : Nat} {call : RangeCall} (h : call.Valid n)
    (hin : call.Contains address) :
    call.Translates address (resolve1 (call.entryOf (address / pageSize))) := by
  obtain ⟨hstart, -, -, -, hflags, hcongruent, hphysical⟩ := h
  obtain ⟨hlow, hhigh⟩ := hin
  unfold pageSize at hstart
  unfold largePage at hcongruent
  have hframe : call.basePhysical / pageSize + (address / pageSize - call.virtualStart / pageSize)
      < 2 ^ 40 := by
    unfold pageSize
    omega
  refine ⟨_, hflags.resolve1 hframe, ?_, rfl, rfl⟩
  dsimp only
  unfold pageSize
  omega

/-- A sequence of `set_range` for ascending ranges, on p2 tables that are zero and p1 tables that
hold anything: no index is outside the array, and afterwards the walk of an address in a range ends
where the range says, and that of another address at an entry that is not present. -/
theorem setRanges_translate {n base : Nat} {tableArray : Words} {calls : List RangeCall}
    (hn : n ≤ 512) (hbase : base + 513 * n ≤ 2 ^ 40)
    (hlength : tableArray.length = n * (513 * 512))
    (hzero : ∀ region < n * 512, tableArray.word (p2Index region) = 0)
    (hvalid : ∀ call ∈ calls, call.Valid n)
    (hascending : calls.Pairwise fun call next => call.virtualEnd ≤ next.virtualStart) :
    ∃ tableArray' past, setRanges tableArray (4096 * base) 0 calls = .ok (tableArray', past)
      ∧ ∀ memory root p3, Rooted memory root p3 base n tableArray'.word →
        ∀ address < n * hugePage,
          (∀ call ∈ calls, call.Contains address →
            call.Translates address (walk memory root (address / pageSize)))
          ∧ ((∀ call ∈ calls, ¬ call.Contains address) →
            walk memory root (address / pageSize) = none) := by
  have hzeroed : Mapping base n 0 (fun _ => 0) tableArray := Mapping.zeroed hlength hzero
  obtain ⟨T, past, heq, hmap⟩ := hzeroed.setRanges hvalid hascending
    (fun call _ => by rw [Nat.zero_mul]; exact Nat.zero_le _)
  refine ⟨T, past, heq, fun memory root p3 hrooted address haddress => ?_⟩
  have hpage : address / pageSize < n * 512 * 512 := by
    unfold hugePage at haddress
    unfold pageSize
    omega
  -- a range of whole pages has an address if it has the page of the address
  have hwhole : ∀ call ∈ calls,
      (call.Contains (address / pageSize * pageSize) ↔ call.Contains address) := by
    intro call hcall
    have hstart := (hvalid call hcall).start_aligned
    have hend := (hvalid call hcall).end_aligned
    unfold RangeCall.Contains
    unfold pageSize at *
    omega
  rw [hrooted.walk_eq hmap.shape hn hbase hpage, hmap.lookup _ hpage]
  constructor
  · intro call hcall hin
    rw [sequenceEntry_eq_some hascending hcall ((hwhole call hcall).mpr hin)]
    exact (hvalid call hcall).translates hin
  · intro hout
    rw [sequenceEntry_eq_none fun call hcall hin => hout call hcall ((hwhole call hcall).mp hin)]
    rfl

/-- The tables of one huge page, all p1 tables full of garbage. -/
def usedTables : Words := ⟨513 * 512, fun i => if i < 512 then 0 else 7⟩

/-- Two ranges that share a large page, and an empty one between them. -/
def sharedPage : List RangeCall :=
  [⟨0, 0x201000, 7, 0x400000⟩, ⟨0x202000, 0x202000, 1, 0x2000⟩, ⟨0x203000, 0x205000, 5, 0x803000⟩]

/-- The tables at the page 16, with the p3 table and the root after them. -/
def memoryOf (word : Nat → Nat) : Nat → Nat := fun w =>
  if w < 512 * 16 then 0
  else if w < 512 * (16 + 513) then word (w - 512 * 16)
  else if w = 512 * 529 then entry 7 16
  else if w = 512 * 530 then entry 7 529
  else 0

theorem sharedPage_translated :
    ∃ tables past, setRanges usedTables (4096 * 16) 0 sharedPage = .ok (tables, past)
      ∧ (∃ t, walk (memoryOf tables.word) 530 (0x200123 / pageSize) = some t
        ∧ t.frame * pageSize + 0x123 = 0x600123 ∧ t.user = true)
      ∧ walk (memoryOf tables.word) 530 (0x202fff / pageSize) = none := by
  obtain ⟨tables, past, heq, hwalk⟩ := @setRanges_translate 1 16 usedTables sharedPage
    (by decide) (by decide) rfl
    (fun region hregion => if_pos (by unfold p2Index; omega))
    (by
      unfold sharedPage
      rintro call (_ | ⟨_, _ | ⟨_, _ | ⟨_, ⟨⟩⟩⟩⟩)
      all_goals exact ⟨rfl, rfl, by decide, by decide, ⟨by decide, rfl⟩, rfl, by decide⟩)
    (by decide)
  have hrooted : Rooted (memoryOf tables.word) 530 529 16 1 tables.word := by
    refine ⟨by decide, rfl, fun i hi => ?_, fun i hi => ?_⟩
    · obtain rfl : i = 0 := by omega
      rfl
    · unfold memoryOf
      rw [if_neg (by omega), if_pos (by omega), Nat.add_sub_cancel_left]
  refine ⟨tables, past, heq, ?_, ?_⟩
  · obtain ⟨t, ht, hframe, -, huser⟩ := (hwalk _ _ _ hrooted 0x200123 (by decide)).1 _
      List.mem_cons_self ⟨by decide, by decide⟩
    exact ⟨t, ht, hframe, huser⟩
  · apply (hwalk _ _ _ hrooted 0x202fff (by decide)).2
    decide

end Dandelion.Kvm
