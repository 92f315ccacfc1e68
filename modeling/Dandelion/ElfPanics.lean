import Dandelion.ElfDecoding

/-!
# ELF files that panic

A file that was not checked gives the offsets, sizes and counts of its tables and sections. This is
when reading it panics all the same: `Harmless` says it of the file alone, step by step, each step
for the files that the steps before accept.
-/

open Outcome

namespace Dandelion.ElfParser

/-! ## Conditions on the file -/

section Conditions

variable (file : List UInt8)

/-- The size and the end of the table stay in their types, and if the end is in the file, so are the
entries, which may be longer than the header says. -/
def TableHarmless (size start entsize num : Nat) : Prop :=
  Bounded start entsize num
    ∧ (start + num * entsize ≤ file.length → InFile file size start entsize num)

/-- Only whole entries are read, all of them, or the first one if they are too small. -/
def SymbolsHarmless (symtab : ElfShdr) : Prop :=
  symtab.shOffset + symtab.shSize < Usize.limit
    ∧ (WholeEntries symtab →
      if (Format.ofFile file).symSize ≤ symtab.shEntsize then
        InFile file (Format.ofFile file).symSize symtab.shOffset symtab.shEntsize
          (symtab.shSize / symtab.shEntsize)
      else 0 < symtab.shSize → symtab.shOffset + (Format.ofFile file).symSize ≤ file.length)

def SymbolsAccepted (symtab : ElfShdr) : Prop :=
  WholeEntries symtab ∧ ((Format.ofFile file).symSize ≤ symtab.shEntsize ∨ symtab.shSize = 0)

/-- The end of a segment, rounded up to a page, is a `usize`. -/
def SegmentsHarmless (phdrs : List ElfPhdr) : Prop :=
  ∀ phdr ∈ phdrs, phdr.pType = 1 → (phdr.pVaddr + phdr.pMemsz + 4095) / 4096 * 4096 < Usize.limit

def TextHarmless (stringSection : ElfShdr) : Prop :=
  stringSection.shOffset + stringSection.shSize < Usize.limit
    ∧ stringSection.shOffset + stringSection.shSize ≤ file.length

def sectionBytes (stringSection : ElfShdr) : List UInt8 :=
  (file.drop stringSection.shOffset).take stringSection.shSize

def IsUtf8 (bytes : List UInt8) : Prop := (String.fromUTF8? ⟨bytes.toArray⟩).isSome = true

instance (bytes : List UInt8) : Decidable (IsUtf8 bytes) := inferInstanceAs (Decidable (_ = true))

/-- The section that is taken for the string table of the symbols. -/
def strtabOf (shdrs : List ElfShdr) (sectionNames : List UInt8) : Option ElfShdr :=
  (Substrings.find sectionNames (Bson.utf8Bytes ".strtab")).bind fun index =>
    shdrs.find? fun x => x.shType == shtStrtab && x.shName == index

/-- The section names are there, and the string table if the names lead to one. -/
def NamesHarmless (shdrs : List ElfShdr) (shstrndx : Nat) : Prop :=
  ∃ sectionNames, shdrs[shstrndx]? = some sectionNames ∧ TextHarmless file sectionNames
    ∧ (IsUtf8 (sectionBytes file sectionNames) →
      ∀ strtab, strtabOf shdrs (sectionBytes file sectionNames) = some strtab →
        TextHarmless file strtab)

def Harmless : Prop :=
  let format := Format.ofFile file
  let ehdr := format.ehdr file
  Headed file →
    TableHarmless file format.phdrSize ehdr.ePhoff ehdr.ePhentsize ehdr.ePhnum
    ∧ (ehdr.ePhoff + ehdr.ePhnum * ehdr.ePhentsize ≤ file.length →
      TableHarmless file format.shdrSize ehdr.eShoff ehdr.eShentsize ehdr.eShnum
      ∧ (ehdr.eShoff + ehdr.eShnum * ehdr.eShentsize ≤ file.length →
        ∀ symtab, symtabOf (shdrsOf file) = some symtab →
          SymbolsHarmless file symtab
          ∧ (SymbolsAccepted file symtab →
            SegmentsHarmless (phdrsOf file) ∧ NamesHarmless file (shdrsOf file) ehdr.eShstrndx)))

end Conditions

/-! ## Header tables and symbols -/

section Parsing

variable {file : List UInt8}

theorem returns_parseTable {α : Type} {entry : FieldParser α} {size start entsize num : Nat}
    {value : Nat → α} (hread : ReadsAt file entry size value) :
    Returns (parseTable .checked file start entsize num entry)
      ↔ TableHarmless file size start entsize num := by
  unfold TableHarmless
  by_cases hbounded : Bounded start entsize num
  · by_cases hend : start + num * entsize ≤ file.length
    · by_cases hin : InFile file size start entsize num
      · rw [parseTable_eq_ok .checked hread hbounded hend hin]
        simp [hbounded, hin]
      · rw [parseTable_eq_crash .checked hread hbounded hend hin]
        simp [hend, hin]
    · rw [parseTable_refused .checked hbounded (Nat.lt_of_not_le hend)]
      simp [hbounded, hend]
  · rw [parseTable_overflow hbounded]
    simp [hbounded]

theorem parseTable_ok_iff {α : Type} {entry : FieldParser α} {size start entsize num : Nat}
    {value : Nat → α} {table : List α} (hread : ReadsAt file entry size value)
    (hharmless : TableHarmless file size start entsize num) :
    parseTable .checked file start entsize num entry = .ok table
      ↔ start + num * entsize ≤ file.length ∧ table = tableOf value start entsize num := by
  obtain ⟨hbounded, hin⟩ := hharmless
  by_cases hend : start + num * entsize ≤ file.length
  · rw [parseTable_eq_ok .checked hread hbounded hend (hin hend)]
    simp [hend, eq_comm]
  · rw [parseTable_refused .checked hbounded (Nat.lt_of_not_le hend)]
    simp [hend, fail]

variable {shdrs : List ElfShdr} {symtab : ElfShdr} {symbols : List ElfSym}

theorem inFile_of_empty {size : Nat} (h : symtab.shSize = 0) :
    InFile file size symtab.shOffset symtab.shEntsize (symtab.shSize / symtab.shEntsize) := by
  rw [h, Nat.zero_div]
  exact fun i hi => absurd hi (Nat.not_lt_zero i)

theorem returns_parseSymbolTable (h : symtabOf shdrs = some symtab) :
    Returns (parseSymbolTable .checked file (Format.ofFile file).funcs shdrs
      (Format.ofFile file).is32Bit) ↔ SymbolsHarmless file symtab := by
  unfold SymbolsHarmless
  by_cases hend : symtab.shOffset + symtab.shSize < Usize.limit
  · by_cases hwhole : WholeEntries symtab
    · by_cases hsize : (Format.ofFile file).symSize ≤ symtab.shEntsize
      · by_cases hin : InFile file (Format.ofFile file).symSize symtab.shOffset symtab.shEntsize
            (symtab.shSize / symtab.shEntsize)
        · rw [parseSymbolTable_eq_ok h hend .checked hwhole (Or.inl hsize) hin]
          simp [hend, hsize, hin]
        · rw [parseSymbolTable_eq_crash h hend .checked hwhole hsize hin]
          simp [hwhole, hsize, hin]
      · by_cases hpos : 0 < symtab.shSize
        · rw [parseSymbolTable_small h hend .checked hwhole (Nat.lt_of_not_le hsize) hpos]
          by_cases hfirst : symtab.shOffset + (Format.ofFile file).symSize ≤ file.length
          · simp [hend, hsize, hfirst]
          · simp [hwhole, hsize, hpos, hfirst]
        · have hzero : symtab.shSize = 0 := by omega
          rw [parseSymbolTable_eq_ok h hend .checked hwhole (Or.inr hzero) (inFile_of_empty hzero)]
          simp [hend, hsize, hpos]
    · rw [parseSymbolTable_refused h hend .checked hwhole]
      simp [hend, hwhole]
  · rw [parseSymbolTable_overflow h hend]
    simp [hend]

theorem parseSymbolTable_ok_iff (h : symtabOf shdrs = some symtab)
    (hharmless : SymbolsHarmless file symtab) :
    (∃ symbols, parseSymbolTable .checked file (Format.ofFile file).funcs shdrs
      (Format.ofFile file).is32Bit = .ok symbols) ↔ SymbolsAccepted file symtab := by
  obtain ⟨hend, hentries⟩ := hharmless
  unfold SymbolsAccepted
  by_cases hwhole : WholeEntries symtab
  · have hentries := hentries hwhole
    by_cases hzero : symtab.shSize = 0
    · rw [parseSymbolTable_eq_ok h hend .checked hwhole (Or.inr hzero) (inFile_of_empty hzero)]
      simp [hwhole, hzero]
    · by_cases hsize : (Format.ofFile file).symSize ≤ symtab.shEntsize
      · rw [if_pos hsize] at hentries
        rw [parseSymbolTable_eq_ok h hend .checked hwhole (Or.inl hsize) hentries]
        simp [hwhole, hsize]
      · rw [if_neg hsize] at hentries
        rw [parseSymbolTable_small h hend .checked hwhole (Nat.lt_of_not_le hsize) (by omega),
          if_pos (hentries (by omega))]
        simp [hsize, hzero, fail]
  · rw [parseSymbolTable_refused h hend .checked hwhole]
    simp [hwhole, fail]

end Parsing

/-! ## Segments and names -/

section Use

variable {file : List UInt8} {parsed : ParsedElf}

theorem pageStart_eq (start : Nat) :
    ParsedElf.pageStart .checked start = .ok (start / 4096 * 4096) := by
  unfold ParsedElf.pageStart ParsedElf.defaultAlignment
  split_ifs with hstart
  · rw [Usize.sub_eq_ok (Nat.mod_le _ _)]
    congr 1
    omega
  · change (Except.ok start : DandelionResult Nat) = _
    congr 1
    omega

theorem pageEnd_eq {stop : Nat} (h : stop < Usize.limit) : ParsedElf.pageEnd .checked stop
    = if (stop + 4095) / 4096 * 4096 < Usize.limit then .ok ((stop + 4095) / 4096 * 4096)
      else crash := by
  unfold ParsedElf.pageEnd ParsedElf.defaultAlignment
  split_ifs with hstop hend hend
  · rw [Usize.add_eq_ok (by omega)]
    congr 1
    omega
  · exact if_neg (by omega)
  · change (Except.ok stop : DandelionResult Nat) = _
    congr 1
    omega
  · omega

theorem protectionRequirement_eq (phdr : ElfPhdr) : ParsedElf.protectionRequirement .checked phdr
    = if (phdr.pVaddr + phdr.pMemsz + 4095) / 4096 * 4096 < Usize.limit then
        .ok (phdr.pFlags, ⟨phdr.pVaddr / 4096 * 4096,
          (phdr.pVaddr + phdr.pMemsz + 4095) / 4096 * 4096 - phdr.pVaddr / 4096 * 4096⟩)
      else crash := by
  unfold ParsedElf.protectionRequirement
  by_cases hstop : phdr.pVaddr + phdr.pMemsz < Usize.limit
  · rw [Usize.add_eq_ok hstop, ok_bind, pageStart_eq, ok_bind, pageEnd_eq hstop]
    split_ifs with hend
    · rw [ok_bind, Usize.sub_eq_ok (by omega), ok_bind]
      rfl
    · rfl
  · rw [Usize.add_eq_crash hstop, if_neg (by omega)]
    rfl

theorem returns_getMemoryProtectionLayout : Returns (parsed.getMemoryProtectionLayout .checked)
    ↔ SegmentsHarmless parsed.programHeaderTable := by
  unfold ParsedElf.getMemoryProtectionLayout
  have hmem (phdr : ElfPhdr) : phdr ∈ parsed.programHeaderTable.filter (fun programHeader =>
      programHeader.pType == 0x1) ↔ phdr ∈ parsed.programHeaderTable ∧ phdr.pType = 1 := by
    rw [List.mem_filter, beq_iff_eq]
  by_cases hharmless : SegmentsHarmless parsed.programHeaderTable
  · refine iff_of_true ?_ hharmless
    obtain ⟨layout, hlayout⟩ := exists_mapM_ok (f := ParsedElf.protectionRequirement .checked)
      fun phdr hphdr => by
        obtain ⟨hphdr, htype⟩ := (hmem phdr).mp hphdr
        rw [protectionRequirement_eq, if_pos (hharmless phdr hphdr htype)]
        exact ⟨_, rfl⟩
    rw [hlayout]
    exact returns_ok layout
  · refine iff_of_false ?_ hharmless
    rw [mapM_eq_crash]
    · exact not_returns_crash
    · intro phdr _
      rw [protectionRequirement_eq]
      split_ifs
      · exact Or.inr ⟨_, rfl⟩
      · exact Or.inl rfl
    · simp only [SegmentsHarmless, not_forall] at hharmless
      obtain ⟨phdr, hphdr, htype, hend⟩ := hharmless
      refine ⟨phdr, (hmem phdr).mpr ⟨hphdr, htype⟩, ?_⟩
      rw [protectionRequirement_eq, if_neg hend]

theorem sectionText_eq (mode : Overflow) (stringSection : ElfShdr)
    (h : TextHarmless file stringSection) : ParsedElf.sectionText mode file stringSection
      = if IsUtf8 (sectionBytes file stringSection) then .ok (sectionBytes file stringSection)
        else fail .malformedConfig := by
  unfold ParsedElf.sectionText
  rw [Usize.add_of_lt mode h.1, ok_bind, Slices.range_eq_ok (Nat.le_add_right _ _) h.2, ok_bind,
    Nat.add_sub_cancel_left]
  rw [← sectionBytes]
  by_cases hutf8 : IsUtf8 (sectionBytes file stringSection)
  · rw [if_pos hutf8]
    obtain ⟨text, htext⟩ := Option.isSome_iff_exists.mp hutf8
    rw [htext, ← Bson.fromUTF8?_eq_some_iff.mp htext]
    rfl
  · rw [if_neg hutf8]
    rw [IsUtf8, Option.not_isSome_iff_eq_none] at hutf8
    rw [hutf8]

theorem sectionText_crash (stringSection : ElfShdr) (h : ¬ TextHarmless file stringSection) :
    ParsedElf.sectionText .checked file stringSection = crash := by
  unfold ParsedElf.sectionText
  by_cases hend : stringSection.shOffset + stringSection.shSize < Usize.limit
  · rw [Usize.add_eq_ok hend, ok_bind, Slices.range, if_neg (fun hin => h ⟨hend, hin.2⟩)]
    rfl
  · rw [Usize.add_eq_crash hend]
    rfl

theorem returns_lookup (strtab : ElfShdr) (name : String) :
    Returns (do
      let stringTableString ← ParsedElf.sectionText .checked file strtab
      match Substrings.find stringTableString (Bson.utf8Bytes name) with
      | none => fail .unknownSymbol
      | some nameIndex =>
        match parsed.symbolTable.find? fun sym => sym.stName == nameIndex with
        | some sym => pure (sym.stValue, sym.stSize)
        | none => fail .malformedConfig : DandelionResult (Nat × Nat))
      ↔ TextHarmless file strtab := by
  by_cases htext : TextHarmless file strtab
  · refine iff_of_true ((returns_bind _ _).mpr ⟨?_, fun text _ => ?_⟩) htext
    · rw [sectionText_eq .checked strtab htext]
      split_ifs
      · exact returns_ok _
      · exact returns_fail _
    · split
      · exact returns_fail _
      · split
        · exact returns_pure _
        · exact returns_fail _
  · rw [sectionText_crash strtab htext]
    exact iff_of_false not_returns_crash htext

theorem returns_getSymbolByName (name : String) :
    Returns (parsed.getSymbolByName .checked file name)
      ↔ NamesHarmless file parsed.sectionHeaderTable parsed.ehdr.eShstrndx := by
  unfold ParsedElf.getSymbolByName NamesHarmless
  cases hnames : parsed.sectionHeaderTable[parsed.ehdr.eShstrndx]? with
  | none =>
    rw [Slices.index_eq_crash hnames]
    exact iff_of_false not_returns_crash (by rintro ⟨_, ⟨⟩, -⟩)
  | some sectionNames =>
    have hsome (P : ElfShdr → Prop) : (∃ names, some sectionNames = some names ∧ P names)
        ↔ P sectionNames := by simp
    rw [Slices.index_eq_ok hnames, ok_bind, hsome]
    by_cases htext : TextHarmless file sectionNames
    · rw [sectionText_eq .checked sectionNames htext]
      by_cases hutf8 : IsUtf8 (sectionBytes file sectionNames)
      · rw [if_pos hutf8, ok_bind]
        cases hfind : Substrings.find (sectionBytes file sectionNames) (Bson.utf8Bytes ".strtab") with
        | none =>
          have hstrtab : strtabOf parsed.sectionHeaderTable (sectionBytes file sectionNames) = none := by
            rw [strtabOf, hfind]
            rfl
          simp [hstrtab, htext]
        | some index =>
          have hstrtab : strtabOf parsed.sectionHeaderTable (sectionBytes file sectionNames)
              = parsed.sectionHeaderTable.find? fun x =>
                  x.shType == shtStrtab && x.shName == index := by
            rw [strtabOf, hfind]
            rfl
          dsimp only
          rw [← hstrtab]
          cases strtabOf parsed.sectionHeaderTable (sectionBytes file sectionNames) with
          | none => simp [htext]
          | some strtab =>
            simp only [htext, hutf8, true_and, true_implies, Option.some.injEq, forall_eq']
            exact returns_lookup strtab name
      · rw [if_neg hutf8]
        exact iff_of_true (returns_fail _) ⟨htext, fun h => absurd h hutf8⟩
    · rw [sectionText_crash sectionNames htext]
      exact iff_of_false not_returns_crash fun h => htext h.1

end Use

/-! ## Registration -/

/-- Neither `new` nor the lookups in what it returns panic. -/
def NeverPanics (file : List UInt8) : Prop :=
  Returns (ParsedElf.new .checked file)
    ∧ ∀ parsed, ParsedElf.new .checked file = .ok parsed →
      Returns (parsed.getMemoryProtectionLayout .checked)
        ∧ ∀ name, Returns (parsed.getSymbolByName .checked file name)

theorem meets_parseTable {α : Type} {file : List UInt8} {entry : FieldParser α}
    {size start entsize num : Nat} {value : Nat → α} (hread : ReadsAt file entry size value)
    (Q : List α → Prop) :
    Meets (parseTable .checked file start entsize num entry) Q (fun stop => ∃ e, stop = .error e)
      ↔ TableHarmless file size start entsize num
        ∧ (start + num * entsize ≤ file.length → Q (tableOf value start entsize num)) := by
  rw [meets_returns_iff, returns_parseTable hread]
  refine and_congr_right fun hharmless => ?_
  simp only [parseTable_ok_iff hread hharmless, and_imp]
  constructor
  · exact fun h hend => h _ hend rfl
  · rintro h _ hend rfl
    exact h hend

theorem meets_parseSymbolTable (file : List UInt8) (shdrs : List ElfShdr) (Q : Prop) :
    Meets (parseSymbolTable .checked file (Format.ofFile file).funcs shdrs
        (Format.ofFile file).is32Bit) (fun _ => Q) (fun stop => ∃ e, stop = .error e)
      ↔ ∀ symtab, symtabOf shdrs = some symtab →
        SymbolsHarmless file symtab ∧ (SymbolsAccepted file symtab → Q) := by
  rw [meets_returns_iff]
  cases hsymtab : symtabOf shdrs with
  | none =>
    rw [parseSymbolTable_none .checked hsymtab]
    refine iff_of_true ⟨returns_fail _, fun symbols hok => ?_⟩ fun symtab h => ?_
    · cases hok
    · cases h
  | some symtab =>
    rw [returns_parseSymbolTable hsymtab]
    simp only [Option.some.injEq, forall_eq']
    refine and_congr_right fun hharmless => ?_
    rw [← parseSymbolTable_ok_iff hsymtab hharmless]
    constructor
    · rintro h ⟨symbols, hok⟩
      exact h symbols hok
    · exact fun h symbols hok => h ⟨symbols, hok⟩

theorem returns_lookups (parsed : ParsedElf) (file : List UInt8) :
    (Returns (parsed.getMemoryProtectionLayout .checked)
        ∧ ∀ name, Returns (parsed.getSymbolByName .checked file name))
      ↔ SegmentsHarmless parsed.programHeaderTable
        ∧ NamesHarmless file parsed.sectionHeaderTable parsed.ehdr.eShstrndx := by
  rw [returns_getMemoryProtectionLayout]
  simp only [returns_getSymbolByName, forall_const]

/-- Reading a file does not panic, whatever its bytes, if and only if it is harmless: each table
that is read stays in its types and has its entries in the file, and so do the sections of names
that the tables lead to and the segments. -/
theorem neverPanics_iff_harmless (file : List UInt8) : NeverPanics file ↔ Harmless file := by
  have hmeets : NeverPanics file ↔ Meets (ParsedElf.new .checked file) (fun parsed =>
      SegmentsHarmless parsed.programHeaderTable
        ∧ NamesHarmless file parsed.sectionHeaderTable parsed.ehdr.eShstrndx)
      (fun stop => ∃ e, stop = .error e) := by
    unfold NeverPanics
    simp only [returns_lookups]
    exact (meets_returns_iff _ _).symm
  rw [hmeets]
  unfold Harmless
  by_cases hheaded : Headed file
  · have hphdr := readsAt_parsePhdr (Format.ofFile file) file
    have hshdr := readsAt_parseShdr (Format.ofFile file) file
    rw [new_of_headed .checked hheaded, parseTables, meets_bind_iff, parsePhdrTable,
      meets_parseTable hphdr]
    simp only [hheaded, true_implies]
    refine and_congr_right fun _ => imp_congr_right fun _ => ?_
    rw [meets_bind_iff, parseShrdTable, meets_parseTable hshdr]
    refine and_congr_right fun _ => imp_congr_right fun _ => ?_
    simp only [meets_bind_iff, meets_pure]
    exact meets_parseSymbolTable file (shdrsOf file) _
  · rw [new_of_not_headed .checked hheaded]
    exact iff_of_true ⟨_, rfl⟩ fun h => absurd h hheaded

/-- A file header that announces one program header of no bytes, at the end of the file. -/
def emptyEntryElf : List UInt8 :=
  [0x7F, 0x45, 0x4c, 0x46, 1, 1, 1, 0, 0, 0, 0, 0, 0, 0, 0, 0,
    2, 0, 3, 0, 1, 0, 0, 0, 0, 0, 0, 0, 52, 0, 0, 0, 52, 0, 0, 0, 0, 0, 0, 0,
    52, 0, 0, 0, 1, 0, 40, 0, 0, 0, 0, 0]

/-- It is read behind the end of the file, in every build. -/
theorem emptyEntryElf_panics : ¬ NeverPanics emptyEntryElf
    ∧ ParsedElf.new .wrapping emptyEntryElf = crash := by
  have hheaded : Headed emptyEntryElf := ⟨by decide, rfl, by decide +kernel, by decide +kernel⟩
  have hehdr : (Format.ofFile emptyEntryElf).ehdr emptyEntryElf
      = ⟨2, 3, 1, 0, 52, 52, 0, 52, 0, 1, 40, 0, 0⟩ := by decide +kernel
  have hcrash (mode : Overflow) : ParsedElf.new mode emptyEntryElf = crash := by
    rw [new_of_headed mode hheaded, parseTables, parsePhdrTable, hehdr, parseTable_eq_crash mode
      (readsAt_parsePhdr _ _) (by unfold Bounded Usize.limit; decide) (by decide)]
    · rfl
    · intro hin
      exact absurd (hin 0 (by decide)) (by decide)
  refine ⟨fun h => ?_, hcrash .wrapping⟩
  have hreturns := h.1
  rw [hcrash .checked] at hreturns
  exact not_returns_crash hreturns

end Dandelion.ElfParser
