import Dandelion.ElfImage

/-!
# The tables of an ELF file

What `ParsedElf::new` makes of a file, step by step: the checks of the file header, the header
tables and the symbols, in terms of where their fields are. A table that does not overflow is
refused if it ends behind the file, and otherwise read if all of its entries are in the file.
-/

open Outcome

namespace Dandelion.ElfParser

theorem mulHalf_eq_ok {a b : Nat} (mode : Overflow) (h : a * b < 2 ^ 16) :
    mulHalf mode a b = .ok (a * b) := by
  cases mode with
  | checked => exact if_pos h
  | wrapping => exact congrArg Except.ok (Nat.mod_eq_of_lt h)

/-! ## Header tables -/

section Tables

variable {α : Type} {file : List UInt8} {entry : FieldParser α} {size : Nat} {value : Nat → α}
  {start entsize num : Nat}

/-- All entries of a table are in the file. -/
def InFile (file : List UInt8) (size start entsize num : Nat) : Prop :=
  ∀ i < num, start + i * entsize + size ≤ file.length

def tableOf (value : Nat → α) (start entsize num : Nat) : List α :=
  (List.range num).map fun i => value (start + i * entsize)

/-- The size and the end of a table stay in their types. -/
def Bounded (start entsize num : Nat) : Prop :=
  num * entsize < 2 ^ 16 ∧ start + num * entsize < Usize.limit

theorem parseTable_entry (mode : Overflow) (hread : ReadsAt file entry size value)
    (hbounded : Bounded start entsize num) {i : Nat} (hi : i < num) :
    (do
      let offset ← Usize.add mode start (← mulHalf mode i entsize)
      entry.run' offset)
      = if start + i * entsize + size ≤ file.length then .ok (value (start + i * entsize))
        else crash := by
  have hmul : i * entsize ≤ num * entsize := Nat.mul_le_mul_right _ (Nat.le_of_lt hi)
  obtain ⟨hhalf, hlimit⟩ := hbounded
  rw [mulHalf_eq_ok mode (by omega), ok_bind, Usize.add_of_lt mode (by omega), ok_bind, hread.run']

theorem parseTable_refused (mode : Overflow) (hbounded : Bounded start entsize num)
    (hend : file.length < start + num * entsize) :
    parseTable mode file start entsize num entry = fail .malformedConfig := by
  unfold parseTable
  rw [mulHalf_eq_ok mode hbounded.1, ok_bind, Usize.add_of_lt mode hbounded.2, ok_bind, if_pos hend]
  rfl

theorem parseTable_eq_ok (mode : Overflow) (hread : ReadsAt file entry size value)
    (hbounded : Bounded start entsize num) (hend : start + num * entsize ≤ file.length)
    (hin : InFile file size start entsize num) :
    parseTable mode file start entsize num entry = .ok (tableOf value start entsize num) := by
  unfold parseTable
  rw [mulHalf_eq_ok mode hbounded.1, ok_bind, Usize.add_of_lt mode hbounded.2, ok_bind,
    if_neg (Nat.not_lt_of_le hend)]
  apply mapM_eq_ok_map
  intro i hi
  have hlt := List.mem_range.mp hi
  rw [parseTable_entry mode hread hbounded hlt, if_pos (hin i hlt)]

theorem parseTable_eq_crash (mode : Overflow) (hread : ReadsAt file entry size value)
    (hbounded : Bounded start entsize num) (hend : start + num * entsize ≤ file.length)
    (hin : ¬ InFile file size start entsize num) :
    parseTable mode file start entsize num entry = crash := by
  unfold parseTable
  rw [mulHalf_eq_ok mode hbounded.1, ok_bind, Usize.add_of_lt mode hbounded.2, ok_bind,
    if_neg (Nat.not_lt_of_le hend)]
  apply mapM_eq_crash
  · intro i hi
    rw [parseTable_entry mode hread hbounded (List.mem_range.mp hi)]
    split_ifs
    · exact Or.inr ⟨_, rfl⟩
    · exact Or.inl rfl
  · simp only [InFile, not_forall] at hin
    obtain ⟨i, hi, hout⟩ := hin
    refine ⟨i, List.mem_range.mpr hi, ?_⟩
    rw [parseTable_entry mode hread hbounded hi, if_neg hout]

theorem parseTable_overflow (h : ¬ Bounded start entsize num) :
    parseTable .checked file start entsize num entry = crash := by
  unfold parseTable mulHalf
  by_cases hhalf : num * entsize < 2 ^ 16
  · have hlimit : ¬ start + num * entsize < Usize.limit := fun hlimit => h ⟨hhalf, hlimit⟩
    dsimp only
    rw [if_pos hhalf]
    change (Usize.add .checked start (num * entsize) >>= _) = _
    rw [Usize.add_eq_crash hlimit]
    rfl
  · dsimp only
    rw [if_neg hhalf]
    rfl

end Tables

/-! ## Symbols -/

section Symbols

variable {format : Format} {file : List UInt8} {shdrTable : List ElfShdr} {symtab : ElfShdr}

/-- The section of the symbols: the first one of their type. -/
def symtabOf (shdrTable : List ElfShdr) : Option ElfShdr :=
  shdrTable.find? fun x => x.shType == shtSymtab

/-- Whole entries, of a size that is not zero. -/
def WholeEntries (symtab : ElfShdr) : Prop :=
  symtab.shEntsize ≠ 0 ∧ symtab.shEntsize ∣ symtab.shSize

theorem parseSymbolTable_none (mode : Overflow) (h : symtabOf shdrTable = none) :
    parseSymbolTable mode file format.funcs shdrTable format.is32Bit = fail .malformedConfig := by
  rw [symtabOf] at h
  rw [parseSymbolTable, h]

theorem parseSymbolTable_overflow (h : symtabOf shdrTable = some symtab)
    (hend : ¬ symtab.shOffset + symtab.shSize < Usize.limit) :
    parseSymbolTable .checked file format.funcs shdrTable format.is32Bit = crash := by
  rw [symtabOf] at h
  rw [parseSymbolTable, h]
  dsimp only
  rw [Usize.add_eq_crash hend]
  rfl

section Bounded

variable (h : symtabOf shdrTable = some symtab)
  (hend : symtab.shOffset + symtab.shSize < Usize.limit)
include h hend

theorem parseSymbolTable_refused (mode : Overflow) (hwhole : ¬ WholeEntries symtab) :
    parseSymbolTable mode file format.funcs shdrTable format.is32Bit = fail .malformedConfig := by
  rw [symtabOf] at h
  rw [parseSymbolTable, h]
  dsimp only
  rw [Usize.add_of_lt mode hend, ok_bind]
  by_cases hzero : symtab.shEntsize = 0
  · rw [if_pos hzero]
    rfl
  · have hdiv := Nat.div_mul_le_self symtab.shSize symtab.shEntsize
    have hlast : symtab.shSize / symtab.shEntsize * symtab.shEntsize + symtab.shOffset
        ≠ symtab.shOffset + symtab.shSize := by
      intro heq
      apply hwhole
      refine ⟨hzero, Nat.dvd_of_mod_eq_zero ?_⟩
      have := Nat.div_add_mod' symtab.shSize symtab.shEntsize
      omega
    rw [if_neg hzero, Usize.mul_of_lt mode (by omega), ok_bind, Usize.add_of_lt mode (by omega), ok_bind,
      if_pos hlast]
    rfl

theorem parseSymbolTable_whole (mode : Overflow) (hwhole : WholeEntries symtab) :
    parseSymbolTable mode file format.funcs shdrTable format.is32Bit
      = (List.range (symtab.shSize / symtab.shEntsize)).mapM fun entry =>
          let place := symtab.shOffset + entry * symtab.shEntsize
          if place + format.symSize ≤ file.length then
            if symtab.shEntsize < format.symSize then fail .malformedConfig
            else .ok (format.symAt file place)
          else crash := by
  obtain ⟨hzero, hdvd⟩ := hwhole
  have hdiv := Nat.div_mul_cancel hdvd
  rw [symtabOf] at h
  rw [parseSymbolTable, h]
  dsimp only
  rw [Usize.add_of_lt mode hend, ok_bind, if_neg hzero, Usize.mul_of_lt mode (by omega), ok_bind,
    Usize.add_of_lt mode (by omega), ok_bind, if_neg (by omega)]
  apply mapM_congr_of_mem
  intro entry hentry
  have hlt := List.mem_range.mp hentry
  have hplace : entry * symtab.shEntsize + symtab.shEntsize ≤ symtab.shSize := by
    have := Nat.mul_le_mul_right symtab.shEntsize (show entry + 1 ≤ _ from hlt)
    rw [Nat.add_mul, Nat.one_mul] at this
    omega
  rw [Usize.mul_of_lt mode (by omega), ok_bind, Usize.add_of_lt mode (by omega), ok_bind,
    readsAt_parseSym format file]
  by_cases hin : symtab.shOffset + entry * symtab.shEntsize + format.symSize ≤ file.length
  · rw [if_pos hin, if_pos hin, ok_bind]
    dsimp only
    rw [Usize.add_of_lt mode (by omega), ok_bind]
    by_cases hsmall : symtab.shEntsize < format.symSize
    · rw [if_pos hsmall, if_pos (by omega)]
      rfl
    · rw [if_neg hsmall, if_neg (by omega)]
      rfl
  · rw [if_neg hin, if_neg hin]
    rfl

theorem parseSymbolTable_eq_ok (mode : Overflow) (hwhole : WholeEntries symtab)
    (hsize : format.symSize ≤ symtab.shEntsize ∨ symtab.shSize = 0)
    (hin : InFile file format.symSize symtab.shOffset symtab.shEntsize
      (symtab.shSize / symtab.shEntsize)) :
    parseSymbolTable mode file format.funcs shdrTable format.is32Bit
      = .ok (tableOf (format.symAt file) symtab.shOffset symtab.shEntsize
          (symtab.shSize / symtab.shEntsize)) := by
  rw [parseSymbolTable_whole h hend mode hwhole]
  apply mapM_eq_ok_map
  intro entry hentry
  have hlt := List.mem_range.mp hentry
  rcases hsize with hsize | hsize
  · dsimp only
    rw [if_pos (hin entry hlt), if_neg (Nat.not_lt_of_le hsize)]
  · rw [hsize, Nat.zero_div] at hlt
    exact absurd hlt (Nat.not_lt_zero _)

theorem parseSymbolTable_eq_crash (mode : Overflow) (hwhole : WholeEntries symtab)
    (hsize : format.symSize ≤ symtab.shEntsize)
    (hin : ¬ InFile file format.symSize symtab.shOffset symtab.shEntsize
      (symtab.shSize / symtab.shEntsize)) :
    parseSymbolTable mode file format.funcs shdrTable format.is32Bit = crash := by
  rw [parseSymbolTable_whole h hend mode hwhole]
  apply mapM_eq_crash
  · intro entry _
    dsimp only
    rw [if_neg (Nat.not_lt_of_le hsize)]
    split_ifs
    · exact Or.inr ⟨_, rfl⟩
    · exact Or.inl rfl
  · simp only [InFile, not_forall] at hin
    obtain ⟨entry, hentry, hout⟩ := hin
    exact ⟨entry, List.mem_range.mpr hentry, if_neg hout⟩

/-- Entries that are too small for a symbol are refused once the first one has been read. -/
theorem parseSymbolTable_small (mode : Overflow) (hwhole : WholeEntries symtab)
    (hsize : symtab.shEntsize < format.symSize) (hpos : 0 < symtab.shSize) :
    parseSymbolTable mode file format.funcs shdrTable format.is32Bit
      = if symtab.shOffset + format.symSize ≤ file.length then fail .malformedConfig else crash := by
  rw [parseSymbolTable_whole h hend mode hwhole]
  obtain ⟨entries, hentries⟩ : ∃ entries, symtab.shSize / symtab.shEntsize = entries + 1 := by
    have := Nat.div_pos (Nat.le_of_dvd hpos hwhole.2) (Nat.pos_of_ne_zero hwhole.1)
    exact ⟨_, (Nat.succ_pred_eq_of_pos this).symm⟩
  rw [hentries, List.range_succ_eq_map, List.mapM_cons, Nat.zero_mul, Nat.add_zero]
  dsimp only
  rw [if_pos hsize]
  split_ifs
  · rfl
  · rfl

end Bounded

end Symbols

/-! ## The file -/

section File

variable {file : List UInt8}

def Format.ofFile (file : List UInt8) : Format := ⟨file.getD 5 0 == 1, file.getD 4 0 == 1⟩

/-- The checks of the file header. -/
structure Headed (file : List UInt8) : Prop where
  six_le : 6 ≤ file.length
  magic : file.take 4 = [0x7F, 0x45, 0x4c, 0x46]
  size_le : (Format.ofFile file).ehdrSize ≤ file.length
  ehsize : ((Format.ofFile file).ehdr file).eEhsize = (Format.ofFile file).ehdrSize

/-- The tables of a file with this header. -/
def parseTables (mode : Overflow) (file : List UInt8) (format : Format) (ehdr : ElfEhdr) :
    DandelionResult ParsedElf := do
  let programHeaderTable ← parsePhdrTable mode file format.funcs ehdr format.is32Bit
  let sectionHeaderTable ← parseShrdTable mode file format.funcs ehdr
  let symbolTable ← parseSymbolTable mode file format.funcs sectionHeaderTable format.is32Bit
  pure { ehdr, programHeaderTable, sectionHeaderTable, symbolTable }

theorem exists_prefix (h : 6 ≤ file.length) :
    ∃ a b c d e f rest, file = a :: b :: c :: d :: e :: f :: rest := by
  match file, h with
  | a :: b :: c :: d :: e :: f :: rest, _ => exact ⟨a, b, c, d, e, f, rest, rfl⟩

theorem class_check (is32Bit : Bool) (P : Nat → Prop) [DecidablePred P] :
    ((is32Bit && decide (P 0x34) || !is32Bit && decide (P 0x40)) = true)
      ↔ P (if is32Bit then 0x34 else 0x40) := by
  cases is32Bit with
  | true => simp
  | false => simp

theorem new_checks (mode : Overflow) (h : 6 ≤ file.length) : ParsedElf.new mode file
    = if file.take 4 = [0x7F, 0x45, 0x4c, 0x46] then
        if (Format.ofFile file).ehdrSize ≤ file.length then
          if ((Format.ofFile file).ehdr file).eEhsize = (Format.ofFile file).ehdrSize then
            parseTables mode file (Format.ofFile file) ((Format.ofFile file).ehdr file)
          else fail .malformedConfig
        else fail .malformedConfig
      else fail .malformedConfig := by
  have hehdr := parseEhdr_eq (Format.ofFile file) file
  obtain ⟨a, b, c, d, e, f, rest, rfl⟩ := exists_prefix h
  generalize hfile : a :: b :: c :: d :: e :: f :: rest = file at *
  have h0 : (Slices.index file 0 : DandelionResult UInt8) = .ok a := by rw [← hfile]; rfl
  have h1 : (Slices.index file 1 : DandelionResult UInt8) = .ok b := by rw [← hfile]; rfl
  have h2 : (Slices.index file 2 : DandelionResult UInt8) = .ok c := by rw [← hfile]; rfl
  have h3 : (Slices.index file 3 : DandelionResult UInt8) = .ok d := by rw [← hfile]; rfl
  have h4 : (Slices.index file 4 : DandelionResult UInt8) = .ok e := by rw [← hfile]; rfl
  have h5 : (Slices.index file 5 : DandelionResult UInt8) = .ok f := by rw [← hfile]; rfl
  have htake : file.take 4 = [a, b, c, d] := by rw [← hfile]; rfl
  have hformat : Format.ofFile file = ⟨f == 1, e == 1⟩ := by rw [← hfile]; rfl
  have hfuncs : (Format.ofFile file).funcs = ParsedElf.parserFuncs (f == 1) (e == 1) := by
    rw [hformat]; rfl
  have hclass : (Format.ofFile file).ehdrSize = if (e == 1) = true then 0x34 else 0x40 := by
    rw [hformat]; rfl
  rw [hfuncs] at hehdr
  unfold ParsedElf.new
  rw [if_neg (Nat.not_lt_of_le h)]
  simp only [h0, h1, h2, h3, h4, h5, ok_bind]
  by_cases hmagic : file.take 4 = [0x7F, 0x45, 0x4c, 0x46]
  · rw [if_pos hmagic]
    rw [htake] at hmagic
    cases hmagic
    rw [if_neg (by decide)]
    have hlong := class_check (e == 1) fun size => file.length < size
    have hsame := class_check (e == 1) fun size => ((Format.ofFile file).ehdr file).eEhsize ≠ size
    rw [← hclass] at hlong hsame
    by_cases hsize : (Format.ofFile file).ehdrSize ≤ file.length
    · rw [if_pos hsize, if_neg fun hshort => Nat.not_lt_of_le hsize (hlong.mp hshort), hehdr hsize,
        ok_bind]
      by_cases hehsize : ((Format.ofFile file).ehdr file).eEhsize = (Format.ofFile file).ehdrSize
      · rw [if_pos hehsize, if_neg fun hother => hsame.mp hother hehsize, ← hfuncs]
        unfold parseTables
        rw [hformat]
      · rw [if_neg hehsize, if_pos (hsame.mpr hehsize)]
        rfl
    · rw [if_neg hsize, if_pos (hlong.mpr (Nat.lt_of_not_le hsize))]
      rfl
  · rw [if_neg hmagic]
    rw [htake] at hmagic
    have hbytes : (decide (a ≠ 0x7F) || decide (b ≠ 0x45) || decide (c ≠ 0x4c) || decide (d ≠ 0x46))
        = true := by
      by_contra hsame
      apply hmagic
      simp only [Bool.or_eq_true, decide_eq_true_eq, not_or, not_not] at hsame
      obtain ⟨⟨⟨rfl, rfl⟩, rfl⟩, rfl⟩ := hsame
      rfl
    rw [if_pos hbytes]
    rfl

theorem new_of_headed (mode : Overflow) (h : Headed file) : ParsedElf.new mode file
    = parseTables mode file (Format.ofFile file) ((Format.ofFile file).ehdr file) := by
  rw [new_checks mode h.six_le, if_pos h.magic, if_pos h.size_le, if_pos h.ehsize]

theorem new_of_not_headed (mode : Overflow) (h : ¬ Headed file) :
    ParsedElf.new mode file = fail .malformedConfig := by
  by_cases hsix : 6 ≤ file.length
  · rw [new_checks mode hsix]
    split_ifs with hmagic hsize hehsize
    · exact absurd ⟨hsix, hmagic, hsize, hehsize⟩ h
    · rfl
    · rfl
    · rfl
  · unfold ParsedElf.new
    rw [if_pos (Nat.lt_of_not_le hsix)]
    rfl

end File

end Dandelion.ElfParser
