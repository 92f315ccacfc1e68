import Dandelion.ElfPanics

/-!
# Symbol lookup

`get_symbol_by_name` takes the first occurrence of the name in a string table for the name of a
symbol, and finds the string table by the first occurrence of `.strtab` in the section names. Here
this is compared with the symbols whose name, up to its null, is the one that is looked for.
-/

open Outcome Substrings

namespace Dandelion.ElfParser

/-! ## Names of symbols -/

/-- The string at the place, up to a null, is the name. -/
def NamedAt (text : List UInt8) (place : Nat) (name : String) : Prop :=
  (Bson.utf8Bytes name ++ [0]) <+: text.drop place

instance (text : List UInt8) (place : Nat) (name : String) : Decidable (NamedAt text place name) :=
  inferInstanceAs (Decidable (_ <+: _))

/-- A section of text in the file. -/
structure IsText (file : List UInt8) (stringSection : ElfShdr) : Prop where
  inside : TextHarmless file stringSection
  utf8 : IsUtf8 (sectionBytes file stringSection)

/-- The sections have names, and one of them is the string table of the symbols. -/
structure HasStrtab (parsed : ParsedElf) (file : List UInt8) (sectionNames strtab : ElfShdr) : Prop where
  names : parsed.sectionHeaderTable[parsed.ehdr.eShstrndx]? = some sectionNames
  names_text : IsText file sectionNames
  mem : strtab ∈ parsed.sectionHeaderTable
  type : strtab.shType = shtStrtab
  named : NamedAt (sectionBytes file sectionNames) strtab.shName ".strtab"
  text : IsText file strtab

def HasName (parsed : ParsedElf) (file : List UInt8) (strtab : ElfShdr) (name : String)
    (sym : ElfSym) : Prop :=
  sym ∈ parsed.symbolTable ∧ NamedAt (sectionBytes file strtab) sym.stName name

/-- The lookup returns the value and the size of a symbol of the name, if there is one. -/
structure ExactLookup (mode : Overflow) (parsed : ParsedElf) (file : List UInt8) (strtab : ElfShdr)
    (name : String) : Prop where
  found : (∃ found, parsed.getSymbolByName mode file name = .ok found)
    ↔ ∃ sym, HasName parsed file strtab name sym
  value : ∀ found, parsed.getSymbolByName mode file name = .ok found →
    ∃ sym, HasName parsed file strtab name sym ∧ found = (sym.stValue, sym.stSize)

/-! ## First occurrences -/

section Lookup

variable {mode : Overflow} {parsed : ParsedElf} {file : List UInt8} {sectionNames strtab : ElfShdr}
  {name : String}

/-- The first string table whose name is where `.strtab` first occurs in the section names. -/
structure FirstStrtab (sections : List ElfShdr) (file : List UInt8) (sectionNames table : ElfShdr) :
    Prop where
  first : ∃ place, FirstAt (sectionBytes file sectionNames) (Bson.utf8Bytes ".strtab") place
    ∧ sections.find? (fun x => x.shType == shtStrtab && x.shName == place) = some table
  text : IsText file table

/-- Where the name first occurs in that table. -/
def FirstPlace (sections : List ElfShdr) (file : List UInt8) (sectionNames : ElfShdr) (name : String)
    (place : Nat) : Prop :=
  ∃ table, FirstStrtab sections file sectionNames table
    ∧ FirstAt (sectionBytes file table) (Bson.utf8Bytes name) place

/-- If symbols start where the name first occurs, then the name stands there as a whole, and they do
if the name stands anywhere as a whole where symbols start. -/
structure FirstNamed (parsed : ParsedElf) (file : List UInt8) (sectionNames strtab : ElfShdr)
    (name : String) : Prop where
  whole : ∀ place, FirstPlace parsed.sectionHeaderTable file sectionNames name place →
    (∃ sym ∈ parsed.symbolTable, sym.stName = place) → NamedAt (sectionBytes file strtab) place name
  reached : (∃ sym, HasName parsed file strtab name sym) →
    ∃ place, FirstPlace parsed.sectionHeaderTable file sectionNames name place
      ∧ ∃ sym ∈ parsed.symbolTable, sym.stName = place

/-- The fields of a section header that are added up have 64 bits. -/
def SectionsSized (parsed : ParsedElf) : Prop :=
  ∀ header ∈ parsed.sectionHeaderTable,
    header.shOffset < Usize.limit ∧ header.shSize < Usize.limit

theorem sectionText_of_isText {stringSection : ElfShdr} (h : IsText file stringSection) :
    ParsedElf.sectionText mode file stringSection = .ok (sectionBytes file stringSection) := by
  rw [sectionText_eq mode stringSection h.inside, if_pos h.utf8]

/-- Only text can be read: an end that wraps around is before the start. -/
theorem isText_of_sectionText {stringSection : ElfShdr} {text : List UInt8}
    (hoffset : stringSection.shOffset < Usize.limit) (hsize : stringSection.shSize < Usize.limit)
    (h : ParsedElf.sectionText mode file stringSection = .ok text) :
    IsText file stringSection ∧ text = sectionBytes file stringSection := by
  have hinside : TextHarmless file stringSection := by
    rw [ParsedElf.sectionText] at h
    obtain ⟨stop, hstop, h⟩ := (bind_eq_ok_iff _ _ _).mp h
    obtain ⟨bytes, hbytes, -⟩ := (bind_eq_ok_iff _ _ _).mp h
    obtain ⟨hle, hlength⟩ := Slices.range_inside hbytes
    obtain ⟨hlt, rfl⟩ := Usize.add_eq_of_le hoffset hsize hle hstop
    exact ⟨hlt, hlength⟩
  rw [sectionText_eq mode stringSection hinside] at h
  split at h <;> cases h
  next hutf8 => exact ⟨⟨hinside, hutf8⟩, rfl⟩

theorem getSymbolByName_ok_iff
    (hnames : parsed.sectionHeaderTable[parsed.ehdr.eShstrndx]? = some sectionNames)
    (htext : IsText file sectionNames) (hsized : SectionsSized parsed) (found : Nat × Nat) :
    parsed.getSymbolByName mode file name = .ok found
      ↔ ∃ place sym, FirstPlace parsed.sectionHeaderTable file sectionNames name place
        ∧ parsed.symbolTable.find? (fun x => x.stName == place) = some sym
        ∧ found = (sym.stValue, sym.stSize) := by
  unfold ParsedElf.getSymbolByName
  rw [Slices.index_eq_ok hnames, ok_bind, sectionText_of_isText htext, ok_bind]
  constructor
  · intro h
    split at h
    · cases h
    · next start hstart =>
      split at h
      · cases h
      · next table htable =>
        obtain ⟨text, hsection, h⟩ := (bind_eq_ok_iff _ _ _).mp h
        obtain ⟨hoffset, hsize⟩ := hsized table (List.mem_of_find?_eq_some htable)
        obtain ⟨hisText, rfl⟩ := isText_of_sectionText hoffset hsize hsection
        split at h
        · cases h
        · next place hname =>
          split at h
          · next sym hsym =>
            cases h
            exact ⟨place, sym, ⟨table, ⟨⟨start, find_eq_some_iff.mp hstart, htable⟩, hisText⟩,
              find_eq_some_iff.mp hname⟩, hsym, rfl⟩
          · cases h
  · rintro ⟨place, sym, ⟨table, ⟨⟨start, hstart, htable⟩, hisText⟩, hname⟩, hsym, rfl⟩
    rw [find_eq_some_iff.mpr hstart]
    dsimp only
    rw [htable]
    dsimp only
    rw [sectionText_of_isText hisText, ok_bind, find_eq_some_iff.mpr hname]
    dsimp only
    rw [hsym]
    rfl

theorem stName_of_find? {symbols : List ElfSym} {place : Nat} {sym : ElfSym}
    (h : symbols.find? (fun x => x.stName == place) = some sym) : sym ∈ symbols ∧ sym.stName = place :=
  ⟨List.mem_of_find?_eq_some h, by simpa using List.find?_some h⟩

theorem exists_find?_of_stName {symbols : List ElfSym} {place : Nat}
    (h : ∃ sym ∈ symbols, sym.stName = place) :
    ∃ sym, symbols.find? (fun x => x.stName == place) = some sym := by
  rw [← Option.isSome_iff_exists, List.find?_isSome]
  obtain ⟨sym, hmem, hname⟩ := h
  exact ⟨sym, hmem, by simpa using hname⟩

theorem FirstNamed.exactLookup (hstrtab : HasStrtab parsed file sectionNames strtab)
    (hsized : SectionsSized parsed) (h : FirstNamed parsed file sectionNames strtab name) :
    ExactLookup mode parsed file strtab name := by
  have hok := @getSymbolByName_ok_iff mode parsed file sectionNames name hstrtab.names
    hstrtab.names_text hsized
  have hvalue : ∀ found, parsed.getSymbolByName mode file name = .ok found →
      ∃ sym, HasName parsed file strtab name sym ∧ found = (sym.stValue, sym.stSize) := by
    intro found hget
    obtain ⟨place, sym, hplace, hsym, rfl⟩ := (hok found).mp hget
    obtain ⟨hmem, hname⟩ := stName_of_find? hsym
    exact ⟨sym, ⟨hmem, hname ▸ h.whole place hplace ⟨sym, hmem, hname⟩⟩, rfl⟩
  refine ⟨⟨fun ⟨found, hget⟩ => ?_, fun hnamed => ?_⟩, hvalue⟩
  · obtain ⟨sym, hnamed, -⟩ := hvalue found hget
    exact ⟨sym, hnamed⟩
  · obtain ⟨place, hplace, hstarts⟩ := h.reached hnamed
    obtain ⟨sym, hsym⟩ := exists_find?_of_stName hstarts
    exact ⟨_, (hok _).mpr ⟨place, sym, hplace, hsym, rfl⟩⟩

theorem FirstNamed.of_names (h : FirstNamed parsed file sectionNames strtab name) {symbols : List ElfSym}
    (hnames : symbols.map ElfSym.stName = parsed.symbolTable.map ElfSym.stName) :
    FirstNamed { parsed with symbolTable := symbols } file sectionNames strtab name := by
  have hiff : ∀ place, (∃ sym ∈ symbols, sym.stName = place)
      ↔ ∃ sym ∈ parsed.symbolTable, sym.stName = place := by
    intro place
    rw [← List.mem_map, hnames, List.mem_map]
  refine ⟨fun place hplace hstarts => h.whole place hplace ((hiff place).mp hstarts), ?_⟩
  rintro ⟨sym, hmem, hnamed⟩
  obtain ⟨sym', hmem', heq⟩ := (hiff sym.stName).mp ⟨sym, hmem, rfl⟩
  obtain ⟨place, hplace, hstarts⟩ := h.reached ⟨sym', hmem', heq ▸ hnamed⟩
  exact ⟨place, hplace, (hiff place).mpr hstarts⟩

/-- The lookup is exact, whatever the values and sizes of the symbols are, if and only if the name
stands as a whole where it first occurs. -/
theorem exactLookup_iff (h : HasStrtab parsed file sectionNames strtab) (hsized : SectionsSized parsed) :
    (∀ symbols : List ElfSym, symbols.map ElfSym.stName = parsed.symbolTable.map ElfSym.stName →
      ExactLookup mode { parsed with symbolTable := symbols } file strtab name)
      ↔ FirstNamed parsed file sectionNames strtab name := by
  have hwith (symbols : List ElfSym) :
      HasStrtab { parsed with symbolTable := symbols } file sectionNames strtab :=
    ⟨h.names, h.names_text, h.mem, h.type, h.named, h.text⟩
  constructor
  · intro hexact
    refine ⟨fun place hplace hstarts => ?_, fun hnamed => ?_⟩
    · -- each symbol has its own name for a value, so that the value tells which name was found
      let coded := parsed.symbolTable.map fun sym => { sym with stValue := sym.stName }
      have hcoded : coded.map ElfSym.stName = parsed.symbolTable.map ElfSym.stName := by
        rw [List.map_map]
        rfl
      have hvalue : ∀ sym ∈ coded, sym.stValue = sym.stName := by
        intro sym hsym
        obtain ⟨original, -, rfl⟩ := List.mem_map.mp hsym
        rfl
      obtain ⟨sym, hsym⟩ : ∃ sym, coded.find? (fun x => x.stName == place) = some sym := by
        refine exists_find?_of_stName ?_
        rw [← List.mem_map, hcoded, List.mem_map]
        exact hstarts
      obtain ⟨hmem, hname⟩ := stName_of_find? hsym
      obtain ⟨named, ⟨hnamedMem, hnamed⟩, heq⟩ := (hexact coded hcoded).value (sym.stValue, sym.stSize)
        ((getSymbolByName_ok_iff (hwith coded).names h.names_text hsized _).mpr
          ⟨place, sym, hplace, hsym, rfl⟩)
      have hsame : sym.stValue = named.stValue := (Prod.mk.inj heq).1
      rw [hvalue sym hmem, hvalue named hnamedMem, hname] at hsame
      rw [hsame]
      exact hnamed
    · obtain ⟨found, hget⟩ := (hexact parsed.symbolTable rfl).found.mpr hnamed
      obtain ⟨place, sym, hplace, hsym, -⟩ :=
        (getSymbolByName_ok_iff h.names h.names_text hsized found).mp hget
      exact ⟨place, hplace, sym, stName_of_find? hsym⟩
  · intro hfirst symbols hnames
    exact (hfirst.of_names hnames).exactLookup (hwith symbols) hsized

/-- A string table that is the first of its name, and where the name is first found as the whole
string of a symbol. -/
theorem firstNamed_of_whole
    (hfirst : FirstAt (sectionBytes file sectionNames) (Bson.utf8Bytes ".strtab") strtab.shName)
    (htable : parsed.sectionHeaderTable.find?
        (fun x => x.shType == shtStrtab && x.shName == strtab.shName) = some strtab)
    (htext : IsText file strtab)
    (hwhole : ∀ place, FirstAt (sectionBytes file strtab) (Bson.utf8Bytes name) place →
      ∃ sym, HasName parsed file strtab name sym ∧ sym.stName = place)
    (hfound : (∃ sym, HasName parsed file strtab name sym) →
      ∃ place, FirstAt (sectionBytes file strtab) (Bson.utf8Bytes name) place) :
    FirstNamed parsed file sectionNames strtab name := by
  constructor
  · rintro place ⟨table, ⟨⟨start, hstart, htable'⟩, -⟩, hname⟩ -
    rw [hstart.unique hfirst, htable] at htable'
    cases htable'
    obtain ⟨sym, ⟨-, hnamed⟩, rfl⟩ := hwhole place hname
    exact hnamed
  · intro hnamed
    obtain ⟨place, hname⟩ := hfound hnamed
    obtain ⟨sym, ⟨hmem, -⟩, hplace⟩ := hwhole place hname
    exact ⟨place, ⟨strtab, ⟨⟨_, hfirst, htable⟩, htext⟩, hname⟩, sym, hmem, hplace⟩

end Lookup

/-! ## A file -/

/-- Two symbols, `domain` and `main`. -/
def symbolsElf : List UInt8 :=
  [0x7F, 0x45, 0x4c, 0x46, 1, 1, 1, 0, 0, 0, 0, 0, 0, 0, 0, 0,
    2, 0, 3, 0, 1, 0, 0, 0, 0, 0, 0, 0, 0, 0, 0, 0, 52, 0, 0, 0, 0, 0, 0, 0,
    52, 0, 32, 0, 0, 0, 40, 0, 3, 0, 0, 0,
    9, 0, 0, 0, 3, 0, 0, 0, 0, 0, 0, 0, 0, 0, 0, 0, 172, 0, 0, 0, 27, 0, 0, 0,
    0, 0, 0, 0, 0, 0, 0, 0, 0, 0, 0, 0, 0, 0, 0, 0,
    1, 0, 0, 0, 3, 0, 0, 0, 0, 0, 0, 0, 0, 0, 0, 0, 199, 0, 0, 0, 13, 0, 0, 0,
    0, 0, 0, 0, 0, 0, 0, 0, 0, 0, 0, 0, 0, 0, 0, 0,
    19, 0, 0, 0, 2, 0, 0, 0, 0, 0, 0, 0, 0, 0, 0, 0, 212, 0, 0, 0, 32, 0, 0, 0,
    0, 0, 0, 0, 0, 0, 0, 0, 0, 0, 0, 0, 16, 0, 0, 0]
    ++ Bson.utf8Bytes "\x00.strtab\x00.shstrtab\x00.symtab\x00"
    ++ Bson.utf8Bytes "\x00domain\x00main\x00"
    ++ [1, 0, 0, 0, 0, 16, 0, 0, 16, 0, 0, 0, 0, 0, 0, 0,
      8, 0, 0, 0, 0, 32, 0, 0, 32, 0, 0, 0, 0, 0, 0, 0]

def symbolsNames : ElfShdr := ⟨9, 3, 0, 0, 172, 27, 0, 0, 0, 0⟩

def symbolsStrtab : ElfShdr := ⟨1, 3, 0, 0, 199, 13, 0, 0, 0, 0⟩

def symbolsParsed : ParsedElf where
  ehdr := ⟨2, 3, 1, 0, 0, 52, 0, 52, 32, 0, 40, 3, 0⟩
  programHeaderTable := []
  sectionHeaderTable := [symbolsNames, symbolsStrtab, ⟨19, 2, 0, 0, 212, 32, 0, 0, 0, 16⟩]
  symbolTable := [⟨1, 0x1000, 16, 0, 0, 0⟩, ⟨8, 0x2000, 32, 0, 0, 0⟩]

theorem symbolsElf_hasStrtab : HasStrtab symbolsParsed symbolsElf symbolsNames symbolsStrtab where
  names := rfl
  names_text := ⟨by unfold TextHarmless; decide +kernel, by decide +kernel⟩
  mem := by decide
  type := rfl
  named := by decide +kernel
  text := ⟨by unfold TextHarmless; decide +kernel, by decide +kernel⟩

theorem symbolsElf_domain_first : FirstAt (sectionBytes symbolsElf symbolsStrtab)
    (Bson.utf8Bytes "domain") 1 :=
  find_eq_some_iff.mp (by decide +kernel)

theorem symbolsElf_sized : SectionsSized symbolsParsed := by
  unfold SectionsSized
  decide

theorem domain_found : HasStrtab symbolsParsed symbolsElf symbolsNames symbolsStrtab
    ∧ ∀ symbols : List ElfSym, symbols.map ElfSym.stName = [1, 8] →
      ExactLookup .checked { symbolsParsed with symbolTable := symbols } symbolsElf symbolsStrtab
        "domain" := by
  refine ⟨symbolsElf_hasStrtab, (exactLookup_iff symbolsElf_hasStrtab symbolsElf_sized).mpr
    (firstNamed_of_whole (find_eq_some_iff.mp (by decide +kernel)) (by decide)
      symbolsElf_hasStrtab.text (fun place hplace => ?_) (fun _ => ⟨1, symbolsElf_domain_first⟩))⟩
  rw [← symbolsElf_domain_first.unique hplace]
  exact ⟨⟨1, 0x1000, 16, 0, 0, 0⟩, ⟨by decide, by decide +kernel⟩, rfl⟩

/-- The name `main` is first found inside of `domain`, where no symbol starts. -/
theorem main_missed : ParsedElf.new .checked symbolsElf = .ok symbolsParsed
    ∧ HasStrtab symbolsParsed symbolsElf symbolsNames symbolsStrtab
    ∧ ¬ ExactLookup .checked symbolsParsed symbolsElf symbolsStrtab "main"
    ∧ ¬ ExactLookup .wrapping symbolsParsed symbolsElf symbolsStrtab "main" := by
  have hnamed : HasName symbolsParsed symbolsElf symbolsStrtab "main" ⟨8, 0x2000, 32, 0, 0, 0⟩ :=
    ⟨by decide, by decide +kernel⟩
  have hmissed (mode : Overflow)
      (hget : symbolsParsed.getSymbolByName mode symbolsElf "main" = fail .malformedConfig) :
      ¬ ExactLookup mode symbolsParsed symbolsElf symbolsStrtab "main" := by
    intro hexact
    obtain ⟨found, hfound⟩ := hexact.found.mpr ⟨_, hnamed⟩
    rw [hget] at hfound
    cases hfound
  exact ⟨by decide +kernel, symbolsElf_hasStrtab, hmissed .checked (by decide +kernel),
    hmissed .wrapping (by decide +kernel)⟩

end Dandelion.ElfParser
