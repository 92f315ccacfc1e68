import Dandelion.ElfTables

/-!
# Decoding ELF tables

For files of both classes and both byte orders whose tables are inside the file: `ParsedElf::new`
returns what stands at the places of the entries, as long as the sizes of the header tables fit
16 bits, and it returns the headers and symbols that a file is the image of.
-/

open Outcome

namespace Dandelion.ElfParser

/-! ## The parsed tables -/

section Decoded

variable (file : List UInt8)

def phdrsOf : List ElfPhdr :=
  let format := Format.ofFile file
  let ehdr := format.ehdr file
  tableOf (format.phdrAt file) ehdr.ePhoff ehdr.ePhentsize ehdr.ePhnum

def shdrsOf : List ElfShdr :=
  let format := Format.ofFile file
  let ehdr := format.ehdr file
  tableOf (format.shdrAt file) ehdr.eShoff ehdr.eShentsize ehdr.eShnum

def symbolsOf (symtab : ElfShdr) : List ElfSym :=
  tableOf ((Format.ofFile file).symAt file) symtab.shOffset symtab.shEntsize
    (symtab.shSize / symtab.shEntsize)

/-- Everything decoded from where the header says it is. -/
def decoded : ParsedElf where
  ehdr := (Format.ofFile file).ehdr file
  programHeaderTable := phdrsOf file
  sectionHeaderTable := shdrsOf file
  symbolTable := ((symtabOf (shdrsOf file)).map (symbolsOf file)).getD []

theorem decoded_programHeaderTable : (decoded file).programHeaderTable = phdrsOf file := rfl

/-- A section of whole symbols inside the file. -/
structure SymbolsInside (symtab : ElfShdr) : Prop where
  entsize : symtab.shEntsize = (Format.ofFile file).symSize
  whole : symtab.shEntsize ∣ symtab.shSize
  inside : symtab.shOffset + symtab.shSize ≤ file.length

/-- The header announces tables with entries of the standard size, which are inside the file. -/
structure TablesInside : Prop where
  headed : Headed file
  vec : file.length ≤ Usize.isizeMax
  phentsize : ((Format.ofFile file).ehdr file).ePhentsize = (Format.ofFile file).phdrSize
  phdrs : ((Format.ofFile file).ehdr file).ePhoff
    + ((Format.ofFile file).ehdr file).ePhnum * ((Format.ofFile file).ehdr file).ePhentsize
      ≤ file.length
  shentsize : ((Format.ofFile file).ehdr file).eShentsize = (Format.ofFile file).shdrSize
  shdrs : ((Format.ofFile file).ehdr file).eShoff
    + ((Format.ofFile file).ehdr file).eShnum * ((Format.ofFile file).ehdr file).eShentsize
      ≤ file.length
  symbols : ∃ symtab, symtabOf (shdrsOf file) = some symtab ∧ SymbolsInside file symtab

/-- The sizes of the header tables fit 16 bits. -/
def SizesFit : Prop :=
  let ehdr := (Format.ofFile file).ehdr file
  ehdr.ePhnum * ehdr.ePhentsize < 2 ^ 16 ∧ ehdr.eShnum * ehdr.eShentsize < 2 ^ 16

end Decoded

theorem Format.symSize_pos (format : Format) : 0 < format.symSize := by
  unfold Format.symSize
  split_ifs <;> decide

/-- The entries of a table that ends inside the file are inside the file. -/
theorem inFile_of_end {file : List UInt8} {size start num : Nat}
    (h : start + num * size ≤ file.length) : InFile file size start size num := by
  intro i hi
  have := Nat.mul_le_mul_right size (show i + 1 ≤ num from hi)
  rw [Nat.add_mul, Nat.one_mul] at this
  omega

section New

variable {file : List UInt8}

theorem parsePhdrTable_decoded (mode : Overflow) (h : TablesInside file) (hfit : SizesFit file) :
    parsePhdrTable mode file (Format.ofFile file).funcs ((Format.ofFile file).ehdr file)
      (Format.ofFile file).is32Bit = .ok (phdrsOf file) := by
  have hvec := h.vec
  have hend := h.phdrs
  have hbounded : Bounded ((Format.ofFile file).ehdr file).ePhoff
      ((Format.ofFile file).ehdr file).ePhentsize ((Format.ofFile file).ehdr file).ePhnum := by
    refine ⟨hfit.1, ?_⟩
    unfold Usize.isizeMax at hvec
    unfold Usize.limit
    omega
  refine parseTable_eq_ok mode (readsAt_parsePhdr _ file) hbounded hend ?_
  rw [h.phentsize] at hend ⊢
  exact inFile_of_end hend

theorem parseShrdTable_decoded (mode : Overflow) (h : TablesInside file) (hfit : SizesFit file) :
    parseShrdTable mode file (Format.ofFile file).funcs ((Format.ofFile file).ehdr file)
      = .ok (shdrsOf file) := by
  have hvec := h.vec
  have hend := h.shdrs
  have hbounded : Bounded ((Format.ofFile file).ehdr file).eShoff
      ((Format.ofFile file).ehdr file).eShentsize ((Format.ofFile file).ehdr file).eShnum := by
    refine ⟨hfit.2, ?_⟩
    unfold Usize.isizeMax at hvec
    unfold Usize.limit
    omega
  refine parseTable_eq_ok mode (readsAt_parseShdr _ file) hbounded hend ?_
  rw [h.shentsize] at hend ⊢
  exact inFile_of_end hend

theorem parseSymbolTable_decoded (mode : Overflow) (h : TablesInside file) :
    parseSymbolTable mode file (Format.ofFile file).funcs (shdrsOf file)
      (Format.ofFile file).is32Bit = .ok (decoded file).symbolTable := by
  have hvec := h.vec
  obtain ⟨symtab, hsymtab, hsize, hwhole, hinside⟩ := h.symbols
  have hpos := (Format.ofFile file).symSize_pos
  have hend : symtab.shOffset + symtab.shSize < Usize.limit := by
    unfold Usize.isizeMax at hvec
    unfold Usize.limit
    omega
  have hentries : WholeEntries symtab := ⟨by omega, hwhole⟩
  have hdiv := Nat.div_mul_cancel hwhole
  rw [parseSymbolTable_eq_ok hsymtab hend mode hentries (Or.inl (Nat.le_of_eq hsize.symm))]
  · rw [decoded, hsymtab]
    rfl
  · rw [← hsize]
    apply inFile_of_end
    rwa [hdiv]

theorem new_decoded (mode : Overflow) (h : TablesInside file) (hfit : SizesFit file) :
    ParsedElf.new mode file = .ok (decoded file) := by
  rw [new_of_headed mode h.headed, parseTables, parsePhdrTable_decoded mode h hfit, ok_bind,
    parseShrdTable_decoded mode h hfit, ok_bind, parseSymbolTable_decoded mode h]
  rfl

theorem phdrs_of_new {mode : Overflow} {parsed : ParsedElf} (h : Headed file)
    (hok : ParsedElf.new mode file = .ok parsed) :
    parsePhdrTable mode file (Format.ofFile file).funcs ((Format.ofFile file).ehdr file)
      (Format.ofFile file).is32Bit = .ok parsed.programHeaderTable := by
  rw [new_of_headed mode h] at hok
  obtain ⟨phdrs, hphdrs, hok⟩ := (bind_eq_ok_iff _ _ _).mp hok
  obtain ⟨shdrs, -, hok⟩ := (bind_eq_ok_iff _ _ _).mp hok
  obtain ⟨symbols, -, hok⟩ := (bind_eq_ok_iff _ _ _).mp hok
  cases hok
  exact hphdrs

/-- An entry whose place wraps around 16 bits is read from another place. -/
theorem wrapped_entry {α : Type} {entry : FieldParser α} {size start entsize num i : Nat}
    {value : Nat → α} {table : List α} (hread : ReadsAt file entry size value) (hi : i < num)
    (hplace : start + i * entsize % 2 ^ 16 < Usize.limit)
    (hok : parseTable .wrapping file start entsize num entry = .ok table) :
    table[i]? = some (value (start + i * entsize % 2 ^ 16)) := by
  unfold parseTable at hok
  obtain ⟨_, -, hok⟩ := (bind_eq_ok_iff _ _ _).mp hok
  obtain ⟨stop, -, hok⟩ := (bind_eq_ok_iff _ _ _).mp hok
  split_ifs at hok with hend
  · cases hok
  · obtain ⟨b, hb, hentry⟩ := mapM_ok_getElem? hok (List.getElem?_range hi)
    rw [show mulHalf .wrapping i entsize = .ok (i * entsize % 2 ^ 16) from rfl, ok_bind,
      Usize.add_of_lt .wrapping hplace, ok_bind, hread.run'] at hentry
    split_ifs at hentry
    · cases hentry
      exact hb
    · cases hentry

/-- With overflow checks, a header table whose size does not fit panics. -/
theorem new_overflow (h : Headed file) (hfit : ¬ SizesFit file) (parsed : ParsedElf) :
    ParsedElf.new .checked file ≠ .ok parsed := by
  rw [new_of_headed .checked h]
  intro hok
  obtain ⟨phdrs, hphdrs, hok⟩ := (bind_eq_ok_iff _ _ _).mp hok
  obtain ⟨shdrs, hshdrs, -⟩ := (bind_eq_ok_iff _ _ _).mp hok
  apply hfit
  constructor
  · by_contra hlarge
    rw [parsePhdrTable, parseTable_overflow fun hbounded => hlarge hbounded.1] at hphdrs
    cases hphdrs
  · by_contra hlarge
    rw [parseShrdTable, parseTable_overflow fun hbounded => hlarge hbounded.1] at hshdrs
    cases hshdrs

end New

/-! ## Images -/

namespace Format

variable (format : Format)

def encode (size value : Nat) : List UInt8 :=
  if format.littleEndian then Bson.leBytes size value else (Bson.leBytes size value).reverse

/-- The sizes and the values of the fields, in the order of the class. -/
def ehdrFields (ehdr : ElfEhdr) : List (Nat × Nat) :=
  [(2, ehdr.eType), (2, ehdr.eMachine), (4, ehdr.eVersion), (format.wide, ehdr.eEntry),
    (format.wide, ehdr.ePhoff), (format.wide, ehdr.eShoff), (4, ehdr.eFlags), (2, ehdr.eEhsize),
    (2, ehdr.ePhentsize), (2, ehdr.ePhnum), (2, ehdr.eShentsize), (2, ehdr.eShnum),
    (2, ehdr.eShstrndx)]

def phdrFields (phdr : ElfPhdr) : List (Nat × Nat) :=
  if format.is32Bit then
    [(4, phdr.pType), (4, phdr.pOffset), (4, phdr.pVaddr), (4, phdr.pPaddr), (4, phdr.pFilesz),
      (4, phdr.pMemsz), (4, phdr.pFlags), (4, phdr.pAlign)]
  else
    [(4, phdr.pType), (4, phdr.pFlags), (8, phdr.pOffset), (8, phdr.pVaddr), (8, phdr.pPaddr),
      (8, phdr.pFilesz), (8, phdr.pMemsz), (8, phdr.pAlign)]

def shdrFields (shdr : ElfShdr) : List (Nat × Nat) :=
  [(4, shdr.shName), (4, shdr.shType), (format.wide, shdr.shFlags), (format.wide, shdr.shAddr),
    (format.wide, shdr.shOffset), (format.wide, shdr.shSize), (4, shdr.shLink), (4, shdr.shInfo),
    (format.wide, shdr.shAddralign), (format.wide, shdr.shEntsize)]

def symFields (sym : ElfSym) : List (Nat × Nat) :=
  if format.is32Bit then
    [(4, sym.stName), (4, sym.stValue), (4, sym.stSize), (1, sym.stInfo), (1, sym.stOther),
      (2, sym.stShndx)]
  else
    [(4, sym.stName), (1, sym.stInfo), (1, sym.stOther), (2, sym.stShndx), (8, sym.stValue),
      (8, sym.stSize)]

/-- The file has the fields, one after the other, from the offset on. -/
def Holds (file : List UInt8) (offset : Nat) (fields : List (Nat × Nat)) : Prop :=
  (fields.flatMap fun f => format.encode f.1 f.2) <+: file.drop offset
    ∧ ∀ f ∈ fields, f.2 < 256 ^ f.1

variable {format : Format} {file : List UInt8} {offset size value : Nat}

@[simp] theorem length_encode : (format.encode size value).length = size := by
  unfold encode
  split_ifs <;> simp

theorem field_encode (hvalue : value < 256 ^ size)
    (h : (file.drop offset).take size = format.encode size value) :
    format.field file offset size = value := by
  unfold field
  rw [h, encode]
  split_ifs with hlittle
  · exact Bson.ofLeBytes_leBytes_of_lt hvalue
  · rw [fromBeBytes, List.reverse_reverse]
    exact Bson.ofLeBytes_leBytes_of_lt hvalue

theorem field_one : format.field file offset 1 = byte file offset := by
  unfold field byte
  rw [List.getD_eq_getElem?_getD, ← List.head?_drop]
  cases file.drop offset with
  | nil => split_ifs <;> rfl
  | cons b rest =>
    split_ifs
    · simp [fromLeBytes, Bson.ofLeBytes]
    · simp [fromBeBytes, Bson.ofLeBytes]

/-- The fields, each behind the one before it. -/
def Placed (format : Format) (file : List UInt8) : Nat → List (Nat × Nat) → Prop
  | _, [] => True
  | offset, (size, value) :: fields =>
    format.field file offset size = value ∧ Placed format file (offset + size) fields

theorem Holds.placed {fields : List (Nat × Nat)} (h : format.Holds file offset fields) :
    format.Placed file offset fields := by
  induction fields generalizing offset with
  | nil => trivial
  | cons f fields ih =>
    obtain ⟨hfront, hvalues⟩ := h
    rw [List.flatMap_cons] at hfront
    obtain ⟨rest, hrest⟩ := hfront
    rw [List.append_assoc] at hrest
    have htake : (file.drop offset).take f.1 = format.encode f.1 f.2 := by
      rw [← hrest]
      exact List.take_left' length_encode
    refine ⟨field_encode (hvalues _ List.mem_cons_self) htake, ih ⟨⟨rest, ?_⟩, ?_⟩⟩
    · rw [← List.drop_drop, ← hrest]
      exact (List.drop_left' length_encode).symm
    · exact fun f' hf => hvalues f' (List.mem_cons_of_mem _ hf)

theorem ehdr_of_holds {header : ElfEhdr} (h : format.Holds file 16 (format.ehdrFields header)) :
    format.ehdr file = header := by
  obtain ⟨h₁, h₂, h₃, h₄, h₅, h₆, h₇, h₈, h₉, h₁₀, h₁₁, h₁₂, h₁₃, -⟩ := h.placed
  unfold ehdr
  unfold wide at *
  cases hclass : format.is32Bit with
  | true =>
    rw [hclass] at h₄ h₅ h₆ h₇ h₈ h₉ h₁₀ h₁₁ h₁₂ h₁₃
    obtain ⟨_, _, _, _, _, _, _, _, _, _, _, _, _⟩ := header
    rw [ElfEhdr.mk.injEq]
    exact ⟨h₁, h₂, h₃, h₄, h₅, h₆, h₇, h₈, h₉, h₁₀, h₁₁, h₁₂, h₁₃⟩
  | false =>
    rw [hclass] at h₄ h₅ h₆ h₇ h₈ h₉ h₁₀ h₁₁ h₁₂ h₁₃
    obtain ⟨_, _, _, _, _, _, _, _, _, _, _, _, _⟩ := header
    rw [ElfEhdr.mk.injEq]
    exact ⟨h₁, h₂, h₃, h₄, h₅, h₆, h₇, h₈, h₉, h₁₀, h₁₁, h₁₂, h₁₃⟩

theorem phdrAt_of_holds {phdr : ElfPhdr} (h : format.Holds file offset (format.phdrFields phdr)) :
    format.phdrAt file offset = phdr := by
  obtain ⟨_, _, _, _, _, _, _, _⟩ := phdr
  unfold phdrFields at h
  unfold phdrAt
  split_ifs at h ⊢
  · obtain ⟨h₁, h₂, h₃, h₄, h₅, h₆, h₇, h₈, -⟩ := h.placed
    rw [ElfPhdr.mk.injEq]
    exact ⟨h₁, h₇, h₂, h₃, h₄, h₅, h₆, h₈⟩
  · obtain ⟨h₁, h₂, h₃, h₄, h₅, h₆, h₇, h₈, -⟩ := h.placed
    rw [ElfPhdr.mk.injEq]
    exact ⟨h₁, h₂, h₃, h₄, h₅, h₆, h₇, h₈⟩

theorem shdrAt_of_holds {shdr : ElfShdr} (h : format.Holds file offset (format.shdrFields shdr)) :
    format.shdrAt file offset = shdr := by
  obtain ⟨h₁, h₂, h₃, h₄, h₅, h₆, h₇, h₈, h₉, h₁₀, -⟩ := h.placed
  obtain ⟨_, _, _, _, _, _, _, _, _, _⟩ := shdr
  unfold shdrAt
  unfold wide at *
  cases hclass : format.is32Bit with
  | true =>
    rw [hclass] at h₃ h₄ h₅ h₆ h₇ h₈ h₉ h₁₀
    rw [ElfShdr.mk.injEq]
    exact ⟨h₁, h₂, h₃, h₄, h₅, h₆, h₇, h₈, h₉, h₁₀⟩
  | false =>
    rw [hclass] at h₃ h₄ h₅ h₆ h₇ h₈ h₉ h₁₀
    rw [ElfShdr.mk.injEq]
    exact ⟨h₁, h₂, h₃, h₄, h₅, h₆, h₇, h₈, h₉, h₁₀⟩

theorem symAt_of_holds {sym : ElfSym} (h : format.Holds file offset (format.symFields sym)) :
    format.symAt file offset = sym := by
  obtain ⟨_, _, _, _, _, _⟩ := sym
  unfold symFields at h
  unfold symAt
  split_ifs at h ⊢
  · obtain ⟨h₁, h₂, h₃, h₄, h₅, h₆, -⟩ := h.placed
    rw [field_one] at h₄ h₅
    rw [ElfSym.mk.injEq]
    exact ⟨h₁, h₂, h₃, h₄, h₅, h₆⟩
  · obtain ⟨h₁, h₂, h₃, h₄, h₅, h₆, -⟩ := h.placed
    rw [field_one] at h₂ h₃
    rw [ElfSym.mk.injEq]
    exact ⟨h₁, h₅, h₆, h₂, h₃, h₄⟩

end Format

/-- The file is an image of the headers and symbols: their fields are where the headers say. -/
structure ImageOf (file : List UInt8) (elf : ParsedElf) : Prop where
  ehdr : (Format.ofFile file).Holds file 16 ((Format.ofFile file).ehdrFields elf.ehdr)
  phnum : elf.programHeaderTable.length = elf.ehdr.ePhnum
  phdrs : ∀ i phdr, elf.programHeaderTable[i]? = some phdr → (Format.ofFile file).Holds file
    (elf.ehdr.ePhoff + i * elf.ehdr.ePhentsize) ((Format.ofFile file).phdrFields phdr)
  shnum : elf.sectionHeaderTable.length = elf.ehdr.eShnum
  shdrs : ∀ i shdr, elf.sectionHeaderTable[i]? = some shdr → (Format.ofFile file).Holds file
    (elf.ehdr.eShoff + i * elf.ehdr.eShentsize) ((Format.ofFile file).shdrFields shdr)
  symnum : ∀ symtab, symtabOf elf.sectionHeaderTable = some symtab →
    elf.symbolTable.length * symtab.shEntsize = symtab.shSize
  syms : ∀ symtab, symtabOf elf.sectionHeaderTable = some symtab →
    ∀ i sym, elf.symbolTable[i]? = some sym → (Format.ofFile file).Holds file
      (symtab.shOffset + i * symtab.shEntsize) ((Format.ofFile file).symFields sym)

theorem tableOf_eq {α : Type} {value : Nat → α} {start entsize : Nat} {entries : List α}
    (h : ∀ i a, entries[i]? = some a → value (start + i * entsize) = a) :
    tableOf value start entsize entries.length = entries := by
  apply List.ext_getElem?
  intro i
  rw [tableOf, List.getElem?_map]
  by_cases hi : i < entries.length
  · rw [List.getElem?_range hi, List.getElem?_eq_getElem hi, Option.map_some,
      h i _ (List.getElem?_eq_getElem hi)]
  · rw [List.getElem?_eq_none (by rw [List.length_range]; omega), List.getElem?_eq_none (by omega)]
    rfl

theorem decoded_of_image {file : List UInt8} {elf : ParsedElf} (h : TablesInside file)
    (himage : ImageOf file elf) : decoded file = elf := by
  have hehdr := Format.ehdr_of_holds himage.ehdr
  have hphdrs : phdrsOf file = elf.programHeaderTable := by
    unfold phdrsOf
    dsimp only
    rw [hehdr, ← himage.phnum]
    exact tableOf_eq fun i phdr hi => Format.phdrAt_of_holds (himage.phdrs i phdr hi)
  have hshdrs : shdrsOf file = elf.sectionHeaderTable := by
    unfold shdrsOf
    dsimp only
    rw [hehdr, ← himage.shnum]
    exact tableOf_eq fun i shdr hi => Format.shdrAt_of_holds (himage.shdrs i shdr hi)
  obtain ⟨symtab, hsymtab, hsize, -, -⟩ := h.symbols
  have hpos := (Format.ofFile file).symSize_pos
  rw [hshdrs] at hsymtab
  have hcount : symtab.shSize / symtab.shEntsize = elf.symbolTable.length := by
    rw [← himage.symnum symtab hsymtab]
    exact Nat.mul_div_cancel _ (by omega)
  have hsymbols : symbolsOf file symtab = elf.symbolTable := by
    unfold symbolsOf
    rw [hcount]
    exact tableOf_eq fun i sym hi => Format.symAt_of_holds (himage.syms symtab hsymtab i sym hi)
  obtain ⟨_, _, _, _⟩ := elf
  rw [decoded, ParsedElf.mk.injEq, hshdrs, hsymtab]
  exact ⟨hehdr, hphdrs, rfl, hsymbols⟩

/-- Whatever its class and its byte order, a file with its tables inside is decoded in every build
if and only if the sizes of the header tables fit 16 bits; and it is decoded to the headers and
symbols that it is the image of. -/
theorem new_decodes_iff {file : List UInt8} (h : TablesInside file) :
    ((∀ mode, ParsedElf.new mode file = .ok (decoded file)) ↔ SizesFit file)
      ∧ ∀ elf, ImageOf file elf → decoded file = elf := by
  refine ⟨⟨fun hnew => ?_, fun hfit mode => new_decoded mode h hfit⟩, fun elf => decoded_of_image h⟩
  by_contra hfit
  exact new_overflow h.headed hfit _ (hnew .checked)

/-! ## A small and a large table -/

/-- A 32 bit file with `num` program headers, in the lower byte order: the section header of an
empty symbol table, and the first of the program headers, of a segment. -/
def elfFront (num : Nat) : List UInt8 :=
  [0x7F, 0x45, 0x4c, 0x46, 1, 1, 1, 0, 0, 0, 0, 0, 0, 0, 0, 0,
    2, 0, 3, 0, 1, 0, 0, 0, 0, 0, 0, 0, 92, 0, 0, 0, 52, 0, 0, 0, 0, 0, 0, 0,
    52, 0, 32, 0, UInt8.ofNat (num % 256), UInt8.ofNat (num / 256), 40, 0, 1, 0, 0, 0,
    0, 0, 0, 0, 2, 0, 0, 0, 0, 0, 0, 0, 0, 0, 0, 0, 124, 0, 0, 0, 0, 0, 0, 0, 0, 0, 0, 0,
    0, 0, 0, 0, 4, 0, 0, 0, 16, 0, 0, 0,
    1, 0, 0, 0, 0, 0, 0, 0, 0, 0x10, 0, 0, 0, 0, 0, 0, 124, 0, 0, 0, 124, 0, 0, 0, 4, 0, 0, 0,
    0, 0x10, 0, 0]

theorem smallElf_decoded : TablesInside (elfFront 1)
    ∧ ParsedElf.new .checked (elfFront 1) = .ok (decoded (elfFront 1)) := by
  have hinside : TablesInside (elfFront 1) :=
    { headed := ⟨by decide +kernel, rfl, by decide +kernel, by decide +kernel⟩
      vec := by decide +kernel
      phentsize := by decide +kernel
      phdrs := by decide +kernel
      shentsize := by decide +kernel
      shdrs := by decide +kernel
      symbols :=
        ⟨⟨0, 2, 0, 0, 124, 0, 0, 0, 4, 16⟩, by decide +kernel, rfl, by decide, by decide +kernel⟩ }
  have hfit : SizesFit (elfFront 1) := by
    unfold SizesFit
    decide +kernel
  exact ⟨hinside, (new_decodes_iff hinside).1.mpr hfit .checked⟩

/-- 2049 program headers, all zero but the first one. -/
def largeElf : List UInt8 := elfFront 2049 ++ List.replicate (2048 * 32) 0

section Front

variable {format : Format} {front rest : List UInt8} {offset size : Nat}

theorem Format.field_append (h : offset + size ≤ front.length) :
    format.field (front ++ rest) offset size = format.field front offset size := by
  unfold Format.field
  rw [List.drop_append_of_le_length (by omega), List.take_append_of_le_length]
  rw [List.length_drop]
  omega

theorem Format.ehdr_append (h : format.ehdrSize ≤ front.length) :
    format.ehdr (front ++ rest) = format.ehdr front := by
  unfold Format.ehdrSize at h
  unfold Format.ehdr Format.wide
  split_ifs at h ⊢
  all_goals
    rw [ElfEhdr.mk.injEq]
    refine ⟨?_, ?_, ?_, ?_, ?_, ?_, ?_, ?_, ?_, ?_, ?_, ?_, ?_⟩
    all_goals exact Format.field_append (by omega)

theorem Format.shdrAt_append (h : offset + format.shdrSize ≤ front.length) :
    format.shdrAt (front ++ rest) offset = format.shdrAt front offset := by
  unfold Format.shdrSize at h
  unfold Format.shdrAt Format.wide
  split_ifs at h ⊢
  all_goals
    rw [ElfShdr.mk.injEq]
    refine ⟨?_, ?_, ?_, ?_, ?_, ?_, ?_, ?_, ?_, ?_⟩
    all_goals exact Format.field_append (by omega)

theorem Format.phdrAt_pType (file : List UInt8) :
    (format.phdrAt file offset).pType = format.field file offset 4 := by
  unfold Format.phdrAt
  split_ifs <;> rfl

end Front

theorem length_elfFront (num : Nat) : (elfFront num).length = 124 := rfl

theorem length_largeElf : largeElf.length = 124 + 65536 := by
  rw [largeElf, List.length_append, List.length_replicate, length_elfFront]

theorem largeElf_format : Format.ofFile largeElf = ⟨true, true⟩ := rfl

theorem largeElf_ehdr : (Format.ofFile largeElf).ehdr largeElf
    = ⟨2, 3, 1, 0, 92, 52, 0, 52, 32, 2049, 40, 1, 0⟩ := by
  rw [largeElf_format, largeElf, Format.ehdr_append (by rw [length_elfFront]; decide)]
  decide +kernel

theorem largeElf_shdrs : shdrsOf largeElf = [⟨0, 2, 0, 0, 124, 0, 0, 0, 4, 16⟩] := by
  have hsection : Format.shdrAt ⟨true, true⟩ largeElf (52 + 0 * 40)
      = ⟨0, 2, 0, 0, 124, 0, 0, 0, 4, 16⟩ := by
    rw [largeElf, Format.shdrAt_append (by rw [length_elfFront]; decide)]
    decide +kernel
  unfold shdrsOf
  dsimp only
  rw [largeElf_ehdr, largeElf_format, tableOf, List.range_one, List.map_singleton, hsection]

theorem largeElf_inside : TablesInside largeElf where
  headed :=
    { six_le := by rw [length_largeElf]; decide
      magic := rfl
      size_le := by rw [length_largeElf, largeElf_format]; decide
      ehsize := by rw [largeElf_ehdr, largeElf_format]; rfl }
  vec := by rw [length_largeElf]; decide
  phentsize := by rw [largeElf_ehdr, largeElf_format]; rfl
  phdrs := by rw [largeElf_ehdr, length_largeElf]; decide
  shentsize := by rw [largeElf_ehdr, largeElf_format]; rfl
  shdrs := by rw [largeElf_ehdr, length_largeElf]; decide
  symbols := by
    refine ⟨⟨0, 2, 0, 0, 124, 0, 0, 0, 4, 16⟩, by rw [largeElf_shdrs]; rfl, ?_, by decide, ?_⟩
    · rw [largeElf_format]
      rfl
    · rw [length_largeElf]
      decide

/-- With overflow checks the size of the table panics; without them the last program header is read
from the place of the first one. -/
theorem largeElf_misread : TablesInside largeElf
    ∧ ParsedElf.new .checked largeElf ≠ .ok (decoded largeElf)
    ∧ ParsedElf.new .wrapping largeElf ≠ .ok (decoded largeElf) := by
  refine ⟨largeElf_inside, ?_, ?_⟩
  · refine new_overflow largeElf_inside.headed (fun hfit => ?_) _
    have hsize := hfit.1
    rw [largeElf_ehdr] at hsize
    exact absurd hsize (by decide)
  · intro hok
    have hphdrs := phdrs_of_new largeElf_inside.headed hok
    rw [largeElf_ehdr, largeElf_format] at hphdrs
    have hread := readsAt_parsePhdr ⟨true, true⟩ largeElf
    -- the place of the last entry is 65536 bytes behind that of the first one
    have hlast := wrapped_entry hread (show 2048 < 2049 by decide) (by decide) hphdrs
    have htable : (decoded largeElf).programHeaderTable = tableOf (Format.phdrAt ⟨true, true⟩ largeElf)
        92 32 2049 := by
      rw [decoded_programHeaderTable]
      unfold phdrsOf
      dsimp only
      rw [largeElf_ehdr, largeElf_format]
    rw [htable, tableOf, List.getElem?_map, List.getElem?_range (by decide), Option.map_some,
      Option.some.injEq] at hlast
    have htype := congrArg ElfPhdr.pType hlast
    rw [Format.phdrAt_pType, Format.phdrAt_pType] at htype
    have hfirst : Format.field ⟨true, true⟩ largeElf (92 + 2048 * 32 % 2 ^ 16) 4 = 1 := by
      rw [largeElf, Format.field_append (by rw [length_elfFront]; decide)]
      decide +kernel
    have hzero : Format.field ⟨true, true⟩ largeElf (92 + 2048 * 32) 4 = 0 := by
      rw [largeElf, Format.field, List.drop_append, length_elfFront, List.drop_replicate,
        List.drop_of_length_le (by rw [length_elfFront]; decide), List.nil_append, List.take_replicate]
      rfl
    rw [hfirst, hzero] at htype
    cases htype

end Dandelion.ElfParser
