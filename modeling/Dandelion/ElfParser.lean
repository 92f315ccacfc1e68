import Dandelion.Bson
import Dandelion.Errors
import Dandelion.Occupation
import Dandelion.Slices
import Dandelion.Substrings

/-!
# ELF files

`ParsedElf`, from the bytes of a file to its headers and symbols. Fields are read at a counter that
moves past them, and reading behind the end of the file panics. Sums and products are those of the
types of the source, with the overflow checks of a debug build or the wrapping of a release build.
-/

open Outcome

namespace Dandelion.ElfParser

/-- Multiplication of `u16`. -/
def mulHalf (mode : Overflow) (a b : Nat) : DandelionResult Nat :=
  match mode with
  | .checked => if a * b < 2 ^ 16 then pure (a * b) else crash
  | .wrapping => pure (a * b % 2 ^ 16)

/-! ## Fields -/

def fromLeBytes (bytes : List UInt8) : Nat := Bson.ofLeBytes bytes

def fromBeBytes (bytes : List UInt8) : Nat := Bson.ofLeBytes bytes.reverse

/-- What is read at a counter, which moves on. -/
abbrev FieldParser := StateT Nat DandelionResult

/-- An end that leaves `usize` is behind the end of the file. -/
def parserCode (parser : List UInt8 → Nat) (increment : Nat) (file : List UInt8) : FieldParser Nat :=
  fun counter => do
    let subslice ← Slices.range file counter (counter + increment)
    return (parser subslice, counter + increment)

def parseHalfLe := parserCode fromLeBytes 2

def parseHalfBe := parserCode fromBeBytes 2

def parseWordLe := parserCode fromLeBytes 4

def parseWordBe := parserCode fromBeBytes 4

def parseOffsetLe32 := parserCode fromLeBytes 4

def parseOffsetBe32 := parserCode fromBeBytes 4

def parseOffsetLe64 := parserCode fromLeBytes 8

def parseOffsetBe64 := parserCode fromBeBytes 8

structure ParserFuncs where
  parseHalf : List UInt8 → FieldParser Nat
  parseWord : List UInt8 → FieldParser Nat
  parseOffset : List UInt8 → FieldParser Nat

/-! ## Headers -/

structure ElfEhdr where
  eType : Nat
  eMachine : Nat
  eVersion : Nat
  eEntry : Nat
  ePhoff : Nat
  eShoff : Nat
  eFlags : Nat
  eEhsize : Nat
  ePhentsize : Nat
  ePhnum : Nat
  eShentsize : Nat
  eShnum : Nat
  eShstrndx : Nat
deriving DecidableEq, Repr

def parseEhdr (file : List UInt8) (pf : ParserFuncs) : FieldParser ElfEhdr := do
  let eType ← pf.parseHalf file
  let eMachine ← pf.parseHalf file
  let eVersion ← pf.parseWord file
  let eEntry ← pf.parseOffset file
  let ePhoff ← pf.parseOffset file
  let eShoff ← pf.parseOffset file
  let eFlags ← pf.parseWord file
  let eEhsize ← pf.parseHalf file
  let ePhentsize ← pf.parseHalf file
  let ePhnum ← pf.parseHalf file
  let eShentsize ← pf.parseHalf file
  let eShnum ← pf.parseHalf file
  let eShstrndx ← pf.parseHalf file
  pure { eType, eMachine, eVersion, eEntry, ePhoff, eShoff, eFlags, eEhsize, ePhentsize, ePhnum,
         eShentsize, eShnum, eShstrndx }

structure ElfPhdr where
  pType : Nat
  pFlags : Nat
  pOffset : Nat
  pVaddr : Nat
  pPaddr : Nat
  pFilesz : Nat
  pMemsz : Nat
  pAlign : Nat
deriving DecidableEq, Repr

def parsePhdr (file : List UInt8) (pf : ParserFuncs) (is32Bit : Bool) : FieldParser ElfPhdr :=
  if is32Bit then do
    let pType ← pf.parseWord file
    let pOffset ← pf.parseOffset file
    let pVaddr ← pf.parseOffset file
    let pPaddr ← pf.parseOffset file
    let pFilesz ← pf.parseOffset file
    let pMemsz ← pf.parseOffset file
    let pFlags ← pf.parseWord file
    let pAlign ← pf.parseOffset file
    pure { pType, pFlags, pOffset, pVaddr, pPaddr, pFilesz, pMemsz, pAlign }
  else do
    let pType ← pf.parseWord file
    let pFlags ← pf.parseWord file
    let pOffset ← pf.parseOffset file
    let pVaddr ← pf.parseOffset file
    let pPaddr ← pf.parseOffset file
    let pFilesz ← pf.parseOffset file
    let pMemsz ← pf.parseOffset file
    let pAlign ← pf.parseOffset file
    pure { pType, pFlags, pOffset, pVaddr, pPaddr, pFilesz, pMemsz, pAlign }

structure ElfShdr where
  shName : Nat
  shType : Nat
  shFlags : Nat
  shAddr : Nat
  shOffset : Nat
  shSize : Nat
  shLink : Nat
  shInfo : Nat
  shAddralign : Nat
  shEntsize : Nat
deriving DecidableEq, Repr

def parseShdr (file : List UInt8) (pf : ParserFuncs) : FieldParser ElfShdr := do
  let shName ← pf.parseWord file
  let shType ← pf.parseWord file
  let shFlags ← pf.parseOffset file
  let shAddr ← pf.parseOffset file
  let shOffset ← pf.parseOffset file
  let shSize ← pf.parseOffset file
  let shLink ← pf.parseWord file
  let shInfo ← pf.parseWord file
  let shAddralign ← pf.parseOffset file
  let shEntsize ← pf.parseOffset file
  pure { shName, shType, shFlags, shAddr, shOffset, shSize, shLink, shInfo, shAddralign, shEntsize }

section Tables

variable (mode : Overflow) (file : List UInt8)

/-- The loop of a header table: `num` entries of `entsize` bytes from `start` on. -/
def parseTable {α : Type} (start entsize num : Nat) (entry : FieldParser α) :
    DandelionResult (List α) := do
  let stop ← Usize.add mode start (← mulHalf mode num entsize)
  if stop > file.length then fail .malformedConfig
  (List.range num).mapM fun i => do
    let offset ← Usize.add mode start (← mulHalf mode i entsize)
    entry.run' offset

def parsePhdrTable (pf : ParserFuncs) (ehdr : ElfEhdr) (is32Bit : Bool) :
    DandelionResult (List ElfPhdr) :=
  parseTable mode file ehdr.ePhoff ehdr.ePhentsize ehdr.ePhnum (parsePhdr file pf is32Bit)

def parseShrdTable (pf : ParserFuncs) (ehdr : ElfEhdr) : DandelionResult (List ElfShdr) :=
  parseTable mode file ehdr.eShoff ehdr.eShentsize ehdr.eShnum (parseShdr file pf)

end Tables

/-! ## Symbols -/

structure ElfSym where
  stName : Nat
  stValue : Nat
  stSize : Nat
  stInfo : Nat
  stOther : Nat
  stShndx : Nat
deriving DecidableEq, Repr

def shtSymtab : Nat := 0x2

def shtStrtab : Nat := 0x3

def parseUchar (file : List UInt8) : FieldParser Nat := fun counter => do
  let byte ← Slices.index file counter
  return (byte.toNat, counter + 1)

def parseSym (file : List UInt8) (pf : ParserFuncs) (is32Bit : Bool) : FieldParser ElfSym :=
  if is32Bit then do
    let stName ← pf.parseWord file
    let stValue ← pf.parseOffset file
    let stSize ← pf.parseOffset file
    let stInfo ← parseUchar file
    let stOther ← parseUchar file
    let stShndx ← pf.parseHalf file
    pure { stName, stValue, stSize, stInfo, stOther, stShndx }
  else do
    let stName ← pf.parseWord file
    let stInfo ← parseUchar file
    let stOther ← parseUchar file
    let stShndx ← pf.parseHalf file
    let stValue ← pf.parseOffset file
    let stSize ← pf.parseOffset file
    pure { stName, stValue, stSize, stInfo, stOther, stShndx }

def parseSymbolTable (mode : Overflow) (file : List UInt8) (pf : ParserFuncs)
    (shdrTable : List ElfShdr) (is32Bit : Bool) : DandelionResult (List ElfSym) :=
  match shdrTable.find? fun x => x.shType == shtSymtab with
  | none => fail .malformedConfig
  | some symbolTableSection => do
    let tableStart := symbolTableSection.shOffset
    let tableEnd ← Usize.add mode tableStart symbolTableSection.shSize
    let entrySize := symbolTableSection.shEntsize
    if entrySize = 0 then fail .malformedConfig
    let entries := symbolTableSection.shSize / entrySize
    let lastEnd ← Usize.add mode (← Usize.mul mode entries entrySize) tableStart
    if lastEnd ≠ tableEnd then fail .malformedConfig
    (List.range entries).mapM fun entry => do
      let counterStart ← Usize.add mode tableStart (← Usize.mul mode entry entrySize)
      let (symbol, counter) ← (parseSym file pf is32Bit).run counterStart
      if counter > (← Usize.add mode counterStart entrySize) then fail .malformedConfig
      pure symbol

/-! ## The parsed file -/

structure ParsedElf where
  ehdr : ElfEhdr
  programHeaderTable : List ElfPhdr
  sectionHeaderTable : List ElfShdr
  symbolTable : List ElfSym
deriving DecidableEq, Repr

namespace ParsedElf

def parserFuncs (littleEndian is32Bit : Bool) : ParserFuncs :=
  match littleEndian, is32Bit with
  | true, true => ⟨parseHalfLe, parseWordLe, parseOffsetLe32⟩
  | true, false => ⟨parseHalfLe, parseWordLe, parseOffsetLe64⟩
  | false, true => ⟨parseHalfBe, parseWordBe, parseOffsetBe32⟩
  | false, false => ⟨parseHalfBe, parseWordBe, parseOffsetBe64⟩

def new (mode : Overflow) (file : List UInt8) : DandelionResult ParsedElf := do
  if file.length < 6 then fail .malformedConfig
  -- check magic number
  if (← Slices.index file 0) ≠ 0x7F || (← Slices.index file 1) ≠ 0x45
      || (← Slices.index file 2) ≠ 0x4c || (← Slices.index file 3) ≠ 0x46 then
    fail .malformedConfig
  let is32Bit := (← Slices.index file 0x4) == 1
  let littleEndian := (← Slices.index file 0x5) == 1
  if (is32Bit && file.length < 0x34) || (!is32Bit && file.length < 0x40) then fail .malformedConfig
  let pf := parserFuncs littleEndian is32Bit
  let ehdr ← (parseEhdr file pf).run' 0x10
  if (is32Bit && ehdr.eEhsize ≠ 0x34) || (!is32Bit && ehdr.eEhsize ≠ 0x40) then
    fail .malformedConfig
  let programHeaderTable ← parsePhdrTable mode file pf ehdr is32Bit
  let sectionHeaderTable ← parseShrdTable mode file pf ehdr
  let symbolTable ← parseSymbolTable mode file pf sectionHeaderTable is32Bit
  pure { ehdr, programHeaderTable, sectionHeaderTable, symbolTable }

def defaultAlignment : Nat := 4096

/-- The start of a segment at a page. -/
def pageStart (mode : Overflow) (start : Nat) : DandelionResult Nat :=
  if start % defaultAlignment ≠ 0 then Usize.sub mode start (start % defaultAlignment) else pure start

/-- The end of a segment at a page. -/
def pageEnd (mode : Overflow) (stop : Nat) : DandelionResult Nat :=
  if stop % defaultAlignment ≠ 0 then
    Usize.add mode stop (defaultAlignment - stop % defaultAlignment)
  else pure stop

def protectionRequirement (mode : Overflow) (programHeader : ElfPhdr) :
    DandelionResult (Nat × Position) := do
  let stop ← Usize.add mode programHeader.pVaddr programHeader.pMemsz
  let start ← pageStart mode programHeader.pVaddr
  let stop ← pageEnd mode stop
  let size ← Usize.sub mode stop start
  pure (programHeader.pFlags, ⟨start, size⟩)

def getMemoryProtectionLayout (mode : Overflow) (parsed : ParsedElf) :
    DandelionResult (List (Nat × Position)) :=
  -- the headers of what occupies memory during execution
  (parsed.programHeaderTable.filter fun programHeader => programHeader.pType == 0x1).mapM
    (protectionRequirement mode)

def sectionText (mode : Overflow) (file : List UInt8) (stringSection : ElfShdr) :
    DandelionResult (List UInt8) := do
  let stop ← Usize.add mode stringSection.shOffset stringSection.shSize
  let bytes ← Slices.range file stringSection.shOffset stop
  match String.fromUTF8? ⟨bytes.toArray⟩ with
  | some text => pure (Bson.utf8Bytes text)
  | none => fail .malformedConfig

/-- A name is searched for as a substring (`str::find`), by the bytes of the texts. -/
def getSymbolByName (mode : Overflow) (parsed : ParsedElf) (file : List UInt8) (name : String) :
    DandelionResult (Nat × Nat) := do
  -- find section header string table
  let sectionNameEntry ← Slices.index parsed.sectionHeaderTable parsed.ehdr.eShstrndx
  let sectionNameString ← sectionText mode file sectionNameEntry
  match Substrings.find sectionNameString (Bson.utf8Bytes ".strtab") with
  | none => fail .malformedConfig
  | some stringTableIndex =>
    match parsed.sectionHeaderTable.find? fun x =>
        x.shType == shtStrtab && x.shName == stringTableIndex with
    | none => fail .malformedConfig
    | some stringTableSection => do
      let stringTableString ← sectionText mode file stringTableSection
      match Substrings.find stringTableString (Bson.utf8Bytes name) with
      | none => fail .unknownSymbol
      | some nameIndex =>
        match parsed.symbolTable.find? fun sym => sym.stName == nameIndex with
        | some sym => pure (sym.stValue, sym.stSize)
        | none => fail .malformedConfig

end ParsedElf

end Dandelion.ElfParser
