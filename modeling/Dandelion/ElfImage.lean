import Dandelion.ElfParser

/-!
# The layout of an ELF file

Where the fields of the headers and the symbols are, for both classes and both byte orders, and
that this is where `ParsedElf::new` reads them. What a reader takes from the counter is given by
`ReadsAt`: a value if its bytes are in the file, and otherwise a panic.
-/

open Outcome

namespace Dandelion.ElfParser

/-- The class and the byte order of a file. -/
structure Format where
  littleEndian : Bool
  is32Bit : Bool
deriving DecidableEq, Repr

namespace Format

variable (format : Format) (file : List UInt8)

def funcs : ParserFuncs := ParsedElf.parserFuncs format.littleEndian format.is32Bit

/-- The bytes of an address or an offset. -/
def wide : Nat := if format.is32Bit then 4 else 8

def field (offset size : Nat) : Nat :=
  if format.littleEndian then fromLeBytes ((file.drop offset).take size)
  else fromBeBytes ((file.drop offset).take size)

def byte (offset : Nat) : Nat := (file.getD offset 0).toNat

/-! ## Places of the fields -/

def ehdrSize : Nat := if format.is32Bit then 0x34 else 0x40

/-- The fields of the file header behind the identification. -/
def ehdr : ElfEhdr :=
  let wide := format.wide
  { eType := format.field file 16 2
    eMachine := format.field file 18 2
    eVersion := format.field file 20 4
    eEntry := format.field file 24 wide
    ePhoff := format.field file (24 + wide) wide
    eShoff := format.field file (24 + 2 * wide) wide
    eFlags := format.field file (24 + 3 * wide) 4
    eEhsize := format.field file (28 + 3 * wide) 2
    ePhentsize := format.field file (30 + 3 * wide) 2
    ePhnum := format.field file (32 + 3 * wide) 2
    eShentsize := format.field file (34 + 3 * wide) 2
    eShnum := format.field file (36 + 3 * wide) 2
    eShstrndx := format.field file (38 + 3 * wide) 2 }

def phdrSize : Nat := if format.is32Bit then 32 else 56

def phdrAt (offset : Nat) : ElfPhdr :=
  if format.is32Bit then
    { pType := format.field file offset 4
      pOffset := format.field file (offset + 4) 4
      pVaddr := format.field file (offset + 8) 4
      pPaddr := format.field file (offset + 12) 4
      pFilesz := format.field file (offset + 16) 4
      pMemsz := format.field file (offset + 20) 4
      pFlags := format.field file (offset + 24) 4
      pAlign := format.field file (offset + 28) 4 }
  else
    { pType := format.field file offset 4
      pFlags := format.field file (offset + 4) 4
      pOffset := format.field file (offset + 8) 8
      pVaddr := format.field file (offset + 16) 8
      pPaddr := format.field file (offset + 24) 8
      pFilesz := format.field file (offset + 32) 8
      pMemsz := format.field file (offset + 40) 8
      pAlign := format.field file (offset + 48) 8 }

def shdrSize : Nat := if format.is32Bit then 40 else 64

def shdrAt (offset : Nat) : ElfShdr :=
  let wide := format.wide
  { shName := format.field file offset 4
    shType := format.field file (offset + 4) 4
    shFlags := format.field file (offset + 8) wide
    shAddr := format.field file (offset + (8 + wide)) wide
    shOffset := format.field file (offset + (8 + 2 * wide)) wide
    shSize := format.field file (offset + (8 + 3 * wide)) wide
    shLink := format.field file (offset + (8 + 4 * wide)) 4
    shInfo := format.field file (offset + (12 + 4 * wide)) 4
    shAddralign := format.field file (offset + (16 + 4 * wide)) wide
    shEntsize := format.field file (offset + (16 + 5 * wide)) wide }

def symSize : Nat := if format.is32Bit then 16 else 24

def symAt (offset : Nat) : ElfSym :=
  if format.is32Bit then
    { stName := format.field file offset 4
      stValue := format.field file (offset + 4) 4
      stSize := format.field file (offset + 8) 4
      stInfo := byte file (offset + 12)
      stOther := byte file (offset + 13)
      stShndx := format.field file (offset + 14) 2 }
  else
    { stName := format.field file offset 4
      stInfo := byte file (offset + 4)
      stOther := byte file (offset + 5)
      stShndx := format.field file (offset + 6) 2
      stValue := format.field file (offset + 8) 8
      stSize := format.field file (offset + 16) 8 }

end Format

/-! ## Readers -/

/-- The reader takes `size` bytes at the counter, if they are in the file. -/
def ReadsAt {α : Type} (file : List UInt8) (p : FieldParser α) (size : Nat) (value : Nat → α) : Prop :=
  ∀ counter, p.run counter
    = if counter + size ≤ file.length then .ok (value counter, counter + size) else crash

section Readers

variable {α β : Type} {file : List UInt8} {p : FieldParser α} {q : α → FieldParser β} {m n : Nat}
  {g : Nat → α} {h : α → Nat → β}

theorem ReadsAt.bind (hp : ReadsAt file p m g) (hq : ∀ a, ReadsAt file (q a) n (h a)) :
    ReadsAt file (p >>= q) (m + n) fun counter => h (g counter) (counter + m) := by
  intro counter
  rw [StateT.run_bind, hp counter]
  by_cases hm : counter + m ≤ file.length
  · rw [if_pos hm, ok_bind, hq (g counter) (counter + m), Nat.add_assoc]
  · rw [if_neg hm, if_neg (by omega)]
    rfl

theorem ReadsAt.map (hp : ReadsAt file p m g) (f : α → β) :
    ReadsAt file (p >>= fun a => pure (f a)) m fun counter => f (g counter) := by
  intro counter
  rw [StateT.run_bind, hp counter]
  by_cases hm : counter + m ≤ file.length
  · rw [if_pos hm, if_pos hm]
    rfl
  · rw [if_neg hm, if_neg hm]
    rfl

theorem ReadsAt.congr {g' : Nat → α} (hp : ReadsAt file p m g) (hm : m = n)
    (hg : ∀ counter, g counter = g' counter) : ReadsAt file p n g' := by
  obtain rfl := hm
  obtain rfl := funext hg
  exact hp

theorem ReadsAt.run' (hp : ReadsAt file p m g) (counter : Nat) :
    p.run' counter = if counter + m ≤ file.length then .ok (g counter) else crash := by
  change (fun r => r.1) <$> p.run counter = _
  rw [hp counter]
  split_ifs
  · rfl
  · rfl

theorem readsAt_parserCode (parser : List UInt8 → Nat) (increment : Nat) :
    ReadsAt file (parserCode parser increment file) increment
      fun counter => parser ((file.drop counter).take increment) := by
  intro counter
  change (Slices.range file counter (counter + increment) >>= _) = _
  by_cases hin : counter + increment ≤ file.length
  · rw [if_pos hin, Slices.range_eq_ok (Nat.le_add_right _ _) hin, Nat.add_sub_cancel_left]
    rfl
  · rw [if_neg hin, Slices.range, if_neg (fun hboth => hin hboth.2)]
    rfl

theorem readsAt_parseUchar : ReadsAt file (parseUchar file) 1 (Format.byte file) := by
  intro counter
  change (Slices.index file counter >>= _) = _
  by_cases hin : counter + 1 ≤ file.length
  · rw [if_pos hin, Slices.index_eq_ok (List.getElem?_eq_getElem hin), Format.byte,
      List.getD_eq_getElem?_getD, List.getElem?_eq_getElem hin]
    rfl
  · rw [if_neg hin, Slices.index_eq_crash (List.getElem?_eq_none (by omega))]
    rfl

end Readers

section Records

variable (format : Format) (file : List UInt8)

theorem readsAt_parseHalf : ReadsAt file (format.funcs.parseHalf file) 2
    fun counter => format.field file counter 2 := by
  obtain ⟨littleEndian, is32Bit⟩ := format
  cases littleEndian <;> cases is32Bit <;> exact readsAt_parserCode _ 2

theorem readsAt_parseWord : ReadsAt file (format.funcs.parseWord file) 4
    fun counter => format.field file counter 4 := by
  obtain ⟨littleEndian, is32Bit⟩ := format
  cases littleEndian <;> cases is32Bit <;> exact readsAt_parserCode _ 4

theorem readsAt_parseOffset : ReadsAt file (format.funcs.parseOffset file) format.wide
    fun counter => format.field file counter format.wide := by
  obtain ⟨littleEndian, is32Bit⟩ := format
  cases littleEndian <;> cases is32Bit
  · exact readsAt_parserCode _ 8
  · exact readsAt_parserCode _ 4
  · exact readsAt_parserCode _ 8
  · exact readsAt_parserCode _ 4

theorem readsAt_parsePhdr : ReadsAt file (parsePhdr file format.funcs format.is32Bit)
    format.phdrSize (format.phdrAt file) := by
  have hword := readsAt_parseWord format file
  have hoffset := readsAt_parseOffset format file
  unfold parsePhdr Format.phdrAt Format.phdrSize
  cases hclass : format.is32Bit with
  | true =>
    have hwide : format.wide = 4 := by
      rw [Format.wide, hclass]
      rfl
    rw [hwide] at hoffset
    exact (hword.bind fun _ => hoffset.bind fun _ => hoffset.bind fun _ => hoffset.bind fun _ =>
      hoffset.bind fun _ => hoffset.bind fun _ => hword.bind fun _ => hoffset.map _).congr rfl
      fun counter => rfl
  | false =>
    have hwide : format.wide = 8 := by
      rw [Format.wide, hclass]
      rfl
    rw [hwide] at hoffset
    exact (hword.bind fun _ => hword.bind fun _ => hoffset.bind fun _ => hoffset.bind fun _ =>
      hoffset.bind fun _ => hoffset.bind fun _ => hoffset.bind fun _ => hoffset.map _).congr rfl
      fun counter => rfl

theorem readsAt_parseShdr : ReadsAt file (parseShdr file format.funcs) format.shdrSize
    (format.shdrAt file) := by
  have hword := readsAt_parseWord format file
  have hoffset := readsAt_parseOffset format file
  have hread := hword.bind fun shName => hword.bind fun shType => hoffset.bind fun shFlags =>
    hoffset.bind fun shAddr => hoffset.bind fun shOffset => hoffset.bind fun shSize =>
    hword.bind fun shLink => hword.bind fun shInfo => hoffset.bind fun shAddralign =>
    hoffset.map fun shEntsize => ElfShdr.mk shName shType shFlags shAddr shOffset shSize shLink
      shInfo shAddralign shEntsize
  unfold Format.shdrAt Format.shdrSize
  unfold Format.wide at hread ⊢
  cases hclass : format.is32Bit with
  | true =>
    rw [hclass] at hread
    exact hread.congr rfl fun counter => rfl
  | false =>
    rw [hclass] at hread
    exact hread.congr rfl fun counter => rfl

theorem readsAt_parseSym : ReadsAt file (parseSym file format.funcs format.is32Bit) format.symSize
    (format.symAt file) := by
  have hhalf := readsAt_parseHalf format file
  have hword := readsAt_parseWord format file
  have hoffset := readsAt_parseOffset format file
  have huchar : ReadsAt file (parseUchar file) 1 (Format.byte file) := readsAt_parseUchar
  unfold parseSym Format.symAt Format.symSize
  unfold Format.wide at hoffset
  cases hclass : format.is32Bit with
  | true =>
    rw [hclass] at hoffset
    exact (hword.bind fun _ => hoffset.bind fun _ => hoffset.bind fun _ => huchar.bind fun _ =>
      huchar.bind fun _ => hhalf.map _).congr rfl fun counter => rfl
  | false =>
    rw [hclass] at hoffset
    exact (hword.bind fun _ => huchar.bind fun _ => huchar.bind fun _ => hhalf.bind fun _ =>
      hoffset.bind fun _ => hoffset.map _).congr rfl fun counter => rfl

theorem parseEhdr_eq (h : format.ehdrSize ≤ file.length) :
    (parseEhdr file format.funcs).run' 0x10 = .ok (format.ehdr file) := by
  have hhalf := readsAt_parseHalf format file
  have hword := readsAt_parseWord format file
  have hoffset := readsAt_parseOffset format file
  have hread := hhalf.bind fun eType => hhalf.bind fun eMachine => hword.bind fun eVersion =>
    hoffset.bind fun eEntry => hoffset.bind fun ePhoff => hoffset.bind fun eShoff =>
    hword.bind fun eFlags => hhalf.bind fun eEhsize => hhalf.bind fun ePhentsize =>
    hhalf.bind fun ePhnum => hhalf.bind fun eShentsize => hhalf.bind fun eShnum =>
    hhalf.map fun eShstrndx => ElfEhdr.mk eType eMachine eVersion eEntry ePhoff eShoff eFlags
      eEhsize ePhentsize ePhnum eShentsize eShnum eShstrndx
  refine (hread.run' 0x10).trans ?_
  unfold Format.ehdrSize at h
  unfold Format.ehdr Format.wide
  cases hclass : format.is32Bit with
  | true =>
    rw [hclass] at h
    exact if_pos h
  | false =>
    rw [hclass] at h
    exact if_pos h

end Records

end Dandelion.ElfParser
