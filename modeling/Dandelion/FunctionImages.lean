import Dandelion.FunctionInputs

/-!
# Parsing a function

`parse_function` of the KVM driver and of the MMU driver, from the file and the program headers of
its ELF image to the static context that `load_static` copies from. The KVM driver puts each
segment where it is required, and fills it up with zeros. The MMU driver puts the parts of the file
one behind the other. Parsing the headers, the symbols and the configuration of the function
are left out.
-/

namespace Dandelion

open Outcome

/-- The fields of a program header that say where a segment goes. -/
structure ProgramHeader where
  pType : Nat
  pOffset : Nat
  pVaddr : Nat
  pFilesz : Nat
  pMemsz : Nat
deriving DecidableEq, Repr

/-- Where the loaded segments are required, and where they are in the file. -/
def getLayoutPair : List ProgramHeader → List Position × List Position
  | [] => ([], [])
  | programHeader :: programHeaders =>
    let (requirements, items) := getLayoutPair programHeaders
    -- check if section occupies memory during execution
    if programHeader.pType = 1 then
      (⟨programHeader.pVaddr, programHeader.pMemsz⟩ :: requirements,
        ⟨programHeader.pOffset, programHeader.pFilesz⟩ :: items)
    else (requirements, items)

/-- A function without its configuration. -/
structure Function where
  staticRequirements : List Position
  context : Context

/-- The part of the file at a position. -/
def filePart (function : List UInt8) (position : Position) : DandelionResult (List UInt8) := do
  let stop ← Usize.add .checked position.offset position.size
  slice function position.offset stop

/-- The context with the static set in it. -/
def Context.withStatic (acquired : Context) (context : ContextType) (buffers : List DataItem) :
    Context :=
  { acquired with context, content := [some ⟨"static", buffers⟩] }

namespace KvmDriver

/-- What the domain returns for a context of the given size: whole pages, none of which is in the
overlay yet. -/
inductive Acquired (contextSize : Nat) : Context → Prop
  | mk (storage : List UInt8)
      (hlength : storage.length = (contextSize + pageSize - 1) / pageSize * pageSize)
      (hpool : contextSize ≤ (2 ^ 32 - 1) * pageSize) :
      Acquired contextSize (Context.new (.stored (.kvm ⟨OrderedMap.empty, storage⟩)) storage.length)

/-- The largest end of a required position. -/
def requiredSize : List Position → DandelionResult Nat
  | [] => pure 0
  | position :: positions => do
    let positionEnd ← Usize.add .checked position.offset position.size
    let rest ← requiredSize positions
    pure (max positionEnd rest)

/-- The loop over the required positions and the parts of the file. -/
def copyAll (function : List UInt8) :
    List (Position × Position) → ContextType → List DataItem →
      DandelionResult (ContextType × List DataItem)
  | [], context, buffers => pure (context, buffers)
  | (requiredPosition, sourcePosition) :: pairs, context, buffers => do
    let data ← filePart function sourcePosition
    let context ← context.tryWrite requiredPosition.offset data
    -- make sure to write 0s to fill in for the difference between the source and required position
    let context ←
      if sourcePosition.size < requiredPosition.size then do
        let zeros := List.replicate (requiredPosition.size - sourcePosition.size) 0
        let start ← Usize.add .checked requiredPosition.offset sourcePosition.size
        context.tryWrite start zeros
      else pure context
    copyAll function pairs context (buffers ++ [⟨"", requiredPosition, 0⟩])

/-- `acquireContext` is that of the static domain. -/
def parseFunction (acquireContext : Nat → DandelionResult Context) (function : List UInt8)
    (programHeaderTable : List ProgramHeader) : DandelionResult Function := do
  let (staticRequirements, sourceLayout) := getLayoutPair programHeaderTable
  let size ← requiredSize staticRequirements
  let acquired ← acquireContext size
  let (context, buffers) ← copyAll function (staticRequirements.zip sourceLayout) acquired.context []
  pure ⟨staticRequirements, acquired.withStatic context buffers⟩

end KvmDriver

namespace MmuDriver

def totalSize : List Position → Nat → DandelionResult Nat
  | [], total => pure total
  | position :: positions, total => do
    let total ← Usize.add .checked total position.size
    totalSize positions total

/-- The loop over the parts of the file. -/
def copyAll (function : List UInt8) :
    List Position → ContextType → Nat → List DataItem → DandelionResult (ContextType × List DataItem)
  | [], context, _, buffers => pure (context, buffers)
  | position :: positions, context, writeCounter, buffers => do
    let data ← filePart function position
    let context ← context.tryWrite writeCounter data
    let nextCounter ← Usize.add .checked writeCounter position.size
    copyAll function positions context nextCounter
      (buffers ++ [⟨"", ⟨writeCounter, position.size⟩, 0⟩])

def parseFunction (acquireContext : Nat → DandelionResult Context) (function : List UInt8)
    (programHeaderTable : List ProgramHeader) : DandelionResult Function := do
  let (staticRequirements, sourceLayout) := getLayoutPair programHeaderTable
  let size ← totalSize sourceLayout 0
  let acquired ← acquireContext size
  let (context, buffers) ← copyAll function sourceLayout acquired.context 0 []
  pure ⟨staticRequirements, acquired.withStatic context buffers⟩

end MmuDriver

/-! ## Images -/

def ProgramHeader.required (header : ProgramHeader) : Position := ⟨header.pVaddr, header.pMemsz⟩

def ProgramHeader.source (header : ProgramHeader) : Position := ⟨header.pOffset, header.pFilesz⟩

/-- The segments that are loaded. -/
def loadedSegments (programHeaderTable : List ProgramHeader) : List ProgramHeader :=
  programHeaderTable.filter fun header => header.pType = 1

theorem getLayoutPair_eq (programHeaderTable : List ProgramHeader) :
    getLayoutPair programHeaderTable =
      ((loadedSegments programHeaderTable).map ProgramHeader.required,
        (loadedSegments programHeaderTable).map ProgramHeader.source) := by
  induction programHeaderTable with
  | nil => rfl
  | cons header headers ih =>
    rw [getLayoutPair, ih]
    by_cases htype : header.pType = 1
    · rw [loadedSegments, loadedSegments, List.filter_cons_of_pos (by simpa using htype)]
      exact if_pos htype
    · rw [loadedSegments, loadedSegments, List.filter_cons_of_neg (by simpa using htype)]
      exact if_neg htype

/-- A segment that lies in the file and is required at an address other than zero. -/
structure ProgramHeader.WellFormed (function : List UInt8) (header : ProgramHeader) : Prop where
  vaddr_pos : 0 < header.pVaddr
  filesz_le : header.pFilesz ≤ header.pMemsz
  inFile : header.pOffset + header.pFilesz ≤ function.length

/-- Two segments without a common byte. They can share a page. -/
def ProgramHeader.DisjointFrom (header other : ProgramHeader) : Prop :=
  ∀ o, ¬ (header.required.covers o ∧ other.required.covers o)

/-- The byte that belongs to a place of a segment. -/
def ProgramHeader.byte (function : List UInt8) (header : ProgramHeader) (i : Nat) : Option UInt8 :=
  if i < header.pFilesz then function[header.pOffset + i]? else some 0

/-- The byte at an offset of a context. -/
def Context.byte (context : Context) (offset : Nat) : Option UInt8 :=
  match context.context with
  | .stored stored => stored.byte offset
  | .system system => system.byte offset

/-- Each loaded segment is in its place, and the space that it takes is occupied. -/
structure HoldsImage (function : List UInt8) (programHeaderTable : List ProgramHeader)
    (context : Context) : Prop where
  file : ∀ header ∈ programHeaderTable, header.pType = 1 → ∀ i < header.pFilesz,
    context.byte (header.pVaddr + i) = function[header.pOffset + i]?
  zero : ∀ header ∈ programHeaderTable, header.pType = 1 → ∀ i, header.pFilesz ≤ i →
    i < header.pMemsz → context.byte (header.pVaddr + i) = some 0
  occupied : ∀ header ∈ programHeaderTable, header.pType = 1 → ∀ o, header.required.covers o →
    Occupied context.occupation o

end Dandelion
