import Dandelion.Errors
import Dandelion.Paging
import Dandelion.Pages
import Dandelion.Usize

/-!
# Page tables of a virtual machine

`set_range` and `set_page_table` for x86-64. Guest memory and the tables in it are slices of
64 bit words; whatever would panic (an index outside a slice, an address below zero) is a
`crash`. The p2 and p1 tables share one array: each p2 table is followed by the 512 p1 tables
it could point to.
-/

open Outcome Paging

namespace Dandelion.Kvm

/-- 64-bit page directory entry bits. -/
def pde64Present : Nat := 1

def pde64Rw : Nat := 2

def pde64User : Nat := 4

def pde64AllAllowed : Nat := pde64Present ||| pde64Rw ||| pde64User

def pde64IsPage : Nat := 128

def largePage : Nat := 2 ^ 21

def hugePage : Nat := 2 ^ 30

def tableSize : Nat := 512

/-- `next_multiple_of` -/
def nextMultipleOf (n unit : Nat) : Nat := (n + (unit - 1)) / unit * unit

/-! ## Slices of words -/

structure Words where
  length : Nat
  word : Nat → Nat

namespace Words

def set (words : Words) (i value : Nat) : DandelionResult Words :=
  if i < words.length then pure { words with word := Function.update words.word i value } else crash

def fill (words : Words) (start past value : Nat) : DandelionResult Words :=
  if start ≤ past ∧ past ≤ words.length then
    pure { words with word := fun i => if start ≤ i ∧ i < past then value else words.word i }
  else crash

/-- The words of the bytes from `address` on, which `u8_slice_to_u64_slice` wants aligned. -/
def slice (words : Words) (address bytes : Nat) : DandelionResult Words :=
  if address % 8 = 0 ∧ address + bytes ≤ 8 * words.length then
    pure ⟨bytes / 8, fun i => words.word (address / 8 + i)⟩
  else crash

/-- The memory after its words from `address` on have become those of `part`. -/
def splice (words : Words) (address : Nat) (part : Words) : Words :=
  { words with word := fun i =>
      if address / 8 ≤ i ∧ i < address / 8 + part.length then part.word (i - address / 8)
      else words.word i }

end Words

/-! ## Ranges -/

/-- The p2 table of a page in the joint array, and its entry there. -/
def getP2 (currentPageEntry : Nat) : Nat × Nat :=
  (currentPageEntry / (tableSize * tableSize) * (tableSize + 1) * tableSize,
    currentPageEntry / tableSize % tableSize)

/-- The loop of `set_range`; it ends with the table and the page it stopped at. -/
def setPages (tableBase protectionFlags pastLastPage : Nat) (tableArray : Words)
    (currentPageEntry basePhysical : Nat) : DandelionResult (Words × Nat) :=
  if currentPageEntry < pastLastPage then
    let p2Base := (getP2 currentPageEntry).1
    let p2Entry := (getP2 currentPageEntry).2
    let p1Offset := currentPageEntry % tableSize
    if p1Offset = 0 ∧ currentPageEntry + tableSize ≤ pastLastPage then do
      let tableArray ← tableArray.set (p2Base + p2Entry)
        (protectionFlags ||| pde64IsPage ||| basePhysical)
      setPages tableBase protectionFlags pastLastPage tableArray (currentPageEntry + tableSize)
        (basePhysical + largePage)
    else do
      let tableArray ← if p1Offset = 0 then
          tableArray.set (p2Base + p2Entry)
            (pde64AllAllowed ||| (tableBase + (p2Base + (1 + p2Entry) * tableSize) * 8))
        else pure tableArray
      let p1Base := p2Base + (1 + p2Entry) * tableSize
      let tableArray ← tableArray.set (p1Base + p1Offset) (protectionFlags ||| basePhysical)
      setPages tableBase protectionFlags pastLastPage tableArray (currentPageEntry + 1)
        (basePhysical + pageSize)
  else pure (tableArray, currentPageEntry)
termination_by pastLastPage - currentPageEntry
decreasing_by
  all_goals
    unfold tableSize at *
    omega

/-- Set up the p1 table of the first page of a range, up to that page; this has been done if the
previous range ends in the same region. -/
def startTable (tableArray : Words) (tableBase currentPageEntry previousPastLastPage : Nat) :
    DandelionResult Words :=
  if nextMultipleOf previousPastLastPage tableSize ≤ currentPageEntry
      ∧ currentPageEntry % tableSize ≠ 0 then do
    let p2Base := (getP2 currentPageEntry).1
    let p2Entry := (getP2 currentPageEntry).2
    let p1Offset := p2Base + (1 + p2Entry) * tableSize
    let tableArray ← tableArray.set (p2Base + p2Entry)
      (pde64AllAllowed ||| (tableBase + p1Offset * 8))
    tableArray.fill p1Offset (p1Offset + currentPageEntry % tableSize) 0
  else pure tableArray

/-- Clear what remains of a p1 table that was started. -/
def clearTable (tableArray : Words) (currentPageEntry : Nat) : DandelionResult Words :=
  if currentPageEntry % tableSize ≠ 0 then
    let lastIndex := currentPageEntry
      + tableSize * (1 + currentPageEntry / (tableSize * tableSize))
    tableArray.fill lastIndex (nextMultipleOf lastIndex tableSize) 0
  else pure tableArray

/-- `set_range`: the table, and the page past the range for the next call. -/
def setRange (tableArray : Words) (tableBase virtualStart virtualEnd protectionFlags basePhysical
    previousPastLastPage : Nat) : DandelionResult (Words × Nat) := do
  let currentPageEntry := virtualStart / pageSize
  let pastLastPage := virtualEnd / pageSize
  let tableArray ← startTable tableArray tableBase currentPageEntry previousPastLastPage
  let (tableArray, currentPageEntry) ←
    setPages tableBase protectionFlags pastLastPage tableArray currentPageEntry basePhysical
  let tableArray ← clearTable tableArray currentPageEntry
  return (tableArray, pastLastPage)

/-! ## The tables of a machine -/

structure PageFaultMetadata where
  p4Address : Nat
  p3Address : Nat
  tableBase : Nat
  stackStart : Nat

/-- A range of addresses, up to its last byte, and the block it is a copy of, if any. -/
abbrev PresentRange := Nat × Nat × Option Nat

/-- Point an entry of the p3 table to its p2 table, and clear that. -/
def linkTable (tableBase : Nat) (tables : Words × Words) (p3Entry : Nat) :
    DandelionResult (Words × Words) := do
  let p2Address := tableBase + p3Entry * ((tableSize + 1) * pageSize)
  let p3Table ← tables.1.set p3Entry (pde64AllAllowed ||| p2Address)
  let startIndex := p3Entry * (tableSize + 1) * tableSize
  let tableArray ← tables.2.fill startIndex (startIndex + tableSize) 0
  return (p3Table, tableArray)

/-- Point the p3 table to all p2 tables. -/
def linkTables (tableBase p2TableNumber : Nat) (p3Table tableArray : Words) :
    DandelionResult (Words × Words) := do
  let (p3Table, tableArray) ←
    (List.range p2TableNumber).foldlM (linkTable tableBase) (p3Table, tableArray)
  let p3Table ← p3Table.fill p2TableNumber p3Table.length 0
  return (p3Table, tableArray)

/-- Enter a present range: a copy on write block is mapped without write permission. -/
def setPresent (tableBase : Nat) (tableArray : Words) (previousPastLastPage : Nat)
    (range : PresentRange) : DandelionResult (Words × Nat) :=
  let (guestVirtualStart, guestVirtualEnd, originOption) := range
  let (protectionFlags, basePhysical) := match originOption with
    | some guestPhysical => (pde64Present ||| pde64User, guestPhysical)
    | none => (pde64AllAllowed, guestVirtualStart)
  setRange tableArray tableBase guestVirtualStart (guestVirtualEnd + 1) protectionFlags basePhysical
    previousPastLastPage

/-- The calls of `set_range` that `set_page_table` makes. -/
def mapRanges (tableArray : Words) (tableBase p4Address : Nat) (presentPages : List PresentRange)
    (interruptRange : Nat × Nat) (lastAddress : Nat) : DandelionResult Words := do
  let (tableArray, previousPastLastPage) ← presentPages.foldlM
    (fun state range => setPresent tableBase state.1 state.2 range) (tableArray, 0)
  let stackPageStart := tableBase / largePage * largePage
  let (tableArray, previousPastLastPage) ← setRange tableArray tableBase stackPageStart tableBase
    pde64AllAllowed stackPageStart previousPastLastPage
  -- the page tables and the handlers are for root mode, as are the blocks, read only
  let (tableArray, previousPastLastPage) ← setRange tableArray tableBase tableBase
    (p4Address + pageSize) (pde64Present ||| pde64Rw) tableBase previousPastLastPage
  let (tableArray, previousPastLastPage) ← setRange tableArray tableBase interruptRange.1
    interruptRange.2 (pde64Present ||| pde64Rw) interruptRange.1 previousPastLastPage
  let (tableArray, _) ← setRange tableArray tableBase interruptRange.2 lastAddress pde64Present
    interruptRange.2 previousPastLastPage
  return tableArray

/-- How many p2 tables are needed for the memory up to an address. -/
def p2TableNumber (lastAddress : Nat) : Nat := nextMultipleOf lastAddress hugePage / hugePage

/-- The p4 table, which only has 1 entry at the start, the single p3 table. -/
def rootTable (guestMem : Words) (p4Address p3Address : Nat) : DandelionResult Words := do
  let p4Table ← guestMem.slice p4Address pageSize
  let p4Table ← p4Table.fill 0 p4Table.length 0
  p4Table.set 0 (pde64AllAllowed ||| p3Address)

/-- The ranges must end below the tables. -/
def checkPresent (stackStart : Nat) (presentPages : List PresentRange) : DandelionResult Unit :=
  match presentPages.getLast? with
  | some range => if stackStart ≤ range.2.1 then fail .contextFull else pure ()
  | none => pure ()

/-- `set_page_table`: the guest memory afterwards, the root of the tables for `cr3`, and what is
returned. -/
def setPageTable (guestMem : Words) (presentPages : List PresentRange) (stackStart : Nat)
    (interruptRange : Nat × Nat) (lastAddress : Nat) :
    DandelionResult (Words × Nat × PageFaultMetadata) := do
  -- an address that wraps around is outside the memory that is split there
  let p4Address ← Usize.sub .checked stackStart pageSize
  let p3Address ← Usize.sub .checked p4Address pageSize
  if ¬ lastAddress < 2 ^ 39 then crash
  let p1TableNumber := p2TableNumber lastAddress * tableSize
  let tableBytes := (p2TableNumber lastAddress + p1TableNumber) * pageSize
  let tableBase ← Usize.sub .checked p3Address tableBytes
  let p4Table ← rootTable guestMem p4Address p3Address
  let p3Table ← guestMem.slice p3Address pageSize
  let tableArray ← guestMem.slice tableBase tableBytes
  let (p3Table, tableArray) ← linkTables tableBase (p2TableNumber lastAddress) p3Table tableArray
  checkPresent tableBase presentPages
  let tableArray ← mapRanges tableArray tableBase p4Address presentPages interruptRange lastAddress
  let stackPageStart := tableBase / largePage * largePage
  let guestMem ← guestMem.fill (stackPageStart / 8) (tableBase / 8) 0
  let guestMem := ((guestMem.splice p4Address p4Table).splice p3Address p3Table).splice tableBase
    tableArray
  return (guestMem, p4Address, ⟨p4Address, p3Address, tableBase, tableBase⟩)

end Dandelion.Kvm
