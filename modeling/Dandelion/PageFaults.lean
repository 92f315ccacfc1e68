import Dandelion.PagedMachine
import Dandelion.PageTables
import Dandelion.Transitions

/-!
# Page faults of a function

`page_fault_exception_handler`, register by register: `and` with `~0xFFF` clears the offset in a
page, `shr` is a division, and sums wrap around at 64 bits. The handler runs in root mode behind
the tables it changes; a fault of its own stops the machine, as `out 14` does. Registers that are
saved and restored and the invalidation of a cached translation are left out. A machine runs by
stores of the function and by its page faults.
-/

open Outcome Stateful Paging PagedMachine

namespace Dandelion.Kvm

/-- The ways in which the handler does not return to the function. -/
inductive HandlerStop where
  | abort
  | nestedFault
deriving DecidableEq, Repr

abbrev Handler := Stateful HandlerStop Machine

/-- The offset of the entry of an address in its table: `shr`, then `and` with `0xFF8`. -/
def entryOffset (address shift : Nat) : Nat := address / 2 ^ shift % 2 ^ 12 / 8 * 8

/-- `and` with `~0xFFF` -/
def pageAddress (value : Nat) : Nat := value / 4096 * 4096

def wrap (value : Nat) : Nat := value % 2 ^ 64

section Handler

variable (root : Nat)

/-- Rounds of eight vectors of zeros. -/
@[irreducible] def zeroPage (address : Nat) : Handler PUnit :=
  times (fun round => storeVectors .nestedFault root (address + 256 * round)
    (List.replicate 8 [0, 0, 0, 0]) 8) 16

/-- Rounds of eight vectors: all are loaded before the first is stored. -/
@[irreducible] def copyPage (source target : Nat) : Handler PUnit :=
  times (fun round => do
    let vectors ← loadVectors .nestedFault root (source + 256 * round) 8
    storeVectors .nestedFault root (target + 256 * round) vectors 8) 16

/-- Entries for one page after the other, from the entry `rax` on. -/
@[irreducible] def fillTable (r15 rax : Nat) : Handler PUnit :=
  times (fun i => storeWords .nestedFault root (wrap (r15 + 8 * i)) [wrap (rax + pageSize * i)])
    tableSize

variable (cr2 : Nat)

/-- Label 3: set the p1 entry and zero the page. -/
def demandPage (r13 r15 : Nat) : Handler PUnit := do
  let rbx := pageAddress cr2
  storeWords .nestedFault root (wrap (r15 + r13)) [rbx ||| pde64AllAllowed]
  zeroPage root rbx

/-- Label 2: zero the p1 table and insert the mapping. -/
def demandTable (r12 r13 r14 r15 : Nat) : Handler PUnit := do
  zeroPage root r15
  storeWords .nestedFault root (wrap (r14 + r12)) [r15 ||| pde64AllAllowed]
  demandPage root cr2 r13 r15

/-- Label 5: map the page to itself, and copy the page it was mapped to. -/
def copyOnWrite (r8 r9 r13 r15 : Nat) : Handler PUnit := do
  let rbx := pageAddress cr2
  storeWords .nestedFault root (wrap (r15 + r13)) [rbx ||| pde64AllAllowed]
  let rcx := if isPage r8 then r8 else r9
  let rax := wrap (r13 * 512 + rcx / largePage * largePage)
  copyPage root rax rbx

/-- Label 4: map the pages of a large page one by one. -/
def splitPage (r8 r9 r12 r13 r14 r15 : Nat) : Handler PUnit := do
  fillTable root r15 (pageAddress r8 + r8 % 2 + r8 / 4 % 2 * 4)
  storeWords .nestedFault root (wrap (r14 + r12)) [r15 ||| pde64AllAllowed]
  copyOnWrite root cr2 r8 r9 r13 r15

/-- What is done with the p2 entry `r8` and the p1 entry `r9`, which may not be valid. -/
def handleEntries (r8 r9 r12 r13 r14 r15 : Nat) : Handler PUnit :=
  if ¬ present r8 then demandTable root cr2 r12 r13 r14 r15
  else if ¬ user r8 then lift (fail .abort)
  else if isPage r8 then splitPage root cr2 r8 r9 r12 r13 r14 r15
  else if ¬ present r9 then demandPage root cr2 r13 r15
  else if user r9 then copyOnWrite root cr2 r8 r9 r13 r15
  else lift (fail .abort)

end Handler

@[irreducible] def pageFaultExceptionHandler (cr2 cr3 : Nat) : Handler PUnit := do
  let root := cr3 / pageSize
  let r12 := entryOffset cr2 18
  let r13 := entryOffset cr2 9
  let rbx ← load .nestedFault root (wrap (entryOffset cr2 36 + cr3))
  let r14 ← load .nestedFault root (wrap (entryOffset cr2 27 + pageAddress rbx))
  let r14 := pageAddress r14
  let r15 := wrap (r12 * 512 + pageSize + r14)
  let r8 ← load .nestedFault root (wrap (r14 + r12))
  let r9 ← load .nestedFault root (wrap (r15 + r13))
  handleEntries root cr2 r8 r9 r12 r13 r14 r15

/-! ## Runs of a machine -/

/-- A store of the function to a word of its address space, or a page fault. -/
inductive Event where
  | store (word value : Nat)
  | fault (cr2 : Nat)

/-- The function may write the address, so that no store to it and no other access faults. -/
def mayWrite (memory : Nat → Nat) (cr3 address : Nat) : Bool :=
  (translate memory (cr3 / pageSize) address).any fun t => t.writable && t.user

/-- The memory after an event, if that can happen and the machine goes on. -/
def stepMachine (cr3 : Nat) (memory : Nat → Nat) : Event → Option (Nat → Nat)
  | .store word value =>
    match translate memory (cr3 / pageSize) (8 * word) with
    | some t =>
      if t.writable && t.user then
        some (Function.update memory (512 * t.frame + word % 512) value)
      else none
    | none => none
  | .fault cr2 =>
    if Canonical cr2 ∧ mayWrite memory cr3 cr2 = false then
      match exec (pageFaultExceptionHandler cr2 cr3) ⟨memory, []⟩ with
      | (.ok _, machine) => some machine.memory
      | (.error _, _) => none
    else none

end Dandelion.Kvm
