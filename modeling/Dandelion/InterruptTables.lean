import Dandelion.Bson
import Dandelion.PageTables

/-!
# Interrupt tables of a virtual machine

`set_interrupt_table` for x86-64: the handlers, the descriptor tables behind them and the stack
of the handlers, in pages at the end of what is free. Guest memory is given by its bytes; an
index outside it is a `crash`.
-/

open Outcome Bson

namespace Dandelion.Kvm

/-- Guest memory. -/
structure GuestMem where
  length : Nat
  byte : Nat → UInt8

namespace GuestMem

/-- `guest_mem[start..past]` -/
def slice (mem : GuestMem) (start past : Nat) : DandelionResult Unit :=
  if start ≤ past ∧ past ≤ mem.length then pure () else crash

/-- `guest_mem[start..past].fill(0)` -/
def fillZero (mem : GuestMem) (start past : Nat) : DandelionResult GuestMem := do
  mem.slice start past
  pure { mem with byte := fun i => if start ≤ i ∧ i < past then 0 else mem.byte i }

/-- `guest_mem[start..start + bytes.len()].copy_from_slice(bytes)` -/
def copy (mem : GuestMem) (start : Nat) (bytes : List UInt8) : DandelionResult GuestMem := do
  mem.slice start (start + bytes.length)
  pure { mem with byte := fun i =>
    if start ≤ i then (bytes[i - start]?).getD (mem.byte i) else mem.byte i }

/-- The memory as words, as the page tables see it. -/
def words (mem : GuestMem) : Words where
  length := mem.length / 8
  word i := ofLeBytes ((List.range 8).map fun j => mem.byte (8 * i + j))

end GuestMem

/-- The code of the fault handlers, and where the handler of an interrupt is in it. -/
structure FaultHandlers where
  code : List UInt8
  entry : Nat → Nat

/-- Base and limit of a descriptor table. -/
structure DescriptorTable where
  base : Nat
  limit : Nat

/-- The segment of the task state. -/
structure TaskSegment where
  base : Nat
  limit : Nat
  selector : Nat
  type : Nat
  present : Nat

/-- The special registers that are set for interrupts. -/
structure InterruptRegisters where
  gdt : DescriptorTable
  tr : TaskSegment
  idt : DescriptorTable

def gdtSize : Nat := 80

def tssSize : Nat := 104

/-- The registers for tables from `gdt` on: the segments, the task state, the gates. -/
def interruptRegisters (gdt : Nat) : InterruptRegisters where
  gdt := ⟨gdt, gdtSize - 1⟩
  tr := ⟨gdt + gdtSize, tssSize - 1, 10 <<< 3, 11, 1⟩
  idt := ⟨gdt + gdtSize + tssSize, 33 * 16 - 1⟩

/-- `setup_segement` on the 16 bytes from `start` on. -/
def setupSegment (mem : GuestMem) (start privilegeLevel segmentType : Nat) :
    DandelionResult GuestMem := do
  mem.slice start (start + 16)
  let mem ← mem.copy start [0xFF, 0xFF]
  mem.copy (start + 5)
    [UInt8.ofNat (1 <<< 7 ||| privilegeLevel <<< 5 ||| 1 <<< 4 ||| segmentType),
      UInt8.ofNat (1 <<< 7 ||| 1 <<< 5 ||| 0xF)]

/-- `setup_interrupt_gate` on the 16 bytes from `start` on. -/
def setupInterruptGate (mem : GuestMem) (start selector address : Nat) :
    DandelionResult GuestMem := do
  mem.slice start (start + 16)
  let addressArray := leBytes 8 address
  let mem ← mem.copy start (addressArray.take 2)
  let mem ← mem.copy (start + 6) (addressArray.drop 2)
  let mem ← mem.copy (start + 2) (leBytes 2 selector)
  mem.copy (start + 4) [1, UInt8.ofNat (1 <<< 7 ||| 3 <<< 5 ||| 0xF)]

/-- The kernel and the user segments of the global descriptor table. -/
def setupSegments (mem : GuestMem) (gdt : Nat) : DandelionResult GuestMem := do
  let mem ← setupSegment mem (gdt + 16) 0 10
  let mem ← setupSegment mem (gdt + 32) 0 2
  let mem ← setupSegment mem (gdt + 48) 3 10
  setupSegment mem (gdt + 64) 3 2

/-- The gates of the interrupts up to 32. -/
def setupGates (handlers : FaultHandlers) (mem : GuestMem) (interruptHandler idtBase : Nat) :
    DandelionResult GuestMem :=
  (List.range 33).foldlM (fun mem i =>
    setupInterruptGate mem (idtBase + i * 16) (2 <<< 3) (interruptHandler + handlers.entry i)) mem

/-- A page for the descriptor tables: the rest of the page of the handlers, or another one. -/
def descriptorPage (handlers : FaultHandlers) (mem : GuestMem) (interruptHandler stackStart : Nat) :
    DandelionResult (GuestMem × Nat × Nat) :=
  let roundedHandler := nextMultipleOf handlers.code.length 8
  if roundedHandler + (gdtSize + tssSize) < pageSize then
    pure (mem, interruptHandler + roundedHandler, stackStart)
  else do
    let stackStart ← Usize.sub .checked stackStart pageSize
    let mem ← mem.fillZero stackStart (stackStart + pageSize)
    pure (mem, stackStart, stackStart)

/-- `set_interrupt_table`: the memory, the registers and the start of the stack afterwards. -/
def setInterruptTable (handlers : FaultHandlers) (mem : GuestMem) (stackStart : Nat) :
    DandelionResult (GuestMem × InterruptRegisters × Nat) := do
  let interruptHandler ← Usize.sub .checked stackStart pageSize
  let mem ← mem.fillZero interruptHandler (interruptHandler + pageSize)
  let (mem, gdt, stackStart) ← descriptorPage handlers mem interruptHandler interruptHandler
  let tssStart := gdt + gdtSize
  let tssEnd := tssStart + tssSize
  let mem ← setupSegments mem gdt
  -- the task state holds the top of the stack of the handlers
  mem.slice tssStart tssEnd
  let mem ← mem.copy (tssStart + 36) (leBytes 8 stackStart)
  let stackStart ← Usize.sub .checked stackStart pageSize
  let mem ← mem.fillZero stackStart (stackStart + pageSize)
  let mem ← mem.copy interruptHandler handlers.code
  let mem ← setupGates handlers mem interruptHandler tssEnd
  pure (mem, interruptRegisters gdt, stackStart)

/-! ## Inside the memory -/

/-- The call ends with a memory of the given length. -/
def Fits (x : DandelionResult GuestMem) (length : Nat) : Prop :=
  ∃ mem, x = .ok mem ∧ mem.length = length

theorem Fits.bind {x : DandelionResult GuestMem} {f : GuestMem → DandelionResult GuestMem}
    {length : Nat} (h : Fits x length) (hf : ∀ mem, mem.length = length → Fits (f mem) length) :
    Fits (x >>= f) length := by
  obtain ⟨mem, rfl, hlength⟩ := h
  exact hf mem hlength

section Memory

variable {mem : GuestMem} {length : Nat} (hlength : mem.length = length)
include hlength

theorem slice_eq_ok {start past : Nat} (hle : start ≤ past) (hpast : past ≤ length) :
    mem.slice start past = .ok () :=
  if_pos ⟨hle, hlength ▸ hpast⟩

theorem fits_fillZero {start past : Nat} (hle : start ≤ past) (hpast : past ≤ length) :
    Fits (mem.fillZero start past) length := by
  rw [GuestMem.fillZero, slice_eq_ok hlength hle hpast]
  exact ⟨_, rfl, hlength⟩

theorem fits_copy (start : Nat) (bytes : List UInt8) (hpast : start + bytes.length ≤ length) :
    Fits (mem.copy start bytes) length := by
  rw [GuestMem.copy, slice_eq_ok hlength (Nat.le_add_right _ _) hpast]
  exact ⟨_, rfl, hlength⟩

theorem fits_setupSegment {start : Nat} (privilegeLevel segmentType : Nat)
    (hpast : start + 16 ≤ length) :
    Fits (setupSegment mem start privilegeLevel segmentType) length := by
  rw [setupSegment, slice_eq_ok hlength (Nat.le_add_right _ _) hpast, ok_bind]
  have hpast' : start + 7 ≤ length := by omega
  refine (fits_copy hlength _ _ ?_).bind fun mem hmem => fits_copy hmem _ _ hpast'
  exact Nat.le_trans (Nat.add_le_add_left (by decide : 2 ≤ 7) start) hpast'

theorem fits_setupInterruptGate {start : Nat} (selector address : Nat)
    (hpast : start + 16 ≤ length) :
    Fits (setupInterruptGate mem start selector address) length := by
  rw [setupInterruptGate, slice_eq_ok hlength (Nat.le_add_right _ _) hpast, ok_bind]
  refine (fits_copy hlength _ _ ?_).bind fun mem hmem => ?_
  · rw [List.length_take, length_leBytes]
    omega
  refine (fits_copy hmem _ _ ?_).bind fun mem hmem => ?_
  · rw [List.length_drop, length_leBytes]
    omega
  refine (fits_copy hmem _ _ ?_).bind fun mem hmem => fits_copy hmem _ _ ?_
  · rw [length_leBytes]
    omega
  · simp only [List.length_cons, List.length_nil]
    omega

theorem fits_setupSegments (gdt : Nat) (hpast : gdt + gdtSize ≤ length) :
    Fits (setupSegments mem gdt) length := by
  unfold gdtSize at hpast
  refine (fits_setupSegment hlength 0 10 (by omega)).bind fun mem hmem => ?_
  refine (fits_setupSegment hmem 0 2 (by omega)).bind fun mem hmem => ?_
  refine (fits_setupSegment hmem 3 10 (by omega)).bind fun mem hmem => ?_
  exact fits_setupSegment hmem 3 2 (by omega)

theorem fits_setupGates (handlers : FaultHandlers) (interruptHandler idtBase : Nat)
    (hpast : idtBase + 33 * 16 ≤ length) :
    Fits (setupGates handlers mem interruptHandler idtBase) length := by
  have hfold : ∀ n ≤ 33, Fits ((List.range n).foldlM (fun mem i => setupInterruptGate mem
      (idtBase + i * 16) (2 <<< 3) (interruptHandler + handlers.entry i)) mem) length := by
    intro n hn
    induction n with
    | zero => exact ⟨mem, rfl, hlength⟩
    | succ n ih =>
      rw [List.range_succ, List.foldlM_append]
      refine (ih (by omega)).bind fun mem hmem => ?_
      rw [List.foldlM_cons]
      refine (fits_setupInterruptGate hmem _ _ (by omega)).bind fun mem hmem => ?_
      exact ⟨mem, rfl, hmem⟩
  exact hfold 33 (Nat.le_refl 33)

end Memory

/-- The handlers and all descriptor tables fit in one page. -/
def FaultHandlers.OnePage (handlers : FaultHandlers) : Prop :=
  nextMultipleOf handlers.code.length 8 + (gdtSize + tssSize) + 33 * 16 ≤ pageSize

section Call

variable {handlers : FaultHandlers} (hhandlers : handlers.OnePage) {mem : GuestMem} {stackStart : Nat}
  (hle : stackStart ≤ mem.length)
include hhandlers

theorem FaultHandlers.OnePage.code_le : handlers.code.length ≤ pageSize := by
  unfold OnePage nextMultipleOf at hhandlers
  omega

theorem descriptorPage_eq (interruptHandler stackStart : Nat) :
    descriptorPage handlers mem interruptHandler stackStart =
      .ok (mem, interruptHandler + nextMultipleOf handlers.code.length 8, stackStart) := by
  unfold FaultHandlers.OnePage at hhandlers
  exact if_pos (by omega)

include hle

/-- With a page for the handlers, all that is left to go wrong is the page for their stack. -/
theorem setInterruptTable_bind (hroom : pageSize ≤ stackStart) :
    ∃ mem₃ : GuestMem, mem₃.length = mem.length ∧
      setInterruptTable handlers mem stackStart = (do
        let gdt := stackStart - pageSize + nextMultipleOf handlers.code.length 8
        let stackTop ← Usize.sub .checked (stackStart - pageSize) pageSize
        let mem ← mem₃.fillZero stackTop (stackTop + pageSize)
        let mem ← mem.copy (stackStart - pageSize) handlers.code
        let mem ← setupGates handlers mem (stackStart - pageSize) (gdt + gdtSize + tssSize)
        pure (mem, interruptRegisters gdt, stackTop)) := by
  have hpage := hhandlers
  unfold FaultHandlers.OnePage at hpage
  obtain ⟨mem₁, heq₁, h₁⟩ := fits_fillZero (rfl : mem.length = mem.length)
    (Nat.le_add_right (stackStart - pageSize) pageSize) (by omega)
  obtain ⟨mem₂, heq₂, h₂⟩ := fits_setupSegments h₁
    (stackStart - pageSize + nextMultipleOf handlers.code.length 8) (by omega)
  obtain ⟨mem₃, heq₃, h₃⟩ := fits_copy h₂
    (stackStart - pageSize + nextMultipleOf handlers.code.length 8 + gdtSize + 36)
    (leBytes 8 (stackStart - pageSize)) (by rw [length_leBytes]; unfold tssSize at hpage; omega)
  refine ⟨mem₃, h₃, ?_⟩
  rw [setInterruptTable, Usize.sub_eq_ok hroom, ok_bind, heq₁, ok_bind,
    descriptorPage_eq hhandlers, ok_bind]
  dsimp only
  rw [heq₂, ok_bind, slice_eq_ok h₂ (Nat.le_add_right _ _) (by omega), ok_bind, heq₃, ok_bind]

/-- `set_interrupt_table` takes the last two pages of what is free. -/
theorem setInterruptTable_eq_ok (hroom : 2 * pageSize ≤ stackStart) :
    ∃ mem', setInterruptTable handlers mem stackStart = .ok (mem',
        interruptRegisters (stackStart - pageSize + nextMultipleOf handlers.code.length 8),
        stackStart - 2 * pageSize) ∧ mem'.length = mem.length := by
  have hcode := hhandlers.code_le
  have hpage := hhandlers
  unfold FaultHandlers.OnePage at hpage
  have hstack : stackStart - pageSize - pageSize = stackStart - 2 * pageSize := by omega
  obtain ⟨mem₃, h₃, hcall⟩ := setInterruptTable_bind hhandlers hle (by omega)
  obtain ⟨mem₄, heq₄, h₄⟩ := fits_fillZero h₃
    (Nat.le_add_right (stackStart - 2 * pageSize) pageSize) (by omega)
  obtain ⟨mem₅, heq₅, h₅⟩ := fits_copy h₄ (stackStart - pageSize) handlers.code (by omega)
  obtain ⟨mem₆, heq₆, h₆⟩ := fits_setupGates h₅ handlers (stackStart - pageSize)
    (stackStart - pageSize + nextMultipleOf handlers.code.length 8 + gdtSize + tssSize) (by omega)
  refine ⟨mem₆, ?_, h₆⟩
  rw [hcall, Usize.sub_eq_ok (by omega), ok_bind, hstack, heq₄, ok_bind, heq₅, ok_bind, heq₆]
  rfl

/-- Without these two pages the start of the stack would be below zero. -/
theorem setInterruptTable_eq_crash (hroom : stackStart < 2 * pageSize) :
    setInterruptTable handlers mem stackStart = crash := by
  by_cases hpage : pageSize ≤ stackStart
  · obtain ⟨mem₃, -, hcall⟩ := setInterruptTable_bind hhandlers hle hpage
    rw [hcall, Usize.sub_eq_crash (by omega)]
    rfl
  · rw [setInterruptTable, Usize.sub_eq_crash (by omega)]
    rfl

end Call

end Dandelion.Kvm
