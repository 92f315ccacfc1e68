import Dandelion.CompositionSet
import Dandelion.Contexts
import Dandelion.MemoryPool

/-!
# Loading a function and its inputs

`load_static` copies the static sections of a function into a fresh context and marks the space up
to the end of the last one as occupied. `run_thread` then adds a set for each input of the function
and transfers the items of the set into free space.
-/

namespace Dandelion

open Outcome Stateful

/-! ## Items -/

/-- The item that is to be transferred. -/
def Context.itemAt (source : Context) (setIndex itemIndex : Nat) : DandelionResult DataItem :=
  match source.content[setIndex]? with
  | none => fail .transferInputNoSetAvailable
  | some none => fail .emptyDataSet
  | some (some set) =>
    match set.buffers[itemIndex]? with
    | none => fail .transferInputNoSetAvailable
    | some item => pure item

/-- `resize_with(length, || None)` on a shorter vector. -/
def resizeContent (content : List (Option DataSet)) (length : Nat) : List (Option DataSet) :=
  content ++ List.replicate (length - content.length) none

/-- Push an item to the set at an index, which is created if there is none. -/
def addItem (content : List (Option DataSet)) (index : Nat) (name : String) (item : DataItem) :
    List (Option DataSet) :=
  let set := (content[index]?.join).getD ⟨name, []⟩
  content.set index (some { set with buffers := set.buffers ++ [item] })

/-- Where an item goes. For a KVM context a large one gets a place from which whole pages can be
taken over. -/
def destinationSpace (destination : Context) (position : Position) (alignment : Nat) :
    DandelionResult (Nat × List Position) :=
  match destination.context with
  | .stored (.kvm _) =>
    if 2 * pageSize < position.size ∧ position.offset % alignment = 0 then do
      let (index, start) ← getTransferOffset .checked destination.occupation position.offset
        destination.size position.size
      let occupation ← insertOccupation .checked destination.occupation index start position.size
      pure (start, occupation)
    else getFreeSpace .checked destination.size destination.occupation position.size alignment
  | _ => getFreeSpace .checked destination.size destination.occupation position.size alignment

/-- The destination is the state. -/
def transferDataItem (source : Context) (destinationSetIndex alignment : Nat)
    (destinationSetName : String) (sourceSetIndex sourceItemIndex : Nat) :
    Stateful DandelionError Context Unit := do
  let sourceItem ← lift (source.itemAt sourceSetIndex sourceItemIndex)
  modify fun destination =>
    { destination with content := resizeContent destination.content (destinationSetIndex + 1) }
  -- the offset is taken modulo the alignment
  if alignment = 0 then lift crash
  else do
    let destination ← get
    let (start, occupation) ← lift (destinationSpace destination sourceItem.data alignment)
    let (context, result) := transferMemory destination.context source start sourceItem.data.offset
      sourceItem.data.size
    let item := ⟨sourceItem.ident, ⟨start, sourceItem.data.size⟩, sourceItem.key⟩
    set { destination with
      context
      content := addItem destination.content destinationSetIndex destinationSetName item
      occupation }
    lift result

/-! ## Static sections -/

/-- What an MMU domain returns for a context of the given size: memory of whole slabs of a pool,
whose slabs are counted in 32 bits. -/
inductive MmuAcquired (contextSize : Nat) : Context → Prop
  | mk (storage : List UInt8)
      (hlength : storage.length = (contextSize + slabSize - 1) / slabSize * slabSize)
      (hpool : contextSize < (2 ^ 32 - 1) * slabSize) :
      MmuAcquired contextSize (Context.new (.stored (.mmu storage)) storage.length)

/-- The loop over the static items and the places they are required at; returns the end of the last
one. -/
def loadItems (staticContext : Context) :
    List (DataItem × Position) → ContextType → Nat → DandelionResult (ContextType × Nat)
  | [], context, maxEnd => pure (context, maxEnd)
  | (item, requirement) :: pairs, context, maxEnd =>
    if requirement.size < item.data.size then fail .configMissmatch
    else
      match transferMemory context staticContext requirement.offset item.data.offset item.data.size with
      | (_, .error stop) => .error stop
      | (context, .ok ()) => do
        let requirementEnd ← Usize.add .checked requirement.offset requirement.size
        loadItems staticContext pairs context (max maxEnd requirementEnd)

/-- `load_static` on the context that was acquired for the function. -/
def loadStatic (acquired staticContext : Context) (staticRequirements : List Position) :
    DandelionResult Context :=
  match staticContext.content with
  | [some staticSet] =>
    if staticSet.buffers.length ≠ staticRequirements.length then fail .configMissmatch
    else do
      let (context, maxEnd) ← loadItems staticContext (staticSet.buffers.zip staticRequirements)
        acquired.context 0
      -- round up to next page
      let pageEnd ← Usize.add .checked maxEnd 4095
      let occupation ← occupySpace .checked acquired.size acquired.occupation 0 (pageEnd / 4096 * 4096)
      pure { acquired with context, occupation }
  | _ => fail .configMissmatch

/-! ## Inputs -/

/-- The transfers that iterating over a set asks for. -/
def transferIterator (set : CompositionSet Context) : List (Nat × Nat × Context) :=
  set.itemList.map fun item => (set.setIndex, item.2.1, item.2.2)

/-- The static set of an input, or the one that was passed for it. -/
def transferOption (inputSets : List (Option (CompositionSet Context))) (setIndex : Nat)
    (staticSet : Option (CompositionSet Context)) : Option (CompositionSet Context) :=
  staticSet.or inputSets[setIndex]?.join

def transferItems (setIndex : Nat) (setName : String) :
    List (Nat × Nat × Context) → Stateful DandelionError Context Unit
  | [] => pure ()
  | (sourceSetIndex, sourceItemIndex, source) :: calls => do
    transferDataItem source setIndex 128 setName sourceSetIndex sourceItemIndex
    transferItems setIndex setName calls

/-- The loop of `run_thread` over the inputs of a function. -/
def transferInputs (inputSets : List (Option (CompositionSet Context))) :
    List (String × Option (CompositionSet Context)) → Nat → Stateful DandelionError Context Unit
  | [], _ => pure ()
  | (setName, staticSet) :: metadata, setIndex => do
    modify fun context => { context with content := context.content ++ [some ⟨setName, []⟩] }
    if let some set := transferOption inputSets setIndex staticSet then
      transferItems setIndex setName (transferIterator set)
    transferInputs inputSets metadata (setIndex + 1)

end Dandelion
