import Dandelion.InputTransfers

/-!
# Process functions get their inputs

The static sections are loaded into fresh MMU memory and the space up to their last page is
occupied. Whatever is transferred after that leaves them alone, so a function finds its sections
and all items of its inputs as they were in their sources.
-/

namespace Dandelion

open Outcome Stateful KvmContext

/-! ## The static sections -/

/-- An MMU context with memory of the given length. -/
def MmuOfLength (length : Nat) (context : DataContext) : Prop :=
  ∃ storage, context = .mmu storage ∧ storage.length = length

section Keep

variable {length : Nat} {context : DataContext} (h : MmuOfLength length context)
include h

theorem mmuOfLength_write (offset : Nat) (data : List UInt8) :
    MmuOfLength length (context.write offset data).1 := by
  obtain ⟨storage, rfl, hlength⟩ := h
  rw [ByteBacked.mmu.write_eq]
  cases hwrite : writeStorage storage offset data with
  | error stop => exact ⟨storage, rfl, hlength⟩
  | ok after =>
    obtain ⟨writeEnd, hadd, hwrite⟩ := (bind_eq_ok_iff _ _ _).mp hwrite
    obtain ⟨-, rfl⟩ := Usize.add_eq_ok_iff.mp hadd
    split_ifs at hwrite with hout
    · cases hwrite
    · obtain rfl := Except.ok.inj hwrite
      exact ⟨_, rfl, (length_copyInto (by omega)).trans hlength⟩

theorem mmuOfLength_transferStored (source : DataContext)
    (sourceSize destinationOffset sourceOffset size : Nat) :
    MmuOfLength length
      (transferStored context source sourceSize destinationOffset sourceOffset size).1 := by
  have hwrite := mmuOfLength_write h destinationOffset
  obtain ⟨storage, rfl, hlength⟩ := h
  have hdefault : source.CopiedByReads → MmuOfLength length
      (transferStored (.mmu storage) source sourceSize destinationOffset sourceOffset size).1 := by
    intro hcopied
    cases hread : source.read sourceOffset (List.replicate size 0) with
    | mk bytes result =>
      cases result with
      | error stop =>
        rw [transferStored_stop hcopied hread]
        exact ⟨storage, rfl, hlength⟩
      | ok value =>
        rw [transferStored_copy hcopied hread]
        exact hwrite bytes
  cases source with
  | malloc sourceStorage => exact hdefault trivial
  | readOnly sourceStorage => exact hdefault trivial
  | kvm sourceContext => exact hdefault trivial
  | mmu sourceStorage =>
    rw [transferStored, mmuTransfer]
    cases hcopy : storageTransfer storage sourceStorage destinationOffset sourceOffset size with
    | error stop => exact ⟨storage, rfl, hlength⟩
    | ok after =>
      obtain ⟨sourceEnd, hadd, hcopy⟩ := (bind_eq_ok_iff _ _ _).mp hcopy
      obtain ⟨-, rfl⟩ := Usize.add_eq_ok_iff.mp hadd
      split_ifs at hcopy with hin
      · cases hcopy
      · obtain ⟨destinationEnd, hadd, hcopy⟩ := (bind_eq_ok_iff _ _ _).mp hcopy
        obtain ⟨-, rfl⟩ := Usize.add_eq_ok_iff.mp hadd
        split_ifs at hcopy with hout
        · cases hcopy
        · obtain rfl := Except.ok.inj hcopy
          refine ⟨_, rfl, (length_copyInto ?_).trans hlength⟩
          rw [List.length_take, List.length_drop]
          omega
  | bytes frames =>
    rw [transferStored, bytestToMmuTransfer]
    cases hadd : (Usize.add .checked destinationOffset size : DandelionResult Nat) with
    | error stop => exact ⟨storage, rfl, hlength⟩
    | ok destinationEnd =>
      obtain ⟨-, rfl⟩ := Usize.add_eq_ok_iff.mp hadd
      dsimp only
      split_ifs with hout
      · exact ⟨storage, rfl, hlength⟩
      · refine ⟨_, rfl, (length_copyInto ?_).trans hlength⟩
        rw [length_readFrames, List.length_take, List.length_drop]
        omega

theorem mmuOfLength_moveOut (position : DataPosition) (offset itemSize : Nat) :
    MmuOfLength length (exec (moveOut position offset itemSize) context).2 := by
  cases position with
  | contextStorage stored storedSize actualOffset => exact mmuOfLength_transferStored h ..
  | responseInformationStorage body =>
    rw [moveOut]
    split_ifs with hbody
    · exact mmuOfLength_write h ..
    · exact h

theorem mmuOfLength_itemLoop (source : SystemContext) (destinationOffset sourceOffset size fuel n : Nat) :
    MmuOfLength length
      (exec (itemLoop source moveOut destinationOffset sourceOffset size fuel n) context).2 := by
  induction fuel generalizing n context with
  | zero =>
    rw [itemLoop]
    split_ifs with hlt
    · exact h
    · exact h
  | succ fuel ih =>
    rw [itemLoop]
    split_ifs with hlt
    · cases hread : (Usize.add .checked sourceOffset n : DandelionResult Nat) with
      | error stop => exact h
      | ok readOffset =>
        rw [exec_lift_ok_bind]
        cases source.localOffsetToDataPosition.get? readOffset with
        | none => exact h
        | some entry =>
          obtain ⟨position, itemSize⟩ := entry
          dsimp only
          cases hend : (Usize.add .checked n itemSize : DandelionResult Nat) with
          | error stop => exact h
          | ok transferedEnd =>
            rw [exec_lift_ok_bind]
            split_ifs with hwhole
            · exact h
            · cases hwrite : (Usize.add .checked destinationOffset n : DandelionResult Nat) with
              | error stop => exact h
              | ok writeOffset =>
                have hmove := mmuOfLength_moveOut h position writeOffset itemSize
                rw [exec_lift_ok_bind, exec_bind]
                cases hexec : exec (moveOut position writeOffset itemSize) context with
                | mk result after =>
                  rw [hexec] at hmove
                  cases result with
                  | ok value => exact ih hmove transferedEnd
                  | error stop => exact hmove
    · exact h

end Keep

theorem transferMemory_mmu {storage : List UInt8} {source : Context}
    {destinationOffset sourceOffset size : Nat} {after : ContextType} {result : DandelionResult Unit}
    (h : transferMemory (.stored (.mmu storage)) source destinationOffset sourceOffset size
      = (after, result)) :
    ∃ storage', after = .stored (.mmu storage') ∧ storage'.length = storage.length := by
  have hlength : MmuOfLength storage.length (.mmu storage) := ⟨storage, rfl, rfl⟩
  unfold transferMemory at h
  cases hcontext : source.context with
  | stored sourceStored =>
    rw [hcontext] at h
    obtain ⟨storage', hafter, hlength'⟩ := mmuOfLength_transferStored hlength sourceStored source.size
      destinationOffset sourceOffset size
    refine ⟨storage', ?_, hlength'⟩
    rw [← (Prod.mk.inj h).1]
    exact congrArg ContextType.stored hafter
  | system sourceSystem =>
    rw [hcontext] at h
    obtain ⟨storage', hafter, hlength'⟩ := mmuOfLength_itemLoop hlength sourceSystem destinationOffset
      sourceOffset size size 0
    refine ⟨storage', ?_, hlength'⟩
    rw [← (Prod.mk.inj h).1]
    exact congrArg ContextType.stored hafter

/-- The loop over the static sections: the end of each of them is taken into account. -/
theorem loadItems_ok {staticContext : Context} {pairs : List (DataItem × Position)}
    {storage : List UInt8} {maxEnd maxEnd' : Nat} {after : ContextType}
    (hok : loadItems staticContext pairs (.stored (.mmu storage)) maxEnd = .ok (after, maxEnd')) :
    (∃ storage', after = .stored (.mmu storage') ∧ storage'.length = storage.length)
      ∧ maxEnd ≤ maxEnd' ∧ ∀ pair ∈ pairs, pair.2.offset + pair.2.size ≤ maxEnd' := by
  induction pairs generalizing storage maxEnd with
  | nil =>
    obtain ⟨rfl, rfl⟩ := Prod.mk.inj (Except.ok.inj hok)
    exact ⟨⟨storage, rfl, rfl⟩, Nat.le_refl _, fun pair hpair => by cases hpair⟩
  | cons pair pairs ih =>
    obtain ⟨item, requirement⟩ := pair
    rw [loadItems] at hok
    split_ifs at hok with hsize
    · cases hok
    · cases htransfer : transferMemory (.stored (.mmu storage)) staticContext requirement.offset
          item.data.offset item.data.size with
      | mk context result =>
        rw [htransfer] at hok
        obtain ⟨storage₁, rfl, hlength₁⟩ := transferMemory_mmu htransfer
        cases result with
        | error stop => cases hok
        | ok value =>
          obtain ⟨requirementEnd, hadd, hok⟩ := (bind_eq_ok_iff _ _ _).mp hok
          obtain ⟨-, rfl⟩ := Usize.add_eq_ok_iff.mp hadd
          obtain ⟨⟨storage', hafter, hlength⟩, hle, hpairs⟩ := ih hok
          refine ⟨⟨storage', hafter, hlength.trans hlength₁⟩, by omega, ?_⟩
          exact List.forall_mem_cons.mpr ⟨by dsimp only; omega, hpairs⟩

theorem occupySpace_cleared {contextSize size alignment : Nat} {occupation : List Position}
    (hlimit : contextSize < Usize.limit) (hcontext : alignment ∣ contextSize)
    (hok : occupySpace .checked contextSize (clearedOccupation contextSize) 0 size = .ok occupation) :
    AlignedOccupation contextSize alignment occupation ∧ ∀ o < size, Occupied occupation o := by
  have hle := occupySpace_ok_le hok
  rw [Nat.zero_add] at hle
  have hcleared : Apart contextSize ([] ++ ⟨0, 0⟩ :: ⟨contextSize, 0⟩ :: []) := by
    refine ⟨List.pairwise_pair.mpr (Nat.zero_le _), fun p hp => ?_⟩
    rcases List.mem_cons.mp hp with rfl | hp
    · exact Nat.zero_le _
    · rw [List.mem_singleton.mp hp]
      exact Nat.le_refl _
  have hstarts : ∀ q ∈ clearedOccupation contextSize, alignment ∣ q.offset := by
    intro q hq
    rcases List.mem_cons.mp hq with rfl | hq
    · exact Nat.dvd_zero alignment
    · rw [List.mem_singleton.mp hq]
      exact hcontext
  rw [occupySpace, Usize.add_eq_ok (by omega), ok_bind, if_neg (by omega)] at hok
  by_cases hpos : 0 < contextSize
  · have hindex : insertionIndex (clearedOccupation contextSize) 0 = some 0 := if_pos ⟨Nat.le_refl 0, hpos⟩
    obtain ⟨merged, hinsert, hapart, hoccupied, hmerged⟩ :=
      insertOccupation_apart hlimit hcleared (Nat.le_refl 0) (show 0 + size ≤ contextSize by omega)
    rw [hindex] at hok
    obtain rfl : merged = occupation := Except.ok.inj (hinsert.symm.trans hok)
    refine ⟨⟨hapart, fun p hp => ?_⟩, fun o ho => (hoccupied o).mpr (.inr ⟨Nat.zero_le o, by omega⟩)⟩
    rcases hmerged p hp with hoffset | ⟨q, hq, hoffset⟩
    · rw [hoffset]
      exact Nat.dvd_zero alignment
    · rw [hoffset]
      exact hstarts q hq
  · have hindex : insertionIndex (clearedOccupation contextSize) 0 = none := by
      rw [clearedOccupation, insertionIndex, if_neg fun h => hpos h.2]
      rfl
    rw [hindex] at hok
    obtain rfl := Except.ok.inj hok
    exact ⟨⟨hcleared, hstarts⟩, fun o ho => by omega⟩

theorem loadStatic_ok {contextSize : Nat} {acquired staticContext loaded : Context}
    {staticRequirements : List Position} (hacquired : MmuAcquired contextSize acquired)
    (hok : loadStatic acquired staticContext staticRequirements = .ok loaded) :
    ∃ storage, Stocked storage (fun o => ∃ requirement ∈ staticRequirements, requirement.covers o) storage
      loaded [] ∧ loaded.content = [] := by
  obtain ⟨initial, hlength, hpool⟩ := hacquired
  have hlimit : initial.length < Usize.limit := by
    rw [hlength]
    unfold slabSize at hpool ⊢
    unfold Usize.limit
    omega
  have hslabs : 128 ∣ initial.length := by
    rw [hlength]
    exact Dvd.dvd.mul_left (by decide) _
  unfold loadStatic at hok
  split at hok
  · rename_i staticSet hcontent
    split_ifs at hok with hcount
    · cases hok
    · obtain ⟨⟨context, maxEnd⟩, hitems, hok⟩ := (bind_eq_ok_iff _ _ _).mp hok
      obtain ⟨pageEnd, hadd, hok⟩ := (bind_eq_ok_iff _ _ _).mp hok
      obtain ⟨-, rfl⟩ := Usize.add_eq_ok_iff.mp hadd
      obtain ⟨occupation, hoccupy, hok⟩ := (bind_eq_ok_iff _ _ _).mp hok
      obtain rfl := Except.ok.inj hok
      obtain ⟨⟨storage, rfl, hstorage⟩, -, hends⟩ := loadItems_ok hitems
      obtain ⟨haligned, hoccupied⟩ := occupySpace_cleared hlimit hslabs hoccupy
      refine ⟨storage, ⟨rfl, hstorage, hlimit, haligned, ?_, ?_, ?_, ?_, .nil⟩, rfl⟩
      · rintro o ⟨requirement, hmem, hcovers⟩
        have hzip : (staticSet.buffers.zip staticRequirements).map Prod.snd = staticRequirements :=
          List.map_snd_zip (by omega)
        rw [← hzip] at hmem
        obtain ⟨pair, hpair, rfl⟩ := List.mem_map.mp hmem
        have hend := hends pair hpair
        obtain ⟨-, hlt⟩ := hcovers
        refine ⟨hoccupied o ?_, rfl⟩
        omega
      · exact fun d hd => by cases hd
      · exact fun d hd => by cases hd
      · exact fun d hd => by cases hd
  · cases hok

/-! ## Inputs -/

/-- An item of the context of a function with the name, the key, the size and the bytes of the
source item it was transferred from. -/
def ItemIntact (context : Context) (call : Nat × Nat × Context) (item : DataItem) : Prop :=
  ∃ sourceItem bytes, call.2.2.itemAt call.1 call.2.1 = .ok sourceItem
    ∧ item.ident = sourceItem.ident ∧ item.key = sourceItem.key
    ∧ item.data.size = sourceItem.data.size ∧ bytes.length = sourceItem.data.size
    ∧ ReadsBack call.2.2.context sourceItem.data.offset bytes
    ∧ ReadsBack context.context item.data.offset bytes

/-- A set of the function's context, with one item for each transfer into it. -/
def SetIntact (context : Context) (calls : String × List (Nat × Nat × Context))
    (set : Option DataSet) : Prop :=
  ∃ items, set = some ⟨calls.1, items⟩ ∧ List.Forall₂ (ItemIntact context) calls.2 items

/-- Inputs reach a process function intact: its sets list all items in the order of the transfers,
each can be read as in its source, no two of them share a byte, and the static sections are as
they were loaded. -/
theorem inputs_intact {contextSize : Nat} {acquired staticContext loaded after : Context}
    {staticRequirements : List Position} {inputSets : List (Option (CompositionSet Context))}
    {metadata : List (String × Option (CompositionSet Context))}
    (hacquired : MmuAcquired contextSize acquired)
    (hload : loadStatic acquired staticContext staticRequirements = .ok loaded)
    (hsources : ∀ set ∈ inputCalls inputSets metadata 0, ∀ call ∈ set.2, InputSource call.2.2)
    (hok : exec (transferInputs inputSets metadata 0) loaded = (.ok (), after)) :
    List.Forall₂ (SetIntact after) (inputCalls inputSets metadata 0) after.content
      ∧ (allItems after.content).Pairwise
        (fun item item' => ∀ o, ¬ (item.data.covers o ∧ item'.data.covers o))
      ∧ ∃ image storage, loaded.context = .stored (.mmu image) ∧ after.context = .stored (.mmu storage)
        ∧ ∀ requirement ∈ staticRequirements, ∀ o, requirement.covers o → storage[o]? = image[o]? := by
  obtain ⟨image, hstocked, hcontent⟩ := loadStatic_ok hacquired hload
  obtain ⟨sets, delivered, storage, hafter, hsets, hpositions, hdelivered⟩ :=
    transferInputs_ok hstocked (by rw [hcontent]; rfl) (by rw [hcontent]; rfl) hsources hok
  rw [hcontent, List.nil_append] at hsets
  rw [List.nil_append] at hafter hpositions hdelivered
  refine ⟨?_, ?_, image, storage, hstocked.context_eq, hafter.context_eq, fun requirement hmem o ho => ?_⟩
  · rw [hsets]
    refine hdelivered.imp fun calls set hset => ?_
    obtain ⟨items, rfl, hitems⟩ := hset
    refine ⟨items, rfl, hitems.imp fun call item hitem => ?_⟩
    obtain ⟨sourceItem, bytes, hat, hident, hkey, hsize, hlength, hread, hmem⟩ := hitem
    exact ⟨sourceItem, bytes, hat, hident, hkey, hsize, hlength, hread, hafter.readsBack hmem⟩
  · have hdisjoint : (delivered.map Prod.fst).Pairwise fun p q => ∀ o, ¬ (p.covers o ∧ q.covers o) :=
      List.pairwise_map.mpr hafter.disjoint
    rw [hpositions] at hdisjoint
    exact List.pairwise_map.mp hdisjoint
  · exact (hafter.image_kept o ⟨requirement, hmem, ho⟩).2

def twoItems : Context :=
  { Context.new (.stored (.malloc [1, 2, 3, 4, 5])) 5 with
    content := [some ⟨"out", [⟨"first", ⟨0, 3⟩, 5⟩, ⟨"second", ⟨3, 2⟩, 6⟩]⟩] }

/-- A function with a static section of two bytes. -/
def oneSection : Context :=
  { Context.new (.stored (.readOnly [8, 9])) 2 with content := [some ⟨"static", [⟨"", ⟨0, 2⟩, 0⟩]⟩] }

/-- A context over one slab of memory. -/
def oneSlab (storage : List UInt8) (content : List (Option DataSet)) (occupation : List Position) :
    Context :=
  ⟨.stored (.mmu storage), content, slabSize, .inPreparation, occupation⟩

theorem transferMemory_read {storage bytes : List UInt8} {source : Context} {inner : DataContext}
    {start sourceOffset size : Nat} (hcontext : source.context = .stored inner)
    (hcopied : inner.CopiedByReads)
    (hread : inner.read sourceOffset (List.replicate size 0) = (bytes, .ok ()))
    (hlength : storage.length = slabSize) (hfits : start + bytes.length ≤ slabSize) :
    transferMemory (.stored (.mmu storage)) source start sourceOffset size =
      (.stored (.mmu (copyInto storage start bytes)), .ok ()) := by
  have hlimit : storage.length < Usize.limit := by
    rw [hlength]
    decide
  simp only [transferMemory, hcontext]
  rw [transferStored_copy hcopied hread, ByteBacked.mmu.write_eq,
    writeStorage_eq hlimit (hlength.symm ▸ hfits)]
  rfl

theorem length_copyInto_slab {storage : List UInt8} (hlength : storage.length = slabSize)
    (start : Nat) (bytes : List UInt8) (hfits : start + bytes.length ≤ slabSize) :
    (copyInto storage start bytes).length = slabSize :=
  (length_copyInto (hlength.symm ▸ hfits)).trans hlength

theorem exec_transfer_twoItems {storage bytes : List UInt8} {content after : List (Option DataSet)}
    {occupation occupation' : List Position} {setIndex itemIndex start : Nat} {setName : String}
    {item : DataItem} (hitem : twoItems.itemAt 0 itemIndex = .ok item)
    (hread : DataContext.read (.malloc [1, 2, 3, 4, 5]) item.data.offset
      (List.replicate item.data.size 0) = (bytes, .ok ()))
    (hlength : storage.length = slabSize) (hfits : start + bytes.length ≤ slabSize)
    (hcontent : resizeContent content (setIndex + 1) = content)
    (hspace : getFreeSpace .checked slabSize occupation item.data.size 128 = .ok (start, occupation'))
    (hadd : addItem content setIndex setName ⟨item.ident, ⟨start, item.data.size⟩, item.key⟩ = after) :
    exec (transferDataItem twoItems setIndex 128 setName 0 itemIndex) (oneSlab storage content occupation) =
      (.ok (), oneSlab (copyInto storage start bytes) after occupation') := by
  have hwrite := transferMemory_read (show twoItems.context = _ from rfl) trivial hread hlength hfits
  have hplace : destinationSpace (oneSlab storage content occupation) item.data 128 =
      .ok (start, occupation') := hspace
  rw [transferDataItem, hitem, exec_lift_ok_bind, exec_modify_bind, if_neg (by decide), exec_get_bind]
  dsimp only [oneSlab] at hplace ⊢
  rw [hcontent, hplace, exec_lift_ok_bind]
  dsimp only
  rw [hwrite, hadd]
  rfl

def twoItemsSet : CompositionSet Context := ⟨[(5, 0, twoItems), (6, 1, twoItems)], 0, by simp⟩

def firstItemSet : CompositionSet Context := ⟨[(5, 0, twoItems)], 0, List.pairwise_singleton _ _⟩

def firstAt (offset : Nat) : DataItem := ⟨"first", ⟨offset, 3⟩, 5⟩

def secondAt (offset : Nat) : DataItem := ⟨"second", ⟨offset, 2⟩, 6⟩

theorem oneSection_loaded {storage : List UInt8} (hlength : storage.length = slabSize) :
    loadStatic (Context.new (.stored (.mmu storage)) slabSize) oneSection [⟨64, 2⟩]
      = .ok (oneSlab (copyInto storage 64 [8, 9]) [] [⟨0, 4096⟩, ⟨slabSize, 0⟩]) := by
  have hwrite := transferMemory_read (show oneSection.context = .stored (.readOnly [8, 9]) from rfl)
    trivial (show DataContext.read (.readOnly [8, 9]) 0 (List.replicate 2 0) = ([8, 9], .ok ()) from rfl)
    hlength (by decide : 64 + 2 ≤ slabSize)
  have hitems : loadItems oneSection [(⟨"", ⟨0, 2⟩, 0⟩, ⟨64, 2⟩)] (.stored (.mmu storage)) 0
      = .ok (.stored (.mmu (copyInto storage 64 [8, 9])), 66) := by
    rw [loadItems, if_neg (by decide), hwrite]
    rfl
  have hend : (Usize.add .checked 66 4095 : DandelionResult Nat) = .ok 4161 := by decide
  have hoccupied : (occupySpace .checked slabSize [⟨0, 0⟩, ⟨slabSize, 0⟩] 0 4096 :
      DandelionResult (List Position)) = .ok [⟨0, 4096⟩, ⟨slabSize, 0⟩] := by
    decide +kernel
  rw [loadStatic]
  change loadItems oneSection [(⟨"", ⟨0, 2⟩, 0⟩, ⟨64, 2⟩)] (.stored (.mmu storage)) 0 >>= _ = _
  rw [hitems, ok_bind]
  change Usize.add .checked 66 4095 >>= _ = _
  rw [hend, ok_bind]
  change occupySpace .checked slabSize [⟨0, 0⟩, ⟨slabSize, 0⟩] 0 4096 >>= _ = _
  rw [hoccupied]
  rfl

/-- The first set goes behind the page of the section, an item to each step of 128 bytes. -/
theorem twoItems_transferred {storage : List UInt8} (hlength : storage.length = slabSize) :
    exec (transferItems 0 "in" [(0, 0, twoItems), (0, 1, twoItems)])
        (oneSlab storage [some ⟨"in", []⟩] [⟨0, 4096⟩, ⟨slabSize, 0⟩])
      = (.ok (), oneSlab (copyInto (copyInto storage 4096 [1, 2, 3]) 4224 [4, 5])
          [some ⟨"in", [firstAt 4096, secondAt 4224]⟩] [⟨0, 4099⟩, ⟨4224, 2⟩, ⟨slabSize, 0⟩]) := by
  have hfirst := exec_transfer_twoItems (show twoItems.itemAt 0 0 = .ok (firstAt 0) from rfl)
    (show DataContext.read (.malloc [1, 2, 3, 4, 5]) 0 _ = ([1, 2, 3], .ok ()) from rfl) hlength
    (by decide) (show resizeContent [some ⟨"in", []⟩] (0 + 1) = [some ⟨"in", []⟩] from rfl)
    (show getFreeSpace .checked slabSize [⟨0, 4096⟩, ⟨slabSize, 0⟩] 3 128 =
      .ok (4096, [⟨0, 4099⟩, ⟨slabSize, 0⟩]) by decide +kernel)
    (show addItem _ 0 "in" _ = [some ⟨"in", [firstAt 4096]⟩] from rfl)
  have hsecond := exec_transfer_twoItems (show twoItems.itemAt 0 1 = .ok (secondAt 3) from rfl)
    (show DataContext.read (.malloc [1, 2, 3, 4, 5]) 3 _ = ([4, 5], .ok ()) from rfl)
    (length_copyInto_slab hlength 4096 [1, 2, 3] (by decide)) (by decide)
    (show resizeContent [some ⟨"in", [firstAt 4096]⟩] (0 + 1) = _ from rfl)
    (show getFreeSpace .checked slabSize [⟨0, 4099⟩, ⟨slabSize, 0⟩] 2 128 =
      .ok (4224, [⟨0, 4099⟩, ⟨4224, 2⟩, ⟨slabSize, 0⟩]) by decide +kernel)
    (show addItem _ 0 "in" _ = [some ⟨"in", [firstAt 4096, secondAt 4224]⟩] from rfl)
  rw [transferItems, exec_bind_ok hfirst, transferItems, exec_bind_ok hsecond]
  rfl

theorem staticItem_transferred {storage : List UInt8} (hlength : storage.length = slabSize) :
    exec (transferItems 1 "conf" [(0, 0, twoItems)])
        (oneSlab storage [some ⟨"in", [firstAt 4096, secondAt 4224]⟩, some ⟨"conf", []⟩]
          [⟨0, 4099⟩, ⟨4224, 2⟩, ⟨slabSize, 0⟩])
      = (.ok (), oneSlab (copyInto storage 4352 [1, 2, 3])
          [some ⟨"in", [firstAt 4096, secondAt 4224]⟩, some ⟨"conf", [firstAt 4352]⟩]
          [⟨0, 4099⟩, ⟨4224, 2⟩, ⟨4352, 3⟩, ⟨slabSize, 0⟩]) := by
  have hitem := exec_transfer_twoItems (show twoItems.itemAt 0 0 = .ok (firstAt 0) from rfl)
    (show DataContext.read (.malloc [1, 2, 3, 4, 5]) 0 _ = ([1, 2, 3], .ok ()) from rfl) hlength
    (by decide) (show resizeContent [some ⟨"in", [firstAt 4096, secondAt 4224]⟩, some ⟨"conf", []⟩]
      (1 + 1) = _ from rfl)
    (show getFreeSpace .checked slabSize [⟨0, 4099⟩, ⟨4224, 2⟩, ⟨slabSize, 0⟩] 3 128 =
      .ok (4352, [⟨0, 4099⟩, ⟨4224, 2⟩, ⟨4352, 3⟩, ⟨slabSize, 0⟩]) by decide +kernel)
    (show addItem _ 1 "conf" _ = [some ⟨"in", [firstAt 4096, secondAt 4224]⟩,
      some ⟨"conf", [firstAt 4352]⟩] from rfl)
  rw [transferItems, exec_bind_ok hitem]
  rfl

/-- The section and two inputs in one slab of memory: two items in the one, and in the other the item
of its static set, which is not replaced by the set that is passed for it. -/
theorem twoItems_intact : ∃ acquired loaded after, MmuAcquired 1 acquired
    ∧ loadStatic acquired oneSection [⟨64, 2⟩] = .ok loaded
    ∧ exec (transferInputs [some twoItemsSet, some twoItemsSet] [("in", none), ("conf", some firstItemSet)] 0)
      loaded = (.ok (), after)
    ∧ List.Forall₂ (SetIntact after)
      [("in", [(0, 0, twoItems), (0, 1, twoItems)]), ("conf", [(0, 0, twoItems)])] after.content
    ∧ (allItems after.content).Pairwise
      (fun item item' => ∀ o, ¬ (item.data.covers o ∧ item'.data.covers o))
    ∧ ∃ image storage, loaded.context = .stored (.mmu image) ∧ after.context = .stored (.mmu storage)
      ∧ ∀ o, 64 ≤ o → o < 66 → storage[o]? = image[o]? := by
  obtain ⟨storage, hlength⟩ : ∃ storage : List UInt8, storage.length = slabSize :=
    ⟨List.replicate slabSize 0, List.length_replicate ..⟩
  have hacquired : MmuAcquired 1 (Context.new (.stored (.mmu storage)) storage.length) :=
    ⟨storage, by rw [hlength]; rfl, by decide⟩
  rw [hlength] at hacquired
  have himage : (copyInto storage 64 [8, 9]).length = slabSize :=
    length_copyInto_slab hlength 64 [8, 9] (by decide)
  have hfirst := length_copyInto_slab himage 4096 [1, 2, 3] (by decide)
  have hsecond := length_copyInto_slab hfirst 4224 [4, 5] (by decide)
  have hpassed := twoItems_transferred himage
  have hstatic := staticItem_transferred hsecond
  have hok : exec (transferInputs [some twoItemsSet, some twoItemsSet]
      [("in", none), ("conf", some firstItemSet)] 0)
      (oneSlab (copyInto storage 64 [8, 9]) [] [⟨0, 4096⟩, ⟨slabSize, 0⟩])
        = (.ok (), oneSlab (copyInto (copyInto (copyInto (copyInto storage 64 [8, 9]) 4096 [1, 2, 3])
            4224 [4, 5]) 4352 [1, 2, 3])
          [some ⟨"in", [firstAt 4096, secondAt 4224]⟩, some ⟨"conf", [firstAt 4352]⟩]
          [⟨0, 4099⟩, ⟨4224, 2⟩, ⟨4352, 3⟩, ⟨slabSize, 0⟩]) := by
    rw [transferInputs, exec_modify_bind]
    change exec (transferItems 0 "in" [(0, 0, twoItems), (0, 1, twoItems)] >>= fun _ =>
      transferInputs [some twoItemsSet, some twoItemsSet] [("conf", some firstItemSet)] 1)
      (oneSlab (copyInto storage 64 [8, 9]) [some ⟨"in", []⟩] [⟨0, 4096⟩, ⟨slabSize, 0⟩]) = _
    rw [exec_bind_ok hpassed, transferInputs, exec_modify_bind]
    change exec (transferItems 1 "conf" [(0, 0, twoItems)] >>= fun _ =>
      transferInputs [some twoItemsSet, some twoItemsSet] [] 2) (oneSlab _ [_, some ⟨"conf", []⟩] _) = _
    exact (exec_bind_ok hstatic _).trans rfl
  have hresult := inputs_intact hacquired (oneSection_loaded hlength) ?_ hok
  · obtain ⟨hsets, hdisjoint, image, after, himage, hafter, hkept⟩ := hresult
    refine ⟨_, _, _, hacquired, oneSection_loaded hlength, hok, hsets, hdisjoint, image, after, himage,
      hafter, ?_⟩
    exact fun o hle hlt => hkept ⟨64, 2⟩ (List.mem_singleton_self _) o ⟨hle, hlt⟩
  · have hsources : ∀ set ∈ [("in", [(0, 0, twoItems), (0, 1, twoItems)]), ("conf", [(0, 0, twoItems)])],
        ∀ call ∈ set.2, call.2.2 = twoItems := by
      simp only [List.forall_mem_cons, List.not_mem_nil, false_implies, implies_true, and_self]
    intro set hset call hcall
    rw [hsources set hset call hcall]
    exact .stored (.malloc [1, 2, 3, 4, 5]) rfl fun context hkvm => by cases hkvm

end Dandelion
