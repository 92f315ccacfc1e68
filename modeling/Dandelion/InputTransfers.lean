import Dandelion.Loading
import Dandelion.ResponseDelivery

/-!
# Inputs of process functions

The context of a process function is the memory of an MMU domain: the static sections from its
start on, and each input item in space that was free. A transfer copies the bytes of its item and
changes nothing that is occupied, so all items that were transferred are there at the end.
-/

namespace Dandelion

open Outcome Stateful KvmContext

/-! ## Reading frames -/

theorem length_readFrames (frames : List (List UInt8)) (offset : Nat) (buffer : List UInt8) :
    (readFrames frames offset buffer).1.length = buffer.length := by
  induction frames generalizing offset buffer with
  | nil => rfl
  | cons frame frames ih =>
    rw [readFrames]
    by_cases hbehind : frame.length ≤ offset
    · rw [if_pos hbehind]
      exact ih _ _
    · rw [if_neg hbehind]
      by_cases hwithin : offset + buffer.length ≤ frame.length
      · rw [if_pos hwithin]
        dsimp only
        rw [List.length_take, List.length_drop]
        omega
      · rw [if_neg hwithin]
        dsimp only
        rw [List.length_append, ih, List.length_drop, List.length_drop]
        omega

/-- A read that succeeds fills every buffer of the same length in the same way. -/
theorem readFrames_congr {frames : List (List UInt8)} {offset : Nat} {buffer buffer' : List UInt8}
    (hlength : buffer'.length = buffer.length) (hok : (readFrames frames offset buffer).2 = .ok ()) :
    readFrames frames offset buffer' = readFrames frames offset buffer := by
  induction frames generalizing offset buffer buffer' with
  | nil => cases hok
  | cons frame frames ih =>
    rw [readFrames] at hok ⊢
    rw [readFrames]
    by_cases hbehind : frame.length ≤ offset
    · rw [if_pos hbehind] at hok ⊢
      rw [if_pos hbehind]
      exact ih hlength hok
    · rw [if_neg hbehind] at hok ⊢
      rw [if_neg hbehind]
      by_cases hwithin : offset + buffer.length ≤ frame.length
      · rw [if_pos (by omega), if_pos hwithin, hlength]
      · rw [if_neg hwithin] at hok ⊢
        rw [if_neg (by omega)]
        dsimp only at hok ⊢
        have hrest : (buffer'.drop (frame.drop offset).length).length
            = (buffer.drop (frame.drop offset).length).length := by
          simp only [List.length_drop, hlength]
        rw [ih hrest hok]

/-! ## Transfers into MMU memory -/

/-- The contexts that inputs come from: those that hold their bytes, KVM contexts apart, and the
output contexts of requests. -/
inductive InputSource (source : Context) : Prop
  | stored (inner : DataContext) (hcontext : source.context = .stored inner)
      (hkvm : ∀ context, inner ≠ .kvm context)
  | responses (contextSize : Nat) (outputSetNames : List String)
      (responses : List ResponseInformation) (hlimit : contextSize + 1 < Usize.limit)
      (hpreamble : ∀ response ∈ responses, response.preamble ≠ [])
      (hok : responsesWrite contextSize outputSetNames responses = .ok source)

/-- A position that is in a context with bytes, or has the pieces of a response. -/
inductive ItemSource (source : Context) (position : Position) : Prop
  | stored (inner : DataContext) (hcontext : source.context = .stored inner)
      (hkvm : ∀ context, inner ≠ .kvm context)
  | pieces (pieces : List (List UInt8)) (hcarries : CarriesPieces source position.offset pieces)
      (hsize : position.size = pieces.flatten.length)

section Read

/-- A transfer into a context of the MMU domain reads the whole source first. -/
def DataContext.CopiedByReads : DataContext → Prop
  | .mmu _ | .bytes _ => False
  | .malloc _ | .readOnly _ | .kvm _ => True

section Default

variable {inner : DataContext} {storage bytes : List UInt8}
  {sourceSize destinationOffset sourceOffset size : Nat}

theorem transferStored_stop (h : inner.CopiedByReads) {stop : Stop DandelionError}
    (hread : inner.read sourceOffset (List.replicate size 0) = (bytes, .error stop)) :
    transferStored (.mmu storage) inner sourceSize destinationOffset sourceOffset size
      = (.mmu storage, .error stop) := by
  unfold transferStored
  cases inner with
  | mmu sourceStorage => cases h
  | bytes frames => cases h
  | malloc sourceStorage => exact hread ▸ rfl
  | readOnly sourceStorage => exact hread ▸ rfl
  | kvm context => exact hread ▸ rfl

theorem transferStored_copy (h : inner.CopiedByReads)
    (hread : inner.read sourceOffset (List.replicate size 0) = (bytes, .ok ())) :
    transferStored (.mmu storage) inner sourceSize destinationOffset sourceOffset size
      = (DataContext.mmu storage).write destinationOffset bytes := by
  unfold transferStored
  cases inner with
  | mmu sourceStorage => cases h
  | bytes frames => cases h
  | malloc sourceStorage => exact hread ▸ rfl
  | readOnly sourceStorage => exact hread ▸ rfl
  | kvm context => exact hread ▸ rfl

end Default

variable {inner : DataContext} (hkvm : ∀ context, inner ≠ .kvm context)
include hkvm

/-- A read that succeeds gives the same bytes in every buffer of the same length. -/
theorem read_congr {offset : Nat} {buffer buffer' : List UInt8}
    (hlength : buffer'.length = buffer.length) (hok : (inner.read offset buffer).2 = .ok ()) :
    (inner.read offset buffer).1.length = buffer.length
      ∧ inner.read offset buffer' = inner.read offset buffer := by
  have hstorage : ∀ storage, (readStorage storage offset buffer).2 = .ok () →
      (readStorage storage offset buffer).1.length = buffer.length
        ∧ readStorage storage offset buffer' = readStorage storage offset buffer := by
    intro storage hok
    obtain ⟨hlimit, hfits⟩ := readStorage_fits hok
    rw [readStorage_eq hlimit hfits, readStorage_eq (by omega) (by omega), hlength, List.length_take,
      List.length_drop]
    exact ⟨by omega, rfl⟩
  cases inner with
  | malloc storage => exact hstorage storage hok
  | readOnly storage => exact hstorage storage hok
  | mmu storage => exact hstorage storage hok
  | bytes frames => exact ⟨length_readFrames .., readFrames_congr hlength hok⟩
  | kvm context => exact absurd rfl (hkvm context)

/-- A transfer from a context that holds its bytes copies what a read of it gives. -/
theorem transferStored_mmu {storage : List UInt8} {after : DataContext}
    {sourceSize destinationOffset sourceOffset size : Nat} (hlimit : storage.length < Usize.limit)
    (hfits : destinationOffset + size ≤ storage.length)
    (hok : transferStored (.mmu storage) inner sourceSize destinationOffset sourceOffset size
      = (after, .ok ())) :
    ∃ bytes, bytes.length = size ∧ after = .mmu (copyInto storage destinationOffset bytes)
      ∧ ∀ buffer, buffer.length = bytes.length → inner.read sourceOffset buffer = (bytes, .ok ()) := by
  have hdefault : inner.CopiedByReads →
      ∃ bytes, bytes.length = size ∧ after = .mmu (copyInto storage destinationOffset bytes)
        ∧ ∀ buffer, buffer.length = bytes.length → inner.read sourceOffset buffer = (bytes, .ok ()) := by
    intro hcopied
    cases hread : inner.read sourceOffset (List.replicate size 0) with
    | mk bytes result =>
      cases result with
      | error stop =>
        rw [transferStored_stop hcopied hread] at hok
        cases hok
      | ok value =>
        have hresult : (inner.read sourceOffset (List.replicate size 0)).2 = .ok () := by rw [hread]
        have hlength := (read_congr hkvm rfl hresult).1
        rw [hread, List.length_replicate] at hlength
        dsimp only at hlength
        rw [transferStored_copy hcopied hread, ByteBacked.mmu.write_eq, writeStorage_eq hlimit (by omega)]
          at hok
        obtain ⟨rfl, -⟩ := Prod.mk.inj hok
        refine ⟨bytes, hlength, rfl, fun buffer hbuffer => ?_⟩
        rw [(read_congr hkvm (hbuffer.trans (by rw [hlength, List.length_replicate])) hresult).2, hread]
  cases inner with
  | malloc sourceStorage => exact hdefault trivial
  | readOnly sourceStorage => exact hdefault trivial
  | kvm context => exact absurd rfl (hkvm context)
  | mmu sourceStorage =>
    by_cases hadd : sourceOffset + size < Usize.limit
    · by_cases hin : sourceOffset + size ≤ sourceStorage.length
      · have hlength : ((sourceStorage.drop sourceOffset).take size).length = size := by
          rw [List.length_take, List.length_drop]
          omega
        have hcopy : storageTransfer storage sourceStorage destinationOffset sourceOffset size
            = .ok (copyInto storage destinationOffset ((sourceStorage.drop sourceOffset).take size)) := by
          rw [storageTransfer, Usize.add_eq_ok hadd, ok_bind, if_neg (by omega),
            Usize.add_eq_ok (by omega), ok_bind, if_neg (by omega)]
          rfl
        rw [transferStored, mmuTransfer, hcopy] at hok
        obtain ⟨rfl, -⟩ := Prod.mk.inj hok
        refine ⟨_, hlength, rfl, fun buffer hbuffer => ?_⟩
        rw [hlength] at hbuffer
        change readStorage _ _ _ = _
        rw [readStorage_eq (by omega) (by omega), hbuffer]
      · rw [transferStored, mmuTransfer, storageTransfer, Usize.add_eq_ok hadd, ok_bind,
          if_pos (by omega)] at hok
        cases hok
    · rw [transferStored, mmuTransfer, storageTransfer, Usize.add_eq_crash hadd] at hok
      cases hok
  | bytes frames =>
    have hslice : ((storage.drop destinationOffset).take size).length = size := by
      rw [List.length_take, List.length_drop]
      omega
    have hlength := length_readFrames frames sourceOffset ((storage.drop destinationOffset).take size)
    rw [transferStored, bytestToMmuTransfer, Usize.add_eq_ok (by omega)] at hok
    dsimp only at hok
    rw [if_neg (by omega)] at hok
    obtain ⟨rfl, hresult⟩ := Prod.mk.inj hok
    refine ⟨_, hlength.trans hslice, rfl, fun buffer hbuffer => ?_⟩
    change readFrames _ _ _ = _
    rw [readFrames_congr (hbuffer.trans hlength) hresult]
    exact Prod.ext rfl hresult

end Read

/-- The bytes of an item of a source are copied, and are those that a read of the source gives. -/
theorem ItemSource.transfer_mmu {storage : List UInt8} {source : Context} {position : Position}
    {after : ContextType} {destinationOffset : Nat} (hsource : ItemSource source position)
    (hlimit : storage.length < Usize.limit)
    (hfits : destinationOffset + position.size ≤ storage.length)
    (hok : transferMemory (.stored (.mmu storage)) source destinationOffset position.offset position.size
      = (after, .ok ())) :
    ∃ bytes, bytes.length = position.size
      ∧ after = .stored (.mmu (copyInto storage destinationOffset bytes))
      ∧ ReadsBack source.context position.offset bytes := by
  cases hsource with
  | stored inner hcontext hkvm =>
    unfold transferMemory at hok
    rw [hcontext] at hok
    dsimp only at hok
    cases htransfer : transferStored (.mmu storage) inner source.size destinationOffset position.offset
        position.size with
    | mk stored result =>
      rw [htransfer] at hok
      obtain ⟨rfl, rfl⟩ := Prod.mk.inj hok
      obtain ⟨bytes, hlength, rfl, hread⟩ := transferStored_mmu hkvm hlimit hfits htransfer
      refine ⟨bytes, hlength, rfl, fun buffer hbuffer => ?_⟩
      rw [hcontext]
      exact hread buffer hbuffer
  | pieces pieces hcarries hsize =>
    rw [hsize] at hok hfits ⊢
    rw [hcarries.arrives_byteBacked .mmu hlimit hfits] at hok
    obtain ⟨rfl, -⟩ := Prod.mk.inj hok
    refine ⟨pieces.flatten, rfl, rfl, fun buffer hbuffer => ?_⟩
    obtain ⟨system, hcontext, hsystem, hpieces⟩ := hcarries.exists_system
    have hinside := hcarries.inside
    have hlt := hcarries.size_lt
    rw [hcontext]
    exact read_pieces hpieces hbuffer.symm (by omega) (by omega)

theorem Context.itemAt_eq_ok {source : Context} {setIndex itemIndex : Nat} {item : DataItem}
    (h : source.itemAt setIndex itemIndex = .ok item) :
    ∃ set, source.content[setIndex]? = some (some set) ∧ item ∈ set.buffers := by
  unfold Context.itemAt at h
  cases hset : source.content[setIndex]? with
  | none =>
    rw [hset] at h
    cases h
  | some slot =>
    rw [hset] at h
    cases slot with
    | none => cases h
    | some set =>
      dsimp only at h
      cases hitem : set.buffers[itemIndex]? with
      | none =>
        rw [hitem] at h
        cases h
      | some found =>
        rw [hitem] at h
        obtain rfl : found = item := Except.ok.inj h
        exact ⟨set, rfl, List.mem_of_getElem? hitem⟩

theorem forall₂_exists {α β : Type} {R : α → β → Prop} {l : List α} {l' : List β}
    (h : List.Forall₂ R l l') {b : β} (hb : b ∈ l') : ∃ a ∈ l, R a b := by
  induction h with
  | nil => cases hb
  | cons hhead _ ih =>
    rcases List.mem_cons.mp hb with rfl | hb
    · exact ⟨_, List.mem_cons_self, hhead⟩
    · obtain ⟨a, ha, hrel⟩ := ih hb
      exact ⟨a, List.mem_cons_of_mem _ ha, hrel⟩

/-- The items of a set after items were added to an empty one are those items. -/
theorem buffers_addItems {outputSetNames : List String} {name : String} {items : List DataItem}
    {set : DataSet} (h : addItems (outputSet outputSetNames name) items = some set) :
    set.buffers = items := by
  unfold outputSet at h
  by_cases hname : name ∈ outputSetNames
  · rw [if_pos hname] at h
    obtain rfl := Option.some.inj h
    rfl
  · rw [if_neg hname] at h
    cases h

theorem InputSource.itemSource {source : Context} (hsource : InputSource source)
    {setIndex itemIndex : Nat} {item : DataItem} (hitem : source.itemAt setIndex itemIndex = .ok item) :
    ItemSource source item.data := by
  cases hsource with
  | stored inner hcontext hkvm => exact .stored inner hcontext hkvm
  | responses contextSize outputSetNames responses hlimit hpreamble hok =>
    obtain ⟨set, hset, hmem⟩ := Context.itemAt_eq_ok hitem
    by_cases hnames : outputSetNames = []
    · rw [responsesWrite, hnames] at hok
      obtain rfl := Except.ok.inj hok
      cases hset
    · have hfits := responsesFit_of_responsesWrite hlimit hpreamble hnames hok
      obtain ⟨context, system, items, bodyItems, stop, hok', hcontext, hitems, hbodies⟩ :=
        responsesWrite_collected hlimit hpreamble hnames hfits
      obtain rfl : source = context := Except.ok.inj (hok.symm.trans hok')
      rw [hcontext.content_eq] at hset
      -- the set of the responses and that of the bodies
      obtain _ | _ | setIndex := setIndex
      · rw [buffers_addItems (Option.some.inj hset)] at hmem
        obtain ⟨response, -, hat⟩ := forall₂_exists hitems hmem
        exact .pieces _ (hat.carries hcontext hlimit) hat.size
      · rw [buffers_addItems (Option.some.inj hset)] at hmem
        obtain ⟨response, -, hat⟩ := forall₂_exists hbodies hmem
        exact .pieces _ (hat.carries hcontext hlimit) hat.size
      · cases hset

/-! ## One item after the other -/

def Position.covers (position : Position) (o : Nat) : Prop :=
  position.offset ≤ o ∧ o < position.offset + position.size

/-- The memory of a function: reserved bytes as they were, and delivered ranges with their
bytes. -/
structure Stocked (image : List UInt8) (reserved : Nat → Prop) (storage : List UInt8)
    (context : Context) (delivered : List (Position × List UInt8)) : Prop where
  context_eq : context.context = .stored (.mmu storage)
  length_eq : storage.length = context.size
  size_lt : context.size < Usize.limit
  aligned : AlignedOccupation context.size 128 context.occupation
  image_kept : ∀ o, reserved o → Occupied context.occupation o ∧ storage[o]? = image[o]?
  inside : ∀ d ∈ delivered, d.2.length = d.1.size ∧ d.1.offset + d.1.size ≤ context.size
  bytes : ∀ d ∈ delivered, (storage.drop d.1.offset).take d.1.size = d.2
  occupied : ∀ d ∈ delivered, ∀ o, d.1.covers o → Occupied context.occupation o
  disjoint : delivered.Pairwise fun d e => ∀ o, ¬ (d.1.covers o ∧ e.1.covers o)

theorem take_drop_copyInto_of_disjoint {storage bytes : List UInt8} {start offset size : Nat}
    (hfits : start + bytes.length ≤ storage.length)
    (hdisjoint : ∀ o, offset ≤ o → o < offset + size → ¬ (start ≤ o ∧ o < start + bytes.length)) :
    ((copyInto storage start bytes).drop offset).take size = (storage.drop offset).take size := by
  apply List.ext_getElem?
  intro i
  rw [List.getElem?_take, List.getElem?_take]
  by_cases hi : i < size
  · rw [if_pos hi, if_pos hi, List.getElem?_drop, List.getElem?_drop, getElem?_copyInto hfits,
      if_neg (hdisjoint _ (by omega) (by omega))]
  · rw [if_neg hi, if_neg hi]

theorem Stocked.deliver {image storage bytes : List UInt8} {reserved : Nat → Prop} {context : Context}
    {delivered : List (Position × List UInt8)} {occupation : List Position}
    {content : List (Option DataSet)} {start : Nat}
    (h : Stocked image reserved storage context delivered)
    (hspace : getFreeSpace .checked context.size context.occupation bytes.length 128
      = .ok (start, occupation)) :
    Stocked image reserved (copyInto storage start bytes)
      { context with
        context := .stored (.mmu (copyInto storage start bytes)), content, occupation }
      (delivered ++ [(⟨start, bytes.length⟩, bytes)]) := by
  obtain ⟨-, hin, haligned, hoccupied, hfree⟩ := getFreeSpace_ok h.size_lt (by decide) h.aligned hspace
  have hfits : start + bytes.length ≤ storage.length := by
    rw [h.length_eq]
    exact hin
  have hdisjoint : ∀ d ∈ delivered, ∀ o, d.1.covers o → ¬ (start ≤ o ∧ o < start + bytes.length) :=
    fun d hd o ho hnew => hfree o hnew.1 hnew.2 (h.occupied d hd o ho)
  refine ⟨rfl, (length_copyInto hfits).trans h.length_eq, h.size_lt, haligned, fun o ho => ?_,
    fun d hd => ?_, fun d hd => ?_, fun d hd o ho => ?_, ?_⟩
  · obtain ⟨hocc, hbyte⟩ := h.image_kept o ho
    refine ⟨(hoccupied o).mpr (.inl hocc), ?_⟩
    rw [getElem?_copyInto hfits, if_neg fun hnew => hfree o hnew.1 hnew.2 hocc, hbyte]
  · rcases List.mem_append.mp hd with hd | hd
    · exact h.inside d hd
    · rw [List.mem_singleton.mp hd]
      exact ⟨rfl, hin⟩
  · rcases List.mem_append.mp hd with hd | hd
    · rw [take_drop_copyInto_of_disjoint hfits fun o hlo hhi => hdisjoint d hd o ⟨hlo, hhi⟩]
      exact h.bytes d hd
    · rw [List.mem_singleton.mp hd]
      exact take_drop_copyInto hfits
  · rcases List.mem_append.mp hd with hd | hd
    · exact (hoccupied o).mpr (.inl (h.occupied d hd o ho))
    · rw [List.mem_singleton.mp hd] at ho
      exact (hoccupied o).mpr (.inr ho)
  · refine List.pairwise_append.mpr ⟨h.disjoint, List.pairwise_singleton _ _, fun d hd e he o ho => ?_⟩
    rw [List.mem_singleton.mp he] at ho
    exact hdisjoint d hd o ho.1 ho.2

theorem Stocked.readsBack {image storage : List UInt8} {reserved : Nat → Prop} {context : Context}
    {delivered : List (Position × List UInt8)} (h : Stocked image reserved storage context delivered)
    {d : Position × List UInt8} (hd : d ∈ delivered) : ReadsBack context.context d.1.offset d.2 := by
  intro buffer hbuffer
  obtain ⟨hlength, hinside⟩ := h.inside d hd
  have hsize := h.size_lt
  have hstorage := h.length_eq
  rw [h.context_eq]
  change readStorage storage _ _ = _
  rw [readStorage_eq (by omega) (by omega), hbuffer, hlength, h.bytes d hd]

theorem resizeContent_eq {content : List (Option DataSet)} {length : Nat} (h : length ≤ content.length) :
    resizeContent content length = content := by
  rw [resizeContent, Nat.sub_eq_zero_of_le h, List.replicate_zero, List.append_nil]

theorem addItem_last (front : List (Option DataSet)) (set : DataSet) (name : String) (item : DataItem) :
    addItem (front ++ [some set]) front.length name item
      = front ++ [some { set with buffers := set.buffers ++ [item] }] := by
  have hget : (front ++ [some set])[front.length]? = some (some set) := List.getElem?_concat_length ..
  rw [addItem, hget, List.set_append_right _ _ (Nat.le_refl _), Nat.sub_self]
  rfl

section Run

variable {image : List UInt8} {reserved : Nat → Prop} {storage : List UInt8} {context after : Context}
  {delivered : List (Position × List UInt8)}

theorem transferDataItem_ok (h : Stocked image reserved storage context delivered)
    {front : List (Option DataSet)} {set : DataSet} (hcontent : context.content = front ++ [some set])
    {source : Context} (hsource : InputSource source) {setName : String}
    {sourceSetIndex sourceItemIndex : Nat}
    (hok : exec (transferDataItem source front.length 128 setName sourceSetIndex sourceItemIndex) context
      = (.ok (), after)) :
    ∃ sourceItem bytes start storage', source.itemAt sourceSetIndex sourceItemIndex = .ok sourceItem
      ∧ bytes.length = sourceItem.data.size
      ∧ ReadsBack source.context sourceItem.data.offset bytes
      ∧ Stocked image reserved storage' after
        (delivered ++ [(⟨start, sourceItem.data.size⟩, bytes)])
      ∧ after.content = front ++ [some { set with buffers := set.buffers
        ++ [⟨sourceItem.ident, ⟨start, sourceItem.data.size⟩, sourceItem.key⟩] }] := by
  have hresize : resizeContent context.content (front.length + 1) = context.content := by
    apply resizeContent_eq
    rw [hcontent, List.length_append]
    exact Nat.le_refl _
  obtain ⟨sourceItem, _, hlift, hok⟩ := (exec_bind_eq_ok_iff _ _ _ _).mp hok
  obtain ⟨hitem, rfl⟩ := Prod.mk.inj hlift
  rw [exec_modify_bind, hresize, if_neg (by decide), exec_get_bind] at hok
  obtain ⟨⟨start, occupation⟩, _, hlift, hok⟩ := (exec_bind_eq_ok_iff _ _ _ _).mp hok
  obtain ⟨hplace, rfl⟩ := Prod.mk.inj hlift
  have hspace : getFreeSpace .checked context.size context.occupation sourceItem.data.size 128
      = .ok (start, occupation) := by
    rw [destinationSpace, h.context_eq] at hplace
    exact hplace
  dsimp only at hok
  rw [h.context_eq] at hok
  cases htransfer : transferMemory (.stored (.mmu storage)) source start sourceItem.data.offset
      sourceItem.data.size with
  | mk written result =>
    rw [htransfer, exec_set_bind] at hok
    obtain ⟨rfl, rfl⟩ := Prod.mk.inj hok
    have hin := (getFreeSpace_ok h.size_lt (by decide) h.aligned hspace).2.1
    rw [← h.length_eq] at hin
    obtain ⟨bytes, hlength, rfl, hread⟩ := (hsource.itemSource hitem).transfer_mmu
      (h.length_eq ▸ h.size_lt) hin htransfer
    rw [← hlength] at hspace
    refine ⟨sourceItem, bytes, start, copyInto storage start bytes, hitem, hlength, hread, ?_, ?_⟩
    · rw [← hlength]
      exact h.deliver hspace
    · dsimp only
      rw [hcontent, addItem_last]

/-- An item of a function's context, and the source item whose bytes were delivered there. -/
def DeliveredFrom (delivered : List (Position × List UInt8)) (call : Nat × Nat × Context)
    (item : DataItem) : Prop :=
  ∃ sourceItem bytes, call.2.2.itemAt call.1 call.2.1 = .ok sourceItem
    ∧ item.ident = sourceItem.ident ∧ item.key = sourceItem.key
    ∧ item.data.size = sourceItem.data.size ∧ bytes.length = sourceItem.data.size
    ∧ ReadsBack call.2.2.context sourceItem.data.offset bytes ∧ (item.data, bytes) ∈ delivered

theorem DeliveredFrom.mono {delivered' : List (Position × List UInt8)} {call : Nat × Nat × Context}
    {item : DataItem} (h : DeliveredFrom delivered call item) (hsub : delivered ⊆ delivered') :
    DeliveredFrom delivered' call item := by
  obtain ⟨sourceItem, bytes, hitem, hident, hkey, hsize, hlength, hread, hmem⟩ := h
  exact ⟨sourceItem, bytes, hitem, hident, hkey, hsize, hlength, hread, hsub hmem⟩

theorem transferItems_ok (h : Stocked image reserved storage context delivered)
    {front : List (Option DataSet)} {set : DataSet} (hcontent : context.content = front ++ [some set])
    {setName : String} {calls : List (Nat × Nat × Context)}
    (hsources : ∀ call ∈ calls, InputSource call.2.2)
    (hok : exec (transferItems front.length setName calls) context = (.ok (), after)) :
    ∃ items added storage', Stocked image reserved storage' after (delivered ++ added)
      ∧ after.content = front ++ [some { set with buffers := set.buffers ++ items }]
      ∧ added.map Prod.fst = items.map DataItem.data
      ∧ List.Forall₂ (DeliveredFrom (delivered ++ added)) calls items := by
  induction calls generalizing storage context delivered set with
  | nil =>
    obtain ⟨-, rfl⟩ := Prod.mk.inj hok
    refine ⟨[], [], storage, ?_, ?_, rfl, .nil⟩
    · rw [List.append_nil]
      exact h
    · rw [List.append_nil]
      exact hcontent
  | cons call calls ih =>
    obtain ⟨sourceSetIndex, sourceItemIndex, source⟩ := call
    obtain ⟨hfirst, hrest⟩ := List.forall_mem_cons.mp hsources
    obtain ⟨_, context₁, hitem, hok⟩ := (exec_bind_eq_ok_iff _ _ _ _).mp hok
    obtain ⟨sourceItem, bytes, start, storage₁, hat, hlength, hread, hstocked, hcontent₁⟩ :=
      transferDataItem_ok h hcontent hfirst hitem
    obtain ⟨items, added, storage', hstocked', hcontent', hpositions, hitems⟩ :=
      ih hstocked hcontent₁ hrest hok
    rw [List.append_assoc, List.singleton_append] at hstocked' hitems
    refine ⟨⟨sourceItem.ident, ⟨start, sourceItem.data.size⟩, sourceItem.key⟩ :: items, _ :: added,
      storage', hstocked', ?_, ?_, .cons ?_ hitems⟩
    · rw [hcontent', List.append_assoc, List.singleton_append]
    · rw [List.map_cons, List.map_cons, hpositions]
    · exact ⟨sourceItem, bytes, hat, rfl, rfl, rfl, hlength, hread,
        List.mem_append_right _ List.mem_cons_self⟩

/-- The sets of a function and the transfers into each of them. -/
def inputCalls (inputSets : List (Option (CompositionSet Context))) :
    List (String × Option (CompositionSet Context)) → Nat → List (String × List (Nat × Nat × Context))
  | [], _ => []
  | (setName, staticSet) :: metadata, setIndex =>
    (setName, (transferOption inputSets setIndex staticSet).elim [] transferIterator)
      :: inputCalls inputSets metadata (setIndex + 1)

def allItems (content : List (Option DataSet)) : List DataItem :=
  content.flatMap fun set => set.elim [] DataSet.buffers

/-- A set with one item for each transfer. -/
def SetFrom (delivered : List (Position × List UInt8)) (call : String × List (Nat × Nat × Context))
    (set : Option DataSet) : Prop :=
  ∃ items, set = some ⟨call.1, items⟩ ∧ List.Forall₂ (DeliveredFrom delivered) call.2 items

theorem transferInputs_ok {inputSets : List (Option (CompositionSet Context))}
    {metadata : List (String × Option (CompositionSet Context))} {setIndex : Nat}
    (h : Stocked image reserved storage context delivered) (hindex : context.content.length = setIndex)
    (hpositions : delivered.map Prod.fst = (allItems context.content).map DataItem.data)
    (hsources : ∀ set ∈ inputCalls inputSets metadata setIndex, ∀ call ∈ set.2, InputSource call.2.2)
    (hok : exec (transferInputs inputSets metadata setIndex) context = (.ok (), after)) :
    ∃ sets added storage', Stocked image reserved storage' after (delivered ++ added)
      ∧ after.content = context.content ++ sets
      ∧ (delivered ++ added).map Prod.fst = (allItems after.content).map DataItem.data
      ∧ List.Forall₂ (SetFrom (delivered ++ added)) (inputCalls inputSets metadata setIndex) sets := by
  induction metadata generalizing storage context delivered setIndex with
  | nil =>
    obtain ⟨-, rfl⟩ := Prod.mk.inj hok
    refine ⟨[], [], storage, ?_, (List.append_nil _).symm, ?_, .nil⟩
    · rw [List.append_nil]
      exact h
    · rw [List.append_nil]
      exact hpositions
  | cons input metadata ih =>
    obtain ⟨setName, staticSet⟩ := input
    obtain ⟨hfirst, hrest⟩ := List.forall_mem_cons.mp hsources
    subst hindex
    rw [transferInputs, exec_modify_bind] at hok
    -- the new set is filled by the transfers into it
    have hset : ∃ context₁, exec (transferItems context.content.length setName
          ((transferOption inputSets context.content.length staticSet).elim [] transferIterator))
          { context with content := context.content ++ [some ⟨setName, []⟩] } = (.ok (), context₁)
        ∧ exec (transferInputs inputSets metadata (context.content.length + 1)) context₁ =
          (.ok (), after) := by
      cases hoption : transferOption inputSets context.content.length staticSet with
      | none =>
        rw [hoption] at hok
        exact ⟨_, rfl, hok⟩
      | some set =>
        rw [hoption] at hok
        obtain ⟨_, context₁, hitems, hok⟩ := (exec_bind_eq_ok_iff _ _ _ _).mp hok
        exact ⟨context₁, hitems, hok⟩
    obtain ⟨context₁, hitems, hok⟩ := hset
    have hnew : Stocked image reserved storage
        { context with content := context.content ++ [some ⟨setName, []⟩] } delivered :=
      ⟨h.context_eq, h.length_eq, h.size_lt, h.aligned, h.image_kept, h.inside, h.bytes, h.occupied,
        h.disjoint⟩
    obtain ⟨items, added, storage₁, hstocked, hcontent, hadded, hdelivered⟩ :=
      transferItems_ok hnew rfl hfirst hitems
    rw [List.nil_append] at hcontent
    have hpositions₁ : (delivered ++ added).map Prod.fst = (allItems context₁.content).map DataItem.data := by
      rw [List.map_append, hpositions, hadded, hcontent, allItems, allItems, List.flatMap_append,
        List.map_append]
      simp only [List.flatMap_singleton, Option.elim_some]
    have hindex₁ : context₁.content.length = context.content.length + 1 := by
      rw [hcontent, List.length_append]
      rfl
    obtain ⟨sets, added', storage', hstocked', hcontent', hpositions', hsets⟩ :=
      ih hstocked hindex₁ hpositions₁ hrest hok
    rw [List.append_assoc] at hstocked' hpositions' hsets
    refine ⟨some ⟨setName, items⟩ :: sets, added ++ added', storage', hstocked', ?_, hpositions', ?_⟩
    · rw [hcontent', hcontent, List.append_assoc, List.singleton_append]
    · refine .cons ⟨items, rfl, ?_⟩ hsets
      refine hdelivered.imp fun _ _ hitem => hitem.mono ?_
      rw [← List.append_assoc]
      exact List.subset_append_left _ _

end Run

end Dandelion
