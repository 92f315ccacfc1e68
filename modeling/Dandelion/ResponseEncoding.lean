import Dandelion.CompositionSet
import Dandelion.Contexts
import Dandelion.Messages
import Dandelion.Splicing

/-!
# Encoding a response

The sets of a response are written as the BSON document that the caller decodes, but for the data of
the items: it stays in the contexts, and only where it belongs is noted. Lengths are written when what
they measure is complete, with the size of the data that is not there added.
-/

namespace Dandelion

open Bson Outcome Splicing

section Encoders

/-- Data that is not in the serial bytes but belongs in front of an offset of them. -/
structure ItemData where
  responseOffset : Nat
  reponseSize : Nat
  setIndex : Nat
  itemIndex : Nat
  context : Context

/-- The serial bytes and the data items so far. -/
structure Response where
  serial : List UInt8
  dataItems : List ItemData

def Response.push (response : Response) (bytes : List UInt8) : Response :=
  { response with serial := response.serial ++ bytes }

/-- `data_items.push(item)` -/
def Response.note (response : Response) (item : ItemData) : Response :=
  { response with dataItems := response.dataItems ++ [item] }

/-- `response[start..start + 4].copy_from_slice(&(length as i32).to_le_bytes())` -/
def Response.setLength (response : Response) (start length : Nat) : Response :=
  { response with serial := KvmContext.copyInto response.serial start (leBytes 4 length) }

/-- The end of a document or array that started at `start`: a null, and the length with the size of
the data items in it. -/
def Response.close (response : Response) (start itemsSize : Nat) : DandelionResult Response := do
  let response := response.push [0]
  let docSize ← Usize.add .checked (response.serial.length - start) itemsSize
  pure (response.setLength start docSize)

/-- `context.content[set_index].as_ref().unwrap()` -/
def setOf (context : Context) (setIndex : Nat) : DandelionResult DataSet :=
  match context.content[setIndex]? with
  | some (some set) => pure set
  | _ => crash

/-- `buffers[item_index]` of the set. -/
def itemOf (context : Context) (setIndex itemIndex : Nat) : DandelionResult DataItem := do
  let set ← setOf context setIndex
  match set.buffers[itemIndex]? with
  | some item => pure item
  | none => crash

/-- A string element: its type, its name, its length and the text. -/
def Response.pushString (response : Response) (name text : String) : Response :=
  ((response.push (2 :: utf8Bytes name)).push (leBytes 4 ((utf8Bytes text).length + 1))).push
    (utf8Bytes text ++ [0])

/-- The elements of an item. The key is a `u32`, and the generic subtype is behind the size. -/
def Response.pushItem (response : Response) (itemRef : DataItem) (setIndex itemIndex : Nat)
    (context : Context) : Response :=
  let response := response.pushString "identifier\x00" itemRef.ident
  let response := response.push (18 :: utf8Bytes "key\x00")
  let response := response.push (leBytes 8 (UInt32.ofNat itemRef.key).toNat)
  let response := response.push (5 :: utf8Bytes "data\x00")
  let response := response.push (leBytes 4 itemRef.data.size ++ [0])
  response.note ⟨response.serial.length, itemRef.data.size, setIndex, itemIndex, context⟩

def encodeItem (setIndex itemIndex : Nat) (context : Context) (arrayIndex : Nat) (response : Response) :
    DandelionResult (Nat × Response) := do
  let itemRef ← itemOf context setIndex itemIndex
  let response := response.push (3 :: (utf8Bytes (toString arrayIndex) ++ [0]))
  let docStart := response.serial.length
  let response := response.push (leBytes 4 0)
  let response := response.pushItem itemRef setIndex itemIndex context
  let response ← response.close docStart itemRef.data.size
  pure (itemRef.data.size, response)

/-- The loops over the items of a set and over the sets: the elements of an array, and the size of the
data items in them. -/
def encodeArray {β : Type} (encodeElement : β → Nat → Response → DandelionResult (Nat × Response)) :
    List β → Nat → Nat → Response → DandelionResult (Nat × Response)
  | [], _, length, response => pure (length, response)
  | element :: elements, arrayIndex, length, response => do
    let (size, response) ← encodeElement element arrayIndex response
    let length ← Usize.add .checked length size
    encodeArray encodeElement elements (arrayIndex + 1) length response

def encodeItems (setIndex : Nat) (items : List (SetItem Context)) (response : Response) :
    DandelionResult (Nat × Response) :=
  encodeArray (fun item => encodeItem setIndex item.2.1 item.2.2) items 0 0 response

/-- One round of the loop over the sets. The name is that of the set in the first item's context. -/
def encodeSet (index : Nat) (set : CompositionSet Context) (response : Response) :
    DandelionResult (Nat × Response) := do
  let response := response.push (3 :: (utf8Bytes (toString index) ++ [0]))
  let docStart := response.serial.length
  let response := response.push (leBytes 4 0)
  match set.itemList with
  | [] => crash
  | (_, _, zeroSet) :: _ => do
    let setName := (← setOf zeroSet set.setIndex).ident
    let response := response.pushString "identifier\x00" setName
    let response := response.push (4 :: utf8Bytes "items\x00")
    let itemArrayStart := response.serial.length
    let response := response.push (leBytes 4 0)
    let (setItemsLength, response) ← encodeItems set.setIndex set.itemList response
    let response ← response.close itemArrayStart setItemsLength
    let response ← response.close docStart setItemsLength
    pure (setItemsLength, response)

/-- Sets that are absent or empty are left out. -/
def nonEmptySets (sets : List (Option (CompositionSet Context))) : List (CompositionSet Context) :=
  sets.filterMap fun set => set.bind fun s => if s.isEmpty then none else some s

def encodeSets (sets : List (Option (CompositionSet Context))) (response : Response) :
    DandelionResult (Nat × Response) :=
  encodeArray (fun set index => encodeSet index set) (nonEmptySets sets) 0 0 response

/-- The timestamps are there if the feature is on; their length is set behind the text. -/
def encodeTimestamps (timestamps : Option String) (response : Response) : Response :=
  match timestamps with
  | none => response
  | some timestampString =>
    let response := response.push (2 :: utf8Bytes "timestamps\x00")
    let timestampLengthOffset := response.serial.length
    let response := response.push (leBytes 4 0)
    let response := response.push (utf8Bytes timestampString ++ [0])
    response.setLength timestampLengthOffset ((utf8Bytes timestampString).length + 1)

def encodeResponse (sets : List (Option (CompositionSet Context))) (timestamps : Option String) :
    DandelionResult (Nat × Response) := do
  let response : Response := ⟨leBytes 4 0, []⟩
  let response := response.push (4 :: utf8Bytes "sets\x00")
  let setLengthOffset := response.serial.length
  let response := response.push (leBytes 4 0)
  let (allItems, response) ← encodeSets sets response
  let response ← response.close setLengthOffset allItems
  let response := encodeTimestamps timestamps response
  let response ← response.close 0 allItems
  pure (allItems, response)

end Encoders

section Written

/-- Where the data of an item is from: its context, its set and its place in the set. -/
abbrev ItemBytes := Context → Nat → Nat → List UInt8

variable (data : ItemBytes)

/-- The response with the data in its place. -/
def spliceFrom (position : Nat) (serial : List UInt8) (items : List ItemData) : List UInt8 :=
  splice ItemData.responseOffset (fun item => data item.context item.setIndex item.itemIndex) position
    serial items

/-- The item is where it says, and its data has the size that it says. -/
def Noted (item : ItemData) : Prop :=
  ∃ itemRef, itemOf item.context item.setIndex item.itemIndex = .ok itemRef ∧
    item.reponseSize = itemRef.data.size ∧
    (data item.context item.setIndex item.itemIndex).length = itemRef.data.size

/-- The bytes of a document were added, `size` of them as data that is only noted. -/
structure Appends (before after : Response) (document : List UInt8) (size : Nat) : Prop where
  added : ∃ written noted, after.serial = before.serial ++ written ∧
    after.dataItems = before.dataItems ++ noted ∧
    Within ItemData.responseOffset before.serial.length after.serial.length noted ∧
    (∀ item ∈ noted, Noted data item) ∧
    (noted.map fun item => (data item.context item.setIndex item.itemIndex).length).sum = size ∧
    spliceFrom data before.serial.length written noted = document

variable {data} {response before middle after : Response} {document document' : List UInt8}
  {size size' : Nat}

theorem Appends.length (h : Appends data before after document size) :
    after.serial.length + size = before.serial.length + document.length := by
  obtain ⟨written, noted, hserial, -, -, -, hsize, hdocument⟩ := h.added
  have hlength := congrArg List.length hdocument
  rw [spliceFrom, length_splice] at hlength
  rw [hserial, List.length_append]
  omega

theorem Appends.le (h : Appends data before after document size) :
    before.serial.length ≤ after.serial.length := by
  obtain ⟨written, noted, hserial, -⟩ := h.added
  rw [hserial, List.length_append]
  exact Nat.le_add_right _ _

theorem Appends.size_le (h : Appends data before after document size) : size ≤ document.length := by
  have hlength := h.length
  have hle := h.le
  omega

theorem Appends.refl (response : Response) : Appends data response response [] 0 where
  added := ⟨[], [], (List.append_nil _).symm, (List.append_nil _).symm, Nat.le_refl _,
    fun _ hitem => absurd hitem List.not_mem_nil, rfl, rfl⟩

theorem appends_push (response : Response) (bytes : List UInt8) :
    Appends data response (response.push bytes) bytes 0 where
  added := by
    refine ⟨bytes, [], rfl, (List.append_nil _).symm, ?_, fun _ hitem => absurd hitem List.not_mem_nil,
      rfl, rfl⟩
    rw [Response.push, List.length_append]
    exact Nat.le_add_right _ _

theorem appends_note {item : ItemData} (h : item.responseOffset = response.serial.length)
    (hnoted : Noted data item) :
    Appends data response (response.note item) (data item.context item.setIndex item.itemIndex)
      (data item.context item.setIndex item.itemIndex).length where
  added := by
    refine ⟨[], [item], (List.append_nil _).symm, rfl, ⟨h.ge, h.le⟩, ?_, Nat.add_zero _, ?_⟩
    · intro other hother
      rwa [List.mem_singleton.mp hother]
    · simp [spliceFrom, splice]

theorem Appends.trans (h : Appends data before middle document size)
    (h' : Appends data middle after document' size') :
    Appends data before after (document ++ document') (size + size') where
  added := by
    obtain ⟨written, noted, hserial, hitems, hwithin, hnoted, hsize, hdocument⟩ := h.added
    obtain ⟨written', noted', hserial', hitems', hwithin', hnoted', hsize', hdocument'⟩ := h'.added
    refine ⟨written ++ written', noted ++ noted', ?_, ?_, hwithin.append hwithin', ?_, ?_, ?_⟩
    · rw [hserial', hserial, List.append_assoc]
    · rw [hitems', hitems, List.append_assoc]
    · exact fun item hitem => (List.mem_append.mp hitem).elim (hnoted item) (hnoted' item)
    · rw [List.map_append, List.sum_append, hsize, hsize']
    · have hlength : before.serial.length + written.length = middle.serial.length := by
        rw [hserial, List.length_append]
      rw [spliceFrom, splice_append (by rw [hlength]; exact hwithin) (by rw [hlength]; exact hwithin'),
        hlength]
      exact congrArg₂ (· ++ ·) hdocument hdocument'

theorem Appends.setLength (h : Appends data (response.push (leBytes 4 0)) after document size)
    (length : Nat) :
    Appends data response (after.setLength response.serial.length length)
      (leBytes 4 length ++ document) size where
  added := by
    obtain ⟨written, noted, hserial, hitems, hwithin, hnoted, hsize, hdocument⟩ := h.added
    have hpush : (response.push (leBytes 4 0)).serial.length = response.serial.length + 4 := by
      rw [Response.push, List.length_append, length_leBytes]
    rw [hpush] at hwithin hdocument
    have hpatched : (after.setLength response.serial.length length).serial =
        response.serial ++ (leBytes 4 length ++ written) := by
      simp only [Response.setLength, KvmContext.copyInto, hserial, Response.push, List.append_assoc]
      rw [List.take_left, length_leBytes, ← List.drop_drop, List.drop_left,
        List.drop_left' (length_leBytes ..)]
    have hlength : (after.setLength response.serial.length length).serial.length = after.serial.length := by
      simp only [hpatched, hserial, Response.push, List.length_append, length_leBytes, Nat.add_assoc]
    refine ⟨leBytes 4 length ++ written, noted, hpatched, hitems, ?_, hnoted, hsize, ?_⟩
    · rw [hlength]
      exact hwithin.mono (Nat.le_add_right _ _)
    · have hfront : Within ItemData.responseOffset
          (response.serial.length + (leBytes 4 length).length) after.serial.length noted := by
        rw [length_leBytes]
        exact hwithin
      rw [spliceFrom, splice_front hfront, length_leBytes]
      exact congrArg (leBytes 4 length ++ ·) hdocument

@[simp] theorem length_push (response : Response) (bytes : List UInt8) :
    (response.push bytes).serial.length = response.serial.length + bytes.length := List.length_append

theorem meets_add {a b : Nat} {E : Stop DandelionError → Prop} (hE : Usize.limit ≤ a + b → E .panic) :
    Meets (Usize.add .checked a b : DandelionResult Nat) (· = a + b) E := by
  by_cases hfits : a + b < Usize.limit
  · rw [Usize.add_eq_ok hfits]
    rfl
  · rw [show (Usize.add .checked a b : DandelionResult Nat) = crash from if_neg hfits]
    exact hE (Nat.le_of_not_lt hfits)

/-- A document between its length and a null, with data that is only noted. -/
theorem Appends.close (h : Appends data (response.push (leBytes 4 0)) after document size)
    {E : Stop DandelionError → Prop} (hE : Usize.limit ≤ document.length + 5 → E .panic) :
    Meets (after.close response.serial.length size)
      (fun closed => Appends data response closed (enclose document) size) E := by
  have hall := h.trans (appends_push after [0])
  have hlength := hall.length
  have hle := h.le
  rw [length_push, length_leBytes] at hle
  rw [length_push, length_push, length_leBytes, List.length_append, List.length_singleton] at hlength
  have heq : (after.push [0]).serial.length - response.serial.length + size = document.length + 5 := by
    rw [length_push, List.length_singleton]
    omega
  refine (meets_add (fun hlimit => hE (by omega))).bind fun docSize hdocSize => ?_
  rw [hdocSize, heq]
  exact hall.setLength (document.length + 5)

theorem appends_pushString (response : Response) {name : Name} {expected : String}
    (hname : utf8Bytes expected = name.bytes) (text : String) :
    Appends data response (response.pushString expected text)
      (2 :: (name.bytes ++ (Value.string text).bytes)) 0 := by
  have hall : Appends data response (response.pushString expected text) _ _ :=
    ((appends_push response (2 :: utf8Bytes expected)).trans
      (appends_push _ (leBytes 4 ((utf8Bytes text).length + 1)))).trans
      (appends_push _ (utf8Bytes text ++ [0]))
  rw [List.cons_append, List.cons_append, List.append_assoc] at hall
  rw [Value.bytes, ← hname]
  exact hall

end Written

section Items

variable {data : ItemBytes} {E : Stop DandelionError → Prop}

/-- The item as it is in the response: its data has the size that its context gives. -/
def DescribesItem (data : ItemBytes) (setIndex : Nat) (item : SetItem Context) (input : InputItem) :
    Prop :=
  ∃ itemRef, itemOf item.2.2 setIndex item.2.1 = .ok itemRef ∧
    (data item.2.2 setIndex item.2.1).length = itemRef.data.size ∧
    input = ⟨itemRef.ident, UInt32.ofNat itemRef.key, data item.2.2 setIndex item.2.1⟩

theorem appends_pushItem (response : Response) (itemRef : DataItem) (setIndex itemIndex : Nat)
    (context : Context) (href : itemOf context setIndex itemIndex = .ok itemRef)
    (hsize : (data context setIndex itemIndex).length = itemRef.data.size) :
    Appends data response (response.pushItem itemRef setIndex itemIndex context)
      (InputItem.elements ⟨itemRef.ident, UInt32.ofNat itemRef.key, data context setIndex itemIndex⟩).bytes
      itemRef.data.size := by
  have hident : Appends data response (response.pushString "identifier\x00" itemRef.ident) _ _ :=
    appends_pushString response (show _ = Layout.identifier.bytes by decide) itemRef.ident
  have hkey := (hident.trans (appends_push _ (18 :: utf8Bytes "key\x00"))).trans
    (appends_push _ (leBytes 8 (UInt32.ofNat itemRef.key).toNat))
  have hdata := (hkey.trans (appends_push _ (5 :: utf8Bytes "data\x00"))).trans
    (appends_push _ (leBytes 4 itemRef.data.size ++ [0]))
  have hall : Appends data response (response.pushItem itemRef setIndex itemIndex context) _ _ :=
    hdata.trans (appends_note rfl ⟨itemRef, href, rfl, hsize⟩)
  have hbytes : (InputItem.elements ⟨itemRef.ident, UInt32.ofNat itemRef.key,
      data context setIndex itemIndex⟩).bytes =
      2 :: (Layout.identifier.bytes ++ (Value.string itemRef.ident).bytes) ++
      18 :: utf8Bytes "key\x00" ++ leBytes 8 (UInt32.ofNat itemRef.key).toNat ++
      5 :: utf8Bytes "data\x00" ++ (leBytes 4 itemRef.data.size ++ [0]) ++
      data context setIndex itemIndex := by
    have hkeyName : utf8Bytes "key\x00" = Layout.key.bytes := by decide
    have hdataName : utf8Bytes "data\x00" = Layout.data.bytes := by decide
    have hbinary : (Value.binary 0 (data context setIndex itemIndex)).bytes =
        leBytes 4 itemRef.data.size ++ 0 :: data context setIndex itemIndex := by
      rw [Value.bytes, hsize]
    simp only [InputItem.elements, Elements.bytes, Value.type, bytes_key, hkeyName, hdataName, hbinary,
      List.cons_append, List.append_assoc, List.nil_append, List.append_nil]
  rw [hbytes]
  simpa only [Nat.zero_add, hsize] using hall

theorem encodeItem_meets {setIndex : Nat} {item : SetItem Context} {input : InputItem}
    (hitem : DescribesItem data setIndex item input) (arrayIndex : Nat) (response : Response)
    (hE : Usize.limit ≤ (Value.document input.elements).bytes.length → E .panic) :
    Meets (encodeItem setIndex item.2.1 item.2.2 arrayIndex response)
      (fun result => Appends data response result.2
        (3 :: ((Name.ofIndex arrayIndex).bytes ++ (Value.document input.elements).bytes)) result.1) E := by
  obtain ⟨itemRef, href, hsize, rfl⟩ := hitem
  rw [Value.bytes, length_enclose] at hE
  rw [encodeItem, href, ok_bind]
  refine ((appends_pushItem _ itemRef setIndex item.2.1 item.2.2 href hsize).close hE).bind
    fun closed hclosed => ?_
  have hall := (appends_push response (3 :: (Name.ofIndex arrayIndex).bytes)).trans hclosed
  rw [Nat.zero_add] at hall
  rw [Value.bytes]
  exact hall

end Items

section Sets

variable {data : ItemBytes} {E : Stop DandelionError → Prop}

theorem encodeArray_meets {β γ : Type}
    {encodeElement : β → Nat → Response → DandelionResult (Nat × Response)} {R : β → γ → Prop}
    {elements : γ → Elements}
    (helement : ∀ b c index response, R b c →
      (Usize.limit ≤ (Value.document (elements c)).bytes.length → E .panic) →
      Meets (encodeElement b index response) (fun result => Appends data response result.2
        (3 :: ((Name.ofIndex index).bytes ++ (Value.document (elements c)).bytes)) result.1) E)
    {bs : List β} {cs : List γ} (hall : List.Forall₂ R bs cs) (index length : Nat) (response : Response)
    (hE : Usize.limit ≤ length +
      (Elements.ofValues index (cs.map fun c => .document (elements c))).bytes.length → E .panic) :
    Meets (encodeArray encodeElement bs index length response)
      (fun result => ∃ size, result.1 = length + size ∧ Appends data response result.2
        (Elements.ofValues index (cs.map fun c => .document (elements c))).bytes size) E := by
  induction hall generalizing index length response with
  | nil => exact ⟨0, rfl, .refl response⟩
  | @cons b c bs cs hb hbs ih =>
    rw [List.map_cons, Elements.ofValues, Elements.bytes, Value.type] at hE ⊢
    simp only [List.length_cons, List.length_append] at hE
    rw [encodeArray]
    refine (helement b c index response hb fun hlimit => hE (by omega)).bind fun result happends => ?_
    obtain ⟨size, middle⟩ := result
    have hsize := happends.size_le
    simp only [List.length_cons, List.length_append] at hsize
    refine (meets_add (fun hlimit => hE (by omega))).bind fun total htotal => ?_
    subst htotal
    refine (ih (index + 1) (length + size) middle (fun hlimit => hE (by omega))).imp fun result hresult => ?_
    obtain ⟨rest, hresult, hrest⟩ := hresult
    refine ⟨size + rest, hresult.trans (Nat.add_assoc _ _ _), ?_⟩
    have happended := happends.trans hrest
    rw [List.cons_append, List.append_assoc] at happended
    exact happended

theorem encodeItems_meets {setIndex : Nat} {items : List (SetItem Context)} {inputs : List InputItem}
    (hitems : List.Forall₂ (DescribesItem data setIndex) items inputs) (response : Response)
    (hE : Usize.limit ≤ (Elements.ofValues 0
      (inputs.map fun input => .document input.elements)).bytes.length → E .panic) :
    Meets (encodeItems setIndex items response)
      (fun result => Appends data response result.2
        (Elements.ofValues 0 (inputs.map fun input => .document input.elements)).bytes result.1) E := by
  have helement : ∀ (item : SetItem Context) (input : InputItem) index response,
      DescribesItem data setIndex item input →
      (Usize.limit ≤ (Value.document input.elements).bytes.length → E .panic) →
      Meets (encodeItem setIndex item.2.1 item.2.2 index response) (fun result => Appends data response
        result.2 (3 :: ((Name.ofIndex index).bytes ++ (Value.document input.elements).bytes)) result.1) E :=
    fun item input index response hitem hlimit => encodeItem_meets hitem index response hlimit
  refine (encodeArray_meets helement hitems 0 0 response (by rwa [Nat.zero_add])).imp
    fun result hresult => ?_
  obtain ⟨size, htotal, happends⟩ := hresult
  rw [htotal, Nat.zero_add]
  exact happends

/-- The set as it is in the response, with the name that the context of its first item has for it. -/
structure DescribesSet (data : ItemBytes) (set : CompositionSet Context) (input : InputSet) : Prop where
  ident : ∃ first rest dataSet, set.itemList = first :: rest ∧
    setOf first.2.2 set.setIndex = .ok dataSet ∧ input.identifier = dataSet.ident
  items : List.Forall₂ (DescribesItem data set.setIndex) set.itemList input.items

theorem encodeSet_meets {set : CompositionSet Context} {input : InputSet}
    (hset : DescribesSet data set input) (index : Nat) (response : Response)
    (hE : Usize.limit ≤ (Value.document input.elements).bytes.length → E .panic) :
    Meets (encodeSet index set response)
      (fun result => Appends data response result.2
        (3 :: ((Name.ofIndex index).bytes ++ (Value.document input.elements).bytes)) result.1) E := by
  obtain ⟨first, rest, dataSet, hlist, hname, hident⟩ := hset.ident
  have hbytes : input.elements.bytes = 2 :: (Layout.identifier.bytes ++ (Value.string dataSet.ident).bytes) ++
      4 :: Layout.items.bytes ++ enclose (Elements.ofValues 0
        (input.items.map fun item => .document item.elements)).bytes := by
    simp only [InputSet.elements, Elements.bytes, Value.type, Value.bytes, hident, List.cons_append,
      List.append_assoc, List.append_nil]
  have hlength := congrArg List.length hbytes
  simp only [List.length_append, List.length_cons, length_enclose] at hlength
  rw [Value.bytes, length_enclose] at hE
  rw [encodeSet, hlist]
  simp only [hname, ok_bind]
  rw [← hlist]
  refine (encodeItems_meets hset.items _ fun hlimit => hE (by omega)).bind fun result hitems => ?_
  obtain ⟨setItemsLength, filled⟩ := result
  refine (hitems.close fun hlimit => hE (by omega)).bind fun closed harray => ?_
  have hitemsName : utf8Bytes "items\x00" = Layout.items.bytes := by decide
  have helements := ((appends_pushString _ (show _ = Layout.identifier.bytes by decide)
    dataSet.ident).trans (appends_push _ (4 :: utf8Bytes "items\x00"))).trans harray
  rw [hitemsName, ← hbytes, Nat.zero_add] at helements
  refine (helements.close hE).bind fun result hdocument => ?_
  have hall := (appends_push response (3 :: (Name.ofIndex index).bytes)).trans hdocument
  rw [Nat.zero_add] at hall
  rw [Value.bytes]
  exact hall

theorem encodeSets_meets {sets : List (Option (CompositionSet Context))} {inputs : List InputSet}
    (hsets : List.Forall₂ (DescribesSet data) (nonEmptySets sets) inputs) (response : Response)
    (hE : Usize.limit ≤ (Elements.ofValues 0
      (inputs.map fun input => .document input.elements)).bytes.length → E .panic) :
    Meets (encodeSets sets response)
      (fun result => Appends data response result.2
        (Elements.ofValues 0 (inputs.map fun input => .document input.elements)).bytes result.1) E := by
  have helement : ∀ (set : CompositionSet Context) (input : InputSet) index response,
      DescribesSet data set input →
      (Usize.limit ≤ (Value.document input.elements).bytes.length → E .panic) →
      Meets (encodeSet index set response) (fun result => Appends data response
        result.2 (3 :: ((Name.ofIndex index).bytes ++ (Value.document input.elements).bytes)) result.1) E :=
    fun set input index response hset hlimit => encodeSet_meets hset index response hlimit
  refine (encodeArray_meets helement hsets 0 0 response (by rwa [Nat.zero_add])).imp fun result hresult => ?_
  obtain ⟨size, htotal, happends⟩ := hresult
  rw [htotal, Nat.zero_add]
  exact happends

end Sets

section Responses

variable {data : ItemBytes} {E : Stop DandelionError → Prop}

/-- The timestamps, if there are any. -/
def timestampElements : Option String → Elements
  | none => .nil
  | some text => .cons Layout.timestamps (.string text) .nil

def responseElements (sets : List InputSet) (timestamps : Option String) : Elements :=
  .cons Layout.sets (setsValue sets) (timestampElements timestamps)

theorem appends_encodeTimestamps (timestamps : Option String) (response : Response) :
    Appends data response (encodeTimestamps timestamps response) (timestampElements timestamps).bytes 0 := by
  cases timestamps with
  | none => exact .refl response
  | some text =>
    have hname : utf8Bytes "timestamps\x00" = Layout.timestamps.bytes := by decide
    have hall : Appends data response (encodeTimestamps (some text) response) _ _ :=
      (appends_push response (2 :: utf8Bytes "timestamps\x00")).trans
        ((appends_push _ (utf8Bytes text ++ [0])).setLength ((utf8Bytes text).length + 1))
    rw [timestampElements, Elements.bytes, Elements.bytes, List.append_nil, Value.type, Value.bytes, ← hname]
    exact hall

theorem encodeResponse_meets {sets : List (Option (CompositionSet Context))} {inputs : List InputSet}
    (hsets : List.Forall₂ (DescribesSet data) (nonEmptySets sets) inputs) (timestamps : Option String)
    (hE : Usize.limit ≤ (encode (responseElements inputs timestamps)).length → E .panic) :
    Meets (encodeResponse sets timestamps)
      (fun result => Appends data ⟨[], []⟩ result.2 (encode (responseElements inputs timestamps)) result.1)
      E := by
  have hsetsName : utf8Bytes "sets\x00" = Layout.sets.bytes := by decide
  have hbytes : (responseElements inputs timestamps).bytes = 4 :: Layout.sets.bytes ++
      enclose (Elements.ofValues 0 (inputs.map fun input => .document input.elements)).bytes ++
      (timestampElements timestamps).bytes := by
    simp only [responseElements, setsValue, Elements.bytes, Value.type, Value.bytes, List.cons_append,
      List.append_assoc]
  have hlength := congrArg List.length hbytes
  simp only [List.length_append, List.length_cons, length_enclose] at hlength
  rw [encode, length_enclose] at hE
  rw [encodeResponse]
  refine (encodeSets_meets hsets _ fun hlimit => hE (by omega)).bind fun result hfilled => ?_
  obtain ⟨allItems, filled⟩ := result
  refine (hfilled.close fun hlimit => hE (by omega)).bind fun closed harray => ?_
  have helements : Appends data (Response.push ⟨[], []⟩ (leBytes 4 0)) _ _ _ :=
    ((appends_push _ (4 :: utf8Bytes "sets\x00")).trans harray).trans
      (appends_encodeTimestamps timestamps closed)
  rw [hsetsName, ← hbytes, Nat.zero_add, Nat.add_zero] at helements
  exact (helements.close hE).bind fun result hdocument => hdocument

/-- Splicing the data into the serial bytes gives one document of that length. -/
theorem encodeResponse_splices (data : ItemBytes) {sets : List (Option (CompositionSet Context))}
    {inputs : List InputSet} (hsets : List.Forall₂ (DescribesSet data) (nonEmptySets sets) inputs)
    (timestamps : Option String)
    (hlength : (encode (responseElements inputs timestamps)).length < Usize.limit) :
    ∃ allItems response, encodeResponse sets timestamps = .ok (allItems, response) ∧
      spliceFrom data 0 response.serial response.dataItems = encode (responseElements inputs timestamps) ∧
      allItems + response.serial.length = (encode (responseElements inputs timestamps)).length := by
  have hmeets := encodeResponse_meets (E := fun _ => False) hsets timestamps fun hlimit =>
    absurd hlength (by omega)
  obtain ⟨⟨allItems, response⟩, hok, happends⟩ := (meets_total_iff _ _).mp hmeets
  have htotal : response.serial.length + allItems =
      0 + (encode (responseElements inputs timestamps)).length := happends.length
  obtain ⟨written, noted, hserial, hitems, -, -, -, hdocument⟩ := happends.added
  refine ⟨allItems, response, hok, ?_, by omega⟩
  rw [hserial, hitems]
  exact hdocument

/-- The spliced document decodes to the array of the sets. -/
theorem encodeResponse_document (data : ItemBytes) {sets : List (Option (CompositionSet Context))}
    {inputs : List InputSet} (hsets : List.Forall₂ (DescribesSet data) (nonEmptySets sets) inputs)
    (timestamps : Option String)
    (hlength : (encode (responseElements inputs timestamps)).length < 2 ^ 31) :
    ∃ allItems response, encodeResponse sets timestamps = .ok (allItems, response) ∧
      spliceFrom data 0 response.serial response.dataItems = encode (responseElements inputs timestamps) ∧
      allItems + response.serial.length = (encode (responseElements inputs timestamps)).length ∧
      decode (spliceFrom data 0 response.serial response.dataItems) =
        some (responseElements inputs timestamps) := by
  have hlimit : (encode (responseElements inputs timestamps)).length < Usize.limit := by
    rw [Usize.limit]
    omega
  obtain ⟨allItems, response, hok, hspliced, htotal⟩ :=
    encodeResponse_splices data hsets timestamps hlimit
  refine ⟨allItems, response, hok, hspliced, htotal, ?_⟩
  rw [hspliced]
  exact decode_encode _ hlength

/-- The bytes that are read at the position of an item. -/
def readItemBytes : ItemBytes := fun context setIndex itemIndex =>
  match itemOf context setIndex itemIndex with
  | .ok itemRef => (context.context.read itemRef.data.offset (List.replicate itemRef.data.size 0)).1
  | .error _ => []

/-- A context with one set of one item. -/
def oneItemContext : Context :=
  { Context.new (.stored (.malloc [1, 2, 3])) 3 with content := [some ⟨"s", [⟨"i", ⟨1, 2⟩, 5⟩]⟩] }

theorem oneItem_response_document :
    ∃ allItems response, encodeResponse [none, some ⟨[(5, 0, oneItemContext)], 0, by simp⟩] (some "t") =
        .ok (allItems, response) ∧
      spliceFrom readItemBytes 0 response.serial response.dataItems =
        encode (responseElements [⟨"s", [⟨"i", 5, [2, 3]⟩]⟩] (some "t")) ∧
      allItems + response.serial.length =
        (encode (responseElements [⟨"s", [⟨"i", 5, [2, 3]⟩]⟩] (some "t"))).length ∧
      decode (spliceFrom readItemBytes 0 response.serial response.dataItems) =
        some (responseElements [⟨"s", [⟨"i", 5, [2, 3]⟩]⟩] (some "t")) := by
  refine encodeResponse_document readItemBytes (.cons ⟨?_, ?_⟩ .nil) (some "t") (by decide +kernel)
  · exact ⟨(5, 0, oneItemContext), [], ⟨"s", [⟨"i", ⟨1, 2⟩, 5⟩]⟩, rfl, rfl, rfl⟩
  · exact .cons ⟨⟨"i", ⟨1, 2⟩, 5⟩, rfl, rfl, rfl⟩ .nil

end Responses

end Dandelion
