import Dandelion.PartitionedSets
import Dandelion.ResponseStreaming

/-!
# Responses of built sets

Whatever sets the dispatcher has built, by taking them from contexts, sharding and combining them, the
response has them all: the document that is streamed is that of the sets that are not empty, each
under its name and with its items in the order of their keys.
-/

namespace Dandelion

open Bson Outcome

section Drawn

variable {Ctx : Type} {content : Ctx → List (Option DataSet)}

namespace ItemSet

/-- Every item of the set is an item of its context, with the key that it has there. -/
def Drawn (content : Ctx → List (Option DataSet)) (s : ItemSet Ctx) : Prop :=
  ∀ item ∈ s.itemList, ∃ set dataItem, (content item.2.2)[s.setIndex]? = some (some set) ∧
    set.buffers[item.2.1]? = some dataItem ∧ dataItem.key = item.1

theorem drawn_contextItems {setIndex : Nat} {context : Ctx} {item : SetItem Ctx}
    (h : item ∈ contextItems content setIndex context) :
    ∃ set dataItem, (content item.2.2)[setIndex]? = some (some set) ∧
      set.buffers[item.2.1]? = some dataItem ∧ dataItem.key = item.1 := by
  rw [contextItems] at h
  split at h
  · next set hset =>
    obtain ⟨⟨dataItem, itemIndex⟩, hentry, rfl⟩ := List.mem_map.mp h
    exact ⟨set, dataItem, hset, List.mem_zipIdx_iff_getElem?.mp hentry, rfl⟩
  · cases h

theorem Built.drawn {keySort : KeySort Ctx} {s : ItemSet Ctx} (h : Built keySort content s) :
    Drawn content s := by
  induction h with
  | fromContexts setIndex contexts =>
    intro item hitem
    obtain ⟨context, -, hmem⟩ := List.mem_flatMap.mp ((keySort.perm _).subset hitem)
    exact drawn_contextItems hmem
  | combined _ _ hok ihs ihadditional =>
    obtain ⟨hindex, rfl⟩ := combine_eq_ok_iff.mp hok
    intro item hitem
    rcases List.mem_append.mp ((keySort.perm _).subset hitem) with hfirst | hsecond
    · exact ihs item hfirst
    · exact hindex ▸ ihadditional item hsecond
  | @sharded s part mode hs hpart ih =>
    intro item hitem
    have hmem := (s.shard_perm mode).subset (List.mem_flatMap.mpr ⟨part, hpart, hitem⟩)
    have hindex := (hs.sorted.cutInto (List.ne_nil_of_mem hmem) mode).setIndex part hpart
    rw [hindex]
    exact ih item hmem

end ItemSet

end Drawn

section Responses

variable {data : ItemBytes} {set : CompositionSet Context} {input : InputSet}

theorem ItemSet.Drawn.itemOf (h : set.erase.Drawn Context.content) {item : SetItem Context}
    (hitem : item ∈ set.itemList) :
    ∃ itemRef, itemOf item.2.2 set.setIndex item.2.1 = .ok itemRef ∧ itemRef.key = item.1 := by
  obtain ⟨dataSet, dataItem, hset, hget, hkey⟩ := h item hitem
  have hset' : setOf item.2.2 set.setIndex = .ok dataSet := by
    rw [setOf, show item.2.2.content[set.setIndex]? = some (some dataSet) from hset]
    rfl
  refine ⟨dataItem, ?_, hkey⟩
  rw [Dandelion.itemOf, hset', ok_bind, hget]
  rfl

theorem keys_of_describesSet (hdrawn : set.erase.Drawn Context.content)
    (hkeys : ∀ key ∈ set.keys, key < 2 ^ 32) (h : DescribesSet data set input) :
    input.items.map (fun item => item.key.toNat) = set.keys := by
  have hitems : ∀ items : List (SetItem Context), (∀ item ∈ items, item ∈ set.itemList) →
      ∀ inputs, List.Forall₂ (DescribesItem data set.setIndex) items inputs →
        inputs.map (fun item => item.key.toNat) = items.map Prod.fst := by
    intro items hsub inputs hall
    induction hall with
    | nil => rfl
    | @cons item input items inputs hitem _ ih =>
      obtain ⟨hmem, hrest⟩ := List.forall_mem_cons.mp hsub
      obtain ⟨itemRef, href, -, rfl⟩ := hitem
      obtain ⟨itemRef', href', hkey⟩ := hdrawn.itemOf hmem
      rw [href] at href'
      cases href'
      have hlt := hkeys item.1 (List.mem_map_of_mem hmem)
      rw [List.map_cons, List.map_cons, ih hrest, hkey]
      simp [UInt32.toNat_ofNat_of_lt' hlt]
  exact hitems set.itemList (fun _ hitem => hitem) input.items h.items

/-- What the document has of a set. -/
structure Shows (data : ItemBytes) (set : CompositionSet Context) (input : InputSet) : Prop where
  describes : DescribesSet data set input
  keys : input.items.map (fun item => item.key.toNat) = set.keys

theorem exists_shows (hdata : ∀ context setIndex itemIndex itemRef,
      itemOf context setIndex itemIndex = .ok itemRef →
        (data context setIndex itemIndex).length = itemRef.data.size)
    (hdrawn : set.erase.Drawn Context.content) (hkeys : ∀ key ∈ set.keys, key < 2 ^ 32)
    (hne : set.itemList ≠ []) : ∃ input, Shows data set input := by
  have hrefers : Refers set := by
    intro item hitem
    obtain ⟨itemRef, href, -⟩ := hdrawn.itemOf hitem
    exact ⟨itemRef, href⟩
  obtain ⟨input, hinput⟩ := exists_describesSet hdata hne hrefers
  exact ⟨input, hinput, keys_of_describesSet hdrawn hkeys hinput⟩

theorem mem_nonEmptySets {sets : List (Option (CompositionSet Context))} (h : set ∈ nonEmptySets sets) :
    some set ∈ sets ∧ set.itemList ≠ [] := by
  rw [nonEmptySets, List.mem_filterMap] at h
  obtain ⟨setOption, hmem, hset⟩ := h
  obtain ⟨s, rfl, hs⟩ := Option.bind_eq_some_iff.mp hset
  split at hs
  · cases hs
  · next hempty =>
    cases hs
    exact ⟨hmem, fun hnil => hempty (by rw [CompositionSet.isEmpty, hnil]; rfl)⟩

/-- The response for any sets that were built is made, unless it is of 2 ^ 64 bytes or more, and what is
streamed is a document of the announced length. Below 2 ^ 31 bytes, which its length fields can tell, it
decodes to those of the sets that are not empty, in their order: each with the name and the data that it
has in its contexts, and with its items in the order of their keys. -/
theorem built_response {keySort : KeySort Context} {sets : List (Option (CompositionSet Context))}
    (hbuilt : ∀ set, some set ∈ sets → ItemSet.Built keySort Context.content set.erase)
    (hkeys : ∀ set, some set ∈ sets → ∀ key ∈ set.keys, key < 2 ^ 32)
    (hdata : ∀ context setIndex itemIndex itemRef, itemOf context setIndex itemIndex = .ok itemRef →
      (data context setIndex itemIndex).length = itemRef.data.size) (timestamps : Option String) :
    ∃ inputs, List.Forall₂ (Shows data) (nonEmptySets sets) inputs ∧
      ((encode (responseElements inputs timestamps)).length < Usize.limit →
        ∃ start, newBody sets timestamps = .ok start ∧
          start.document data = encode (responseElements inputs timestamps) ∧
          start.remaining = (start.document data).length ∧
          ((encode (responseElements inputs timestamps)).length < 2 ^ 31 →
            decode (start.document data) = some (responseElements inputs timestamps))) := by
  have hshows : ∀ set ∈ nonEmptySets sets, ∃ input, Shows data set input := by
    intro set hset
    obtain ⟨hmem, hne⟩ := mem_nonEmptySets hset
    exact exists_shows hdata (hbuilt set hmem).drawn (hkeys set hmem) hne
  obtain ⟨inputs, hall⟩ := exists_forall₂ hshows
  refine ⟨inputs, hall, fun hlimit => ?_⟩
  obtain ⟨allItems, response, hok, hspliced, htotal⟩ :=
    encodeResponse_splices data (hall.imp fun _ _ h => h.describes) timestamps hlimit
  have hremaining : (Usize.add .checked allItems response.serial.length : DandelionResult Nat) =
      .ok (allItems + response.serial.length) := Usize.add_eq_ok (by omega)
  have hnew : ∃ readOffset, newBody sets timestamps =
      .ok ⟨allItems + response.serial.length, readOffset, response.serial, response.dataItems⟩ := by
    rw [newBody, hok]
    simp only [ok_bind, hremaining]
    exact ⟨_, rfl⟩
  obtain ⟨readOffset, hnew⟩ := hnew
  refine ⟨_, hnew, hspliced, ?_, fun hlength => ?_⟩
  · rw [DandelionBuf.document, hspliced]
    exact htotal
  · rw [DandelionBuf.document, hspliced]
    exact decode_encode _ hlength

/-- The set of a function that has returned one item. -/
def oneItemSet : CompositionSet Context := .fromContexts Context.content 0 [oneItemContext]

theorem oneItemSet_itemList : oneItemSet.itemList = [(5, 0, oneItemContext)] :=
  List.mergeSort_singleton _

theorem oneItemSet_describes (h : DescribesSet zeroBytes oneItemSet input) :
    input = ⟨"s", [⟨"i", 5, [0, 0]⟩]⟩ := by
  obtain ⟨identifier, items⟩ := input
  obtain ⟨⟨first, rest, dataSet, hlist, hdataSet, rfl⟩, hall⟩ := h
  rw [oneItemSet_itemList] at hlist hall
  cases hlist
  cases hdataSet
  obtain _ | ⟨⟨itemRef, href, -, rfl⟩, _ | _⟩ := hall
  cases href
  rfl

theorem oneItemSet_response : ∃ start, newBody [some oneItemSet] none = .ok start ∧
    start.remaining = (start.document zeroBytes).length ∧
    decode (start.document zeroBytes) = some (responseElements [⟨"s", [⟨"i", 5, [0, 0]⟩]⟩] none) := by
  have hset : ∀ set, some set ∈ [some oneItemSet] → set = oneItemSet := by
    intro set hset
    simpa using hset
  have hresponse := @built_response zeroBytes (.stable Context) [some oneItemSet] (fun set hmem => ?_)
    (fun set hmem key hkey => ?_) (fun _ _ _ _ => length_zeroBytes) none
  · obtain ⟨inputs, hall, hmade⟩ := hresponse
    have hnonEmpty : nonEmptySets [some oneItemSet] = [oneItemSet] := by
      simp [nonEmptySets, CompositionSet.isEmpty, oneItemSet_itemList]
    rw [hnonEmpty] at hall
    obtain _ | ⟨hshows, _ | _⟩ := hall
    rw [oneItemSet_describes hshows.describes] at hmade
    obtain ⟨start, hstart, -, hremaining, hdecode⟩ := hmade (by decide +kernel)
    exact ⟨start, hstart, hremaining, hdecode (by decide +kernel)⟩
  · rw [hset set hmem]
    exact .fromContexts 0 [oneItemContext]
  · rw [hset set hmem, CompositionSet.keys, oneItemSet_itemList] at hkey
    rw [List.mem_singleton.mp hkey]
    decide

end Responses

end Dandelion
