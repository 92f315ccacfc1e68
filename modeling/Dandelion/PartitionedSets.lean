import Dandelion.ShardOrigins

/-!
# Sets as they are built

The composition sets of the source are a list and an index, and nothing in their type keeps the
list in order. Here they are so too. What `from`, `combine` and `shard` build is always in the
order of the keys, so that `shard` cuts the set into parts and `combine` puts them together.
-/

namespace Dandelion

open Outcome

/-- What `sort_unstable_by_key` does with a list of items: the order of items with one key is its own. -/
structure KeySort (Ctx : Type) where
  sort : List (SetItem Ctx) → List (SetItem Ctx)
  perm : ∀ items, (sort items).Perm items
  sorted : ∀ items, (sort items).Pairwise fun a b => a.1 ≤ b.1

/-- The sort that keeps items with one key as they were. -/
def KeySort.stable (Ctx : Type) : KeySort Ctx where
  sort := fun items => items.mergeSort fun a b => a.1 ≤ b.1
  perm := fun items => List.mergeSort_perm items _
  sorted := pairwise_mergeSort_key

structure ItemSet (Ctx : Type) where
  itemList : List (SetItem Ctx)
  setIndex : Nat
deriving DecidableEq, Repr

variable {Ctx : Type}

namespace ItemSet

def fromContexts (keySort : KeySort Ctx) (content : Ctx → List (Option DataSet)) (setIndex : Nat)
    (contexts : List Ctx) : ItemSet Ctx :=
  ⟨keySort.sort (contexts.flatMap (contextItems content setIndex)), setIndex⟩

/-- The loop over what is left of the list, which loses at least one item in each round. -/
def shardByKey (setIndex : Nat) : Nat → List (SetItem Ctx) → List (ItemSet Ctx)
  | 0, _ => []
  | fuel + 1, itemList =>
    match itemList.getLast? with
    | none => []
    | some last =>
      let position := CompositionSet.runStart itemList last.1 (itemList.length - 1)
      ⟨itemList.drop position, setIndex⟩ :: shardByKey setIndex fuel (itemList.take position)

def shard (s : ItemSet Ctx) : ShardingMode → List (ItemSet Ctx)
  | .all => [s]
  | .key => shardByKey s.setIndex s.itemList.length s.itemList
  | .each => s.itemList.map fun item => ⟨[item], s.setIndex⟩

def combine (keySort : KeySort Ctx) (s additional : ItemSet Ctx) : DandelionResult (ItemSet Ctx) :=
  if s.setIndex ≠ additional.setIndex then fail (.dispatcher .compositionCombine)
  else pure ⟨keySort.sort (s.itemList ++ additional.itemList), s.setIndex⟩

/-- The items are in the order of their keys. -/
def Sorted (s : ItemSet Ctx) : Prop := s.itemList.Pairwise fun a b => a.1 ≤ b.1

/-- What can be built from contexts. -/
inductive Built (keySort : KeySort Ctx) (content : Ctx → List (Option DataSet)) : ItemSet Ctx → Prop
  | fromContexts (setIndex : Nat) (contexts : List Ctx) :
      Built keySort content (ItemSet.fromContexts keySort content setIndex contexts)
  | combined {s additional set : ItemSet Ctx} (hs : Built keySort content s)
      (hadditional : Built keySort content additional) (hok : s.combine keySort additional = .ok set) :
      Built keySort content set
  | sharded {s part : ItemSet Ctx} {mode : ShardingMode} (hs : Built keySort content s)
      (hpart : part ∈ s.shard mode) : Built keySort content part

end ItemSet

/-- A set whose order is known as it is in the source. -/
def CompositionSet.erase (s : CompositionSet Ctx) : ItemSet Ctx := ⟨s.itemList, s.setIndex⟩

theorem CompositionSet.shardByKey_erase (fuel : Nat) (s : CompositionSet Ctx) :
    (CompositionSet.shardByKey fuel s).map CompositionSet.erase
      = ItemSet.shardByKey s.setIndex fuel s.itemList := by
  induction fuel generalizing s with
  | zero => rfl
  | succ fuel ih =>
    cases hlast : s.itemList.getLast? with
    | none => simp only [CompositionSet.shardByKey, ItemSet.shardByKey, hlast, List.map_nil]
    | some last =>
      simp only [CompositionSet.shardByKey, ItemSet.shardByKey, hlast, List.map_cons, ih]
      rfl

theorem CompositionSet.shard_erase (s : CompositionSet Ctx) (mode : ShardingMode) :
    (s.shard mode).map CompositionSet.erase = s.erase.shard mode := by
  cases mode with
  | all => rfl
  | key => exact CompositionSet.shardByKey_erase _ s
  | each =>
    rw [CompositionSet.shard, List.map_map]
    rfl

namespace ItemSet

/-- A set in order with its order as a field. -/
def Sorted.toSet {s : ItemSet Ctx} (h : s.Sorted) : CompositionSet Ctx := ⟨s.itemList, s.setIndex, h⟩

theorem Sorted.shard_parts {s : ItemSet Ctx} (h : s.Sorted) (mode : ShardingMode) :
    s.shard mode = (h.toSet.shard mode).map CompositionSet.erase :=
  (CompositionSet.shard_erase h.toSet mode).symm

theorem Sorted.part {s part : ItemSet Ctx} (h : s.Sorted) {mode : ShardingMode}
    (hpart : part ∈ s.shard mode) : part.Sorted := by
  rw [h.shard_parts] at hpart
  obtain ⟨set, -, rfl⟩ := List.mem_map.mp hpart
  exact set.sorted

theorem combine_eq_ok_iff {keySort : KeySort Ctx} {s additional set : ItemSet Ctx} :
    s.combine keySort additional = .ok set ↔ s.setIndex = additional.setIndex
      ∧ set = ⟨keySort.sort (s.itemList ++ additional.itemList), s.setIndex⟩ := by
  unfold combine
  by_cases h : s.setIndex ≠ additional.setIndex
  · rw [if_pos h]
    constructor
    · intro hok
      cases hok
    · exact fun hok => absurd hok.1 h
  · rw [if_neg h]
    constructor
    · intro hok
      cases hok
      exact ⟨not_not.mp h, rfl⟩
    · rintro ⟨-, rfl⟩
      rfl

theorem Built.sorted {keySort : KeySort Ctx} {content : Ctx → List (Option DataSet)} {s : ItemSet Ctx}
    (h : Built keySort content s) : s.Sorted := by
  induction h with
  | fromContexts setIndex contexts => exact keySort.sorted _
  | combined hs hadditional hok ihs ihadditional =>
    obtain ⟨-, rfl⟩ := combine_eq_ok_iff.mp hok
    exact keySort.sorted _
  | sharded hs hpart ih => exact ih.part hpart

/-! ## The parts of a set -/

theorem shardByKey_perm (setIndex fuel : Nat) (itemList : List (SetItem Ctx))
    (hfuel : itemList.length ≤ fuel) :
    ((shardByKey setIndex fuel itemList).flatMap ItemSet.itemList).Perm itemList := by
  induction fuel generalizing itemList with
  | zero =>
    rw [List.length_eq_zero_iff.mp (Nat.le_zero.mp hfuel)]
    exact .refl _
  | succ fuel ih =>
    cases hlast : itemList.getLast? with
    | none =>
      rw [List.getLast?_eq_none_iff.mp hlast]
      exact .refl _
    | some last =>
      have hle := CompositionSet.runStart_le itemList last.1 (itemList.length - 1)
      have hpos := List.length_pos_of_mem (List.mem_of_getLast? hlast)
      simp only [shardByKey, hlast, List.flatMap_cons]
      set position := CompositionSet.runStart itemList last.1 (itemList.length - 1)
      have hrest : (itemList.take position).length ≤ fuel := by
        rw [List.length_take]
        omega
      calc (itemList.drop position
            ++ (shardByKey setIndex fuel (itemList.take position)).flatMap ItemSet.itemList).Perm
            (itemList.drop position ++ itemList.take position) := (ih _ hrest).append_left _
        _ |>.Perm (itemList.take position ++ itemList.drop position) := List.perm_append_comm
        _ = itemList := List.take_append_drop position itemList

theorem shard_perm (s : ItemSet Ctx) (mode : ShardingMode) :
    ((s.shard mode).flatMap ItemSet.itemList).Perm s.itemList := by
  cases mode with
  | all =>
    rw [shard, List.flatMap_singleton]
  | key => exact shardByKey_perm s.setIndex _ s.itemList (le_refl _)
  | each =>
    rw [shard, List.flatMap_map]
    exact .of_eq (List.flatMap_singleton' s.itemList)

/-- What sharding does to the set as a whole. -/
structure CutInto (s : ItemSet Ctx) (mode : ShardingMode) (parts : List (ItemSet Ctx)) : Prop where
  nonempty : ∀ part ∈ parts, part.itemList ≠ []
  sorted : ∀ part ∈ parts, part.Sorted
  setIndex : ∀ part ∈ parts, part.setIndex = s.setIndex
  perm : (parts.flatMap ItemSet.itemList).Perm s.itemList
  each : mode = .each → ∀ part ∈ parts, part.itemList.length = 1
  key : mode = .key → ∃ keys : List Nat, keys.Nodup
    ∧ (∀ k, k ∈ keys ↔ ∃ item ∈ s.itemList, item.1 = k)
    ∧ parts = keys.map fun k => ⟨s.itemList.filter fun item => item.1 == k, s.setIndex⟩

theorem Sorted.cutInto {s : ItemSet Ctx} (h : s.Sorted) (hne : s.itemList ≠ []) (mode : ShardingMode) :
    s.CutInto mode (s.shard mode) := by
  have hparts := h.shard_parts mode
  refine ⟨fun part hpart => ?_, fun part hpart => h.part hpart, fun part hpart => ?_,
    s.shard_perm mode, ?_, ?_⟩
  · rw [hparts] at hpart
    obtain ⟨set, hset, rfl⟩ := List.mem_map.mp hpart
    exact (CompositionSet.shard_nonempty h.toSet mode hne).2 set hset
  · rw [hparts] at hpart
    obtain ⟨set, hset, rfl⟩ := List.mem_map.mp hpart
    exact setIndex_of_mem_shard hset
  · rintro rfl part hpart
    obtain ⟨item, -, rfl⟩ := List.mem_map.mp hpart
    rfl
  · rintro rfl
    refine ⟨h.toSet.keysDesc, ?_, fun k => ?_, ?_⟩
    · exact (CompositionSet.keysDesc_sorted h.toSet).imp fun hgt => (ne_of_gt hgt)
    · rw [CompositionSet.mem_keysDesc, CompositionSet.mem_keys]
      rfl
    · rw [hparts, CompositionSet.shard_key, List.map_map]
      rfl

/-! ## Putting the parts together -/

theorem foldlM_combine (keySort : KeySort Ctx) (parts : List (ItemSet Ctx)) (first : ItemSet Ctx)
    (hfirst : first.Sorted) (hparts : ∀ part ∈ parts, part.setIndex = first.setIndex) :
    ∃ whole, parts.foldlM (combine keySort) first = .ok whole ∧ whole.setIndex = first.setIndex
      ∧ whole.Sorted
      ∧ whole.itemList.Perm (first.itemList ++ parts.flatMap ItemSet.itemList) := by
  induction parts generalizing first with
  | nil =>
    refine ⟨first, rfl, rfl, hfirst, ?_⟩
    rw [List.flatMap_nil, List.append_nil]
  | cons part parts ih =>
    obtain ⟨hpart, hparts⟩ := List.forall_mem_cons.mp hparts
    let next : ItemSet Ctx := ⟨keySort.sort (first.itemList ++ part.itemList), first.setIndex⟩
    have hnext : first.combine keySort part = .ok next := combine_eq_ok_iff.mpr ⟨hpart.symm, rfl⟩
    obtain ⟨whole, hfold, hindex, hsorted, hperm⟩ := ih next (keySort.sorted _) hparts
    refine ⟨whole, ?_, hindex, hsorted, ?_⟩
    · rw [List.foldlM_cons, hnext]
      exact hfold
    · rw [List.flatMap_cons, ← List.append_assoc]
      exact hperm.trans ((keySort.perm _).append_right _)

theorem Sorted.combine_parts {s : ItemSet Ctx} (h : s.Sorted) (hne : s.itemList ≠ [])
    (keySort : KeySort Ctx) {mode : ShardingMode} {order : List (ItemSet Ctx)}
    (horder : order.Perm (s.shard mode)) :
    ∃ first rest whole, order = first :: rest ∧ rest.foldlM (combine keySort) first = .ok whole
      ∧ whole.setIndex = s.setIndex ∧ whole.itemList.Perm s.itemList ∧ whole.Sorted := by
  have hcut := h.cutInto hne mode
  have hitems : (order.flatMap ItemSet.itemList).Perm s.itemList :=
    (horder.flatMap_right _).trans hcut.perm
  cases order with
  | nil =>
    rw [List.flatMap_nil] at hitems
    exact absurd hitems.nil_eq.symm hne
  | cons first rest =>
    have hmem : ∀ part ∈ first :: rest, part ∈ s.shard mode := fun part hpart => horder.subset hpart
    obtain ⟨hfirst, hrest⟩ := List.forall_mem_cons.mp hmem
    have hindex := hcut.setIndex first hfirst
    obtain ⟨whole, hfold, hwhole, hsorted, hperm⟩ := foldlM_combine keySort rest first
      (h.part hfirst) fun part hpart => (hcut.setIndex part (hrest part hpart)).trans hindex.symm
    exact ⟨first, rest, whole, rfl, hfold, hwhole.trans hindex, hperm.trans hitems, hsorted⟩

/-- Sets that are built are in order; sharding cuts them into parts, and combining the parts in
any order gives all items back. -/
theorem built_sets_partition {keySort : KeySort Ctx} {content : Ctx → List (Option DataSet)}
    {s : ItemSet Ctx} (h : Built keySort content s) :
    s.Sorted ∧ (s.itemList ≠ [] → ∀ mode, s.CutInto mode (s.shard mode)
      ∧ ∀ order : List (ItemSet Ctx), order.Perm (s.shard mode) →
        ∃ first rest whole, order = first :: rest
          ∧ rest.foldlM (combine keySort) first = .ok whole ∧ whole.setIndex = s.setIndex
          ∧ whole.itemList.Perm s.itemList ∧ whole.Sorted) :=
  ⟨h.sorted, fun hne mode => ⟨h.sorted.cutInto hne mode, fun _ horder =>
    h.sorted.combine_parts hne keySort horder⟩⟩

/-- Three items of one context, of which two have the same key. -/
def threeItems : Unit → List (Option DataSet) := fun _ =>
  [some ⟨"in", [⟨"a", ⟨0, 1⟩, 2⟩, ⟨"b", ⟨1, 1⟩, 1⟩, ⟨"c", ⟨2, 1⟩, 2⟩]⟩]

theorem threeItems_partition :
    Built (KeySort.stable Unit) threeItems ⟨[(1, 1, ()), (2, 0, ()), (2, 2, ())], 0⟩
      ∧ ∃ whole : ItemSet Unit,
        [(⟨[(1, 1, ())], 0⟩ : ItemSet Unit)].foldlM (combine (KeySort.stable Unit))
          ⟨[(2, 0, ()), (2, 2, ())], 0⟩ = .ok whole
        ∧ whole.itemList.Perm [(1, 1, ()), (2, 0, ()), (2, 2, ())] := by
  have hsort : ItemSet.fromContexts (KeySort.stable Unit) threeItems 0 [()]
      = ⟨[(1, 1, ()), (2, 0, ()), (2, 2, ())], 0⟩ := by
    simp [ItemSet.fromContexts, KeySort.stable, threeItems, contextItems, List.mergeSort,
      List.MergeSort.Internal.splitInTwo]
  have hbuilt : Built (KeySort.stable Unit) threeItems ⟨[(1, 1, ()), (2, 0, ()), (2, 2, ())], 0⟩ :=
    hsort ▸ .fromContexts 0 [()]
  refine ⟨hbuilt, ?_⟩
  obtain ⟨first, rest, whole, horder, hfold, -, hperm, -⟩ :=
    ((built_sets_partition hbuilt).2 (List.cons_ne_nil _ _) .key).2 _ (.refl _)
  cases horder
  exact ⟨whole, hfold, hperm⟩

end ItemSet

end Dandelion
