import Mathlib.Data.Finset.Sort

/-!
# Composition sets and their shards

A composition set lists the items of one data set, each with its key, its index
and the context it lives in. The list is private to the type and every
constructor leaves it sorted by key, so the order is a field here. Sharding by
key walks the list from its end: the shards come out with strictly decreasing
keys, each with exactly the items of its key.
-/

namespace Dandelion

inductive ShardingMode where
  | all
  | each
  | key
deriving DecidableEq, Repr

/-- An item of a set: key, item index, context. Keys are only compared, so the
`u32` is a natural number here. -/
abbrev SetItem (Ctx : Type) := Nat × Nat × Ctx

structure CompositionSet (Ctx : Type) where
  itemList : List (SetItem Ctx)
  setIndex : Nat
  sorted : itemList.Pairwise (fun a b => a.1 ≤ b.1)
deriving DecidableEq, Repr

theorem drop_eq_cons {α : Type*} {l rest : List α} {n : Nat} {a : α} (h : l.drop n = a :: rest) :
    l[n]? = some a ∧ l.drop (n + 1) = rest := by
  constructor
  · rw [← List.head?_drop, h, List.head?_cons]
  · rw [← List.tail_drop, h, List.tail_cons]

namespace CompositionSet

variable {Ctx : Type}

@[ext] theorem ext {s t : CompositionSet Ctx} (hl : s.itemList = t.itemList)
    (hi : s.setIndex = t.setIndex) : s = t := by
  cases s; cases t; simp_all

def isEmpty (s : CompositionSet Ctx) : Bool := s.itemList.isEmpty

def len (s : CompositionSet Ctx) : Nat := s.itemList.length

/-- Keep the items of `s` selected by `p`. -/
def filter (s : CompositionSet Ctx) (p : SetItem Ctx → Bool) : CompositionSet Ctx :=
  ⟨s.itemList.filter p, s.setIndex, s.sorted.sublist List.filter_sublist⟩

/-- All items of `s` with key `k`. -/
def withKey (s : CompositionSet Ctx) (k : Nat) : CompositionSet Ctx :=
  s.filter (fun item => item.1 == k)

/-- The keys that occur in `s`. -/
def keys (s : CompositionSet Ctx) : List Nat := s.itemList.map Prod.fst

/-- The inner loop of keyed sharding: how far the run of items with key
`lastKey` that ends just before `position` reaches to the front. -/
def runStart (items : List (SetItem Ctx)) (lastKey : Nat) : Nat → Nat
  | 0 => 0
  | position + 1 =>
    match items[position]? with
    | some item => if item.1 = lastKey then runStart items lastKey position else position + 1
    | none => position + 1

/-- `split_off`: the front stays, the tail from `position` on is returned. -/
def splitOff (s : CompositionSet Ctx) (position : Nat) :
    CompositionSet Ctx × CompositionSet Ctx :=
  (⟨s.itemList.take position, s.setIndex, s.sorted.sublist (List.take_sublist ..)⟩,
    ⟨s.itemList.drop position, s.setIndex, s.sorted.sublist (List.drop_sublist ..)⟩)

/-- The outer loop of keyed sharding; every round removes at least one item. -/
def shardByKey : Nat → CompositionSet Ctx → List (CompositionSet Ctx)
  | 0, _ => []
  | fuel + 1, s =>
    match s.itemList.getLast? with
    | none => []
    | some last =>
      let position := runStart s.itemList last.1 (s.itemList.length - 1)
      let (front, tail) := s.splitOff position
      tail :: shardByKey fuel front

def shard (s : CompositionSet Ctx) : ShardingMode → List (CompositionSet Ctx)
  | .all => [s]
  | .key => shardByKey s.itemList.length s
  | .each => s.itemList.map (fun item => ⟨[item], s.setIndex, List.pairwise_singleton _ _⟩)

/-- The key of the first item, the one joins compare. -/
def firstKey (s : CompositionSet Ctx) : Nat := (s.itemList.head?.map Prod.fst).getD 0

theorem runStart_le (items : List (SetItem Ctx)) (k position : Nat) :
    runStart items k position ≤ position := by
  induction position with
  | zero => exact Nat.le_refl 0
  | succ position ih =>
    simp only [runStart]
    split
    · split
      · exact ih.trans (Nat.le_succ _)
      · exact Nat.le_refl _
    · exact Nat.le_refl _

theorem runStart_run (items : List (SetItem Ctx)) (k position i : Nat)
    (hi : runStart items k position ≤ i) (hp : i < position) :
    ∃ item, items[i]? = some item ∧ item.1 = k := by
  induction position with
  | zero => omega
  | succ position ih =>
    cases hitem : items[position]? with
    | none =>
      simp only [runStart, hitem] at hi
      omega
    | some item =>
      simp only [runStart, hitem] at hi
      split at hi
      · by_cases hlast : i = position
        · exact ⟨item, hlast ▸ hitem, ‹_›⟩
        · exact ih hi (by omega)
      · omega

theorem runStart_boundary (items : List (SetItem Ctx)) (k position : Nat)
    (hp : position ≤ items.length) (h : 0 < runStart items k position) :
    ∃ item, items[runStart items k position - 1]? = some item ∧ item.1 ≠ k := by
  induction position with
  | zero => simp [runStart] at h
  | succ position ih =>
    cases hitem : items[position]? with
    | none => simp only [List.getElem?_eq_none_iff] at hitem; omega
    | some item =>
      simp only [runStart, hitem] at h ⊢
      split
      · rw [if_pos ‹_›] at h
        exact ih (by omega) h
      · exact ⟨item, hitem, ‹_›⟩

theorem key_le (s : CompositionSet Ctx) {i j : Nat} {a b : SetItem Ctx} (hij : i ≤ j)
    (ha : s.itemList[i]? = some a) (hb : s.itemList[j]? = some b) : a.1 ≤ b.1 := by
  obtain ⟨hi, rfl⟩ := List.getElem?_eq_some_iff.mp ha
  obtain ⟨hj, rfl⟩ := List.getElem?_eq_some_iff.mp hb
  rcases Nat.lt_or_eq_of_le hij with hlt | heq
  · exact List.pairwise_iff_getElem.mp s.sorted i j hi hj hlt
  · simp only [heq, le_refl]

/-- The run that ends a sorted list is everything with the last key. -/
theorem drop_runStart (s : CompositionSet Ctx) (last : SetItem Ctx)
    (hl : s.itemList.getLast? = some last) :
    s.itemList.drop (runStart s.itemList last.1 (s.itemList.length - 1)) =
        s.itemList.filter (fun item => item.1 == last.1) ∧
      s.itemList.take (runStart s.itemList last.1 (s.itemList.length - 1)) =
        s.itemList.filter (fun item => item.1 != last.1) := by
  set p := runStart s.itemList last.1 (s.itemList.length - 1) with hp
  have hple : p ≤ s.itemList.length - 1 := runStart_le ..
  have hdrop : ∀ item ∈ s.itemList.drop p, item.1 = last.1 := by
    intro item hitem
    obtain ⟨i, hi⟩ := List.mem_iff_getElem?.mp hitem
    rw [List.getElem?_drop] at hi
    have hlen : p + i < s.itemList.length := (List.getElem?_eq_some_iff.mp hi).1
    by_cases hend : p + i = s.itemList.length - 1
    · rw [List.getLast?_eq_getElem?, ← hend, hi] at hl
      exact congrArg Prod.fst (Option.some.inj hl)
    · obtain ⟨item', hitem', hk⟩ := runStart_run s.itemList last.1 (s.itemList.length - 1) (p + i)
        (by omega) (by omega)
      rw [hi] at hitem'
      exact (Option.some.inj hitem') ▸ hk
  have htake : ∀ item ∈ s.itemList.take p, item.1 ≠ last.1 := by
    intro item hitem
    have hpos : 0 < p := by
      by_contra h0
      rw [show p = 0 by omega] at hitem
      simp at hitem
    obtain ⟨front, hfront, hne⟩ := runStart_boundary s.itemList last.1 (s.itemList.length - 1)
      (by omega) (hp ▸ hpos)
    obtain ⟨i, hi⟩ := List.mem_iff_getElem?.mp hitem
    rw [List.getElem?_take] at hi
    split at hi
    · rw [← hp] at hfront
      have hle : item.1 ≤ front.1 := s.key_le (by omega) hi hfront
      have hlast : front.1 ≤ last.1 := by
        rw [List.getLast?_eq_getElem?] at hl
        exact s.key_le (by omega) hfront hl
      omega
    · simp at hi
  have hsplit := List.take_append_drop p s.itemList
  constructor
  · conv_rhs => rw [← hsplit]
    rw [List.filter_append, List.filter_eq_nil_iff.mpr, List.filter_eq_self.mpr, List.nil_append]
    · intro item hitem
      simp [hdrop item hitem]
    · intro item hitem
      simp [htake item hitem]
  · conv_rhs => rw [← hsplit]
    rw [List.filter_append, List.filter_eq_self.mpr, List.filter_eq_nil_iff.mpr, List.append_nil]
    · intro item hitem
      simp [hdrop item hitem]
    · intro item hitem
      simp [htake item hitem]

@[simp] theorem mem_keys (s : CompositionSet Ctx) (k : Nat) :
    k ∈ s.keys ↔ ∃ item ∈ s.itemList, item.1 = k := List.mem_map

theorem le_last (s : CompositionSet Ctx) {last : SetItem Ctx}
    (hl : s.itemList.getLast? = some last) {k : Nat} (hk : k ∈ s.keys) : k ≤ last.1 := by
  obtain ⟨item, hitem, rfl⟩ := (s.mem_keys k).mp hk
  obtain ⟨i, hi⟩ := List.mem_iff_getElem?.mp hitem
  have hlen := (List.getElem?_eq_some_iff.mp hi).1
  rw [List.getLast?_eq_getElem?] at hl
  exact s.key_le (by omega) hi hl

/-- The keys of `s` without repetition, largest first. -/
def keysDesc (s : CompositionSet Ctx) : List Nat := s.keys.toFinset.sort (· ≥ ·)

@[simp] theorem mem_keysDesc (s : CompositionSet Ctx) (k : Nat) : k ∈ s.keysDesc ↔ k ∈ s.keys := by
  rw [keysDesc, Finset.mem_sort, List.mem_toFinset]

theorem keysDesc_sorted (s : CompositionSet Ctx) : s.keysDesc.Pairwise (· > ·) :=
  (Finset.sortedGT_sort _).pairwise

/-- What is left of `s` once the items with the last key are split off. -/
def front (s : CompositionSet Ctx) (k : Nat) : CompositionSet Ctx := s.filter (fun item => item.1 != k)

theorem mem_keys_front (s : CompositionSet Ctx) (k j : Nat) :
    j ∈ (s.front k).keys ↔ j ∈ s.keys ∧ j ≠ k := by
  simp only [mem_keys, front, filter, List.mem_filter, bne_iff_ne, ne_eq]
  constructor
  · rintro ⟨item, ⟨hitem, hk⟩, rfl⟩
    exact ⟨⟨item, hitem, rfl⟩, hk⟩
  · rintro ⟨⟨item, hitem, rfl⟩, hk⟩
    exact ⟨item, ⟨hitem, hk⟩, rfl⟩

theorem withKey_front (s : CompositionSet Ctx) {k j : Nat} (h : j ≠ k) :
    (s.front k).withKey j = s.withKey j := by
  apply ext
  · simp only [front, withKey, filter, List.filter_filter]
    apply List.filter_congr
    intro item _
    by_cases hj : item.1 = j <;> simp [hj, h]
  · rfl

theorem splitOff_runStart (s : CompositionSet Ctx) (last : SetItem Ctx)
    (hl : s.itemList.getLast? = some last) :
    s.splitOff (runStart s.itemList last.1 (s.itemList.length - 1)) =
      (s.front last.1, s.withKey last.1) := by
  obtain ⟨hdrop, htake⟩ := s.drop_runStart last hl
  exact Prod.ext (ext htake rfl) (ext hdrop rfl)

theorem keysDesc_eq_cons (s : CompositionSet Ctx) (last : SetItem Ctx)
    (hl : s.itemList.getLast? = some last) :
    s.keysDesc = last.1 :: (s.front last.1).keysDesc := by
  have hmem : last.1 ∈ s.keys := (s.mem_keys _).mpr ⟨last, List.mem_of_getLast? hl, rfl⟩
  have hins : s.keys.toFinset = insert last.1 (s.front last.1).keys.toFinset := by
    ext j
    rw [Finset.mem_insert, List.mem_toFinset, List.mem_toFinset, mem_keys_front]
    by_cases hj : j = last.1
    · simp [hj, hmem]
    · simp [hj]
  rw [keysDesc, hins, Finset.sort_insert, keysDesc]
  · intro j hj
    rw [List.mem_toFinset, mem_keys_front] at hj
    exact s.le_last hl hj.1
  · rw [List.mem_toFinset, mem_keys_front]
    exact fun h => h.2 rfl

theorem length_front_lt (s : CompositionSet Ctx) (last : SetItem Ctx)
    (hl : s.itemList.getLast? = some last) :
    (s.front last.1).itemList.length < s.itemList.length := by
  have hmem : last ∈ s.itemList := List.mem_of_getLast? hl
  have hle : (s.front last.1).itemList.length ≤ s.itemList.length := List.length_filter_le _ _
  have hne : (s.front last.1).itemList.length ≠ s.itemList.length := by
    intro heq
    have hall := List.length_filter_eq_length_iff.mp heq last hmem
    simp at hall
  omega

theorem shardByKey_eq (fuel : Nat) (s : CompositionSet Ctx) (hf : s.itemList.length ≤ fuel) :
    shardByKey fuel s = s.keysDesc.map s.withKey := by
  induction fuel generalizing s with
  | zero =>
    have hnil : s.itemList = [] := List.length_eq_zero_iff.mp (by omega)
    simp [shardByKey, keysDesc, keys, hnil]
  | succ fuel ih =>
    cases hl : s.itemList.getLast? with
    | none =>
      have hnil : s.itemList = [] := List.getLast?_eq_none_iff.mp hl
      simp [shardByKey, keysDesc, keys, hnil]
    | some last =>
      have hlt := s.length_front_lt last hl
      simp only [shardByKey, hl, s.splitOff_runStart last hl]
      rw [ih (s.front last.1) (by omega), s.keysDesc_eq_cons last hl, List.map_cons]
      congr 1
      apply List.map_congr_left
      intro j hj
      rw [mem_keysDesc, mem_keys_front] at hj
      exact s.withKey_front hj.2

/-- Keyed sharding returns one shard for each key, largest key first, and each
shard is all of the set with its key. -/
theorem shard_key (s : CompositionSet Ctx) : s.shard .key = s.keysDesc.map s.withKey :=
  shardByKey_eq _ s (Nat.le_refl _)

theorem itemList_withKey_ne_nil (s : CompositionSet Ctx) {k : Nat} (hk : k ∈ s.keys) :
    (s.withKey k).itemList ≠ [] := by
  obtain ⟨item, hitem, rfl⟩ := (s.mem_keys k).mp hk
  exact List.ne_nil_of_mem (List.mem_filter.mpr ⟨hitem, by simp⟩)

theorem firstKey_of_forall (s : CompositionSet Ctx) {k : Nat} (hne : s.itemList ≠ [])
    (h : ∀ item ∈ s.itemList, item.1 = k) : s.firstKey = k := by
  cases hl : s.itemList with
  | nil => exact absurd hl hne
  | cons item rest => simpa [firstKey, hl] using h item (by simp [hl])

theorem firstKey_withKey (s : CompositionSet Ctx) {k : Nat} (hk : k ∈ s.keys) :
    (s.withKey k).firstKey = k :=
  firstKey_of_forall _ (s.itemList_withKey_ne_nil hk)
    (fun _ hitem => by simpa using (List.mem_filter.mp hitem).2)

/-- No shard of a non-empty set is empty, and there is at least one. -/
theorem shard_nonempty (s : CompositionSet Ctx) (mode : ShardingMode) (hs : s.itemList ≠ []) :
    s.shard mode ≠ [] ∧ ∀ t ∈ s.shard mode, t.itemList ≠ [] := by
  cases mode with
  | all => exact ⟨by simp [shard], by simpa [shard] using hs⟩
  | each =>
    refine ⟨by simpa [shard] using hs, ?_⟩
    intro t ht
    obtain ⟨item, _, rfl⟩ := List.mem_map.mp ht
    simp
  | key =>
    rw [shard_key]
    constructor
    · obtain ⟨item, hitem⟩ := List.exists_mem_of_ne_nil _ hs
      have hk : item.1 ∈ s.keysDesc := (s.mem_keysDesc _).mpr ((s.mem_keys _).mpr ⟨item, hitem, rfl⟩)
      exact fun hnil => List.ne_nil_of_mem hk (List.map_eq_nil_iff.mp hnil)
    · intro t ht
      obtain ⟨k, hk, rfl⟩ := List.mem_map.mp ht
      exact s.itemList_withKey_ne_nil ((s.mem_keysDesc k).mp hk)

/-- A set with one item for each listed key. -/
def ofKeys (ks : List Nat) (h : ks.Pairwise (· ≤ ·)) : CompositionSet Unit :=
  ⟨ks.map (fun k => (k, 0, ())), 0, List.pairwise_map.mpr h⟩

end CompositionSet
end Dandelion
