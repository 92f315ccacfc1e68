import Mathlib.Data.List.Sort
import Mathlib.Data.List.Pairwise
import Mathlib.Data.Prod.Lex

/-!
# Ordered maps

A map as the list of its entries in increasing order of the keys. Lookup,
insertion and removal are described by the value at each key, and two maps with
the same values are equal. The queries for the first entry from a key on and for
the last entry before a key are described by the same values.
-/

/-- A finite map whose entries are kept in the order of their keys. -/
structure OrderedMap (κ α : Type*) [LinearOrder κ] where
  entries : List (κ × α)
  sorted : entries.Pairwise (fun a b => a.1 < b.1)
deriving DecidableEq, Repr

namespace OrderedMap

variable {κ α : Type*} [LinearOrder κ]

theorem eq_of_entries {m m' : OrderedMap κ α} (h : m.entries = m'.entries) : m = m' := by
  cases m
  cases m'
  cases h
  rfl

def empty : OrderedMap κ α := ⟨[], List.Pairwise.nil⟩

def single (k : κ) (v : α) : OrderedMap κ α := ⟨[(k, v)], List.pairwise_singleton _ _⟩

def get? (m : OrderedMap κ α) (k : κ) : Option α := (m.entries.find? (fun e => e.1 = k)).map Prod.snd

def insert (m : OrderedMap κ α) (k : κ) (v : α) : OrderedMap κ α :=
  ⟨m.entries.filter (fun e => e.1 < k) ++ (k, v) :: m.entries.filter (fun e => k < e.1), by
    refine List.pairwise_append.mpr ⟨m.sorted.filter _, List.pairwise_cons.mpr
      ⟨fun e he => of_decide_eq_true (List.mem_filter.mp he).2, m.sorted.filter _⟩, ?_⟩
    intro e he f hf
    have hek : e.1 < k := of_decide_eq_true (List.mem_filter.mp he).2
    rcases List.mem_cons.mp hf with rfl | hf
    · exact hek
    · exact hek.trans (of_decide_eq_true (List.mem_filter.mp hf).2)⟩

def remove (m : OrderedMap κ α) (k : κ) : OrderedMap κ α :=
  ⟨m.entries.filter (fun e => e.1 ≠ k), m.sorted.filter _⟩

/-- The entries from key `k` on. -/
def rangeFrom (m : OrderedMap κ α) (k : κ) : List (κ × α) := m.entries.filter (fun e => k ≤ e.1)

/-- The first entry from key `k` on. -/
def firstFrom (m : OrderedMap κ α) (k : κ) : Option (κ × α) := (m.rangeFrom k).head?

/-- The last entry before key `k`. -/
def lastBefore (m : OrderedMap κ α) (k : κ) : Option (κ × α) :=
  (m.entries.filter (fun e => e.1 < k)).getLast?

def len (m : OrderedMap κ α) : Nat := m.entries.length

theorem entry_unique (m : OrderedMap κ α) {e f : κ × α} (he : e ∈ m.entries) (hf : f ∈ m.entries)
    (h : e.1 = f.1) : e = f := by
  have hsymm : Std.Symm (fun a b : κ × α => a.1 ≠ b.1) := ⟨fun _ _ hab => Ne.symm hab⟩
  have hinj : m.entries.Pairwise (fun a b => a.1 ≠ b.1) := m.sorted.imp (fun hlt => hlt.ne)
  by_contra hne
  exact hinj.forall he hf hne h

theorem get?_eq_some_iff (m : OrderedMap κ α) (k : κ) (v : α) :
    m.get? k = some v ↔ (k, v) ∈ m.entries := by
  unfold get?
  constructor
  · intro h
    obtain ⟨e, he, rfl⟩ := Option.map_eq_some_iff.mp h
    have hk : e.1 = k := by simpa using List.find?_some he
    rw [← hk]
    exact List.mem_of_find?_eq_some he
  · intro h
    cases hf : m.entries.find? (fun e => e.1 = k) with
    | none => exact absurd (List.find?_eq_none.mp hf _ h) (by simp)
    | some e =>
      have hk : e.1 = k := by simpa using List.find?_some hf
      rw [m.entry_unique (List.mem_of_find?_eq_some hf) h hk]
      rfl

theorem get?_eq_none_iff (m : OrderedMap κ α) (k : κ) :
    m.get? k = none ↔ ∀ v, (k, v) ∉ m.entries := by
  rw [Option.eq_none_iff_forall_ne_some]
  simp only [ne_eq, get?_eq_some_iff]

@[simp] theorem get?_empty (k : κ) : (empty : OrderedMap κ α).get? k = none := rfl

theorem mem_insert (m : OrderedMap κ α) (k k' : κ) (v v' : α) :
    (k', v') ∈ (m.insert k v).entries ↔ k' = k ∧ v' = v ∨ k' ≠ k ∧ (k', v') ∈ m.entries := by
  simp only [insert, List.mem_append, List.mem_cons, List.mem_filter, decide_eq_true_eq,
    Prod.mk.injEq]
  rcases lt_trichotomy k' k with h | h | h
  · simp [h, h.ne, h.not_gt]
  · simp [h]
  · simp [h, h.ne', h.not_gt]

theorem get?_insert (m : OrderedMap κ α) (k k' : κ) (v : α) :
    (m.insert k v).get? k' = if k' = k then some v else m.get? k' := by
  apply Option.ext
  intro v'
  rw [get?_eq_some_iff, mem_insert]
  by_cases h : k' = k
  · simp [h, eq_comm]
  · simp [h, get?_eq_some_iff]

@[simp] theorem get?_insert_self (m : OrderedMap κ α) (k : κ) (v : α) :
    (m.insert k v).get? k = some v := by
  rw [get?_insert, if_pos rfl]

theorem get?_insert_of_ne (m : OrderedMap κ α) {k k' : κ} (v : α) (h : k' ≠ k) :
    (m.insert k v).get? k' = m.get? k' := by
  rw [get?_insert, if_neg h]

theorem len_insert_le (m : OrderedMap κ α) (k : κ) (v : α) : (m.insert k v).len ≤ m.len + 1 := by
  have hsplit : (m.entries.filter (fun e => e.1 < k)).length +
      (m.entries.filter (fun e => k < e.1)).length ≤ m.entries.length := by
    rw [← List.countP_eq_length_filter, ← List.countP_eq_length_filter,
      List.length_eq_countP_add_countP (fun e => decide (e.1 < k))]
    apply Nat.add_le_add_left
    apply List.countP_mono_left
    intro e _ he
    simp only [decide_eq_true_eq] at he
    simp [he.not_gt]
  unfold len insert
  rw [List.length_append, List.length_cons]
  omega

theorem get?_remove (m : OrderedMap κ α) (k k' : κ) :
    (m.remove k).get? k' = if k' = k then none else m.get? k' := by
  apply Option.ext
  intro v'
  rw [get?_eq_some_iff, remove, List.mem_filter]
  by_cases h : k' = k
  · simp [h]
  · simp [h, get?_eq_some_iff]

theorem get?_insert_eq_some_iff (m : OrderedMap κ α) (k k' : κ) (v v' : α) :
    (m.insert k v).get? k' = some v' ↔ k' = k ∧ v' = v ∨ k' ≠ k ∧ m.get? k' = some v' := by
  rw [get?_eq_some_iff, mem_insert, get?_eq_some_iff]

theorem get?_remove_eq_some_iff (m : OrderedMap κ α) (k k' : κ) (v : α) :
    (m.remove k).get? k' = some v ↔ k' ≠ k ∧ m.get? k' = some v := by
  rw [get?_remove]
  by_cases h : k' = k
  · simp [h]
  · simp [h]

theorem ext_get? {m m' : OrderedMap κ α} (h : ∀ k, m.get? k = m'.get? k) : m = m' := by
  apply eq_of_entries
  have hirrefl : Std.Irrefl (fun a b : κ × α => a.1 < b.1) := ⟨fun a => lt_irrefl a.1⟩
  have hasymm : Std.Asymm (fun a b : κ × α => a.1 < b.1) := ⟨fun a b => lt_asymm⟩
  apply List.Pairwise.eq_of_mem_iff m.sorted m'.sorted
  intro e
  have he := h e.1
  rw [← get?_eq_some_iff, ← get?_eq_some_iff, he]

theorem insert_eq_self_iff (m : OrderedMap κ α) (k : κ) (v : α) :
    m.insert k v = m ↔ m.get? k = some v := by
  constructor
  · intro h
    rw [← h, get?_insert_self]
  · intro h
    apply ext_get?
    intro k'
    rw [get?_insert]
    split
    · next hk => rw [hk, h]
    · rfl

theorem remove_eq_self_iff (m : OrderedMap κ α) (k : κ) : m.remove k = m ↔ m.get? k = none := by
  constructor
  · intro h
    rw [← h, get?_remove, if_pos rfl]
  · intro h
    apply ext_get?
    intro k'
    rw [get?_remove]
    split
    · next hk => rw [hk, h]
    · rfl

theorem head?_eq_some_of_sorted {l : List (κ × α)} (hl : l.Pairwise (fun a b => a.1 < b.1))
    (e : κ × α) : l.head? = some e ↔ e ∈ l ∧ ∀ f ∈ l, e.1 ≤ f.1 := by
  cases l with
  | nil => simp
  | cons a l =>
    obtain ⟨ha, -⟩ := List.pairwise_cons.mp hl
    rw [List.head?_cons, Option.some.injEq]
    constructor
    · rintro rfl
      refine ⟨List.mem_cons_self, fun f hf => ?_⟩
      rcases List.mem_cons.mp hf with rfl | hf
      · exact le_refl _
      · exact (ha f hf).le
    · rintro ⟨he, hmin⟩
      rcases List.mem_cons.mp he with rfl | he
      · rfl
      · exact absurd (ha e he) (hmin a List.mem_cons_self).not_gt

theorem firstFrom_eq_some_iff (m : OrderedMap κ α) (k k' : κ) (v : α) :
    m.firstFrom k = some (k', v) ↔
      m.get? k' = some v ∧ k ≤ k' ∧ ∀ k'' v', m.get? k'' = some v' → k ≤ k'' → k' ≤ k'' := by
  rw [firstFrom, rangeFrom, head?_eq_some_of_sorted (m.sorted.filter _)]
  simp only [List.mem_filter, decide_eq_true_eq, and_assoc, get?_eq_some_iff, Prod.forall,
    and_imp]

theorem firstFrom_eq_none_iff (m : OrderedMap κ α) (k : κ) :
    m.firstFrom k = none ↔ ∀ k' v, m.get? k' = some v → k' < k := by
  rw [firstFrom, List.head?_eq_none_iff, rangeFrom, List.filter_eq_nil_iff]
  simp only [decide_eq_true_eq, not_le, Prod.forall, get?_eq_some_iff]

theorem mem_rangeFrom (m : OrderedMap κ α) (k : κ) (e : κ × α) :
    e ∈ m.rangeFrom k ↔ m.get? e.1 = some e.2 ∧ k ≤ e.1 := by
  rw [rangeFrom, List.mem_filter, decide_eq_true_eq, get?_eq_some_iff]

theorem rangeFrom_succ (m : OrderedMap ℕ α) (k : ℕ) :
    m.rangeFrom k = ((m.get? k).map fun v => (k, v)).toList ++ m.rangeFrom (k + 1) := by
  have hirrefl : Std.Irrefl (fun a b : ℕ × α => a.1 < b.1) := ⟨fun a => lt_irrefl a.1⟩
  have hasymm : Std.Asymm (fun a b : ℕ × α => a.1 < b.1) := ⟨fun a b => lt_asymm⟩
  refine List.Pairwise.eq_of_mem_iff (m.sorted.filter _) ?_ fun e => ?_
  · refine List.pairwise_append.mpr ⟨?_, m.sorted.filter _, ?_⟩
    · cases m.get? k with
      | none => exact List.Pairwise.nil
      | some v => exact List.pairwise_singleton _ _
    · intro e he f hf
      obtain ⟨v, -, rfl⟩ := Option.map_eq_some_iff.mp (Option.mem_toList.mp he)
      exact ((mem_rangeFrom m _ f).mp hf).2
  · rw [List.mem_append, mem_rangeFrom, mem_rangeFrom, Option.mem_toList,
      Option.map_eq_some_iff]
    constructor
    · rintro ⟨hget, hle⟩
      rcases Nat.lt_or_eq_of_le hle with hlt | heq
      · exact .inr ⟨hget, hlt⟩
      · exact .inl ⟨e.2, heq ▸ hget, by rw [heq]⟩
    · rintro (⟨v, hget, rfl⟩ | ⟨hget, hle⟩)
      · exact ⟨hget, le_refl _⟩
      · exact ⟨hget, by omega⟩

theorem rangeFrom_of_cons {m : OrderedMap ℕ α} {k k' : ℕ} {v : α} {l : List (ℕ × α)}
    (h : m.rangeFrom k = (k', v) :: l) : m.rangeFrom (k' + 1) = l := by
  have hk : k ≤ k' := ((mem_rangeFrom m k (k', v)).mp (h ▸ List.mem_cons_self)).2
  have hsorted : (m.rangeFrom k).Pairwise (fun a b => a.1 < b.1) := m.sorted.filter _
  rw [h] at hsorted
  have hlater : ∀ e ∈ l, k' + 1 ≤ e.1 := (List.pairwise_cons.mp hsorted).1
  have hfilter : m.rangeFrom (k' + 1) = (m.rangeFrom k).filter (fun e => k' + 1 ≤ e.1) := by
    rw [rangeFrom, rangeFrom, List.filter_filter]
    apply List.filter_congr
    intro e _
    by_cases he : k' + 1 ≤ e.1
    · simp [he, show k ≤ e.1 by omega]
    · simp [he]
  rw [hfilter, h, List.filter_cons_of_neg (by simp), List.filter_eq_self.mpr]
  intro e he
  simpa using hlater e he

theorem getLast?_eq_some_of_sorted {l : List (κ × α)} (hl : l.Pairwise (fun a b => a.1 < b.1))
    (e : κ × α) : l.getLast? = some e ↔ e ∈ l ∧ ∀ f ∈ l, f.1 ≤ e.1 := by
  induction l with
  | nil => simp
  | cons a l ih =>
    obtain ⟨ha, hl⟩ := List.pairwise_cons.mp hl
    cases hlast : l.getLast? with
    | none =>
      rw [List.getLast?_eq_none_iff] at hlast
      simp only [hlast, List.getLast?_singleton, Option.some.injEq, List.mem_singleton, forall_eq]
      constructor
      · rintro rfl
        exact ⟨rfl, le_refl _⟩
      · exact fun h => h.1.symm
    | some b =>
      have hb : b ∈ l := List.mem_of_getLast? hlast
      rw [List.getLast?_cons, hlast, Option.getD_some, ← hlast, ih hl]
      constructor
      · rintro ⟨he, hmax⟩
        exact ⟨List.mem_cons_of_mem _ he, List.forall_mem_cons.mpr ⟨(ha e he).le, hmax⟩⟩
      · rintro ⟨he, hmax⟩
        rcases List.mem_cons.mp he with rfl | he
        · exact absurd (ha b hb) (hmax b (List.mem_cons_of_mem _ hb)).not_gt
        · exact ⟨he, fun f hf => hmax f (List.mem_cons_of_mem _ hf)⟩

theorem lastBefore_eq_some_iff (m : OrderedMap κ α) (k k' : κ) (v : α) :
    m.lastBefore k = some (k', v) ↔
      m.get? k' = some v ∧ k' < k ∧ ∀ k'' v', m.get? k'' = some v' → k'' < k → k'' ≤ k' := by
  rw [lastBefore, getLast?_eq_some_of_sorted (m.sorted.filter _)]
  simp only [List.mem_filter, decide_eq_true_eq, and_assoc, get?_eq_some_iff, Prod.forall, and_imp]

def mapValues {β : Type*} (f : κ → α → β) (m : OrderedMap κ α) : OrderedMap κ β where
  entries := m.entries.map fun e => (e.1, f e.1 e.2)
  sorted := List.pairwise_map.mpr m.sorted

theorem get?_mapValues {β : Type*} (f : κ → α → β) (m : OrderedMap κ α) (k : κ) :
    (m.mapValues f).get? k = (m.get? k).map (f k) := by
  have hfind : ∀ entries : List (κ × α),
      ((entries.map fun e => (e.1, f e.1 e.2)).find? fun e => e.1 = k).map Prod.snd
        = ((entries.find? fun e => e.1 = k).map Prod.snd).map (f k) := by
    intro entries
    induction entries with
    | nil => rfl
    | cons e entries ih =>
      rw [List.map_cons, List.find?_cons, List.find?_cons]
      by_cases he : e.1 = k
      · simp [he]
      · simpa [he] using ih
  exact hfind m.entries

end OrderedMap
