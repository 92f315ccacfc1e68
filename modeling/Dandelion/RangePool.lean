import Dandelion.Outcome
import Dandelion.Intervals
import Mathlib.Tactic.Linarith

/-!
# The range pool

`RangePool` hands out ranges of indices. It keeps the free ranges twice: by their
start, and by their size for the search. While there are gaps between the free ranges
and both structures agree, `get` and `insert` cannot panic, and act on the set of free
indices as difference and union. A pool is valid when no free range is empty either.
-/

namespace Dandelion

open Outcome Intervals

/-- Calls of the pool report no errors, they return or panic. -/
abbrev Pool (α : Type) := Outcome Empty α

/-- Subtraction that panics when it leaves the type. -/
class CheckedSub (Element : Type) where
  checkedSub : Element → Element → Pool Element

open CheckedSub

/-- An unsigned integer as a natural number. -/
instance : CheckedSub Nat := ⟨fun a b => if b ≤ a then pure (a - b) else crash⟩

theorem checkedSub_eq {a b : Nat} (h : b ≤ a) : checkedSub a b = .ok (a - b) := if_pos h

structure RangePool (Element : Type) [LinearOrder Element] where
  ranges : OrderedMap Element Element
  sizes : OrderedMap (Lex (Element × Element)) Unit

namespace RangePool

section Model

variable {Element : Type} [LinearOrder Element] [CheckedSub Element]

def new (start stop : Element) : Pool (RangePool Element) := do
  let initialSize ← checkedSub stop start
  pure ⟨OrderedMap.empty.insert start stop, OrderedMap.empty.insert (toLex (initialSize, start)) ()⟩

def get (pool : RangePool Element) (requestedSize minValue : Element) :
    Pool (Option Element × RangePool Element) :=
  -- find smallest size range that fits the requested size
  match pool.sizes.firstFrom (toLex (requestedSize, minValue)) with
  | none => pure (none, pool)
  | some (entry, _) =>
    let (originalSize, originalStart) := ofLex entry
    let sizes := pool.sizes.remove entry
    if requestedSize < originalSize then do
      let remainingSize ← checkedSub originalSize requestedSize
      let sizes := sizes.insert (toLex (remainingSize, originalStart)) ()
      match pool.ranges.get? originalStart with
      | none => crash
      | some originalEnd => do
        let newEnd ← checkedSub originalEnd requestedSize
        pure (some newEnd, ⟨pool.ranges.insert originalStart newEnd, sizes⟩)
    else pure (some originalStart, ⟨pool.ranges.remove originalStart, sizes⟩)

/-- `sizes.remove`, asserting that the entry was there. -/
def removeSize (sizes : OrderedMap (Lex (Element × Element)) Unit) (size start : Element) :
    Pool (OrderedMap (Lex (Element × Element)) Unit) :=
  match sizes.get? (toLex (size, start)) with
  | none => crash
  | some _ => pure (sizes.remove (toLex (size, start)))

/-- Take the free range that starts at `stop` out of the pool, to concatenate it. -/
def takeNext (pool : RangePool Element) (stop : Element) : Pool (RangePool Element × Element) :=
  match pool.ranges.get? stop with
  | none => pure (pool, stop)
  | some nextEnd => do
    let size ← checkedSub nextEnd stop
    let sizes ← removeSize pool.sizes size stop
    pure (⟨pool.ranges.remove stop, sizes⟩, nextEnd)

/-- Append to the free range that ends at `start`, or start a new one. -/
def mergePrevious (pool : RangePool Element) (start stop : Element) : Pool (RangePool Element) :=
  match (pool.ranges.lastBefore start).filter (fun previous => previous.2 = start) with
  | some (previousStart, previousEnd) => do
    let previousSize ← checkedSub previousEnd previousStart
    let sizes ← removeSize pool.sizes previousSize previousStart
    let newSize ← checkedSub stop previousStart
    pure ⟨pool.ranges.insert previousStart stop, sizes.insert (toLex (newSize, previousStart)) ()⟩
  | none => do
    let size ← checkedSub stop start
    pure ⟨pool.ranges.insert start stop, pool.sizes.insert (toLex (size, start)) ()⟩

def insert (pool : RangePool Element) (start stop : Element) : Pool (RangePool Element) := do
  let (pool, stop) ← takeNext pool stop
  mergePrevious pool start stop

/-- `get` once the search has found a range. -/
theorem get_found {pool : RangePool Element} {size minValue originalSize s : Element} {u : Unit}
    (hfirst : pool.sizes.firstFrom (toLex (size, minValue)) = some (toLex (originalSize, s), u)) :
    pool.get size minValue =
      if size < originalSize then do
        let remainingSize ← checkedSub originalSize size
        match pool.ranges.get? s with
        | none => crash
        | some originalEnd => do
          let newEnd ← checkedSub originalEnd size
          pure (some newEnd, ⟨pool.ranges.insert s newEnd,
            (pool.sizes.remove (toLex (originalSize, s))).insert (toLex (remainingSize, s)) ()⟩)
      else pure (some s, ⟨pool.ranges.remove s, pool.sizes.remove (toLex (originalSize, s))⟩) := by
  rw [get, hfirst]
  rfl

end Model

/-- The free ranges are separated, and `sizes` has exactly their sizes. -/
structure Valid (pool : RangePool Nat) : Prop where
  separated : Separated pool.ranges
  sizes : ∀ size start, pool.sizes.get? (toLex (size, start)) = some () ↔
    ∃ stop, pool.ranges.get? start = some stop ∧ size = stop - start

def free (pool : RangePool Nat) : Set Nat := covered pool.ranges

/-- The free ranges have gaps, and `sizes` has exactly their sizes; some may be empty. -/
structure Consistent (pool : RangePool Nat) : Prop where
  spaced : Spaced pool.ranges
  sizes : ∀ size start, pool.sizes.get? (toLex (size, start)) = some () ↔
    ∃ stop, pool.ranges.get? start = some stop ∧ size = stop - start

def EmptyAt (pool : RangePool Nat) (s : Nat) : Prop := pool.ranges.get? s = some s

theorem Valid.consistent {pool : RangePool Nat} (h : pool.Valid) : pool.Consistent :=
  ⟨h.separated.spaced, h.sizes⟩

theorem Valid.not_emptyAt {pool : RangePool Nat} (h : pool.Valid) (s : Nat) : ¬ pool.EmptyAt s :=
  fun hs => absurd (h.separated.pos s s hs) (lt_irrefl s)

theorem Consistent.valid {pool : RangePool Nat} (h : pool.Consistent) (hne : ∀ s, ¬ pool.EmptyAt s) :
    pool.Valid :=
  ⟨h.spaced.separated hne, h.sizes⟩

section Get

variable {pool : RangePool Nat} (h : pool.Consistent)
include h

/-- The sizes after the range that starts at `s` got a new end. -/
theorem Consistent.sizes_insert {s e e' : Nat} (hs : pool.ranges.get? s = some e) (size start : Nat) :
    ((pool.sizes.remove (toLex (e - s, s))).insert (toLex (e' - s, s)) ()).get?
        (toLex (size, start)) = some () ↔
      ∃ stop, (pool.ranges.insert s e').get? start = some stop ∧ size = stop - start := by
  have hlex : ∀ a b a' b' : Nat, toLex (a, b) = toLex (a', b') ↔ a = a' ∧ b = b' := by
    intro a b a' b'
    rw [toLex.injective.eq_iff, Prod.mk.injEq]
  simp only [OrderedMap.get?_insert_eq_some_iff, OrderedMap.get?_remove_eq_some_iff, h.sizes, ne_eq,
    hlex, and_true]
  constructor
  · rintro (⟨rfl, rfl⟩ | ⟨-, hne, stop, hstop, rfl⟩)
    · exact ⟨e', Or.inl ⟨rfl, rfl⟩, rfl⟩
    · refine ⟨stop, Or.inr ⟨?_, hstop⟩, rfl⟩
      rintro rfl
      rw [hs] at hstop
      cases hstop
      exact hne ⟨rfl, rfl⟩
  · rintro ⟨stop, ⟨rfl, rfl⟩ | ⟨hne, hstop⟩, rfl⟩
    · exact Or.inl ⟨rfl, rfl⟩
    · exact Or.inr ⟨fun he => hne he.2, fun he => hne he.2, stop, hstop, rfl⟩

theorem Consistent.sizes_remove {s e : Nat} (hs : pool.ranges.get? s = some e) (size start : Nat) :
    (pool.sizes.remove (toLex (e - s, s))).get? (toLex (size, start)) = some () ↔
      ∃ stop, (pool.ranges.remove s).get? start = some stop ∧ size = stop - start := by
  simp only [OrderedMap.get?_remove_eq_some_iff, h.sizes, ne_eq, toLex.injective.eq_iff,
    Prod.mk.injEq]
  constructor
  · rintro ⟨hne, stop, hstop, rfl⟩
    refine ⟨stop, ⟨?_, hstop⟩, rfl⟩
    rintro rfl
    rw [hs] at hstop
    cases hstop
    exact hne ⟨rfl, rfl⟩
  · rintro ⟨stop, ⟨hne, hstop⟩, rfl⟩
    exact ⟨fun he => hne he.2, stop, hstop, rfl⟩

/-- The search finds a range that is large enough, if there is one. -/
theorem Consistent.firstFrom_sizes (size : Nat) :
    match pool.sizes.firstFrom (toLex (size, 0)) with
    | none => ∀ s e, pool.ranges.get? s = some e → e - s < size
    | some (entry, _) => size ≤ (ofLex entry).1 ∧ ∃ e,
        pool.ranges.get? (ofLex entry).2 = some e ∧ (ofLex entry).1 = e - (ofLex entry).2 := by
  cases hfirst : pool.sizes.firstFrom (toLex (size, 0)) with
  | none =>
    intro s e hs
    have hlt := (OrderedMap.firstFrom_eq_none_iff _ _).mp hfirst (toLex (e - s, s)) ()
      ((h.sizes (e - s) s).mpr ⟨e, hs, rfl⟩)
    rcases Prod.Lex.lt_iff.mp hlt with hlt | ⟨-, hlt⟩
    · exact hlt
    · exact absurd hlt (Nat.not_lt_zero s)
  | some found =>
    obtain ⟨entry, u⟩ := found
    obtain ⟨hget, hle, -⟩ := (OrderedMap.firstFrom_eq_some_iff _ _ _ _).mp hfirst
    obtain ⟨stop, hstop, hsize⟩ := (h.sizes (ofLex entry).1 (ofLex entry).2).mp hget
    refine ⟨?_, stop, hstop, hsize⟩
    rcases Prod.Lex.le_iff.mp hle with hlt | ⟨heq, -⟩
    · exact hlt.le
    · exact heq.le

/-- `get` takes a range of free indices out of the pool; it fails only when no
free interval of that length exists. -/
theorem Consistent.get_spec {size : Nat} (hsize : 0 < size) :
    (pool.get size 0 = .ok (none, pool) ∧ ∀ a, ¬ Set.Ico a (a + size) ⊆ pool.free) ∨
    ∃ start pool', pool.get size 0 = .ok (some start, pool') ∧ pool'.Consistent ∧
      (∀ s, pool'.EmptyAt s → pool.EmptyAt s) ∧ Set.Ico start (start + size) ⊆ pool.free ∧
      pool'.free = pool.free \ Set.Ico start (start + size) := by
  have hfound := h.firstFrom_sizes size
  cases hfirst : pool.sizes.firstFrom (toLex (size, 0)) with
  | none =>
    rw [hfirst] at hfound
    refine Or.inl ⟨by rw [get, hfirst]; rfl, fun a hsub => ?_⟩
    obtain ⟨s, e, hs, hsa, hbe⟩ := h.spaced.of_Ico_subset (by omega) hsub
    have := hfound s e hs
    omega
  | some found =>
    obtain ⟨entry, u⟩ := found
    obtain ⟨⟨originalSize, s⟩, rfl⟩ := toLex.surjective entry
    rw [hfirst] at hfound
    obtain ⟨hle, e, he, hoe⟩ := hfound
    change size ≤ originalSize at hle
    change pool.ranges.get? s = some e at he
    change originalSize = e - s at hoe
    subst hoe
    right
    by_cases hlt : size < e - s
    · refine ⟨e - size, ⟨pool.ranges.insert s (e - size),
        (pool.sizes.remove (toLex (e - s, s))).insert (toLex (e - size - s, s)) ()⟩, ?_,
        ⟨spaced_shorten h.spaced he (by omega) (Nat.sub_le _ _), h.sizes_insert he⟩, ?_, ?_, ?_⟩
      · rw [get_found hfirst, if_pos hlt, checkedSub_eq hlt.le, he,
          show e - size - s = e - s - size by omega]
        change (checkedSub e size >>= _) = _
        rw [checkedSub_eq (show size ≤ e by omega)]
        rfl
      · intro k hk
        rcases (OrderedMap.get?_insert_eq_some_iff _ _ _ _ _).mp hk with ⟨hks, hke⟩ | ⟨-, hold⟩
        · omega
        · exact hold
      · intro i hi
        exact ⟨s, e, he, by have := hi.1; omega, by have := hi.2; omega⟩
      · rw [show e - size + size = e by omega]
        exact covered_shorten h.spaced he (Nat.sub_le _ _) (by omega)
    · have heq : s + size = e := by omega
      refine ⟨s, ⟨pool.ranges.remove s, pool.sizes.remove (toLex (e - s, s))⟩, ?_,
        ⟨spaced_remove h.spaced s, h.sizes_remove he⟩,
        fun k hk => ((OrderedMap.get?_remove_eq_some_iff _ _ _ _).mp hk).2, ?_, ?_⟩
      · rw [get_found hfirst, if_neg hlt]
        rfl
      · rw [heq]
        exact fun i hi => ⟨s, e, he, hi.1, hi.2⟩
      · rw [heq]
        exact covered_remove h.spaced he

/-- `get` for no index at all takes an empty range out of the pool, or leaves the pool as it is and
names the end of a free range. -/
theorem Consistent.get_zero_spec :
    (pool.get 0 0 = .ok (none, pool) ∧ ∀ s e, pool.ranges.get? s ≠ some e) ∨
    (∃ s e, pool.get 0 0 = .ok (some e, pool) ∧ pool.ranges.get? s = some e ∧ s < e) ∨
    ∃ s, pool.EmptyAt s ∧ pool.get 0 0 = .ok (some s,
      ⟨pool.ranges.remove s, pool.sizes.remove (toLex (0, s))⟩) := by
  have hfound := h.firstFrom_sizes 0
  cases hfirst : pool.sizes.firstFrom (toLex (0, 0)) with
  | none =>
    rw [hfirst] at hfound
    exact Or.inl ⟨by rw [get, hfirst]; rfl, fun s e hs => absurd (hfound s e hs) (Nat.not_lt_zero _)⟩
  | some found =>
    obtain ⟨entry, u⟩ := found
    obtain ⟨⟨originalSize, s⟩, rfl⟩ := toLex.surjective entry
    rw [hfirst] at hfound
    obtain ⟨-, e, he, hoe⟩ := hfound
    change pool.ranges.get? s = some e at he
    change originalSize = e - s at hoe
    subst hoe
    have hse := h.spaced.le s e he
    right
    by_cases hlt : 0 < e - s
    · refine Or.inl ⟨s, e, ?_, he, by omega⟩
      have hranges := (OrderedMap.insert_eq_self_iff pool.ranges s e).mpr he
      have hsizes : (pool.sizes.remove (toLex (e - s, s))).insert (toLex (e - s, s)) () = pool.sizes := by
        apply OrderedMap.ext_get?
        intro k
        rw [OrderedMap.get?_insert, OrderedMap.get?_remove]
        split
        · next hk => rw [hk, (h.sizes (e - s) s).mpr ⟨e, he, rfl⟩]
        · rfl
      rw [get_found hfirst, if_pos hlt, checkedSub_eq (Nat.zero_le _), he]
      simp only [ok_bind, checkedSub_eq (Nat.zero_le e), Nat.sub_zero, hranges, hsizes]
      rfl
    · have heq : e = s := by omega
      subst heq
      refine Or.inr ⟨e, he, ?_⟩
      rw [get_found hfirst, if_neg hlt, Nat.sub_self]
      rfl

/-- `get` of any size: it cuts the end off a free range, or no free range is long enough. -/
theorem Consistent.get_cases (size : Nat) :
    (pool.get size 0 = .ok (none, pool) ∧ ∀ s e, pool.ranges.get? s = some e → e < s + size) ∨
    ∃ start pool', pool.get size 0 = .ok (some start, pool') ∧ pool'.Consistent ∧
      (∀ s, pool'.EmptyAt s → pool.EmptyAt s) ∧
      (∃ s e, pool.ranges.get? s = some e ∧ s ≤ start ∧ start + size ≤ e) ∧
      pool'.free = pool.free \ Set.Ico start (start + size) := by
  rcases Nat.eq_zero_or_pos size with rfl | hsize
  · rcases h.get_zero_spec with ⟨hnone, hall⟩ | ⟨s, e, hsome, hs, hse⟩ | ⟨s, hs, hsome⟩
    · exact Or.inl ⟨hnone, fun s e hs => absurd hs (hall s e)⟩
    · exact Or.inr ⟨e, pool, hsome, h, fun _ => id, ⟨s, e, hs, hse.le, le_refl e⟩, by simp⟩
    · have hsizes := h.sizes_remove hs
      rw [Nat.sub_self] at hsizes
      refine Or.inr ⟨s, _, hsome, ⟨spaced_remove h.spaced s, hsizes⟩,
        fun k hk => ((OrderedMap.get?_remove_eq_some_iff _ _ _ _).mp hk).2,
        ⟨s, s, hs, le_refl s, le_refl s⟩, ?_⟩
      exact covered_remove h.spaced hs
  · rcases h.get_spec hsize with ⟨hnone, hall⟩ | ⟨start, pool', hsome, h', hempty, hsub, hfree⟩
    · refine Or.inl ⟨hnone, fun s e hs => Nat.lt_of_not_le fun hle => hall s fun i hi => ?_⟩
      exact ⟨s, e, hs, hi.1, hi.2.trans_le hle⟩
    · exact Or.inr ⟨start, pool', hsome, h', hempty, h.spaced.of_Ico_subset (by omega) hsub, hfree⟩

end Get

section Insert

variable {pool : RangePool Nat} (h : pool.Consistent)
include h

theorem Consistent.removeSize_eq {s e : Nat} (hs : pool.ranges.get? s = some e) :
    removeSize pool.sizes (e - s) s = .ok (pool.sizes.remove (toLex (e - s, s))) := by
  rw [removeSize, (h.sizes (e - s) s).mpr ⟨e, hs, rfl⟩]
  rfl

/-- What `takeNext` took out of the pool lies behind `b`. -/
theorem Consistent.takeNext_spec (b : Nat) :
    ∃ pool' stop, takeNext pool b = .ok (pool', stop) ∧ pool'.Consistent ∧ b ≤ stop ∧
      pool'.free ∪ Set.Ico b stop = pool.free ∧
      ∀ s e, pool'.ranges.get? s = some e →
        pool.ranges.get? s = some e ∧ s ≠ b ∧ (b < s → stop < s) := by
  rw [takeNext]
  cases hnext : pool.ranges.get? b with
  | none =>
    refine ⟨pool, b, rfl, h, le_refl b, by simp, fun s e hs => ⟨hs, ?_, id⟩⟩
    rintro rfl
    rw [hnext] at hs
    cases hs
  | some e =>
    have hbe := h.spaced.le b e hnext
    refine ⟨⟨pool.ranges.remove b, pool.sizes.remove (toLex (e - b, b))⟩, e, ?_,
      ⟨spaced_remove h.spaced b, h.sizes_remove hnext⟩, hbe, ?_, fun s e' hs => ?_⟩
    · change (checkedSub e b >>= _) = _
      rw [checkedSub_eq hbe]
      change (removeSize pool.sizes (e - b) b >>= _) = _
      rw [h.removeSize_eq hnext]
      rfl
    · change covered (pool.ranges.remove b) ∪ Set.Ico b e = covered pool.ranges
      rw [covered_remove h.spaced hnext]
      exact Set.sdiff_union_of_subset (fun i hi => ⟨b, e, hnext, hi.1, hi.2⟩)
    · obtain ⟨hsb, hs⟩ := (OrderedMap.get?_remove_eq_some_iff _ _ _ _).mp hs
      exact ⟨hs, hsb, fun hlt => h.spaced.gap b e s e' hnext hs hlt⟩

theorem Consistent.sizes_insert_new {s e' : Nat} (hs : pool.ranges.get? s = none) (size start : Nat) :
    (pool.sizes.insert (toLex (e' - s, s)) ()).get? (toLex (size, start)) = some () ↔
      ∃ stop, (pool.ranges.insert s e').get? start = some stop ∧ size = stop - start := by
  simp only [OrderedMap.get?_insert_eq_some_iff, h.sizes, ne_eq, toLex.injective.eq_iff,
    Prod.mk.injEq, and_true]
  constructor
  · rintro (⟨rfl, rfl⟩ | ⟨-, stop, hstop, rfl⟩)
    · exact ⟨e', Or.inl ⟨rfl, rfl⟩, rfl⟩
    · refine ⟨stop, Or.inr ⟨?_, hstop⟩, rfl⟩
      rintro rfl
      rw [hs] at hstop
      cases hstop
  · rintro ⟨stop, ⟨rfl, rfl⟩ | ⟨hne, hstop⟩, rfl⟩
    · exact Or.inl ⟨rfl, rfl⟩
    · exact Or.inr ⟨fun he => hne he.2, stop, hstop, rfl⟩

/-- The range is appended to the free range that ends at `a`, or it is a new one. -/
theorem Consistent.mergePrevious_eq {a stop : Nat} (has : a ≤ stop) :
    (∃ p, pool.ranges.get? p = some a ∧ p < a ∧ pool.mergePrevious a stop = .ok
      ⟨pool.ranges.insert p stop,
        (pool.sizes.remove (toLex (a - p, p))).insert (toLex (stop - p, p)) ()⟩) ∨
    (∀ p, pool.ranges.lastBefore a ≠ some (p, a)) ∧ pool.mergePrevious a stop = .ok
      ⟨pool.ranges.insert a stop, pool.sizes.insert (toLex (stop - a, a)) ()⟩ := by
  rw [mergePrevious]
  cases hprev : (pool.ranges.lastBefore a).filter (fun previous => previous.2 = a) with
  | some previous =>
    obtain ⟨p, q⟩ := previous
    obtain ⟨hlast, hq⟩ := Option.filter_eq_some_iff.mp hprev
    have hqa : q = a := of_decide_eq_true hq
    subst hqa
    obtain ⟨hp, hpa, -⟩ := (OrderedMap.lastBefore_eq_some_iff _ _ _ _).mp hlast
    refine Or.inl ⟨p, hp, hpa, ?_⟩
    simp only [checkedSub_eq hpa.le, checkedSub_eq (hpa.le.trans has)]
    change (removeSize pool.sizes (q - p) p >>= _) = _
    rw [h.removeSize_eq hp]
    rfl
  | none =>
    refine Or.inr ⟨fun p hlast => ?_, ?_⟩
    · rw [hlast, Option.filter_some, if_pos (decide_eq_true rfl)] at hprev
      cases hprev
    · simp only [checkedSub_eq has]
      rfl

theorem Consistent.mergePrevious_spec {a stop : Nat} (has : a ≤ stop)
    (hbefore : ∀ s e, pool.ranges.get? s = some e → s < a → e ≤ a)
    (hafter : ∀ s e, pool.ranges.get? s = some e → a ≤ s → stop < s) :
    ∃ pool', pool.mergePrevious a stop = .ok pool' ∧ pool'.Consistent ∧
      pool'.free = pool.free ∪ Set.Ico a stop ∧
      (∃ s, pool'.ranges.get? s = some stop) ∧
      ∀ s, pool'.EmptyAt s → pool.EmptyAt s ∨ s = a ∧ a = stop := by
  rcases h.mergePrevious_eq has with ⟨p, hp, hpa, hok⟩ | ⟨hlast, hok⟩
  · refine ⟨_, hok, ⟨spaced_extend h.spaced hp has ?_, h.sizes_insert hp⟩,
      covered_extend hp hpa.le has, ⟨p, OrderedMap.get?_insert_self _ _ _⟩, fun s hs => ?_⟩
    · intro s e hs hps
      exact hafter s e hs (h.spaced.gap p a s e hp hs hps).le
    · rcases (OrderedMap.get?_insert_eq_some_iff _ _ _ _ _).mp hs with ⟨hsp, hstop⟩ | ⟨-, hold⟩
      · omega
      · exact Or.inl hold
  · have hnew : pool.ranges.get? a = none := by
      cases hget : pool.ranges.get? a with
      | none => rfl
      | some e => exact absurd (hafter a e hget (le_refl a)) has.not_gt
    refine ⟨_, hok, ⟨spaced_insert h.spaced has ?_, h.sizes_insert_new hnew⟩, covered_insert hnew,
      ⟨a, OrderedMap.get?_insert_self _ _ _⟩, fun s hs => ?_⟩
    · intro s e hs
      rcases Nat.lt_or_ge s a with hsa | has'
      · refine Or.inl ⟨hsa, Nat.lt_of_le_of_ne (hbefore s e hs hsa) ?_⟩
        -- a range that ends at `a` would be the one before `a`
        rintro rfl
        refine hlast s ((OrderedMap.lastBefore_eq_some_iff _ _ _ _).mpr ⟨hs, hsa, fun s' e' hs' hse => ?_⟩)
        by_contra hlt
        exact absurd (h.spaced.gap s e s' e' hs hs' (Nat.lt_of_not_le hlt)) hse.not_gt
      · exact Or.inr (hafter s e hs has')
    · rcases (OrderedMap.get?_insert_eq_some_iff _ _ _ _ _).mp hs with ⟨rfl, hstop⟩ | ⟨-, hold⟩
      · exact Or.inr ⟨rfl, hstop⟩
      · exact Or.inl hold

/-- Wherever the free ranges lie, `insert` returns. -/
theorem Consistent.insert_returns {a b : Nat} (hab : a ≤ b) : ∃ pool', pool.insert a b = .ok pool' := by
  obtain ⟨pool₁, stop, htake, h₁, hbs, -⟩ := h.takeNext_spec b
  rw [insert, htake]
  rcases h₁.mergePrevious_eq (hab.trans hbs) with ⟨p, -, -, hok⟩ | ⟨-, hok⟩
  · exact ⟨_, hok⟩
  · exact ⟨_, hok⟩

/-- `insert` gives a range of indices back to the pool, if all free ranges lie before or behind it. -/
theorem Consistent.insert_spec {a b : Nat} (hab : a ≤ b)
    (hapart : ∀ s e, pool.ranges.get? s = some e → s < a ∧ e ≤ a ∨ b ≤ s) :
    ∃ pool', pool.insert a b = .ok pool' ∧ pool'.Consistent ∧ pool'.free = pool.free ∪ Set.Ico a b ∧
      (∃ s e, pool'.ranges.get? s = some e) ∧
      ∀ s, pool'.EmptyAt s → pool.EmptyAt s ∨ s = a ∧ a = b := by
  obtain ⟨pool₁, stop, htake, h₁, hbs, hfree, hold⟩ := h.takeNext_spec b
  have hbefore : ∀ s e, pool₁.ranges.get? s = some e → s < a → e ≤ a := by
    intro s e hs hsa
    have := hapart s e (hold s e hs).1
    omega
  have hafter : ∀ s e, pool₁.ranges.get? s = some e → a ≤ s → stop < s := by
    intro s e hs has
    obtain ⟨hs, hsb, hbehind⟩ := hold s e hs
    have := hapart s e hs
    exact hbehind (by omega)
  obtain ⟨pool', hmerge, h', hfree', ⟨start, hstart⟩, hempty⟩ :=
    h₁.mergePrevious_spec (hab.trans hbs) hbefore hafter
  refine ⟨pool', ?_, h', ?_, ⟨start, stop, hstart⟩, fun s hs => ?_⟩
  · rw [insert, htake]
    exact hmerge
  · rw [hfree', ← hfree, Set.union_assoc, Set.union_comm (Set.Ico b stop),
      Set.Ico_union_Ico_eq_Ico hab hbs]
  · rcases hempty s hs with hs | ⟨hsa, has⟩
    · exact Or.inl (hold s s hs).1
    · exact Or.inr ⟨hsa, by omega⟩

end Insert

section Valid

variable {pool : RangePool Nat} (h : pool.Valid)
include h

theorem Valid.get_spec {size : Nat} (hsize : 0 < size) :
    (pool.get size 0 = .ok (none, pool) ∧ ∀ a, ¬ Set.Ico a (a + size) ⊆ pool.free) ∨
    ∃ start pool', pool.get size 0 = .ok (some start, pool') ∧ pool'.Valid ∧
      Set.Ico start (start + size) ⊆ pool.free ∧
      pool'.free = pool.free \ Set.Ico start (start + size) := by
  rcases h.consistent.get_spec hsize with hnone | ⟨start, pool', hsome, h', hempty, hsub, hfree⟩
  · exact Or.inl hnone
  · exact Or.inr ⟨start, pool', hsome, h'.valid fun s hs => h.not_emptyAt s (hempty s hs), hsub, hfree⟩

/-- Free ranges that are not empty lie before or behind a range without free indices. -/
theorem Valid.apart_of_disjoint {a b : Nat} (hab : a < b) (hdisj : Disjoint pool.free (Set.Ico a b))
    {s e : Nat} (hs : pool.ranges.get? s = some e) : s < a ∧ e ≤ a ∨ b ≤ s := by
  have hse := h.separated.pos s e hs
  by_contra hover
  have hfree : max s a ∈ pool.free := ⟨s, e, hs, by omega, by omega⟩
  exact Set.disjoint_left.mp hdisj hfree ⟨by omega, by omega⟩

theorem Valid.insert_spec {a b : Nat} (hab : a < b) (hdisj : Disjoint pool.free (Set.Ico a b)) :
    ∃ pool', pool.insert a b = .ok pool' ∧ pool'.Valid ∧ pool'.free = pool.free ∪ Set.Ico a b := by
  obtain ⟨pool', hok, h', hfree, -, hempty⟩ :=
    h.consistent.insert_spec hab.le fun s e hs => h.apart_of_disjoint hab hdisj hs
  refine ⟨pool', hok, h'.valid fun s hs => ?_, hfree⟩
  rcases hempty s hs with hs | ⟨-, heq⟩
  · exact h.not_emptyAt s hs
  · exact absurd heq hab.ne

end Valid

end RangePool
end Dandelion
