import Dandelion.RangePool
import Dandelion.Pages

/-!
# Runs of the range pool

A run of the pool takes ranges of at least one index and gives back ranges that
were handed out before. In every state of a run the free and the held ranges
partition the indices of the pool. The only pool with an empty free range is the
one that was created without indices; it never hands anything out.
-/

namespace Dandelion

open Outcome Intervals

/-- A pool together with the ranges it has handed out, as start and end. -/
structure PoolState where
  pool : RangePool Nat
  held : List (Nat × Nat)

/-- The states of the runs from `RangePool::new(0..n)`. -/
inductive PoolReachable (n : Nat) : PoolState → Prop where
  | start {pool : RangePool Nat} (h : RangePool.new 0 n = .ok pool) : PoolReachable n ⟨pool, []⟩
  | get {s : PoolState} {size : Nat} {r : Option Nat} {pool : RangePool Nat}
      (h : PoolReachable n s) (hsize : 1 ≤ size) (hget : s.pool.get size 0 = .ok (r, pool)) :
      PoolReachable n ⟨pool, (r.map fun start => (start, start + size)).toList ++ s.held⟩
  | insert {s : PoolState} {start size : Nat} {pool : RangePool Nat} (h : PoolReachable n s)
      (hheld : (start, start + size) ∈ s.held)
      (hins : s.pool.insert start (start + size) = .ok pool) :
      PoolReachable n ⟨pool, s.held.erase (start, start + size)⟩

def indices (r : Nat × Nat) : Set Nat := Set.Ico r.1 r.2

/-- The bytes of the pages whose numbers a range holds. -/
def pageBytes (r : Nat × Nat) : Set Nat := Set.Ico (r.1 * pageSize) (r.2 * pageSize)

/-- The free and the held ranges are a partition of the indices below `n`. -/
structure Partition (n : Nat) (s : PoolState) : Prop where
  held_pos : ∀ r ∈ s.held, r.1 < r.2
  free_held : ∀ r ∈ s.held, Disjoint s.pool.free (indices r)
  held_disjoint : s.held.Pairwise (fun r t => Disjoint (indices r) (indices t))
  cover : ∀ i, i < n ↔ i ∈ s.pool.free ∨ ∃ r ∈ s.held, i ∈ indices r

theorem disjoint_pageBytes {r t : Nat × Nat} (h : Disjoint (indices r) (indices t)) :
    Disjoint (pageBytes r) (pageBytes t) := by
  rw [Set.disjoint_left] at h ⊢
  rintro i ⟨hr1, hr2⟩ ⟨ht1, ht2⟩
  have hpos : 0 < pageSize := by decide
  apply h (a := i / pageSize)
  · exact ⟨(Nat.le_div_iff_mul_le hpos).mpr hr1, (Nat.div_lt_iff_lt_mul hpos).mpr hr2⟩
  · exact ⟨(Nat.le_div_iff_mul_le hpos).mpr ht1, (Nat.div_lt_iff_lt_mul hpos).mpr ht2⟩

/-- The pool as `RangePool::new(0..n)` returns it. -/
def initialPool (n : Nat) : RangePool Nat :=
  ⟨OrderedMap.empty.insert 0 n, OrderedMap.empty.insert (toLex (n, 0)) ()⟩

theorem new_eq (n : Nat) : RangePool.new 0 n = .ok (initialPool n) := by
  rw [RangePool.new, checkedSub_eq (Nat.zero_le n)]
  rfl

theorem initialPool_sizes (n size start : Nat) :
    (initialPool n).sizes.get? (toLex (size, start)) = some () ↔
      ∃ stop, (initialPool n).ranges.get? start = some stop ∧ size = stop - start := by
  simp only [initialPool, OrderedMap.get?_insert_eq_some_iff, OrderedMap.get?_empty,
    toLex.injective.eq_iff, Prod.mk.injEq, reduceCtorEq, and_false, or_false, and_true]
  constructor
  · rintro ⟨rfl, rfl⟩
    exact ⟨size, ⟨rfl, rfl⟩, rfl⟩
  · rintro ⟨stop, ⟨rfl, rfl⟩, rfl⟩
    exact ⟨rfl, rfl⟩

theorem initialPool_consistent (n : Nat) : (initialPool n).Consistent := by
  refine ⟨spaced_insert spaced_empty (Nat.zero_le n) ?_, initialPool_sizes n⟩
  intro s e hs
  cases hs

theorem initialPool_valid {n : Nat} (hn : 0 < n) : (initialPool n).Valid := by
  apply (initialPool_consistent n).valid
  intro s hs
  rcases (OrderedMap.get?_insert_eq_some_iff _ _ _ _ _).mp hs with ⟨hzero, hstop⟩ | ⟨-, hold⟩
  · omega
  · cases hold

theorem initialPool_free (n : Nat) : (initialPool n).free = Set.Ico 0 n := by
  ext i
  simp only [RangePool.free, mem_covered, initialPool, OrderedMap.get?_insert_eq_some_iff,
    OrderedMap.get?_empty, reduceCtorEq, and_false, or_false, Set.mem_Ico]
  constructor
  · rintro ⟨s, e, ⟨rfl, rfl⟩, hi⟩
    exact hi
  · exact fun hi => ⟨0, n, ⟨rfl, rfl⟩, hi⟩

theorem partition_initial (n : Nat) : Partition n ⟨initialPool n, []⟩ := by
  refine ⟨fun r hr => absurd hr List.not_mem_nil, fun r hr => absurd hr List.not_mem_nil,
    List.Pairwise.nil, fun i => ?_⟩
  simp [initialPool_free]

section Steps

variable {n : Nat} {s : PoolState}

theorem Partition.get_step (h : Partition n s) {start size : Nat} {pool : RangePool Nat}
    (hsize : 1 ≤ size) (hsub : Set.Ico start (start + size) ⊆ s.pool.free)
    (hfree : pool.free = s.pool.free \ Set.Ico start (start + size)) :
    Partition n ⟨pool, (start, start + size) :: s.held⟩ := by
  refine ⟨?_, ?_, ?_, ?_⟩
  · exact List.forall_mem_cons.mpr ⟨Nat.lt_add_of_pos_right hsize, h.held_pos⟩
  · refine List.forall_mem_cons.mpr ⟨?_, fun r hr => ?_⟩
    · rw [hfree]
      exact Set.disjoint_sdiff_left
    · rw [hfree]
      exact (h.free_held r hr).mono_left Set.sdiff_subset
  · refine List.pairwise_cons.mpr ⟨fun r hr => ?_, h.held_disjoint⟩
    exact (h.free_held r hr).mono_left hsub
  · intro i
    simp only [h.cover i, hfree, Set.mem_sdiff, List.mem_cons, exists_eq_or_imp]
    by_cases hi : i ∈ Set.Ico start (start + size)
    · simp [hi, hsub hi, indices]
    · simp [hi, indices]

theorem Partition.insert_step (h : Partition n s) {start size : Nat} {pool : RangePool Nat}
    (hheld : (start, start + size) ∈ s.held)
    (hfree : pool.free = s.pool.free ∪ Set.Ico start (start + size)) :
    Partition n ⟨pool, s.held.erase (start, start + size)⟩ := by
  have hperm := List.perm_cons_erase hheld
  have hpair : ((start, start + size) :: s.held.erase (start, start + size)).Pairwise
      (fun r t => Disjoint (indices r) (indices t)) :=
    (hperm.pairwise_iff (fun hab => Disjoint.symm hab)).mp h.held_disjoint
  obtain ⟨hout, hrest⟩ := List.pairwise_cons.mp hpair
  refine ⟨fun r hr => h.held_pos r (List.mem_of_mem_erase hr), fun r hr => ?_, hrest, fun i => ?_⟩
  · rw [hfree, Set.disjoint_union_left]
    exact ⟨h.free_held r (List.mem_of_mem_erase hr), hout r hr⟩
  · have hmem : (∃ r ∈ s.held, i ∈ indices r) ↔ i ∈ Set.Ico start (start + size) ∨
        ∃ r ∈ s.held.erase (start, start + size), i ∈ indices r := by
      simp only [hperm.mem_iff, List.mem_cons, exists_eq_or_imp]
      rfl
    rw [h.cover i, hmem, hfree, Set.mem_union, or_assoc]

end Steps

/-- In a run of a pool with indices both structures stay valid and the partition holds. -/
theorem pool_invariant {n : Nat} (hn : 0 < n) {s : PoolState} (h : PoolReachable n s) :
    s.pool.Valid ∧ Partition n s := by
  induction h with
  | start hnew =>
    rw [new_eq] at hnew
    cases hnew
    exact ⟨initialPool_valid hn, partition_initial n⟩
  | get hr hsize hget ih =>
    obtain ⟨hvalid, hpart⟩ := ih
    rcases hvalid.get_spec hsize with ⟨hnone, -⟩ | ⟨start, pool, hsome, hvalid', hsub, hfree⟩
    · rw [hnone] at hget
      cases hget
      exact ⟨hvalid, hpart⟩
    · rw [hsome] at hget
      cases hget
      exact ⟨hvalid', hpart.get_step hsize hsub hfree⟩
  | @insert s start size pool hr hheld hins ih =>
    obtain ⟨hvalid, hpart⟩ := ih
    obtain ⟨pool', hok, hvalid', hfree⟩ :=
      hvalid.insert_spec (hpart.held_pos _ hheld) (hpart.free_held _ hheld)
    rw [hok] at hins
    cases hins
    exact ⟨hvalid', hpart.insert_step hheld hfree⟩

/-- A pool without indices never changes. -/
theorem get_empty {size : Nat} (hsize : 1 ≤ size) :
    (initialPool 0).get size 0 = .ok (none, initialPool 0) := by
  have hfirst : (initialPool 0).sizes.firstFrom (toLex (size, 0)) = none := by
    refine (OrderedMap.firstFrom_eq_none_iff _ _).mpr fun k v hk => ?_
    rcases (OrderedMap.get?_insert_eq_some_iff _ _ _ _ _).mp hk with ⟨rfl, -⟩ | ⟨-, hk⟩
    · exact Prod.Lex.lt_iff.mpr (Or.inl hsize)
    · cases hk
  rw [RangePool.get, hfirst]
  rfl

theorem pool_zero {s : PoolState} (h : PoolReachable 0 s) : s = ⟨initialPool 0, []⟩ := by
  induction h with
  | start hnew =>
    rw [new_eq] at hnew
    cases hnew
    rfl
  | get hr hsize hget ih =>
    rw [ih, get_empty hsize] at hget
    cases hget
    rw [ih]
    rfl
  | insert hr hheld hins ih =>
    rw [ih] at hheld
    exact absurd hheld List.not_mem_nil

/-- What holds in every state of a run. `get` and `insert` return, `sizes` mirrors
`ranges`, the free and held ranges partition the indices and so no two contexts
share a byte, `get` fails only when no free interval is long enough, and the pool
is whole again once everything has been given back. The free ranges are separated
and not empty, unless the pool has no indices at all. -/
theorem range_pool_runs {n : Nat} {s : PoolState} (h : PoolReachable n s) :
    (0 < n → Separated s.pool.ranges) ∧ (n = 0 → s.pool.ranges.entries = [(0, 0)]) ∧
    (∀ size start, s.pool.sizes.get? (toLex (size, start)) = some () ↔
      ∃ stop, s.pool.ranges.get? start = some stop ∧ size = stop - start) ∧
    Partition n s ∧
    s.held.Pairwise (fun r t => Disjoint (pageBytes r) (pageBytes t)) ∧
    (∀ size, 1 ≤ size → ∃ r pool, s.pool.get size 0 = .ok (r, pool) ∧
      (r = none ↔ ¬ ∃ a, Set.Ico a (a + size) ⊆ s.pool.free)) ∧
    (∀ r ∈ s.held, ∃ pool, s.pool.insert r.1 r.2 = .ok pool) ∧
    (s.held = [] → s.pool.ranges.entries = [(0, n)]) := by
  rcases Nat.eq_zero_or_pos n with rfl | hn
  · cases pool_zero h
    have hpart := partition_initial 0
    refine ⟨fun h => absurd h (lt_irrefl 0), fun _ => rfl, initialPool_sizes 0, hpart,
      List.Pairwise.nil, fun size hsize => ⟨none, _, get_empty hsize, ?_⟩,
      fun r hr => absurd hr List.not_mem_nil, fun _ => rfl⟩
    refine iff_of_true rfl ?_
    rintro ⟨a, hsub⟩
    have hmem := hsub ⟨le_refl a, Nat.lt_add_of_pos_right hsize⟩
    rw [initialPool_free] at hmem
    exact absurd hmem.2 (Nat.not_lt_zero a)
  · obtain ⟨hvalid, hpart⟩ := pool_invariant hn h
    refine ⟨fun _ => hvalid.separated, fun h => absurd h hn.ne', hvalid.sizes, hpart,
      hpart.held_disjoint.imp disjoint_pageBytes, fun size hsize => ?_, fun r hr => ?_,
      fun hheld => ?_⟩
    · rcases hvalid.get_spec hsize with ⟨hnone, hno⟩ | ⟨start, pool, hsome, -, hsub, -⟩
      · exact ⟨none, _, hnone, iff_of_true rfl (fun ⟨a, hsub⟩ => hno a hsub)⟩
      · exact ⟨some start, pool, hsome, iff_of_false nofun (fun hno => hno ⟨start, hsub⟩)⟩
    · obtain ⟨pool, hok, -⟩ := hvalid.insert_spec (hpart.held_pos r hr) (hpart.free_held r hr)
      exact ⟨pool, hok⟩
    · apply hvalid.separated.eq_of_covered_Ico hn
      ext i
      have hcover := hpart.cover i
      simp only [hheld, List.not_mem_nil, false_and, exists_false, or_false] at hcover
      rw [Set.mem_Ico, hcover]
      simp [RangePool.free]

/-- A pool of ten indices after four of them were handed out. -/
def sixFree : PoolState := ⟨initialPool 6, [(6, 10)]⟩

theorem range_pool_runs_ten : PoolReachable 10 sixFree ∧ Separated sixFree.pool.ranges ∧
    Partition 10 sixFree := by
  have hget : (initialPool 10).get 4 0 = .ok (some 6, initialPool 6) := rfl
  have h : PoolReachable 10 sixFree := .get (.start (new_eq 10)) (show 1 ≤ 4 by decide) hget
  obtain ⟨hsep, -, -, hpart, -⟩ := range_pool_runs h
  exact ⟨h, hsep (by decide), hpart⟩

/-- A pool without indices has an empty free range. -/
theorem range_pool_zero_empty_range :
    ¬ ∀ n s, PoolReachable n s → ∀ r ∈ s.pool.ranges.entries, r.1 < r.2 := by
  intro h
  exact absurd (h 0 ⟨initialPool 0, []⟩ (.start (new_eq 0)) (0, 0) List.mem_cons_self) (lt_irrefl 0)

end Dandelion
