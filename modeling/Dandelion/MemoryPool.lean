import Dandelion.Errors
import Dandelion.RangePoolRuns
import Dandelion.Stateful
import Dandelion.Transitions
import Dandelion.Usize

/-!
# The memory pool

`MmapMemPool` hands out memory in slabs and keeps track of the free ones in a range pool. A request
of no bytes gets an empty range of slabs: it names the end of a free range and does not change the
pool. When such a range is dropped later, the free ranges may have moved, and an empty free range
appears inside another one or inside an allocation. As long as every free range lies before or
behind what is dropped, the pool stays in order.
-/

namespace Dandelion

open Outcome Stateful Transitions Intervals

/-- `SLAB_SIZE`, the minimum allocation granularity of a memory pool. -/
def slabSize : Nat := 2 ^ 20

/-- A conversion to `u32` that is expected to succeed. -/
def toU32 (n : Nat) : DandelionResult Nat := if n < 2 ^ 32 then pure n else crash

/-- The calls of a range pool report no errors. -/
def Pool.result {α : Type} : Pool α → DandelionResult α
  | .ok a => .ok a
  | .error (.error e) => nomatch e
  | .error .panic => crash
  | .error .diverge => .error .diverge

structure MmapMemPool where
  size : Nat
  occupation : RangePool Nat

/-- Memory of a pool, by its place in the memory of the pool. -/
structure MmapMem where
  offset : Nat
  size : Nat
deriving DecidableEq, Repr

namespace MmapMemPool

def create (size : Nat) : DandelionResult MmapMemPool :=
  if size < (2 ^ 32 - 1) * slabSize then do
    let upperEnd ← toU32 (size / slabSize)
    let occupation ← (RangePool.new 0 upperEnd).result
    pure ⟨size, occupation⟩
  else crash

/-- The memory, and its length. Cleaning it with `madvise` succeeds. -/
def getAllocation (requestedSize : Nat) : Stateful DandelionError MmapMemPool (MmapMem × Nat) := do
  let pool ← get
  if pool.size < requestedSize then lift (fail (.domainError .invalidMemorySize))
  else do
    let rounded ← lift (Usize.add .checked requestedSize (slabSize - 1))
    let occupationSize ← lift (toU32 (rounded / slabSize))
    let length := occupationSize * slabSize
    let (start, occupation) ← lift (pool.occupation.get occupationSize 0).result
    match start with
    | none => lift (fail (.domainError .reachedCapacity))
    | some startSlab => do
      set { pool with occupation }
      pure (⟨startSlab * slabSize, length⟩, length)

/-- `MmapMem::drop` -/
def drop (mem : MmapMem) : Stateful DandelionError MmapMemPool PUnit := do
  let startSlab ← lift (toU32 (mem.offset / slabSize))
  let slabNumber ← lift (toU32 (mem.size / slabSize))
  let pool ← get
  let stop ← lift (toU32 (startSlab + slabNumber))
  let occupation ← lift (pool.occupation.insert startSlab stop).result
  set { pool with occupation }

end MmapMemPool

/-- A pool and the memory of it that is in use. -/
structure MemoryState where
  pool : MmapMemPool
  live : List MmapMem

inductive MemoryAction where
  | getAllocation (requestedSize : Nat)
  | drop (mem : MmapMem)
deriving DecidableEq, Repr

namespace MemoryState

/-- A request that is refused changes nothing; nothing follows a panic. -/
def step (s : MemoryState) : MemoryAction → Option MemoryState
  | .getAllocation requestedSize =>
    match exec (MmapMemPool.getAllocation requestedSize) s.pool with
    | (.ok (mem, _), pool) => some ⟨pool, mem :: s.live⟩
    | (.error (.error _), pool) => some ⟨pool, s.live⟩
    | _ => none
  | .drop mem =>
    if mem ∈ s.live then
      match exec (MmapMemPool.drop mem) s.pool with
      | (.ok _, pool) => some ⟨pool, s.live.erase mem⟩
      | _ => none
    else none

end MemoryState

def MmapMem.slabs (mem : MmapMem) : Set Nat :=
  Set.Ico (mem.offset / slabSize) (mem.offset / slabSize + mem.size / slabSize)

namespace MemoryState

/-- What a pool is for: memory in use is disjoint, every call returns, and the whole pool can be
had when nothing is in use. -/
structure Sound (s : MemoryState) : Prop where
  disjoint : s.live.Pairwise fun mem mem' =>
    0 < mem.size → 0 < mem'.size → Disjoint mem.slabs mem'.slabs
  get_returns : ∀ requestedSize, Returns (exec (MmapMemPool.getAllocation requestedSize) s.pool).1
  drop_returns : ∀ mem ∈ s.live, Returns (exec (MmapMemPool.drop mem) s.pool).1
  whole : s.live = [] → ∃ mem pool,
    exec (MmapMemPool.getAllocation (s.pool.size / slabSize * slabSize)) s.pool = (.ok mem, pool)

/-- Every free range, also an empty one, lies before the slabs that are dropped or behind them. -/
def Unobstructed (s : MemoryState) : MemoryAction → Prop
  | .getAllocation _ => True
  | .drop mem => ∀ start stop, s.pool.occupation.ranges.get? start = some stop →
      start < mem.offset / slabSize ∧ stop ≤ mem.offset / slabSize ∨
        mem.offset / slabSize + mem.size / slabSize ≤ start

end MemoryState

/-! ## Slabs -/

def MmapMem.ofSlabs (start number : Nat) : MmapMem := ⟨start * slabSize, number * slabSize⟩

theorem slabSize_pos : 0 < slabSize := by decide

@[simp] theorem ofSlabs_offset_div (start number : Nat) :
    (MmapMem.ofSlabs start number).offset / slabSize = start :=
  Nat.mul_div_cancel start slabSize_pos

@[simp] theorem ofSlabs_size_div (start number : Nat) :
    (MmapMem.ofSlabs start number).size / slabSize = number :=
  Nat.mul_div_cancel number slabSize_pos

theorem slabs_ofSlabs (start number : Nat) :
    (MmapMem.ofSlabs start number).slabs = Set.Ico start (start + number) := by
  rw [MmapMem.slabs, ofSlabs_offset_div, ofSlabs_size_div]

theorem toU32_eq {n : Nat} (h : n < 2 ^ 32) : toU32 n = .ok n := if_pos h

/-! ## The calls -/

namespace MmapMemPool

/-- The number of slabs that a request is rounded up to. -/
def slabsFor (requestedSize : Nat) : Nat := (requestedSize + (slabSize - 1)) / slabSize

theorem exec_getAllocation_large {pool : MmapMemPool} {requestedSize : Nat}
    (h : pool.size < requestedSize) :
    exec (getAllocation requestedSize) pool = (fail (.domainError .invalidMemorySize), pool) := by
  rw [getAllocation, exec_get_bind, if_pos h]
  rfl

section Bounded

variable {pool : MmapMemPool} (hbounded : pool.size < (2 ^ 32 - 1) * slabSize)
include hbounded

theorem slabs_lt : pool.size / slabSize < 2 ^ 32 - 1 := by
  apply Nat.div_lt_of_lt_mul
  rwa [Nat.mul_comm]

theorem exec_getAllocation {requestedSize : Nat} (h : requestedSize ≤ pool.size) {r : Option Nat}
    {occupation : RangePool Nat}
    (hget : pool.occupation.get (slabsFor requestedSize) 0 = .ok (r, occupation)) :
    exec (getAllocation requestedSize) pool = r.elim (fail (.domainError .reachedCapacity), pool)
      fun start => (.ok (.ofSlabs start (slabsFor requestedSize), slabsFor requestedSize * slabSize),
        ⟨pool.size, occupation⟩) := by
  have hsize : slabsFor requestedSize < 2 ^ 32 := by
    unfold slabsFor slabSize at *
    omega
  have hadd : requestedSize + (slabSize - 1) < Usize.limit := by
    unfold slabSize Usize.limit at *
    omega
  rw [getAllocation, exec_get_bind, if_neg (Nat.not_lt.mpr h), Usize.add_eq_ok hadd, exec_lift_ok_bind]
  change exec (lift (toU32 (slabsFor requestedSize)) >>= _) pool = _
  rw [toU32_eq hsize, exec_lift_ok_bind, hget]
  cases r with
  | none => rfl
  | some start => rfl

theorem exec_drop {start number : Nat} (hstop : start + number ≤ pool.size / slabSize)
    {occupation : RangePool Nat} (hinsert : pool.occupation.insert start (start + number) = .ok occupation) :
    exec (drop (.ofSlabs start number)) pool = (.ok ⟨⟩, ⟨pool.size, occupation⟩) := by
  have hlt := slabs_lt hbounded
  rw [drop, ofSlabs_offset_div, ofSlabs_size_div, toU32_eq (by omega), exec_lift_ok_bind,
    toU32_eq (by omega), exec_lift_ok_bind, exec_get_bind, toU32_eq (by omega), exec_lift_ok_bind, hinsert]
  rfl

end Bounded

end MmapMemPool

/-! ## Runs -/

namespace MemoryState

open MmapMemPool

/-- The free slabs and those of the memory in use make up the pool. -/
structure Inv (s : MemoryState) : Prop where
  bounded : s.pool.size < (2 ^ 32 - 1) * slabSize
  consistent : s.pool.occupation.Consistent
  inside : ∀ mem ∈ s.live, ∃ start number,
    mem = .ofSlabs start number ∧ start + number ≤ s.pool.size / slabSize
  emptyAt_le : ∀ k, s.pool.occupation.EmptyAt k → k ≤ s.pool.size / slabSize
  tiles : Tiles (Set.Iio (s.pool.size / slabSize)) (s.pool.occupation.free :: s.live.map MmapMem.slabs)
  idle : s.live = [] → ∃ start stop, s.pool.occupation.ranges.get? start = some stop

theorem create_eq {size : Nat} {pool : MmapMemPool} (h : create size = .ok pool) :
    size < (2 ^ 32 - 1) * slabSize ∧ pool = ⟨size, initialPool (size / slabSize)⟩ := by
  by_cases hsize : size < (2 ^ 32 - 1) * slabSize
  · have hslabs : size / slabSize < 2 ^ 32 - 1 := Nat.div_lt_of_lt_mul (by rwa [Nat.mul_comm])
    rw [create, if_pos hsize, toU32_eq (by omega), ok_bind, new_eq] at h
    cases h
    exact ⟨hsize, rfl⟩
  · rw [create, if_neg hsize] at h
    cases h

theorem emptyAt_initialPool {n k : Nat} (h : (initialPool n).EmptyAt k) : k = 0 ∧ n = 0 := by
  rcases (OrderedMap.get?_insert_eq_some_iff _ _ _ _ _).mp h with ⟨hk, hn⟩ | ⟨-, hold⟩
  · omega
  · cases hold

theorem inv_create {size : Nat} {pool : MmapMemPool} (h : create size = .ok pool) : Inv ⟨pool, []⟩ := by
  obtain ⟨hsize, rfl⟩ := create_eq h
  refine ⟨hsize, initialPool_consistent _, fun mem hmem => absurd hmem List.not_mem_nil,
    fun k hk => ?_, ⟨List.pairwise_singleton _ _, fun i => ?_⟩,
    fun _ => ⟨0, _, OrderedMap.get?_insert_self _ _ _⟩⟩
  · rw [(emptyAt_initialPool hk).1]
    exact Nat.zero_le _
  · simp [initialPool_free]

section Inv

variable {s : MemoryState} (h : Inv s)
include h

theorem Inv.range_le {start stop : Nat} (hrange : s.pool.occupation.ranges.get? start = some stop) :
    stop ≤ s.pool.size / slabSize := by
  rcases (h.consistent.spaced.le start stop hrange).eq_or_lt with heq | hlt
  · exact h.emptyAt_le stop (heq ▸ hrange)
  · have hfree : stop - 1 ∈ s.pool.occupation.free := ⟨start, stop, hrange, by omega, by omega⟩
    have hlast : stop - 1 < s.pool.size / slabSize :=
      (h.tiles.cover (stop - 1)).mpr ⟨_, List.mem_cons_self, hfree⟩
    omega

/-- What a request does: it is refused, or it cuts slabs off the end of a free range. -/
theorem Inv.getAllocation_cases (requestedSize : Nat) :
    (∃ e, exec (getAllocation requestedSize) s.pool = (fail e, s.pool) ∧
      (requestedSize ≤ s.pool.size → ∀ start stop, s.pool.occupation.ranges.get? start = some stop →
        stop < start + slabsFor requestedSize)) ∨
    ∃ start length occupation, exec (getAllocation requestedSize) s.pool =
        (.ok (.ofSlabs start (slabsFor requestedSize), length), ⟨s.pool.size, occupation⟩) ∧
      occupation.Consistent ∧ (∀ k, occupation.EmptyAt k → s.pool.occupation.EmptyAt k) ∧
      start + slabsFor requestedSize ≤ s.pool.size / slabSize ∧
      Set.Ico start (start + slabsFor requestedSize) ⊆ s.pool.occupation.free ∧
      occupation.free = s.pool.occupation.free \ Set.Ico start (start + slabsFor requestedSize) := by
  by_cases hsize : requestedSize ≤ s.pool.size
  · rcases h.consistent.get_cases (slabsFor requestedSize) with
      ⟨hnone, hall⟩ | ⟨start, occupation, hsome, h', hempty, ⟨a, b, hrange, ha, hb⟩, hfree⟩
    · exact Or.inl ⟨_, exec_getAllocation h.bounded hsize hnone, fun _ => hall⟩
    · refine Or.inr ⟨start, _, occupation, exec_getAllocation h.bounded hsize hsome, h', hempty,
        hb.trans (h.range_le hrange), fun i hi => ?_, hfree⟩
      exact ⟨a, b, hrange, ha.trans hi.1, hi.2.trans_le hb⟩
  · exact Or.inl ⟨_, exec_getAllocation_large (Nat.lt_of_not_le hsize), fun hle => absurd hle hsize⟩

theorem Inv.free_disjoint {mem : MmapMem} (hmem : mem ∈ s.live) :
    Disjoint s.pool.occupation.free mem.slabs :=
  (List.pairwise_cons.mp h.tiles.disjoint).1 _ (List.mem_map_of_mem hmem)

theorem Inv.drop_cases {mem : MmapMem} (hmem : mem ∈ s.live) (hclear : Unobstructed s (.drop mem)) :
    ∃ occupation, exec (drop mem) s.pool = (.ok ⟨⟩, ⟨s.pool.size, occupation⟩) ∧
      occupation.Consistent ∧ occupation.free = s.pool.occupation.free ∪ mem.slabs ∧
      (∃ start stop, occupation.ranges.get? start = some stop) ∧
      ∀ k, occupation.EmptyAt k → s.pool.occupation.EmptyAt k ∨
        k = mem.offset / slabSize ∧ mem.size / slabSize = 0 := by
  obtain ⟨start, number, rfl, hinside⟩ := h.inside mem hmem
  simp only [Unobstructed, ofSlabs_offset_div, ofSlabs_size_div] at hclear
  obtain ⟨occupation, hinsert, h', hfree, hrange, hempty⟩ :=
    h.consistent.insert_spec (Nat.le_add_right start number) hclear
  refine ⟨occupation, exec_drop h.bounded hinside hinsert, h', ?_, hrange, fun k hk => ?_⟩
  · rw [slabs_ofSlabs, hfree]
  · rw [ofSlabs_offset_div, ofSlabs_size_div]
    rcases hempty k hk with hold | ⟨hka, hzero⟩
    · exact Or.inl hold
    · exact Or.inr ⟨hka, by omega⟩

theorem Inv.get_whole (hidle : s.live = []) :
    ∃ start occupation, s.pool.occupation.get (s.pool.size / slabSize) 0 = .ok (some start, occupation) := by
  rcases h.consistent.get_cases (s.pool.size / slabSize) with ⟨-, hshort⟩ | ⟨start, occupation, hget, -⟩
  · obtain ⟨start, stop, hrange⟩ := h.idle hidle
    rcases Nat.eq_zero_or_pos (s.pool.size / slabSize) with hzero | hpos
    · have hlt := hshort start stop hrange
      have hle := h.consistent.spaced.le start stop hrange
      omega
    · have hfree : Set.Ico 0 (s.pool.size / slabSize) ⊆ s.pool.occupation.free := by
        intro i hi
        obtain ⟨piece, hpiece, hmem⟩ := (h.tiles.cover i).mp hi.2
        rw [hidle, List.map_nil, List.mem_singleton] at hpiece
        exact hpiece ▸ hmem
      obtain ⟨a, b, hrange', ha, hb⟩ := h.consistent.spaced.of_Ico_subset hpos hfree
      have hlt := hshort a b hrange'
      omega
  · exact ⟨start, occupation, hget⟩

theorem Inv.sound : Sound s where
  disjoint := by
    have hlive := (List.pairwise_cons.mp h.tiles.disjoint).2
    exact (List.pairwise_map.mp hlive).imp fun hdisj _ _ => hdisj
  get_returns requestedSize := by
    rcases h.getAllocation_cases requestedSize with ⟨e, hexec, -⟩ | ⟨start, length, occupation, hexec, -⟩
    · rw [hexec]
      exact returns_fail e
    · rw [hexec]
      exact returns_ok _
  drop_returns mem hmem := by
    obtain ⟨start, number, rfl, hinside⟩ := h.inside mem hmem
    obtain ⟨occupation, hinsert⟩ := h.consistent.insert_returns (Nat.le_add_right start number)
    rw [exec_drop h.bounded hinside hinsert]
    exact returns_ok _
  whole hidle := by
    have hslabs : slabsFor (s.pool.size / slabSize * slabSize) = s.pool.size / slabSize := by
      rw [slabsFor, Nat.add_comm, Nat.add_mul_div_right _ _ slabSize_pos,
        Nat.div_eq_of_lt (Nat.sub_lt slabSize_pos Nat.one_pos), Nat.zero_add]
    obtain ⟨start, occupation, hget⟩ := h.get_whole hidle
    rw [← hslabs] at hget
    exact ⟨_, _, exec_getAllocation h.bounded (Nat.div_mul_le_self _ _) hget⟩

end Inv

theorem inv_step (s : MemoryState) (action : MemoryAction) (t : MemoryState) (h : Inv s)
    (hstep : step s action = some t) (hclear : Unobstructed s action) : Inv t := by
  cases action with
  | getAllocation requestedSize =>
    rw [step] at hstep
    rcases h.getAllocation_cases requestedSize with
      ⟨e, hexec, -⟩ | ⟨start, length, occupation, hexec, h', hempty, hinside, hsub, hfree⟩
    · rw [hexec] at hstep
      cases hstep
      exact h
    · rw [hexec] at hstep
      cases hstep
      refine ⟨h.bounded, h', ?_, fun k hk => h.emptyAt_le k (hempty k hk), ?_, fun hidle => by cases hidle⟩
      · exact List.forall_mem_cons.mpr ⟨⟨start, _, rfl, hinside⟩, h.inside⟩
      · rw [List.map_cons, slabs_ofSlabs, hfree]
        exact h.tiles.split hsub
  | drop mem =>
    rw [step] at hstep
    by_cases hmem : mem ∈ s.live
    · obtain ⟨occupation, hexec, h', hfree, hrange, hempty⟩ := h.drop_cases hmem hclear
      rw [if_pos hmem, hexec] at hstep
      cases hstep
      have hperm := (List.perm_cons_erase hmem).map MmapMem.slabs
      refine ⟨h.bounded, h', fun other hother => h.inside other (List.mem_of_mem_erase hother),
        fun k hk => ?_, ?_, fun _ => hrange⟩
      · rcases hempty k hk with hold | ⟨rfl, -⟩
        · exact h.emptyAt_le k hold
        · obtain ⟨start, number, rfl, hinside⟩ := h.inside mem hmem
          rw [ofSlabs_offset_div]
          exact (Nat.le_add_right start number).trans hinside
      · rw [hfree]
        exact (h.tiles.perm (hperm.cons _)).merge
    · rw [if_neg hmem] at hstep
      cases hstep

/-- A pool of any size stays sound as long as every drop is unobstructed. -/
theorem pool_survives {size : Nat} {pool : MmapMemPool} (hcreate : create size = .ok pool)
    (actions : List MemoryAction) (h : GuardedAlong step Unobstructed ⟨pool, []⟩ actions) :
    SafeAlong step Sound ⟨pool, []⟩ actions :=
  safeAlong_of_guarded inv_step (fun _ => Inv.sound) actions (inv_create hcreate) h

theorem unobstructed_of_positive {size : Nat} {pool : MmapMemPool} (hcreate : create size = .ok pool)
    {actions : List MemoryAction}
    (hpos : ∀ requestedSize, .getAllocation requestedSize ∈ actions → 0 < requestedSize) :
    GuardedAlong step Unobstructed ⟨pool, []⟩ actions := by
  -- no memory in use is empty, nor is a free range, unless the pool has no slabs
  refine guardedAlong_of_invariant (I := fun s => Inv s ∧ (∀ mem ∈ s.live, 0 < mem.size / slabSize) ∧
    ∀ k, s.pool.occupation.EmptyAt k → s.pool.size / slabSize = 0)
    (A := fun action => ∀ requestedSize, action = .getAllocation requestedSize → 0 < requestedSize) ?_
    (fun action hmem requestedSize heq => hpos requestedSize (by rwa [← heq])) ?_
  · rintro s action t ⟨h, hlive, hempty⟩ hpositive hstep
    cases action with
    | getAllocation requestedSize =>
      refine ⟨trivial, inv_step s _ t h hstep trivial, ?_⟩
      rw [step] at hstep
      rcases h.getAllocation_cases requestedSize with
        ⟨e, hexec, -⟩ | ⟨start, length, occupation, hexec, -, hempty', -⟩
      · rw [hexec] at hstep
        cases hstep
        exact ⟨hlive, hempty⟩
      · rw [hexec] at hstep
        cases hstep
        refine ⟨List.forall_mem_cons.mpr ⟨?_, hlive⟩, fun k hk => hempty k (hempty' k hk)⟩
        have hsome := hpositive requestedSize rfl
        rw [ofSlabs_size_div, slabsFor]
        exact Nat.div_pos (by omega) slabSize_pos
    | drop mem =>
      by_cases hmem : mem ∈ s.live
      · have hsome := hlive mem hmem
        have hslabs : 0 < s.pool.size / slabSize := by
          obtain ⟨start, number, rfl, hinside⟩ := h.inside mem hmem
          rw [ofSlabs_size_div] at hsome
          omega
        have hvalid : s.pool.occupation.Valid :=
          h.consistent.valid fun k hk => absurd (hempty k hk) hslabs.ne'
        have hclear : Unobstructed s (.drop mem) := fun start stop hrange =>
          hvalid.apart_of_disjoint (Nat.lt_add_of_pos_right hsome) (h.free_disjoint hmem) hrange
        refine ⟨hclear, inv_step s _ t h hstep hclear, ?_⟩
        obtain ⟨occupation, hexec, -, -, -, hempty'⟩ := h.drop_cases hmem hclear
        rw [step, if_pos hmem, hexec] at hstep
        cases hstep
        refine ⟨fun other hother => hlive other (List.mem_of_mem_erase hother), fun k hk => ?_⟩
        rcases hempty' k hk with hold | ⟨-, hzero⟩
        · exact hempty k hold
        · exact absurd hzero hsome.ne'
      · rw [step, if_neg hmem] at hstep
        cases hstep
  · refine ⟨inv_create hcreate, fun mem hmem => absurd hmem List.not_mem_nil, fun k hk => ?_⟩
    obtain ⟨-, rfl⟩ := create_eq hcreate
    exact (emptyAt_initialPool hk).2

def fourSlabs : MmapMemPool := ⟨4 * slabSize, initialPool 4⟩

theorem fourSlabs_survive : create (4 * slabSize) = .ok fourSlabs ∧
    SafeAlong step Sound ⟨fourSlabs, []⟩
      [.getAllocation 1, .getAllocation slabSize, .drop (.ofSlabs 3 1), .drop (.ofSlabs 2 1)] := by
  have hcreate : create (4 * slabSize) = .ok fourSlabs := rfl
  refine ⟨hcreate, pool_survives hcreate _ (unobstructed_of_positive hcreate fun requestedSize hmem => ?_)⟩
  simp only [List.mem_cons, MemoryAction.getAllocation.injEq, reduceCtorEq, List.not_mem_nil,
    or_false] at hmem
  rcases hmem with rfl | rfl
  · exact Nat.one_pos
  · exact slabSize_pos

/-- The empty range at slab 2 is dropped while slab 2 is in use, and slab 2 after it. The free range
there is forgotten when the empty range is taken again, but not its size. -/
theorem emptied_pool_panics : create (4 * slabSize) = .ok fourSlabs ∧
    ¬ SafeAlong step Sound ⟨fourSlabs, []⟩
      [.getAllocation (2 * slabSize), .getAllocation 0, .getAllocation slabSize, .getAllocation slabSize,
        .drop (.ofSlabs 2 0), .drop (.ofSlabs 2 2), .getAllocation 0] := by
  refine ⟨rfl, fun h => ?_⟩
  have hcrash : (run step ⟨fourSlabs, []⟩
      [.getAllocation (2 * slabSize), .getAllocation 0, .getAllocation slabSize, .getAllocation slabSize,
        .drop (.ofSlabs 2 0), .drop (.ofSlabs 2 2), .getAllocation 0]).map
      (fun s => (exec (getAllocation 1) s.pool).1) = some crash := by decide +kernel
  obtain ⟨s, hrun, hpanic⟩ := Option.map_eq_some_iff.mp hcrash
  have hreturns := (h.last hrun).get_returns 1
  rw [hpanic] at hreturns
  exact not_returns_crash hreturns

end MemoryState

end Dandelion
