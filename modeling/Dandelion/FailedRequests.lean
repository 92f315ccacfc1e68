import Dandelion.MemoryPool

/-!
# Failed requests

A request takes a range out of a pool before the system call that makes the memory ready: `mmap`
for a context, `madvise` for the slabs of a memory pool. If that call fails, the range is in no
hands that could give it back. A failed request leaves the free ranges as they were just when the
system call succeeds or nothing was taken before it.
-/

namespace Stateful

open Outcome

variable {ε σ α β : Type} {m : Stateful ε σ α} {view : σ → β} {s s' : σ}

/-- An error leaves what `view` shows of the state as it was. -/
def KeepsOnError (m : Stateful ε σ α) (view : σ → β) (s : σ) : Prop :=
  ∀ e s', exec m s = (fail e, s') → view s' = view s

theorem keepsOnError_of_ok {a : α} (h : exec m s = (.ok a, s')) : KeepsOnError m view s := by
  intro e t he
  rw [h] at he
  cases he

theorem keepsOnError_of_crash (h : exec m s = (crash, s')) : KeepsOnError m view s := by
  intro e t he
  rw [h] at he
  cases he

theorem keepsOnError_iff_of_fail {e : ε} (h : exec m s = (fail e, s')) :
    KeepsOnError m view s ↔ view s' = view s := by
  constructor
  · exact fun hkeeps => hkeeps e s' h
  · intro hview e' t he
    rw [h] at he
    cases he
    exact hview

end Stateful

namespace Dandelion

open Outcome Stateful Transitions

/-! ## What a request takes -/

namespace RangePool

/-- The search for a range of the size finds a free range, and takes something of it. -/
def Reserves (pool : RangePool Nat) (size : Nat) : Prop :=
  ∃ found start stop, pool.sizes.firstFrom (toLex (size, 0)) = some (toLex (found, start), ()) ∧
    pool.ranges.get? start = some stop ∧ (size < found → 0 < size ∧ size ≤ stop)

/-- `get` of any pool, in order or not. -/
theorem get_reserves (pool : RangePool Nat) (size : Nat) :
    (pool.get size 0 = crash ∧ ¬ pool.Reserves size) ∨
    (pool.get size 0 = .ok (none, pool) ∧ ¬ pool.Reserves size) ∨
    ∃ start pool', pool.get size 0 = .ok (some start, pool') ∧
      (pool'.ranges = pool.ranges ↔ ¬ pool.Reserves size) := by
  cases hfirst : pool.sizes.firstFrom (toLex (size, 0)) with
  | none =>
    refine Or.inr (Or.inl ⟨by rw [get, hfirst]; rfl, ?_⟩)
    rintro ⟨found, start, stop, hfound, -⟩
    rw [hfirst] at hfound
    cases hfound
  | some entry =>
    obtain ⟨⟨found, start⟩, ⟨⟩⟩ := entry
    have hreserves : pool.Reserves size ↔ ∃ stop, pool.ranges.get? start = some stop ∧
        (size < found → 0 < size ∧ size ≤ stop) := by
      constructor
      · rintro ⟨found', start', stop, hfound, hrange⟩
        rw [hfirst] at hfound
        cases hfound
        exact ⟨stop, hrange⟩
      · rintro ⟨stop, hrange⟩
        exact ⟨found, start, stop, hfirst, hrange⟩
    rw [get_found hfirst, hreserves]
    by_cases hlt : size < found
    · rw [if_pos hlt, checkedSub_eq hlt.le, ok_bind]
      cases hrange : pool.ranges.get? start with
      | none =>
        refine Or.inl ⟨rfl, ?_⟩
        rintro ⟨stop, hstop, -⟩
        cases hstop
      | some stop =>
        by_cases hle : size ≤ stop
        · refine Or.inr (Or.inr ⟨stop - size, ⟨pool.ranges.insert start (stop - size),
            (pool.sizes.remove (toLex (found, start))).insert (toLex (found - size, start)) ()⟩, ?_, ?_⟩)
          · simp only [checkedSub_eq hle, ok_bind]
            rfl
          · simp only [OrderedMap.insert_eq_self_iff, hrange, Option.some.injEq, exists_eq_left', hlt,
              hle, true_implies, and_true]
            omega
        · refine Or.inl ⟨?_, ?_⟩
          · simp only [CheckedSub.checkedSub, if_neg hle]
            rfl
          · rintro ⟨stop', hstop, hfits⟩
            cases hstop
            exact hle (hfits hlt).2
    · refine Or.inr (Or.inr ⟨start, ⟨pool.ranges.remove start, pool.sizes.remove (toLex (found, start))⟩,
        if_neg hlt, ?_⟩)
      simp only [OrderedMap.remove_eq_self_iff, hlt, false_implies, and_true,
        Option.eq_none_iff_forall_ne_some, not_exists, ne_eq]

/-- In a pool that is in order, something is taken when some free range is long enough; of no length
only an empty range can be taken. -/
theorem Consistent.reserves_iff {pool : RangePool Nat} (h : pool.Consistent) (size : Nat) :
    pool.Reserves size ↔ ∃ start stop, pool.ranges.get? start = some stop ∧ start + size ≤ stop ∧
      (0 < size ∨ start = stop) := by
  have hfound := h.firstFrom_sizes size
  constructor
  · rintro ⟨found, start, stop, hfirst, hrange, htaken⟩
    rw [hfirst] at hfound
    obtain ⟨hle, stop', hstop, hsize⟩ := hfound
    change size ≤ found at hle
    change pool.ranges.get? start = some stop' at hstop
    change found = stop' - start at hsize
    rw [hrange] at hstop
    cases hstop
    have hspaced := h.spaced.le start stop hrange
    refine ⟨start, stop, hrange, by omega, ?_⟩
    rcases Nat.eq_zero_or_pos size with rfl | hpos
    · exact Or.inr (by omega)
    · exact Or.inl hpos
  · rintro ⟨start, stop, hrange, hle, htaken⟩
    have hsize := (h.sizes (stop - start) start).mpr ⟨stop, hrange, rfl⟩
    cases hfirst : pool.sizes.firstFrom (toLex (size, 0)) with
    | none =>
      rw [hfirst] at hfound
      have hlt := hfound start stop hrange
      omega
    | some entry =>
      obtain ⟨⟨found, first⟩, ⟨⟩⟩ := entry
      rw [hfirst] at hfound
      obtain ⟨hfits, stop', hstop, hlength⟩ := hfound
      change size ≤ found at hfits
      change pool.ranges.get? first = some stop' at hstop
      change found = stop' - first at hlength
      refine ⟨found, first, stop', hfirst, hstop, fun hlt => ⟨?_, by omega⟩⟩
      -- the search begins with the smallest sizes
      rcases htaken with hpos | rfl
      · exact hpos
      · obtain ⟨-, -, hmin⟩ := (OrderedMap.firstFrom_eq_some_iff _ _ _ _).mp hfirst
        have hzero : size = 0 := by omega
        subst hzero
        rw [Nat.sub_self] at hsize
        have hle := hmin _ () hsize (Prod.Lex.le_iff.mpr (Or.inr ⟨rfl, Nat.zero_le _⟩))
        rcases Prod.Lex.le_iff.mp hle with hless | ⟨hsame, -⟩
        · exact absurd hless (Nat.not_lt_zero found)
        · exact absurd hlt hsame.le.not_gt

end RangePool

/-! ## Slabs of a memory pool -/

namespace MmapMemPool

/-- `get_allocation`, where `cleaned` tells whether `madvise` succeeds. The slabs are taken before. -/
def getCleaned (requestedSize : Nat) (cleaned : Bool) :
    Stateful DandelionError MmapMemPool (MmapMem × Nat) := do
  let mem ← getAllocation requestedSize
  if cleaned then pure mem else lift (fail (.domainError .cleaningFailure))

end MmapMemPool

/-! ## Contexts of a domain -/

structure KvmMemoryDomain where
  occupation : RangePool Nat

/-- What a context is given back by: its first page, and the length of its storage. -/
structure KvmReservation where
  rangepoolStart : Nat
  storageLen : Nat
deriving DecidableEq, Repr

namespace KvmMemoryDomain

def init (size : Nat) : DandelionResult KvmMemoryDomain := do
  let upperEnd ← toU32 (size / pageSize)
  let occupation ← (RangePool.new 0 upperEnd).result
  if size < 2 ^ 63 then pure ⟨occupation⟩ else crash

/-- `acquire_context`, where `mapped` tells whether `mmap` succeeds. -/
def acquireContext (size : Nat) (mapped : Bool) :
    Stateful DandelionError KvmMemoryDomain KvmReservation :=
  if (2 ^ 32 - 1) * pageSize < size then lift (fail (.domainError .invalidMemorySize))
  else do
    let sum ← lift (Usize.add .checked size pageSize)
    let numberOfPages ← lift (toU32 ((sum - 1) / pageSize))
    let size := numberOfPages * pageSize
    let domain ← get
    let (page, occupation) ← lift (domain.occupation.get numberOfPages 0).result
    match page with
    | none => lift (fail (.domainError .reachedCapacity))
    | some page => do
      set (⟨occupation⟩ : KvmMemoryDomain)
      -- the length of the mapping is a `NonZeroUsize`
      if size = 0 then lift crash
      else if mapped then pure ⟨page, size⟩
      else lift (fail (.domainError .mapping))

/-- `KvmContext::drop` -/
def drop (context : KvmReservation) : Stateful DandelionError KvmMemoryDomain PUnit := do
  let size ← lift (toU32 (context.storageLen / pageSize))
  let domain ← get
  let stop ← lift (toU32 (context.rangepoolStart + size))
  let occupation ← lift (domain.occupation.insert context.rangepoolStart stop).result
  set (⟨occupation⟩ : KvmMemoryDomain)

end KvmMemoryDomain

namespace MmapMemPool

theorem exec_getCleaned_error {pool pool' : MmapMemPool} {requestedSize : Nat} {stop : Stop DandelionError}
    (h : exec (getAllocation requestedSize) pool = (.error stop, pool')) (cleaned : Bool) :
    exec (getCleaned requestedSize cleaned) pool = (.error stop, pool') :=
  exec_bind_error h _

theorem exec_getCleaned_ok {pool pool' : MmapMemPool} {requestedSize : Nat} {r : MmapMem × Nat}
    (h : exec (getAllocation requestedSize) pool = (.ok r, pool')) (cleaned : Bool) :
    exec (getCleaned requestedSize cleaned) pool =
      (if cleaned then .ok r else fail (.domainError .cleaningFailure), pool') := by
  rw [getCleaned, exec_bind_ok h]
  cases cleaned with
  | true => rfl
  | false => rfl

section Bounded

variable {pool : MmapMemPool} (hbounded : pool.size < (2 ^ 32 - 1) * slabSize)
include hbounded

theorem exec_getAllocation_crash {requestedSize : Nat} (h : requestedSize ≤ pool.size)
    (hget : pool.occupation.get (slabsFor requestedSize) 0 = crash) :
    exec (getAllocation requestedSize) pool = (crash, pool) := by
  have hsize : slabsFor requestedSize < 2 ^ 32 := by
    unfold slabsFor slabSize at *
    omega
  have hadd : requestedSize + (slabSize - 1) < Usize.limit := by
    unfold slabSize Usize.limit at *
    omega
  rw [getAllocation, exec_get_bind, if_neg (Nat.not_lt.mpr h), Usize.add_eq_ok hadd, exec_lift_ok_bind]
  change exec (lift (toU32 (slabsFor requestedSize)) >>= _) pool = _
  rw [toU32_eq hsize, exec_lift_ok_bind, hget]
  rfl

/-- A failed request keeps the free ranges, unless cleaning fails after something was taken. -/
theorem getCleaned_keeps_iff (requestedSize : Nat) (cleaned : Bool) :
    KeepsOnError (getCleaned requestedSize cleaned) (fun pool => pool.occupation.ranges) pool ↔
      ¬ (cleaned = false ∧ requestedSize ≤ pool.size ∧
        pool.occupation.Reserves (slabsFor requestedSize)) := by
  rcases Nat.lt_or_ge pool.size requestedSize with hlarge | hle
  · rw [keepsOnError_iff_of_fail (exec_getCleaned_error (exec_getAllocation_large hlarge) cleaned)]
    exact iff_of_true rfl fun h => absurd h.2.1 (Nat.not_le_of_lt hlarge)
  · rcases pool.occupation.get_reserves (slabsFor requestedSize) with
      ⟨hget, hnot⟩ | ⟨hget, hnot⟩ | ⟨start, occupation, hget, hranges⟩
    · have hexec := exec_getCleaned_error (exec_getAllocation_crash hbounded hle hget) cleaned
      exact iff_of_true (keepsOnError_of_crash hexec) fun h => hnot h.2.2
    · have hexec := exec_getCleaned_error (exec_getAllocation hbounded hle hget) cleaned
      rw [keepsOnError_iff_of_fail hexec]
      exact iff_of_true rfl fun h => hnot h.2.2
    · have hexec := exec_getCleaned_ok (exec_getAllocation hbounded hle hget) cleaned
      cases cleaned with
      | true => exact iff_of_true (keepsOnError_of_ok hexec) fun h => by cases h.1
      | false =>
        rw [keepsOnError_iff_of_fail hexec]
        simp only [hranges, hle, true_and]

end Bounded

end MmapMemPool

namespace KvmMemoryDomain

/-- The number of pages that a context is rounded up to. -/
def pagesFor (size : Nat) : Nat := (size + pageSize - 1) / pageSize

theorem pagesFor_mul_eq_zero_iff (size : Nat) : pagesFor size * pageSize = 0 ↔ size = 0 := by
  unfold pagesFor pageSize
  omega

theorem exec_acquireContext (domain : KvmMemoryDomain) {size : Nat} (mapped : Bool)
    (h : size ≤ (2 ^ 32 - 1) * pageSize) :
    exec (acquireContext size mapped) domain =
      match domain.occupation.get (pagesFor size) 0 with
      | .ok (none, _) => (fail (.domainError .reachedCapacity), domain)
      | .ok (some page, occupation) =>
        (if size = 0 then crash
          else if mapped then .ok ⟨page, pagesFor size * pageSize⟩
          else fail (.domainError .mapping), ⟨occupation⟩)
      | .error (.error e) => nomatch e
      | .error .panic => (crash, domain)
      | .error .diverge => (.error .diverge, domain) := by
  have hpages : pagesFor size < 2 ^ 32 := by
    unfold pagesFor pageSize at *
    omega
  have hsum : size + pageSize < Usize.limit := by
    unfold pageSize Usize.limit at *
    omega
  rw [acquireContext, if_neg (Nat.not_lt.mpr h), Usize.add_eq_ok hsum, exec_lift_ok_bind]
  change exec (lift (toU32 (pagesFor size)) >>= _) domain = _
  rw [toU32_eq hpages, exec_lift_ok_bind, exec_get_bind]
  rcases domain.occupation.get (pagesFor size) 0 with (e | _ | _) | ⟨_ | page, occupation⟩
  · cases e
  · rfl
  · rfl
  · rfl
  · change exec (lift (.ok (some page, occupation)) >>= _) domain = _
    rw [exec_lift_ok_bind]
    simp only [exec_set_bind, pagesFor_mul_eq_zero_iff]
    split
    · rfl
    · split
      · rfl
      · rfl

theorem exec_acquireContext_large {domain : KvmMemoryDomain} {size : Nat} (mapped : Bool)
    (h : (2 ^ 32 - 1) * pageSize < size) :
    exec (acquireContext size mapped) domain = (fail (.domainError .invalidMemorySize), domain) := by
  rw [acquireContext, if_pos h]
  rfl

/-- A failed request keeps the free ranges, unless mapping fails after something was taken. -/
theorem acquireContext_keeps_iff (domain : KvmMemoryDomain) (size : Nat) (mapped : Bool) :
    KeepsOnError (acquireContext size mapped) (fun domain => domain.occupation.ranges) domain ↔
      ¬ (mapped = false ∧ 0 < size ∧ size ≤ (2 ^ 32 - 1) * pageSize ∧
        domain.occupation.Reserves (pagesFor size)) := by
  rcases Nat.lt_or_ge ((2 ^ 32 - 1) * pageSize) size with hlarge | hle
  · rw [keepsOnError_iff_of_fail (exec_acquireContext_large mapped hlarge)]
    exact iff_of_true rfl fun h => absurd h.2.2.1 (Nat.not_le_of_lt hlarge)
  · have hexec := exec_acquireContext domain mapped hle
    rcases domain.occupation.get_reserves (pagesFor size) with
      ⟨hget, hnot⟩ | ⟨hget, hnot⟩ | ⟨start, occupation, hget, hranges⟩
    · rw [hget] at hexec
      exact iff_of_true (keepsOnError_of_crash hexec) fun h => hnot h.2.2.2
    · rw [hget] at hexec
      rw [keepsOnError_iff_of_fail hexec]
      exact iff_of_true rfl fun h => hnot h.2.2.2
    · rw [hget] at hexec
      rcases Nat.eq_zero_or_pos size with rfl | hpos
      · exact iff_of_true (keepsOnError_of_crash hexec) fun h => absurd h.2.1 (lt_irrefl 0)
      · simp only [if_neg hpos.ne'] at hexec
        cases mapped with
        | true => exact iff_of_true (keepsOnError_of_ok hexec) fun h => by cases h.1
        | false =>
          rw [keepsOnError_iff_of_fail hexec]
          simp only [hranges, hpos, hle, true_and]

end KvmMemoryDomain

/-! ## Runs -/

inductive RequestAction where
  | getAllocation (requestedSize : Nat) (cleaned : Bool)
  | drop (mem : MmapMem)
deriving DecidableEq, Repr

namespace MemoryState

open MmapMemPool

/-- The steps of a memory pool whose memory may fail to be cleaned. -/
def requestStep (s : MemoryState) : RequestAction → Option MemoryState
  | .getAllocation requestedSize cleaned =>
    match exec (getCleaned requestedSize cleaned) s.pool with
    | (.ok (mem, _), pool) => some ⟨pool, mem :: s.live⟩
    | (.error (.error _), pool) => some ⟨pool, s.live⟩
    | _ => none
  | .drop mem => step s (.drop mem)

/-- Cleaning does not fail after something was taken; and no free range is in the way of a drop. -/
def Returned (s : MemoryState) : RequestAction → Prop
  | .getAllocation requestedSize cleaned => ¬ (cleaned = false ∧ requestedSize ≤ s.pool.size ∧
      s.pool.occupation.Reserves (slabsFor requestedSize))
  | .drop mem => Unobstructed s (.drop mem)

/-- When nothing is in use, a request for all slabs finds its range. -/
def WholeFound (s : MemoryState) : Prop :=
  s.live = [] → ∃ start occupation,
    s.pool.occupation.get (s.pool.size / slabSize) 0 = .ok (some start, occupation)

theorem inv_requestStep (s : MemoryState) (action : RequestAction) (t : MemoryState) (h : Inv s)
    (hstep : requestStep s action = some t) (hguard : Returned s action) : Inv t := by
  cases action with
  | drop mem => exact inv_step s (.drop mem) t h hstep hguard
  | getAllocation requestedSize cleaned =>
    rw [requestStep] at hstep
    rcases h.getAllocation_cases requestedSize with
      ⟨e, hexec, -⟩ | ⟨start, length, occupation, hexec, h', hempty, -, -, -⟩
    · rw [exec_getCleaned_error hexec] at hstep
      cases hstep
      exact h
    · cases cleaned with
      | true =>
        refine inv_step s (.getAllocation requestedSize) t h ?_ trivial
        rw [exec_getCleaned_ok hexec] at hstep
        rw [step, hexec]
        exact hstep
      | false =>
        -- the request took nothing, only the search was made
        have hkept := (getCleaned_keeps_iff h.bounded requestedSize false).mpr hguard
        have hfailed := exec_getCleaned_ok hexec false
        have hranges : occupation.ranges = s.pool.occupation.ranges := hkept _ _ hfailed
        have hfree : occupation.free = s.pool.occupation.free := by
          rw [RangePool.free, hranges]
          rfl
        rw [hfailed] at hstep
        cases hstep
        refine ⟨h.bounded, h', h.inside, fun k hk => h.emptyAt_le k (hempty k hk), ?_, fun hidle => ?_⟩
        · rw [hfree]
          exact h.tiles
        · rw [hranges]
          exact h.idle hidle

theorem whole_survives {size : Nat} {pool : MmapMemPool} (hcreate : create size = .ok pool)
    (actions : List RequestAction) (h : GuardedAlong requestStep Returned ⟨pool, []⟩ actions) :
    SafeAlong requestStep WholeFound ⟨pool, []⟩ actions :=
  safeAlong_of_guarded inv_requestStep (fun _ hinv hidle => hinv.get_whole hidle) actions
    (inv_create hcreate) h

end MemoryState

/-- A domain and the contexts that were acquired from it. -/
structure DomainState where
  domain : KvmMemoryDomain
  live : List KvmReservation

inductive DomainAction where
  | acquireContext (size : Nat) (mapped : Bool)
  | drop (context : KvmReservation)
deriving DecidableEq, Repr

namespace DomainState

open KvmMemoryDomain

def step (s : DomainState) : DomainAction → Option DomainState
  | .acquireContext size mapped =>
    match exec (acquireContext size mapped) s.domain with
    | (.ok context, domain) => some ⟨domain, context :: s.live⟩
    | (.error (.error _), domain) => some ⟨domain, s.live⟩
    | _ => none
  | .drop context =>
    if context ∈ s.live then
      match exec (drop context) s.domain with
      | (.ok _, domain) => some ⟨domain, s.live.erase context⟩
      | _ => none
    else none

/-- Mapping does not fail after something was taken. -/
def Returned (s : DomainState) : DomainAction → Prop
  | .acquireContext size mapped => ¬ (mapped = false ∧ 0 < size ∧ size ≤ (2 ^ 32 - 1) * pageSize ∧
      s.domain.occupation.Reserves (pagesFor size))
  | .drop _ => True

/-- When no context is left, a request for `pages` pages finds its range. -/
def WholeFound (pages : Nat) (s : DomainState) : Prop :=
  s.live = [] → ∃ start occupation, s.domain.occupation.get pages 0 = .ok (some start, occupation)

end DomainState

/-- The pages of a context, as start and end. -/
def KvmReservation.pages (context : KvmReservation) : Nat × Nat :=
  (context.rangepoolStart, context.rangepoolStart + context.storageLen / pageSize)

namespace DomainState

open KvmMemoryDomain

/-- The contexts hold what a run of the range pool has handed out. -/
def Inv (pages : Nat) (s : DomainState) : Prop :=
  pages < 2 ^ 32 ∧ ∃ held, PoolReachable pages ⟨s.domain.occupation, held⟩ ∧
    held.Perm (s.live.map KvmReservation.pages)

theorem reachable_consistent {n : Nat} {s : PoolState} (h : PoolReachable n s) : s.pool.Consistent := by
  rcases Nat.eq_zero_or_pos n with rfl | hn
  · rw [pool_zero h]
    exact initialPool_consistent 0
  · exact (pool_invariant hn h).1.consistent

theorem init_eq {size : Nat} {domain : KvmMemoryDomain} (h : init size = .ok domain) :
    size / pageSize < 2 ^ 32 ∧ domain = ⟨initialPool (size / pageSize)⟩ := by
  by_cases hpages : size / pageSize < 2 ^ 32
  · rw [init, toU32_eq hpages, ok_bind, new_eq] at h
    change (if size < 2 ^ 63 then _ else _) = _ at h
    split at h
    · cases h
      exact ⟨hpages, rfl⟩
    · cases h
  · rw [init, toU32, if_neg hpages] at h
    cases h

theorem inv_init {size : Nat} {domain : KvmMemoryDomain} (h : init size = .ok domain) :
    Inv (size / pageSize) ⟨domain, []⟩ := by
  obtain ⟨hpages, rfl⟩ := init_eq h
  exact ⟨hpages, [], .start (new_eq _), .nil⟩

theorem inv_acquireContext {pages : Nat} {s t : DomainState} {size : Nat} {mapped : Bool}
    (h : Inv pages s) (hstep : step s (.acquireContext size mapped) = some t)
    (hguard : Returned s (.acquireContext size mapped)) : Inv pages t := by
  obtain ⟨hpages, held, hreach, hperm⟩ := h
  rw [step] at hstep
  rcases Nat.lt_or_ge ((2 ^ 32 - 1) * pageSize) size with hlarge | hle
  · rw [exec_acquireContext_large mapped hlarge] at hstep
    cases hstep
    exact ⟨hpages, held, hreach, hperm⟩
  · rw [exec_acquireContext s.domain mapped hle] at hstep
    rcases (reachable_consistent hreach).get_cases (pagesFor size) with
      ⟨hget, -⟩ | ⟨start, occupation, hget, -, -, ⟨first, stop, hrange, hfirst, hstop⟩, -⟩
    · simp only [hget] at hstep
      cases hstep
      exact ⟨hpages, held, hreach, hperm⟩
    · simp only [hget] at hstep
      rcases Nat.eq_zero_or_pos size with rfl | hpos
      · cases hstep
      · rw [if_neg hpos.ne'] at hstep
        have hone : 1 ≤ pagesFor size := by
          unfold pagesFor pageSize
          omega
        cases mapped with
        | true =>
          cases hstep
          refine ⟨hpages, _, hreach.get hone hget, ?_⟩
          rw [List.map_cons, KvmReservation.pages, Nat.mul_div_cancel _ pageSize_pos]
          exact hperm.cons _
        | false =>
          have hreserves : s.domain.occupation.Reserves (pagesFor size) :=
            ((reachable_consistent hreach).reserves_iff _).mpr
              ⟨first, stop, hrange, by omega, Or.inl hone⟩
          exact absurd ⟨rfl, hpos, hle, hreserves⟩ hguard

theorem inv_drop {pages : Nat} {s t : DomainState} {context : KvmReservation} (h : Inv pages s)
    (hstep : step s (.drop context) = some t) : Inv pages t := by
  obtain ⟨hpages, held, hreach, hperm⟩ := h
  by_cases hlive : context ∈ s.live
  · have hheld : context.pages ∈ held := hperm.mem_iff.mpr (List.mem_map_of_mem hlive)
    have hpos : 0 < pages := by
      refine Nat.pos_of_ne_zero fun hzero => ?_
      subst hzero
      have hempty := congrArg PoolState.held (pool_zero hreach)
      change held = [] at hempty
      rw [hempty] at hheld
      cases hheld
    obtain ⟨hvalid, hpart⟩ := pool_invariant hpos hreach
    have hsome : context.rangepoolStart < context.rangepoolStart + context.storageLen / pageSize :=
      hpart.held_pos _ hheld
    have hlast : context.rangepoolStart + context.storageLen / pageSize - 1 < pages :=
      (hpart.cover _).mpr (Or.inr ⟨_, hheld, Nat.le_sub_one_of_lt hsome, Nat.sub_one_lt_of_lt hsome⟩)
    obtain ⟨occupation, hinsert, -⟩ := hvalid.insert_spec hsome (hpart.free_held _ hheld)
    rw [step, if_pos hlive, drop, toU32_eq (by omega), exec_lift_ok_bind, exec_get_bind,
      toU32_eq (by omega), exec_lift_ok_bind, hinsert] at hstep
    cases hstep
    refine ⟨hpages, _, hreach.insert hheld hinsert, ?_⟩
    have herase := (List.perm_cons_erase hheld).symm.trans
      (hperm.trans ((List.perm_cons_erase hlive).map KvmReservation.pages))
    exact herase.cons_inv
  · rw [step, if_neg hlive] at hstep
    cases hstep

theorem inv_step {pages : Nat} (s : DomainState) (action : DomainAction) (t : DomainState)
    (h : Inv pages s) (hstep : step s action = some t) (hguard : Returned s action) : Inv pages t := by
  cases action with
  | acquireContext size mapped => exact inv_acquireContext h hstep hguard
  | drop context => exact inv_drop h hstep

theorem Inv.get_whole {pages : Nat} {s : DomainState} (h : Inv pages s) : WholeFound pages s := by
  intro hidle
  obtain ⟨-, held, hreach, hperm⟩ := h
  rw [hidle] at hperm
  cases hperm.eq_nil
  rcases Nat.eq_zero_or_pos pages with rfl | hpos
  · have hpool := congrArg PoolState.pool (pool_zero hreach)
    change s.domain.occupation = initialPool 0 at hpool
    rw [hpool]
    exact ⟨0, _, rfl⟩
  · obtain ⟨hvalid, hpart⟩ := pool_invariant hpos hreach
    rcases hvalid.get_spec hpos with ⟨-, hno⟩ | ⟨start, occupation, hget, -⟩
    · refine absurd (fun i hi => ?_) (hno 0)
      rw [Nat.zero_add] at hi
      have hcover := (hpart.cover i).mp hi.2
      simpa using hcover
    · exact ⟨start, occupation, hget⟩

theorem whole_survives {size : Nat} {domain : KvmMemoryDomain} (hinit : init size = .ok domain)
    (actions : List DomainAction) (h : GuardedAlong step Returned ⟨domain, []⟩ actions) :
    SafeAlong step (WholeFound (size / pageSize)) ⟨domain, []⟩ actions :=
  safeAlong_of_guarded inv_step (fun _ => Inv.get_whole) actions (inv_init hinit) h

end DomainState

/-- When a failed request keeps the free ranges, and that then the whole pool can be had again after
any run that left nothing in use. -/
theorem failed_requests_keep (requestedSize size : Nat) (succeeds : Bool) :
    (∀ pool : MmapMemPool, pool.size < (2 ^ 32 - 1) * slabSize →
      (KeepsOnError (MmapMemPool.getCleaned requestedSize succeeds)
          (fun pool => pool.occupation.ranges) pool ↔
        ¬ (succeeds = false ∧ requestedSize ≤ pool.size ∧
          pool.occupation.Reserves (MmapMemPool.slabsFor requestedSize)))) ∧
    (∀ domain : KvmMemoryDomain,
      KeepsOnError (KvmMemoryDomain.acquireContext requestedSize succeeds)
          (fun domain => domain.occupation.ranges) domain ↔
        ¬ (succeeds = false ∧ 0 < requestedSize ∧ requestedSize ≤ (2 ^ 32 - 1) * pageSize ∧
          domain.occupation.Reserves (KvmMemoryDomain.pagesFor requestedSize))) ∧
    (∀ pool : RangePool Nat, pool.Consistent → (pool.Reserves requestedSize ↔
      ∃ start stop, pool.ranges.get? start = some stop ∧ start + requestedSize ≤ stop ∧
        (0 < requestedSize ∨ start = stop))) ∧
    (∀ pool, MmapMemPool.create size = .ok pool → ∀ actions,
      GuardedAlong MemoryState.requestStep MemoryState.Returned ⟨pool, []⟩ actions →
        SafeAlong MemoryState.requestStep MemoryState.WholeFound ⟨pool, []⟩ actions) ∧
    ∀ domain, KvmMemoryDomain.init size = .ok domain → ∀ actions,
      GuardedAlong DomainState.step DomainState.Returned ⟨domain, []⟩ actions →
        SafeAlong DomainState.step (DomainState.WholeFound (size / pageSize)) ⟨domain, []⟩ actions := by
  refine ⟨fun pool hbounded => ?_, fun domain => ?_, fun pool hpool => hpool.reserves_iff requestedSize,
    fun pool hcreate actions hguarded => ?_, fun domain hinit actions hguarded => ?_⟩
  · exact MmapMemPool.getCleaned_keeps_iff hbounded requestedSize succeeds
  · exact KvmMemoryDomain.acquireContext_keeps_iff domain requestedSize succeeds
  · exact MemoryState.whole_survives hcreate actions hguarded
  · exact DomainState.whole_survives hinit actions hguarded

/-- A domain of ten pages, where a context comes and goes and a request is too large. -/
theorem tenPages_kept :
    SafeAlong DomainState.step (DomainState.WholeFound 10) ⟨⟨initialPool 10⟩, []⟩
      [.acquireContext 1 true, .acquireContext (2 ^ 32 * pageSize) false, .drop ⟨9, pageSize⟩] := by
  have hinit : KvmMemoryDomain.init (10 * pageSize) = .ok ⟨initialPool 10⟩ := rfl
  refine (failed_requests_keep 0 (10 * pageSize) true).2.2.2.2 _ hinit _
    (guardedAlong_of_forall (fun action hmem s => ?_) _)
  simp only [List.mem_cons, List.not_mem_nil, or_false] at hmem
  rcases hmem with rfl | rfl | rfl
  · exact fun h => by cases h.1
  · exact fun h => absurd h.2.2.1 (by decide)
  · trivial

/-- A pool of one slab that cannot be cleaned, and a domain of one page that cannot be mapped: the
request fails, and so does every later one. -/
theorem failed_request_loses_range :
    (MmapMemPool.create slabSize = .ok ⟨slabSize, initialPool 1⟩ ∧
      ¬ KeepsOnError (MmapMemPool.getCleaned 1 false) (fun pool => pool.occupation.ranges)
        ⟨slabSize, initialPool 1⟩ ∧
      ¬ SafeAlong MemoryState.requestStep MemoryState.WholeFound ⟨⟨slabSize, initialPool 1⟩, []⟩
        [.getAllocation 1 false]) ∧
    KvmMemoryDomain.init pageSize = .ok ⟨initialPool 1⟩ ∧
      ¬ KeepsOnError (KvmMemoryDomain.acquireContext 1 false) (fun domain => domain.occupation.ranges)
        ⟨initialPool 1⟩ ∧
      ¬ SafeAlong DomainState.step (DomainState.WholeFound 1) ⟨⟨initialPool 1⟩, []⟩
        [.acquireContext 1 false] := by
  have hreserves : (initialPool 1).Reserves 1 :=
    ((initialPool_consistent 1).reserves_iff 1).mpr ⟨0, 1, rfl, by decide, Or.inl Nat.one_pos⟩
  have hempty : ∀ start occupation, (⟨(initialPool 1).ranges.remove 0,
      (initialPool 1).sizes.remove (toLex (1, 0))⟩ : RangePool Nat).get 1 0 ≠
        .ok (some start, occupation) := by
    intro start occupation
    exact fun h => by cases h
  refine ⟨⟨rfl, fun h => ?_, fun h => ?_⟩, rfl, fun h => ?_, fun h => ?_⟩
  · refine (MmapMemPool.getCleaned_keeps_iff (by decide) 1 false).mp h ⟨rfl, by decide, ?_⟩
    exact hreserves
  · obtain ⟨start, occupation, hget⟩ := h.2 _ rfl rfl
    exact hempty start occupation hget
  · refine (KvmMemoryDomain.acquireContext_keeps_iff _ 1 false).mp h ⟨rfl, Nat.one_pos, by decide, ?_⟩
    exact hreserves
  · obtain ⟨start, occupation, hget⟩ := h.2 _ rfl rfl
    exact hempty start occupation hget

end Dandelion
