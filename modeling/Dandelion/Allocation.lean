import Dandelion.FreeSpace
import Mathlib.Order.Bounds.Basic

/-!
# Allocation from the gaps of a context

The occupied regions of a context begin at its first byte and end with its last one, so that
every free range lies in a gap between two neighbours. The search looks at the first suitable
place of each gap, and therefore misses no range that is free.
-/

namespace Dandelion

open Outcome

/-! ## What an insertion leaves behind -/

def lastEnd (occupation : List Position) : Option Nat :=
  occupation.getLast?.map fun p => p.offset + p.size

theorem lastEnd_append_cons (front : List Position) (p : Position) (back : List Position) :
    lastEnd (front ++ p :: back) = lastEnd (p :: back) := by
  rw [lastEnd, lastEnd, List.getLast?_append, List.getLast?_cons, Option.some_or]

theorem lastEnd_cons_cons (p q : Position) (back : List Position) :
    lastEnd (p :: q :: back) = lastEnd (q :: back) := lastEnd_append_cons [p] q back

theorem absorb_ok {current : Position} {rest merged : List Position}
    (hok : absorb .checked current rest = .ok merged) :
    ∃ taken tail size, rest = taken ++ tail ∧ merged = ⟨current.offset, size⟩ :: tail
      ∧ lastEnd (current :: taken) = some (current.offset + size)
      ∧ ∀ q ∈ tail.head?, current.offset + size < q.offset := by
  induction rest generalizing current with
  | nil =>
    cases hok
    exact ⟨[], [], current.size, rfl, rfl, rfl, fun q hq => by cases hq⟩
  | cons next rest ih =>
    rw [absorb] at hok
    obtain ⟨currentEnd, hadd, hok⟩ := (bind_eq_ok_iff _ _ _).mp hok
    obtain ⟨-, rfl⟩ := Usize.add_eq_ok_iff.mp hadd
    by_cases hmeet : next.offset ≤ current.offset + current.size
    · rw [if_pos hmeet] at hok
      obtain ⟨gap, hsub, hok⟩ := (bind_eq_ok_iff _ _ _).mp hok
      have hgap := Usize.sub_eq_ok_iff.mp hsub
      obtain ⟨grown, hadd, hok⟩ := (bind_eq_ok_iff _ _ _).mp hok
      obtain ⟨-, rfl⟩ := Usize.add_eq_ok_iff.mp hadd
      obtain ⟨taken, tail, size, hrest, hmerged, hlast, hhead⟩ := ih hok
      refine ⟨next :: taken, tail, size, by rw [hrest]; rfl, hmerged, ?_, hhead⟩
      rw [lastEnd_cons_cons, ← hlast]
      cases taken with
      | nil =>
        change some (next.offset + next.size) = some (current.offset + (gap + next.size))
        rw [hgap]
        congr 1
        omega
      | cons p taken => rw [lastEnd_cons_cons, lastEnd_cons_cons]
    · rw [if_neg hmeet] at hok
      cases hok
      refine ⟨[], next :: rest, current.size, rfl, rfl, rfl, fun q hq => ?_⟩
      cases hq
      omega

theorem insertOccupation_ok {front rest result : List Position} {lower : Position} {offset size : Nat}
    (hok : insertOccupation .checked (front ++ lower :: rest) front.length offset size = .ok result) :
    ∃ merged, (lower.offset + lower.size = offset
        ∧ absorb .checked ⟨lower.offset, offset - lower.offset + size⟩ rest = .ok merged
        ∧ result = front ++ merged)
      ∨ (lower.offset + lower.size ≠ offset ∧ absorb .checked ⟨offset, size⟩ rest = .ok merged
        ∧ result = front ++ lower :: merged) := by
  rw [insertOccupation_split] at hok
  obtain ⟨lowerEnd, hadd, hok⟩ := (bind_eq_ok_iff _ _ _).mp hok
  obtain ⟨-, rfl⟩ := Usize.add_eq_ok_iff.mp hadd
  by_cases hseam : lower.offset + lower.size = offset
  · rw [if_pos hseam] at hok
    obtain ⟨before, hsub, hok⟩ := (bind_eq_ok_iff _ _ _).mp hok
    have hbefore := Usize.sub_eq_ok_iff.mp hsub
    obtain ⟨newSize, hadd, hok⟩ := (bind_eq_ok_iff _ _ _).mp hok
    obtain ⟨-, rfl⟩ := Usize.add_eq_ok_iff.mp hadd
    obtain ⟨merged, habsorb, hok⟩ := (bind_eq_ok_iff _ _ _).mp hok
    cases hok
    obtain rfl : before = offset - lower.offset := by omega
    exact ⟨merged, Or.inl ⟨hseam, habsorb, rfl⟩⟩
  · rw [if_neg hseam] at hok
    obtain ⟨merged, habsorb, hok⟩ := (bind_eq_ok_iff _ _ _).mp hok
    cases hok
    exact ⟨merged, Or.inr ⟨hseam, habsorb, rfl⟩⟩

/-- The regions of a context from its first byte to its end, with gaps between them. -/
structure Spanning (contextSize : Nat) (occupation : List Position) : Prop where
  apart : Apart contextSize occupation
  gaps : 0 < contextSize → occupation.Pairwise fun p q => p.offset + p.size < q.offset
  first : occupation.head?.map Position.offset = some 0
  last : lastEnd occupation = some contextSize

theorem spanning_cleared (contextSize : Nat) :
    Spanning contextSize (clearedOccupation contextSize) := by
  refine ⟨⟨?_, ?_⟩, fun hpos => ?_, rfl, rfl⟩
  · simp [clearedOccupation]
  · simp [clearedOccupation]
  · simpa [clearedOccupation] using hpos

theorem gaps_cons_of_head {p : Position} {tail : List Position}
    (htail : tail.Pairwise fun p q => p.offset + p.size < q.offset)
    (hhead : ∀ q ∈ tail.head?, p.offset + p.size < q.offset) :
    (p :: tail).Pairwise fun p q => p.offset + p.size < q.offset := by
  refine List.pairwise_cons.mpr ⟨fun q hq => ?_, htail⟩
  cases tail with
  | nil => cases hq
  | cons r tail =>
    have hr := hhead r rfl
    rcases List.mem_cons.mp hq with rfl | hq
    · exact hr
    · have := (List.pairwise_cons.mp htail).1 q hq
      omega

section Insert

variable {front rest result : List Position} {lower : Position} {offset size : Nat}
  (hok : insertOccupation .checked (front ++ lower :: rest) front.length offset size = .ok result)
include hok

theorem insertOccupation_first :
    result.head?.map Position.offset = (front ++ lower :: rest).head?.map Position.offset := by
  obtain ⟨absorbed, ⟨-, habsorb, rfl⟩ | ⟨-, habsorb, rfl⟩⟩ := insertOccupation_ok hok
  · obtain ⟨taken, tail, newSize, -, rfl, -, -⟩ := absorb_ok habsorb
    cases front with
    | nil => rfl
    | cons p front => rfl
  · cases front with
    | nil => rfl
    | cons p front => rfl

theorem insertOccupation_lastEnd (hrest : rest ≠ []) :
    lastEnd result = lastEnd (front ++ lower :: rest) := by
  have habsorbed : ∀ (current : Position) absorbed, absorb .checked current rest = .ok absorbed →
      lastEnd absorbed = lastEnd rest ∧ absorbed ≠ [] := by
    intro current absorbed habsorb
    obtain ⟨taken, tail, newSize, rfl, rfl, hlast, -⟩ := absorb_ok habsorb
    refine ⟨?_, List.cons_ne_nil _ _⟩
    cases tail with
    | cons q tail => rw [lastEnd_cons_cons, lastEnd_append_cons]
    | nil =>
      rw [List.append_nil] at hrest ⊢
      obtain ⟨q, taken, rfl⟩ := List.exists_cons_of_ne_nil hrest
      rw [← lastEnd_cons_cons current q, hlast]
      rfl
  obtain ⟨q, back, rfl⟩ := List.exists_cons_of_ne_nil hrest
  obtain ⟨absorbed, ⟨-, habsorb, rfl⟩ | ⟨-, habsorb, rfl⟩⟩ := insertOccupation_ok hok
  · obtain ⟨hlast, hne⟩ := habsorbed _ _ habsorb
    obtain ⟨p, absorbed, rfl⟩ := List.exists_cons_of_ne_nil hne
    rw [lastEnd_append_cons, lastEnd_append_cons, lastEnd_cons_cons, hlast]
  · obtain ⟨hlast, hne⟩ := habsorbed _ _ habsorb
    obtain ⟨p, absorbed, rfl⟩ := List.exists_cons_of_ne_nil hne
    rw [lastEnd_append_cons, lastEnd_append_cons, lastEnd_cons_cons, lastEnd_cons_cons, hlast]

theorem insertOccupation_gaps (hlower : lower.offset + lower.size ≤ offset)
    (h : (front ++ lower :: rest).Pairwise fun p q => p.offset + p.size < q.offset) :
    result.Pairwise fun p q => p.offset + p.size < q.offset := by
  obtain ⟨hfront, hback, hcross⟩ := List.pairwise_append.mp h
  obtain ⟨hfirst, hback⟩ := List.pairwise_cons.mp hback
  obtain ⟨absorbed, ⟨hseam, habsorb, rfl⟩ | ⟨hseam, habsorb, rfl⟩⟩ := insertOccupation_ok hok
  · obtain ⟨taken, tail, newSize, rfl, rfl, -, hhead⟩ := absorb_ok habsorb
    have htail := (List.pairwise_append.mp hback).2.1
    refine List.pairwise_append.mpr ⟨hfront, gaps_cons_of_head htail hhead, fun p hp q hq => ?_⟩
    rcases List.mem_cons.mp hq with rfl | hq
    · exact hcross p hp lower List.mem_cons_self
    · exact hcross p hp q (List.mem_cons_of_mem _ (List.mem_append_right _ hq))
  · obtain ⟨taken, tail, newSize, rfl, rfl, -, hhead⟩ := absorb_ok habsorb
    have htail := (List.pairwise_append.mp hback).2.1
    have hnew : (⟨offset, newSize⟩ :: tail : List Position).Pairwise _ := gaps_cons_of_head htail hhead
    refine List.pairwise_append.mpr ⟨hfront, List.pairwise_cons.mpr ⟨fun q hq => ?_, hnew⟩,
      fun p hp q hq => ?_⟩
    · rcases List.mem_cons.mp hq with rfl | hq
      · exact lt_of_le_of_ne hlower hseam
      · exact hfirst q (List.mem_append_right _ hq)
    · rcases List.mem_cons.mp hq with rfl | hq
      · exact hcross p hp q List.mem_cons_self
      have hp' := hcross p hp lower List.mem_cons_self
      rcases List.mem_cons.mp hq with rfl | hq
      · dsimp only
        omega
      · exact hcross p hp q (List.mem_cons_of_mem _ (List.mem_append_right _ hq))

theorem insertOccupation_empty (hsize : 0 < size) (hlower : lower.offset + lower.size ≤ offset)
    (hrest : ∀ q ∈ rest, offset + size ≤ q.offset) {p : Position} (hp : p ∈ result)
    (hempty : p.size = 0) : p ∈ front ++ lower :: rest := by
  have habsorbed : ∀ (current : Position) absorbed, 0 < current.size →
      (∀ q ∈ rest, current.offset + current.size ≤ q.offset) →
      absorb .checked current rest = .ok absorbed → p ∈ absorbed → p ∈ rest := by
    intro current absorbed hpos hbehind habsorb hp
    obtain ⟨taken, tail, newSize, rfl, rfl, hlast, -⟩ := absorb_ok habsorb
    rcases List.mem_cons.mp hp with rfl | hp
    · obtain ⟨r, hr, hend⟩ := Option.map_eq_some_iff.mp hlast
      have hle : current.offset + current.size ≤ r.offset + r.size := by
        rcases List.mem_cons.mp (List.mem_of_getLast? hr) with rfl | hr
        · exact le_refl _
        · have := hbehind r (List.mem_append_left _ hr)
          omega
      dsimp only at hempty
      omega
    · exact List.mem_append_right _ hp
  obtain ⟨absorbed, ⟨hseam, habsorb, rfl⟩ | ⟨hseam, habsorb, rfl⟩⟩ := insertOccupation_ok hok
  · rcases List.mem_append.mp hp with hp | hp
    · exact List.mem_append_left _ hp
    · refine List.mem_append_right _ (List.mem_cons_of_mem _ (habsorbed _ _ ?_ ?_ habsorb hp))
      · dsimp only
        omega
      · intro q hq
        have := hrest q hq
        dsimp only
        omega
  · rcases List.mem_append.mp hp with hp | hp
    · exact List.mem_append_left _ hp
    rcases List.mem_cons.mp hp with rfl | hp
    · exact List.mem_append_right _ List.mem_cons_self
    · exact List.mem_append_right _
        (List.mem_cons_of_mem _ (habsorbed _ _ hsize hrest habsorb hp))

end Insert

theorem insertOccupation_spanning {contextSize : Nat} (hsize : contextSize < Usize.limit)
    {front back : List Position} {lower upper : Position} {offset size : Nat}
    (h : Spanning contextSize (front ++ lower :: upper :: back))
    (hlower : lower.offset + lower.size ≤ offset) (hupper : offset + size ≤ upper.offset) :
    ∃ merged, insertOccupation .checked (front ++ lower :: upper :: back) front.length offset size
        = .ok merged
      ∧ Spanning contextSize merged
      ∧ (∀ o, Occupied merged o ↔ Occupied (front ++ lower :: upper :: back) o
        ∨ (offset ≤ o ∧ o < offset + size))
      ∧ (0 < size → ∀ p ∈ merged, p.size = 0 → p ∈ front ++ lower :: upper :: back) := by
  obtain ⟨merged, hok, hapart, hoccupied, -⟩ := insertOccupation_apart hsize h.apart hlower hupper
  refine ⟨merged, hok, ⟨hapart, fun hpos => ?_, ?_, ?_⟩, hoccupied, fun hpos p hp => ?_⟩
  · exact insertOccupation_gaps hok hlower (h.gaps hpos)
  · rw [insertOccupation_first hok]
    exact h.first
  · rw [insertOccupation_lastEnd hok (List.cons_ne_nil _ _)]
    exact h.last
  · refine insertOccupation_empty hok hpos hlower (fun q hq => ?_) hp
    obtain ⟨-, hback, -⟩ := apart_append.mp h.apart
    obtain ⟨-, hback, -⟩ := apart_cons.mp hback
    obtain ⟨-, -, hfirst⟩ := apart_cons.mp hback
    rcases List.mem_cons.mp hq with rfl | hq
    · exact hupper
    · have := hfirst q hq
      omega

/-! ## The gaps -/

/-- A range in which no byte is occupied. -/
def FreeRange (occupation : List Position) (start size : Nat) : Prop :=
  ∀ o, start ≤ o → o < start + size → ¬ Occupied occupation o

/-- A free range that starts behind the start of the first region lies in a gap. -/
theorem gap_of_freeRange_cons {contextSize start size : Nat} (hsize : 0 < size)
    (hend : start + size ≤ contextSize) (p : Position) (rest : List Position)
    (hempty : ∀ q ∈ rest, q.size = 0 → q.offset = 0 ∨ q.offset = contextSize)
    (hlast : lastEnd (p :: rest) = some contextSize) (hfirst : p.offset ≤ start)
    (hfree : FreeRange (p :: rest) start size) :
    ∃ front lower upper back, p :: rest = front ++ lower :: upper :: back
      ∧ lower.offset + lower.size ≤ start ∧ start + size ≤ upper.offset := by
  have hbehind : p.offset + p.size ≤ start := by
    by_contra hlt
    exact hfree start (le_refl _) (by omega)
      ((occupied_cons p rest start).mpr (Or.inl ⟨hfirst, by omega⟩))
  induction rest generalizing p with
  | nil =>
    have hlast : p.offset + p.size = contextSize := Option.some.inj hlast
    omega
  | cons q rest ih =>
    by_cases hq : q.offset ≤ start
    · have hfree' : FreeRange (q :: rest) start size := by
        intro o hmin hmax hocc
        exact hfree o hmin hmax ((occupied_cons p _ o).mpr (Or.inr hocc))
      have hbehind' : q.offset + q.size ≤ start := by
        by_contra hlt
        exact hfree' start (le_refl _) (by omega)
          ((occupied_cons q rest start).mpr (Or.inl ⟨hq, by omega⟩))
      rw [lastEnd_cons_cons] at hlast
      obtain ⟨front, lower, upper, back, hsplit, hlower, hupper⟩ :=
        ih q (fun r hr => hempty r (List.mem_cons_of_mem _ hr)) hlast hq hfree' hbehind'
      exact ⟨p :: front, lower, upper, back, by rw [hsplit]; rfl, hlower, hupper⟩
    · refine ⟨[], p, q, rest, rfl, hbehind, ?_⟩
      -- the next region is not empty, or it is the end of the context
      rcases Nat.eq_zero_or_pos q.size with hzero | hpos
      · have := hempty q List.mem_cons_self hzero
        omega
      · by_contra hlt
        refine hfree q.offset (by omega) (by omega) ((occupied_cons p _ _).mpr (Or.inr ?_))
        exact (occupied_cons q rest _).mpr (Or.inl ⟨le_refl _, by omega⟩)

/-- The empty regions are at the ends of the context. -/
def EmptyAtEnds (contextSize : Nat) (occupation : List Position) : Prop :=
  ∀ p ∈ occupation, p.size = 0 → p.offset = 0 ∨ p.offset = contextSize

theorem gap_of_freeRange {contextSize start size : Nat} {occupation : List Position}
    (h : Spanning contextSize occupation) (hempty : EmptyAtEnds contextSize occupation)
    (hsize : 0 < size) (hend : start + size ≤ contextSize) (hfree : FreeRange occupation start size) :
    ∃ front lower upper back, occupation = front ++ lower :: upper :: back
      ∧ lower.offset + lower.size ≤ start ∧ start + size ≤ upper.offset := by
  cases occupation with
  | nil => cases h.first
  | cons p rest =>
    have hfirst : p.offset = 0 := Option.some.inj h.first
    exact gap_of_freeRange_cons hsize hend p rest
      (fun q hq => hempty q (List.mem_cons_of_mem _ hq)) h.last (by omega) hfree

theorem freeRange_of_gap {contextSize start size : Nat} {front back : List Position}
    {lower upper : Position} (h : Apart contextSize (front ++ lower :: upper :: back))
    (hlower : lower.offset + lower.size ≤ start) (hupper : start + size ≤ upper.offset) :
    FreeRange (front ++ lower :: upper :: back) start size := by
  obtain ⟨-, hrest, hcross⟩ := apart_append.mp h
  obtain ⟨-, hback, -⟩ := apart_cons.mp hrest
  obtain ⟨-, -, hupperFirst⟩ := apart_cons.mp hback
  intro o hmin hmax
  rw [occupied_append, occupied_cons, occupied_cons]
  rintro (⟨p, hp, hin⟩ | hin | hin | ⟨p, hp, hin⟩)
  · have := hcross p hp lower List.mem_cons_self
    omega
  · omega
  · omega
  · have := hupperFirst p hp
    omega

/-! ## The search -/

/-- `startOf` is the first suitable place from an address on, if that is an address. -/
structure Placement (startOf : Nat → DandelionResult Nat) (place : Nat → Nat) (suits : Nat → Prop) :
    Prop where
  startOf_eq : ∀ e, e < Usize.limit →
    startOf e = if place e < Usize.limit then .ok (place e) else crash
  least : ∀ e, IsLeast {t | e ≤ t ∧ suits t} (place e)

/-- `next_multiple_of` without a bound on its result. -/
def nextMultiple (e alignment : Nat) : Nat :=
  if e % alignment = 0 then e else e + (alignment - e % alignment)

theorem placement_nextMultiple {alignment : Nat} (hpos : 0 < alignment) :
    Placement (Usize.nextMultipleOf .checked · alignment) (nextMultiple · alignment)
      (alignment ∣ ·) := by
  have hmod := fun e => Nat.mod_lt e hpos
  refine ⟨fun e he => ?_, fun e => ⟨⟨?_, ?_⟩, ?_⟩⟩
  · rw [Usize.nextMultipleOf, if_neg (by omega), nextMultiple]
    by_cases hzero : e % alignment = 0
    · rw [if_pos hzero, if_pos hzero, if_pos he]
      rfl
    · rw [if_neg hzero, if_neg hzero]
      rfl
  · rw [nextMultiple]
    split_ifs
    · exact le_refl e
    · exact Nat.le_add_right _ _
  · rw [nextMultiple]
    split_ifs with hzero
    · exact Nat.dvd_of_mod_eq_zero hzero
    · refine ⟨e / alignment + 1, ?_⟩
      have hdiv := Nat.div_add_mod e alignment
      have := hmod e
      rw [Nat.mul_add]
      omega
  · rintro t ⟨hle, k, rfl⟩
    rw [nextMultiple]
    split_ifs with hzero
    · exact hle
    · have hdiv := Nat.div_add_mod e alignment
      have := hmod e
      have hk : e / alignment + 1 ≤ k := by
        by_contra hlt
        have := Nat.mul_le_mul_left alignment (show k ≤ e / alignment by omega)
        omega
      have := Nat.mul_le_mul_left alignment hk
      rw [Nat.mul_add] at this
      omega

/-- The first address from `e` on that is `pageOffset` behind the start of its page. -/
def transferPlace (pageOffset e : Nat) : Nat :=
  roundDownToPage e + (if pageOffset < e % pageSize then pageSize else 0) + pageOffset

theorem placement_transferPlace {pageOffset : Nat} (hoffset : pageOffset < pageSize) :
    Placement (transferStart .checked pageOffset) (transferPlace pageOffset)
      (· % pageSize = pageOffset) := by
  have hdiv := fun e => Nat.div_add_mod' e pageSize
  refine ⟨fun e he => ?_, fun e => ⟨⟨?_, ?_⟩, ?_⟩⟩
  · rw [transferStart, transferPlace, Usize.add]
    by_cases hpage : roundDownToPage e + (if pageOffset < e % pageSize then pageSize else 0)
        < Usize.limit
    · rw [if_pos hpage]
      rfl
    · rw [if_neg hpage, if_neg (by omega)]
      rfl
  · have := hdiv e
    rw [transferPlace, roundDownToPage]
    have := Nat.mod_lt e pageSize_pos
    split_ifs <;> omega
  · rw [transferPlace, roundDownToPage]
    split_ifs
    · rw [← Nat.succ_mul, Nat.mul_add_mod_of_lt hoffset]
    · rw [Nat.add_zero, Nat.mul_add_mod_of_lt hoffset]
  · rintro t ⟨hle, hsuits⟩
    have := hdiv e
    have := hdiv t
    have hmono : e / pageSize ≤ t / pageSize := Nat.div_le_div_right hle
    rw [transferPlace, roundDownToPage]
    split_ifs with hbehind
    · have hlt : e / pageSize + 1 ≤ t / pageSize := by
        by_contra hge
        have heq : e / pageSize * pageSize = t / pageSize * pageSize := by
          rw [show e / pageSize = t / pageSize by omega]
        omega
      have := Nat.mul_le_mul_right pageSize hlt
      rw [Nat.add_mul] at this
      omega
    · have := Nat.mul_le_mul_right pageSize hmono
      omega

/-- The search over addresses without a bound. -/
def bestSpace (place : Nat → Nat) (size : Nat) : List Position → Nat → Space → Space
  | lower :: upper :: rest, index, best =>
    let start := place (lower.offset + lower.size)
    let available := upper.offset - start
    bestSpace place size (upper :: rest) (index + 1)
      (if size ≤ available ∧ available < best.size then ⟨available, index, start⟩ else best)
  | _, _, best => best

/-- The places behind the regions are addresses, except behind the last one. -/
def Addressable (place : Nat → Nat) (occupation : List Position) : Prop :=
  ∀ p ∈ occupation.dropLast, place (p.offset + p.size) < Usize.limit

section Search

variable {startOf : Nat → DandelionResult Nat} {place : Nat → Nat} {suits : Nat → Prop}
  (hplace : Placement startOf place suits) {occupation : List Position} {size index : Nat}
  {best : Space}

section

variable (hends : ∀ p ∈ occupation, p.offset + p.size < Usize.limit)
include hplace hends

theorem searchSpace_eq_bestSpace (h : Addressable place occupation) :
    searchSpace .checked startOf size occupation index best
      = .ok (bestSpace place size occupation index best) := by
  induction occupation generalizing index best with
  | nil => rfl
  | cons lower occupation ih =>
    cases occupation with
    | nil => rfl
    | cons upper rest =>
      have hlower := hends lower List.mem_cons_self
      rw [searchSpace, Usize.add_eq_ok hlower, ok_bind, hplace.startOf_eq _ hlower,
        if_pos (h lower List.mem_cons_self), ok_bind]
      exact ih (fun p hp => hends p (List.mem_cons_of_mem _ hp))
        (fun p hp => h p (List.mem_cons_of_mem _ hp))

theorem searchSpace_overflow (h : ¬ Addressable place occupation) :
    searchSpace .checked startOf size occupation index best = crash := by
  induction occupation generalizing index best with
  | nil => exact absurd (fun p hp => by cases hp) h
  | cons lower occupation ih =>
    cases occupation with
    | nil => exact absurd (fun p hp => by cases hp) h
    | cons upper rest =>
      have hlower := hends lower List.mem_cons_self
      rw [searchSpace, Usize.add_eq_ok hlower, ok_bind, hplace.startOf_eq _ hlower]
      by_cases hfits : place (lower.offset + lower.size) < Usize.limit
      · rw [if_pos hfits, ok_bind]
        refine ih (fun p hp => hends p (List.mem_cons_of_mem _ hp)) fun hrest => h fun p hp => ?_
        rcases List.mem_cons.mp hp with rfl | hp
        · exact hfits
        · exact hrest p hp
      · rw [if_neg hfits]
        rfl

end

/-- No gap that is large enough is smaller than the one that is found. -/
theorem bestSpace_le (place : Nat → Nat) (size : Nat) (occupation : List Position) (index : Nat)
    (best : Space) :
    (bestSpace place size occupation index best).size ≤ best.size
      ∧ ∀ front lower upper back, occupation = front ++ lower :: upper :: back →
        size ≤ upper.offset - place (lower.offset + lower.size) →
        (bestSpace place size occupation index best).size
          ≤ upper.offset - place (lower.offset + lower.size) := by
  induction occupation generalizing index best with
  | nil => exact ⟨le_refl _, fun front lower upper back h => by simp at h⟩
  | cons lower occupation ih =>
    cases occupation with
    | nil =>
      refine ⟨le_refl _, fun front lower' upper back h => ?_⟩
      have hlength := congrArg List.length h
      simp only [List.length_append, List.length_cons, List.length_nil] at hlength
      omega
    | cons upper rest =>
      rw [bestSpace]
      obtain ⟨hbest, hrest⟩ := ih (index + 1)
        (if size ≤ upper.offset - place (lower.offset + lower.size)
            ∧ upper.offset - place (lower.offset + lower.size) < best.size
          then ⟨upper.offset - place (lower.offset + lower.size), index,
            place (lower.offset + lower.size)⟩ else best)
      refine ⟨hbest.trans ?_, fun front lower' upper' back hsplit hroom => ?_⟩
      · split_ifs with hroom
        · exact hroom.2.le
        · exact le_refl _
      · cases front with
        | cons p front =>
          exact hrest front lower' upper' back (List.cons.inj hsplit).2 hroom
        | nil =>
          cases hsplit
          refine hbest.trans ?_
          split_ifs with hbetter
          · exact le_refl _
          · have := not_and.mp hbetter hroom
            omega

end Search

def claimSpace (startOf : Nat → DandelionResult Nat) (contextSize : Nat) (occupation : List Position)
    (size : Nat) : DandelionResult (Nat × List Position) := do
  let space ← findSpace .checked startOf contextSize occupation size
  let occupation ← insertOccupation .checked occupation space.index space.start size
  pure (space.start, occupation)

section Claim

variable {startOf : Nat → DandelionResult Nat} {place : Nat → Nat} {suits : Nat → Prop}
  (hplace : Placement startOf place suits) {contextSize : Nat} {occupation : List Position} (size : Nat)
  (h : Spanning contextSize occupation)

include h in
theorem Spanning.ends_lt (hlimit : contextSize < Usize.limit) :
    ∀ p ∈ occupation, p.offset + p.size < Usize.limit :=
  fun p hp => (h.apart.inside p hp).trans_lt hlimit

include hplace h in
theorem findSpace_eq_bestSpace (hlimit : contextSize + 1 < Usize.limit)
    (hin : Addressable place occupation) :
    findSpace .checked startOf contextSize occupation size
      = if (bestSpace place size occupation 0 ⟨contextSize + 1, 0, 0⟩).size = contextSize + 1
        then fail .contextFull
        else .ok (bestSpace place size occupation 0 ⟨contextSize + 1, 0, 0⟩) := by
  have hends := h.ends_lt (by omega)
  rw [findSpace, Usize.add_eq_ok hlimit, ok_bind, searchSpace_eq_bestSpace hplace hends hin, ok_bind]
  rfl

include hplace h in
theorem findSpace_total (hlimit : contextSize + 1 < Usize.limit) (hin : Addressable place occupation) :
    (∃ space, findSpace .checked startOf contextSize occupation size = .ok space)
      ∨ findSpace .checked startOf contextSize occupation size = fail .contextFull
        ∧ ∀ front lower upper back, occupation = front ++ lower :: upper :: back →
          upper.offset - place (lower.offset + lower.size) < size := by
  rw [findSpace_eq_bestSpace hplace size h hlimit hin]
  by_cases hfull : (bestSpace place size occupation 0 ⟨contextSize + 1, 0, 0⟩).size = contextSize + 1
  · right
    refine ⟨if_pos hfull, fun front lower upper back hsplit => ?_⟩
    by_contra hroom
    have hle := (bestSpace_le place size occupation 0 ⟨contextSize + 1, 0, 0⟩).2 front lower upper back
      hsplit (Nat.le_of_not_lt hroom)
    rw [hfull] at hle
    have := h.apart.inside upper (by rw [hsplit]; simp)
    omega
  · exact Or.inl ⟨_, if_neg hfull⟩

include hplace in
theorem claimSpace_overflow (hends : ∀ p ∈ occupation, p.offset + p.size < Usize.limit)
    (hout : ¬ (contextSize + 1 < Usize.limit ∧ Addressable place occupation)) :
    claimSpace startOf contextSize occupation size = crash := by
  rw [claimSpace, findSpace, Usize.add]
  by_cases hlimit : contextSize + 1 < Usize.limit
  · rw [if_pos hlimit]
    change (((searchSpace _ _ _ _ _ _) >>= _) >>= _) = _
    rw [searchSpace_overflow hplace hends fun hin => hout ⟨hlimit, hin⟩]
    rfl
  · rw [if_neg hlimit]
    rfl

include hplace h in
/-- A region of at least one byte is placed where it suits, and nothing else is full. -/
theorem claimSpace_spec (hempty : EmptyAtEnds contextSize occupation) (hsize : 0 < size)
    (hlimit : contextSize + 1 < Usize.limit) (hin : Addressable place occupation) :
    (∃ start occupation', claimSpace startOf contextSize occupation size = .ok (start, occupation')
        ∧ suits start ∧ start + size ≤ contextSize ∧ FreeRange occupation start size
        ∧ Spanning contextSize occupation' ∧ EmptyAtEnds contextSize occupation'
        ∧ ∀ o, Occupied occupation' o ↔ Occupied occupation o ∨ (start ≤ o ∧ o < start + size))
      ∨ claimSpace startOf contextSize occupation size = fail .contextFull
        ∧ ∀ start, suits start → start + size ≤ contextSize → ¬ FreeRange occupation start size := by
  rcases findSpace_total hplace size h hlimit hin with ⟨space, hfind⟩ | ⟨hfind, hfull⟩
  · left
    obtain ⟨front, lower, upper, back, rfl, hindex, hfits⟩ := findSpace_ok hfind
    have hlower := h.apart.inside lower (by simp)
    have hupper := h.apart.inside upper (by simp)
    have hstart : place (lower.offset + lower.size) = space.start := by
      have hstart := hfits.start_eq
      rw [hplace.startOf_eq _ (by omega)] at hstart
      split_ifs at hstart
      · exact Except.ok.inj hstart
      · cases hstart
    obtain ⟨⟨hle, hsuits⟩, -⟩ := hplace.least (lower.offset + lower.size)
    rw [hstart] at hle hsuits
    have hroom : space.start + size ≤ upper.offset := by
      have := hfits.size_eq
      have := hfits.size_le
      omega
    obtain ⟨merged, hinsert, hspanning, hoccupied, hempties⟩ :=
      insertOccupation_spanning (by omega) h hle hroom
    refine ⟨space.start, merged, ?_, hsuits, by omega, freeRange_of_gap h.apart hle hroom, hspanning,
      fun p hp hzero => hempty p (hempties hsize p hp hzero) hzero, hoccupied⟩
    rw [claimSpace, hfind, ok_bind, hindex, hinsert]
    rfl
  · right
    refine ⟨by rw [claimSpace, hfind]; rfl, fun start hsuits hend hfree => ?_⟩
    obtain ⟨front, lower, upper, back, hsplit, hlower, hupper⟩ :=
      gap_of_freeRange h hempty hsize hend hfree
    have hless := hfull front lower upper back hsplit
    have hle : place (lower.offset + lower.size) ≤ start :=
      (hplace.least _).2 ⟨hlower, hsuits⟩
    omega

end Claim

end Dandelion
