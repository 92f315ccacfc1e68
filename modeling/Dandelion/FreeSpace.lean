import Dandelion.Occupation
import Dandelion.Pages

/-!
# Free space in a context

`get_free_space` takes the smallest gap between two occupied regions that holds the new one at
its alignment, and `get_transfer_offset` the smallest one that holds it as far from a page
boundary as its source. A new region takes no byte that is occupied.
-/

namespace Dandelion

open Outcome

/-- The gap that has been chosen: its size, the index of the region before it, and where the new region
starts. -/
structure Space where
  size : Nat
  index : Nat
  start : Nat
deriving DecidableEq, Repr

/-- The loop over neighbouring regions, where `startOf` is the first place behind the end of a region. -/
def searchSpace (mode : Overflow) (startOf : Nat → DandelionResult Nat) (size : Nat) :
    List Position → Nat → Space → DandelionResult Space
  | lower :: upper :: rest, index, best => do
    let lowerEnd ← Usize.add mode lower.offset lower.size
    let start ← startOf lowerEnd
    let available := upper.offset - start
    searchSpace mode startOf size (upper :: rest) (index + 1)
      (if size ≤ available ∧ available < best.size then ⟨available, index, start⟩ else best)
  | _, _, best => pure best

/-- The smallest gap that is large enough. -/
def findSpace (mode : Overflow) (startOf : Nat → DandelionResult Nat) (contextSize : Nat)
    (occupation : List Position) (size : Nat) : DandelionResult Space := do
  let spaceSize ← Usize.add mode contextSize 1
  let best ← searchSpace mode startOf size occupation 0 ⟨spaceSize, 0, 0⟩
  if best.size = spaceSize then fail .contextFull else pure best

/-- The start of the new region, and the occupation with it. -/
def getFreeSpace (mode : Overflow) (contextSize : Nat) (occupation : List Position)
    (size alignment : Nat) : DandelionResult (Nat × List Position) := do
  let space ← findSpace mode (Usize.nextMultipleOf mode · alignment) contextSize occupation size
  let occupation ← insertOccupation mode occupation space.index space.start size
  pure (space.start, occupation)

/-- The first place behind `lowerEnd` that is as far from the start of its page as the source. -/
def transferStart (mode : Overflow) (pageOffset lowerEnd : Nat) : DandelionResult Nat := do
  let page ← Usize.add mode (roundDownToPage lowerEnd)
    (if pageOffset < lowerEnd % pageSize then pageSize else 0)
  Usize.add mode page pageOffset

def getTransferOffset (mode : Overflow) (occupation : List Position)
    (sourceOffset contextSize size : Nat) : DandelionResult (Nat × Nat) := do
  let space ← findSpace mode (transferStart mode (sourceOffset % pageSize)) contextSize
    occupation size
  pure (space.index, space.start)

/-! ## Occupied bytes -/

/-- A byte of an occupied region. -/
def Occupied (occupation : List Position) (o : Nat) : Prop :=
  ∃ p ∈ occupation, p.offset ≤ o ∧ o < p.offset + p.size

/-- Regions inside a context, in order and without overlap. -/
structure Apart (contextSize : Nat) (occupation : List Position) : Prop where
  apart : occupation.Pairwise fun p q => p.offset + p.size ≤ q.offset
  inside : ∀ p ∈ occupation, p.offset + p.size ≤ contextSize

theorem occupied_cons (p : Position) (occupation : List Position) (o : Nat) :
    Occupied (p :: occupation) o ↔ (p.offset ≤ o ∧ o < p.offset + p.size) ∨ Occupied occupation o := by
  simp only [Occupied, List.mem_cons, or_and_right, exists_or, exists_eq_left]

theorem occupied_append (front back : List Position) (o : Nat) :
    Occupied (front ++ back) o ↔ Occupied front o ∨ Occupied back o := by
  unfold Occupied
  simp only [List.mem_append, or_and_right, exists_or]

theorem apart_append {contextSize : Nat} {front back : List Position} :
    Apart contextSize (front ++ back) ↔ Apart contextSize front ∧ Apart contextSize back
      ∧ ∀ p ∈ front, ∀ q ∈ back, p.offset + p.size ≤ q.offset := by
  constructor
  · intro h
    obtain ⟨hfront, hback, hcross⟩ := List.pairwise_append.mp h.apart
    obtain ⟨hin, hin'⟩ := List.forall_mem_append.mp h.inside
    exact ⟨⟨hfront, hin⟩, ⟨hback, hin'⟩, hcross⟩
  · rintro ⟨hfront, hback, hcross⟩
    exact ⟨List.pairwise_append.mpr ⟨hfront.apart, hback.apart, hcross⟩,
      List.forall_mem_append.mpr ⟨hfront.inside, hback.inside⟩⟩

theorem apart_cons {contextSize : Nat} {p : Position} {occupation : List Position} :
    Apart contextSize (p :: occupation) ↔ p.offset + p.size ≤ contextSize
      ∧ Apart contextSize occupation ∧ ∀ q ∈ occupation, p.offset + p.size ≤ q.offset := by
  constructor
  · intro h
    obtain ⟨hfirst, hrest⟩ := List.pairwise_cons.mp h.apart
    obtain ⟨hin, hin'⟩ := List.forall_mem_cons.mp h.inside
    exact ⟨hin, ⟨hrest, hin'⟩, hfirst⟩
  · rintro ⟨hin, hrest, hfirst⟩
    exact ⟨List.pairwise_cons.mpr ⟨hfirst, hrest.apart⟩, List.forall_mem_cons.mpr ⟨hin, hrest.inside⟩⟩

/-- What replaces regions of an occupation: the same bytes, with starts that were there. -/
structure Merged (contextSize : Nat) (regions merged : List Position) : Prop where
  apart : Apart contextSize merged
  occupied : ∀ o, Occupied merged o ↔ Occupied regions o
  starts : ∀ p ∈ merged, ∃ q ∈ regions, p.offset = q.offset

theorem insertOccupation_split (mode : Overflow) (front : List Position) (lower : Position)
    (rest : List Position) (offset size : Nat) :
    insertOccupation mode (front ++ lower :: rest) front.length offset size = (do
      let lowerEnd ← Usize.add mode lower.offset lower.size
      if lowerEnd = offset then
        let before ← Usize.sub mode offset lower.offset
        let newSize ← Usize.add mode before size
        let merged ← absorb mode { lower with size := newSize } rest
        pure (front ++ merged)
      else
        let merged ← absorb mode ⟨offset, size⟩ rest
        pure (front ++ lower :: merged)) := by
  have hget : (front ++ lower :: rest)[front.length]? = some lower := by
    rw [List.getElem?_append_right (le_refl _), Nat.sub_self]
    rfl
  have hsplit : front ++ lower :: rest = (front ++ [lower]) ++ rest := List.append_cons ..
  have hlength : (front ++ [lower]).length = front.length + 1 := List.length_append
  have htake : (front ++ lower :: rest).take (front.length + 1) = front ++ [lower] := by
    rw [hsplit, ← hlength, List.take_left]
  have hdrop : (front ++ lower :: rest).drop (front.length + 1) = rest := by
    rw [hsplit, ← hlength, List.drop_left]
  rw [insertOccupation, hget]
  dsimp only
  rw [hdrop, htake, List.take_left]
  simp only [List.append_assoc, List.singleton_append]

section Insert

variable {contextSize : Nat} (hsize : contextSize < Usize.limit)
include hsize

theorem absorb_merged (current : Position) (rest : List Position)
    (h : Apart contextSize (current :: rest)) :
    ∃ merged, absorb .checked current rest = .ok merged
      ∧ Merged contextSize (current :: rest) merged := by
  induction rest generalizing current with
  | nil =>
    exact ⟨[current], rfl, h, fun _ => Iff.rfl, fun p hp => ⟨p, hp, rfl⟩⟩
  | cons next rest ih =>
    obtain ⟨hcurrent, hrest, hfirst⟩ := apart_cons.mp h
    obtain ⟨hnext, hrest', hnextFirst⟩ := apart_cons.mp hrest
    have hle := hfirst next List.mem_cons_self
    rw [absorb, Usize.add_eq_ok (by omega), ok_bind]
    by_cases hmeet : next.offset ≤ current.offset + current.size
    · -- the regions touch
      have hseam : current.offset + current.size = next.offset := Nat.le_antisymm hle hmeet
      have hend : current.offset + (next.offset - current.offset + next.size)
          = next.offset + next.size := by omega
      have hgrown : Apart contextSize
          (⟨current.offset, next.offset - current.offset + next.size⟩ :: rest) := by
        apply apart_cons.mpr
        dsimp only
        rw [hend]
        exact ⟨hnext, hrest', hnextFirst⟩
      obtain ⟨merged, hok, hmerged⟩ := ih _ hgrown
      refine ⟨merged, ?_, hmerged.apart, fun o => ?_, fun p hp => ?_⟩
      · rw [if_pos hmeet, Usize.sub_eq_ok (by omega), ok_bind, Usize.add_eq_ok (by omega), ok_bind]
        exact hok
      · rw [hmerged.occupied, occupied_cons, occupied_cons, occupied_cons, ← or_assoc]
        dsimp only
        have hiff : (current.offset ≤ o ∧ o < current.offset + (next.offset - current.offset + next.size))
            ↔ ((current.offset ≤ o ∧ o < current.offset + current.size)
              ∨ (next.offset ≤ o ∧ o < next.offset + next.size)) := by omega
        rw [hiff]
      · obtain ⟨q, hq, hoffset⟩ := hmerged.starts p hp
        rcases List.mem_cons.mp hq with rfl | hq
        · exact ⟨current, List.mem_cons_self, hoffset⟩
        · exact ⟨q, List.mem_cons_of_mem _ (List.mem_cons_of_mem _ hq), hoffset⟩
    · rw [if_neg hmeet]
      exact ⟨_, rfl, h, fun _ => Iff.rfl, fun p hp => ⟨p, hp, rfl⟩⟩

theorem insertOccupation_apart {front back : List Position} {lower upper : Position} {offset size : Nat}
    (h : Apart contextSize (front ++ lower :: upper :: back)) (hlower : lower.offset + lower.size ≤ offset)
    (hupper : offset + size ≤ upper.offset) :
    ∃ merged, insertOccupation .checked (front ++ lower :: upper :: back) front.length offset size
        = .ok merged
      ∧ Apart contextSize merged
      ∧ (∀ o, Occupied merged o ↔ Occupied (front ++ lower :: upper :: back) o
        ∨ (offset ≤ o ∧ o < offset + size))
      ∧ ∀ p ∈ merged, p.offset = offset ∨ ∃ q ∈ front ++ lower :: upper :: back, p.offset = q.offset := by
  obtain ⟨hfront, hrest, hcross⟩ := apart_append.mp h
  obtain ⟨hlowerIn, hback, hlowerFirst⟩ := apart_cons.mp hrest
  obtain ⟨hupperIn, -, hupperFirst⟩ := apart_cons.mp hback
  have hnewBack : ∀ q ∈ upper :: back, offset + size ≤ q.offset := by
    intro q hq
    rcases List.mem_cons.mp hq with rfl | hq
    · exact hupper
    · have := hupperFirst q hq
      omega
  have hsplit : front ++ lower :: upper :: back = (front ++ [lower]) ++ upper :: back := List.append_cons ..
  rw [insertOccupation_split, Usize.add_eq_ok (by omega), ok_bind]
  by_cases hseam : lower.offset + lower.size = offset
  · have hend : lower.offset + (offset - lower.offset + size) = offset + size := by omega
    have hgrown : Apart contextSize (⟨lower.offset, offset - lower.offset + size⟩ :: upper :: back) := by
      apply apart_cons.mpr
      dsimp only
      rw [hend]
      exact ⟨by omega, hback, hnewBack⟩
    obtain ⟨merged, hok, hmerged⟩ := absorb_merged hsize _ _ hgrown
    have hstarts : ∀ p ∈ merged, ∃ q ∈ lower :: upper :: back, p.offset = q.offset := by
      intro p hp
      obtain ⟨q, hq, hoffset⟩ := hmerged.starts p hp
      rcases List.mem_cons.mp hq with rfl | hq
      · exact ⟨lower, List.mem_cons_self, hoffset⟩
      · exact ⟨q, List.mem_cons_of_mem _ hq, hoffset⟩
    refine ⟨front ++ merged, ?_, apart_append.mpr ⟨hfront, hmerged.apart, ?_⟩, fun o => ?_, ?_⟩
    · rw [if_pos hseam, Usize.sub_eq_ok (by omega), ok_bind, Usize.add_eq_ok (by omega), ok_bind, hok]
      rfl
    · intro p hp q hq
      obtain ⟨q', hq', hoffset⟩ := hstarts q hq
      rw [hoffset]
      exact hcross p hp q' hq'
    · rw [occupied_append, occupied_append, hmerged.occupied, occupied_cons, occupied_cons lower]
      dsimp only
      have hiff : (lower.offset ≤ o ∧ o < lower.offset + (offset - lower.offset + size))
          ↔ ((lower.offset ≤ o ∧ o < lower.offset + lower.size)
            ∨ (offset ≤ o ∧ o < offset + size)) := by omega
      rw [hiff]
      simp only [or_assoc]
      rw [or_comm (a := offset ≤ o ∧ o < offset + size)]
    · intro p hp
      right
      rcases List.mem_append.mp hp with hp | hp
      · exact ⟨p, List.mem_append_left _ hp, rfl⟩
      · obtain ⟨q, hq, hoffset⟩ := hstarts p hp
        exact ⟨q, List.mem_append_right _ hq, hoffset⟩
  · have hnew : Apart contextSize (⟨offset, size⟩ :: upper :: back) :=
      apart_cons.mpr ⟨by dsimp only; omega, hback, hnewBack⟩
    obtain ⟨merged, hok, hmerged⟩ := absorb_merged hsize _ _ hnew
    have hstarts : ∀ p ∈ merged, p.offset = offset ∨ ∃ q ∈ upper :: back, p.offset = q.offset := by
      intro p hp
      obtain ⟨q, hq, hoffset⟩ := hmerged.starts p hp
      rcases List.mem_cons.mp hq with rfl | hq
      · exact Or.inl hoffset
      · exact Or.inr ⟨q, hq, hoffset⟩
    have hbehind : ∀ p ∈ front ++ [lower], ∀ q ∈ merged, p.offset + p.size ≤ q.offset := by
      intro p hp q hq
      have hle : p.offset + p.size ≤ lower.offset + lower.size := by
        rcases List.mem_append.mp hp with hp | hp
        · have := hcross p hp lower List.mem_cons_self
          omega
        · rw [List.mem_singleton.mp hp]
      rcases hstarts q hq with hoffset | ⟨q', hq', hoffset⟩
      · omega
      · have := hlowerFirst q' hq'
        omega
    refine ⟨(front ++ [lower]) ++ merged, ?_, ?_, fun o => ?_, ?_⟩
    · rw [if_neg hseam, hok, List.append_assoc]
      rfl
    · rw [hsplit] at h
      exact apart_append.mpr ⟨(apart_append.mp h).1, hmerged.apart, hbehind⟩
    · rw [hsplit, occupied_append _ merged, occupied_append _ (upper :: back), hmerged.occupied,
        occupied_cons, or_assoc, or_comm (b := Occupied (upper :: back) o)]
    · intro p hp
      rw [hsplit]
      rcases List.mem_append.mp hp with hp | hp
      · exact Or.inr ⟨p, List.mem_append_left _ hp, rfl⟩
      · rcases hstarts p hp with hoffset | ⟨q, hq, hoffset⟩
        · exact Or.inl hoffset
        · exact Or.inr ⟨q, List.mem_append_right _ hq, hoffset⟩

end Insert

/-! ## The search -/

section Search

variable {contextSize size : Nat} {startOf : Nat → DandelionResult Nat}

/-- A gap that holds the new region. -/
structure FitsGap (startOf : Nat → DandelionResult Nat) (size : Nat) (lower upper : Position)
    (space : Space) : Prop where
  start_eq : startOf (lower.offset + lower.size) = .ok space.start
  size_eq : space.size = upper.offset - space.start
  size_le : size ≤ space.size

/-- What is found is the gap that was there before, or a gap between two neighbours. -/
theorem searchSpace_ok {occupation : List Position} {index : Nat} {best space : Space}
    (hok : searchSpace .checked startOf size occupation index best = .ok space) :
    space = best ∨ space.size < best.size ∧ ∃ front lower upper back,
      occupation = front ++ lower :: upper :: back ∧ space.index = index + front.length
        ∧ FitsGap startOf size lower upper space := by
  induction occupation generalizing index best with
  | nil =>
    cases hok
    exact Or.inl rfl
  | cons lower occupation ih =>
    cases occupation with
    | nil =>
      cases hok
      exact Or.inl rfl
    | cons upper rest =>
      rw [searchSpace] at hok
      obtain ⟨lowerEnd, hadd, hok⟩ := (bind_eq_ok_iff _ _ _).mp hok
      obtain ⟨-, rfl⟩ := Usize.add_eq_ok_iff.mp hadd
      obtain ⟨start, hstart, hok⟩ := (bind_eq_ok_iff _ _ _).mp hok
      rcases ih hok with hbest | ⟨hlt, front, lower', upper', back, hsplit, hindex, hfits⟩
      · split_ifs at hbest with hroom
        · right
          rw [hbest]
          exact ⟨hroom.2, [], lower, upper, rest, rfl, rfl, hstart, rfl, hroom.1⟩
        · exact Or.inl hbest
      · right
        refine ⟨?_, lower :: front, lower', upper', back, by rw [hsplit]; rfl, ?_, hfits⟩
        · split_ifs at hlt with hroom
          · exact hlt.trans hroom.2
          · exact hlt
        · rw [hindex, List.length_cons]
          omega

theorem findSpace_ok {occupation : List Position} {space : Space}
    (hok : findSpace .checked startOf contextSize occupation size = .ok space) :
    ∃ front lower upper back, occupation = front ++ lower :: upper :: back
      ∧ space.index = front.length ∧ FitsGap startOf size lower upper space := by
  obtain ⟨spaceSize, -, hok⟩ := (bind_eq_ok_iff _ _ _).mp hok
  obtain ⟨best, hsearch, hok⟩ := (bind_eq_ok_iff _ _ _).mp hok
  split_ifs at hok with hfull
  · cases hok
  obtain rfl : best = space := Except.ok.inj hok
  rcases searchSpace_ok hsearch with hbest | ⟨-, front, lower, upper, back, hsplit, hindex, hfits⟩
  · rw [hbest] at hfull
    exact absurd rfl hfull
  · exact ⟨front, lower, upper, back, hsplit, by rw [hindex, Nat.zero_add], hfits⟩

end Search

/-- An occupation whose regions start at multiples of the alignment. -/
structure AlignedOccupation (contextSize alignment : Nat) (occupation : List Position) : Prop where
  apart : Apart contextSize occupation
  aligned : ∀ p ∈ occupation, alignment ∣ p.offset

/-- The new region is inside the context, at its alignment, and was free. -/
theorem getFreeSpace_ok {contextSize alignment size start : Nat} {occupation occupation' : List Position}
    (hsize : contextSize < Usize.limit) (hpos : 0 < alignment)
    (h : AlignedOccupation contextSize alignment occupation)
    (hok : getFreeSpace .checked contextSize occupation size alignment = .ok (start, occupation')) :
    alignment ∣ start ∧ start + size ≤ contextSize
      ∧ AlignedOccupation contextSize alignment occupation'
      ∧ (∀ o, Occupied occupation' o ↔ Occupied occupation o ∨ (start ≤ o ∧ o < start + size))
      ∧ ∀ o, start ≤ o → o < start + size → ¬ Occupied occupation o := by
  obtain ⟨space, hfind, hok⟩ := (bind_eq_ok_iff _ _ _).mp hok
  obtain ⟨merged, hinsert, hok⟩ := (bind_eq_ok_iff _ _ _).mp hok
  cases hok
  obtain ⟨front, lower, upper, back, rfl, hindex, hfits⟩ := findSpace_ok hfind
  obtain ⟨hfront, hrest, hcross⟩ := apart_append.mp h.apart
  obtain ⟨hlowerIn, hback, hlowerFirst⟩ := apart_cons.mp hrest
  obtain ⟨hupperIn, -, hupperFirst⟩ := apart_cons.mp hback
  obtain ⟨bound, hbound⟩ := h.aligned upper (by simp)
  have hgap := hlowerFirst upper List.mem_cons_self
  -- the next region starts at a multiple of the alignment, so that the first one is not behind it
  obtain ⟨k, hnext, hle, -, hbefore⟩ := Usize.nextMultipleOf_eq_ok (ε := DandelionError) hpos
    (show lower.offset + lower.size ≤ alignment * bound by omega) (by omega)
  have hstart : alignment * k = space.start := Except.ok.inj (hnext.symm.trans hfits.start_eq)
  have hroom : space.start + size ≤ upper.offset := by
    have h1 := hfits.size_eq
    have h2 := hfits.size_le
    omega
  obtain ⟨merged', hinsert', hapart, hoccupied, hstarts⟩ :=
    insertOccupation_apart hsize h.apart (show lower.offset + lower.size ≤ space.start by omega) hroom
  rw [hindex, hinsert'] at hinsert
  cases hinsert
  have hdvd : alignment ∣ space.start := ⟨k, hstart.symm⟩
  refine ⟨hdvd, by omega, ⟨hapart, fun p hp => ?_⟩, hoccupied, fun o hmin hmax => ?_⟩
  · rcases hstarts p hp with hoffset | ⟨q, hq, hoffset⟩
    · rw [hoffset]
      exact hdvd
    · rw [hoffset]
      exact h.aligned q hq
  · rw [occupied_append, occupied_cons, occupied_cons]
    rintro (⟨p, hp, hin⟩ | hin | hin | ⟨p, hp, hin⟩)
    · have := hcross p hp lower List.mem_cons_self
      omega
    · omega
    · omega
    · have := hupperFirst p hp
      omega

end Dandelion
