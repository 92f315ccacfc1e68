import Dandelion.OrderedMap
import Mathlib.Algebra.Group.Action.Defs
import Mathlib.Algebra.Group.Nat.Defs

/-!
# Segment maps

An ordered map from the last offset of a segment to its first offset and the value
there stands for a partial function on offsets; inside a segment the value moves on
with the offset, by an action of the natural numbers. Overwriting a range cuts the
segments that reach into it and adds one segment for the range.
-/

namespace Segments

variable {V : Type*} [AddAction ℕ V]

/-- Segments by their last offset, each with its first offset and the value there. -/
abbrev SegmentMap (V : Type*) := OrderedMap Nat (Nat × V)

def locate (m : SegmentMap V) (o : Nat) : Option V :=
  (m.entries.find? fun e => e.2.1 ≤ o ∧ o ≤ e.1).map fun e => (o - e.2.1) +ᵥ e.2.2

omit [AddAction ℕ V] in
/-- No segment is empty and no two of them overlap. -/
structure Separate (m : SegmentMap V) : Prop where
  pos : ∀ {last start v}, m.get? last = some (start, v) → start ≤ last
  apart : ∀ {last start v last' start' v'}, m.get? last = some (start, v) →
    m.get? last' = some (start', v') → last < last' → last < start'

namespace Separate

variable {m : SegmentMap V} (h : Separate m)
include h

omit [AddAction ℕ V] in
theorem eq_of_mem {last start last' start' o : Nat} {v v' : V} (hs : m.get? last = some (start, v))
    (hs' : m.get? last' = some (start', v')) (ho : start ≤ o ∧ o ≤ last)
    (ho' : start' ≤ o ∧ o ≤ last') : last = last' := by
  rcases lt_trichotomy last last' with hlt | heq | hgt
  · have := h.apart hs hs' hlt
    omega
  · exact heq
  · have := h.apart hs' hs hgt
    omega

theorem locate_of_mem {last start o : Nat} {v : V} (hs : m.get? last = some (start, v))
    (ho : start ≤ o) (ho' : o ≤ last) : locate m o = some ((o - start) +ᵥ v) := by
  unfold locate
  cases hf : m.entries.find? (fun e => decide (e.2.1 ≤ o ∧ o ≤ e.1)) with
  | none =>
    have hnot := List.find?_eq_none.mp hf _ ((OrderedMap.get?_eq_some_iff _ _ _).mp hs)
    exact absurd (decide_eq_true (⟨ho, ho'⟩ : start ≤ o ∧ o ≤ last)) hnot
  | some e =>
    obtain ⟨last', start', v'⟩ := e
    have hin : start' ≤ o ∧ o ≤ last' := by simpa using List.find?_some hf
    have hs' := (OrderedMap.get?_eq_some_iff _ _ _).mpr (List.mem_of_find?_eq_some hf)
    obtain rfl := h.eq_of_mem hs hs' ⟨ho, ho'⟩ hin
    rw [hs] at hs'
    cases hs'
    rfl

theorem locate_eq_some_iff (o : Nat) (w : V) :
    locate m o = some w ↔
      ∃ last start v, m.get? last = some (start, v) ∧ start ≤ o ∧ o ≤ last ∧
        w = (o - start) +ᵥ v := by
  constructor
  · intro hl
    obtain ⟨⟨last, start, v⟩, hf, rfl⟩ := Option.map_eq_some_iff.mp hl
    have hin : start ≤ o ∧ o ≤ last := by simpa using List.find?_some hf
    exact ⟨last, start, v, (OrderedMap.get?_eq_some_iff _ _ _).mpr (List.mem_of_find?_eq_some hf),
      hin.1, hin.2, rfl⟩
  · rintro ⟨last, start, v, hs, ho, ho', rfl⟩
    exact h.locate_of_mem hs ho ho'

theorem locate_eq_none_iff (o : Nat) :
    locate m o = none ↔ ∀ last start v, m.get? last = some (start, v) → start ≤ o → last < o := by
  rw [Option.eq_none_iff_forall_ne_some]
  constructor
  · intro hl last start v hs ho
    by_contra hge
    exact hl _ (h.locate_of_mem hs ho (Nat.le_of_not_lt hge))
  · intro hall w hw
    obtain ⟨last, start, v, hs, ho, ho', -⟩ := (h.locate_eq_some_iff o w).mp hw
    have := hall last start v hs ho
    omega

/-- The first segment that ends at or after an offset decides about the offset. -/
theorem locate_firstFrom (o : Nat) :
    locate m o = (m.firstFrom o).bind fun e =>
      if e.2.1 ≤ o then some ((o - e.2.1) +ᵥ e.2.2) else none := by
  cases hf : m.firstFrom o with
  | none =>
    rw [Option.bind_none, h.locate_eq_none_iff]
    intro last start v hs _
    exact (OrderedMap.firstFrom_eq_none_iff m o).mp hf last _ hs
  | some e =>
    obtain ⟨last, start, v⟩ := e
    obtain ⟨hs, hle, hmin⟩ := (OrderedMap.firstFrom_eq_some_iff m o last (start, v)).mp hf
    simp only [Option.bind_some]
    by_cases ho : start ≤ o
    · rw [if_pos ho]
      exact h.locate_of_mem hs ho hle
    · rw [if_neg ho, h.locate_eq_none_iff]
      intro last' start' v' hs' ho'
      by_contra hge
      have hle' := hmin last' _ hs' (Nat.le_of_not_lt hge)
      rcases Nat.lt_or_eq_of_le hle' with hlt | rfl
      · have h1 := h.apart hs hs' hlt
        have h2 := h.pos hs
        omega
      · rw [hs] at hs'
        cases hs'
        exact ho ho'

end Separate

/-- The segments of `m'` are one for the range from `a` to `b`, with value `v` at its
start, and what is left of the segments of `m` on both sides of it. -/
def Overwritten (m m' : SegmentMap V) (a b : Nat) (v : V) : Prop :=
  ∀ last start w, m'.get? last = some (start, w) ↔
    (last = b - 1 ∧ start = a ∧ w = v) ∨
    (∃ last₀, m.get? last₀ = some (start, w) ∧ start < a ∧ last = min last₀ (a - 1)) ∨
    (∃ start₀ w₀, m.get? last = some (start₀, w₀) ∧ b ≤ last ∧ start = max start₀ b ∧
      w = (start - start₀) +ᵥ w₀)

namespace Overwritten

variable {m m' : SegmentMap V} {a b : Nat} {v : V} (h : Overwritten m m' a b v) (hab : a < b)
  (hm : Separate m)
include h hab hm

theorem separate : Separate m' := by
  constructor
  · intro last start w hs
    rcases (h last start w).mp hs with ⟨rfl, rfl, -⟩ | ⟨last₀, hs₀, hlt, rfl⟩ |
        ⟨start₀, w₀, hs₀, hle, rfl, -⟩
    · omega
    · have := hm.pos hs₀
      omega
    · have := hm.pos hs₀
      omega
  · intro last start w last' start' w' hs hs' hlt
    rcases (h last start w).mp hs with ⟨rfl, rfl, -⟩ | ⟨last₀, hs₀, hlt₀, rfl⟩ |
        ⟨start₀, w₀, hs₀, hle₀, rfl, -⟩
    · rcases (h last' start' w').mp hs' with ⟨rfl, rfl, -⟩ | ⟨last₁, hs₁, hlt₁, rfl⟩ |
          ⟨start₁, w₁, hs₁, hle₁, rfl, -⟩
      all_goals omega
    · rcases (h last' start' w').mp hs' with ⟨rfl, rfl, -⟩ | ⟨last₁, hs₁, hlt₁, rfl⟩ |
          ⟨start₁, w₁, hs₁, hle₁, rfl, -⟩
      · omega
      · have := hm.apart hs₀ hs₁ (by omega)
        omega
      · omega
    · rcases (h last' start' w').mp hs' with ⟨rfl, rfl, -⟩ | ⟨last₁, hs₁, hlt₁, rfl⟩ |
          ⟨start₁, w₁, hs₁, hle₁, rfl, -⟩
      · omega
      · omega
      · have := hm.apart hs₀ hs₁ hlt
        omega

theorem locate_inside {o : Nat} (ho : a ≤ o) (ho' : o < b) :
    locate m' o = some ((o - a) +ᵥ v) :=
  (h.separate hab hm).locate_of_mem ((h (b - 1) a v).mpr (.inl ⟨rfl, rfl, rfl⟩)) ho (by omega)

theorem locate_outside {o : Nat} (ho : o < a ∨ b ≤ o) : locate m' o = locate m o := by
  apply Option.ext
  intro w
  rw [(h.separate hab hm).locate_eq_some_iff, hm.locate_eq_some_iff]
  constructor
  · rintro ⟨last, start, u, hs, hle, hle', rfl⟩
    rcases (h last start u).mp hs with ⟨rfl, rfl, -⟩ | ⟨last₀, hs₀, hlt, rfl⟩ |
        ⟨start₀, w₀, hs₀, hge, rfl, rfl⟩
    · omega
    · exact ⟨last₀, start, u, hs₀, hle, by omega, rfl⟩
    · refine ⟨last, start₀, w₀, hs₀, by omega, hle', ?_⟩
      rw [← add_vadd]
      congr 1
      omega
  · rintro ⟨last, start, u, hs, hle, hle', rfl⟩
    rcases ho with ho | ho
    · exact ⟨min last (a - 1), start, u, (h _ _ _).mpr (.inr (.inl ⟨last, hs, by omega, rfl⟩)), hle,
        by omega, rfl⟩
    · refine ⟨last, max start b, (max start b - start) +ᵥ u,
        (h _ _ _).mpr (.inr (.inr ⟨start, u, hs, by omega, rfl, rfl⟩)), by omega, hle', ?_⟩
      rw [← add_vadd]
      congr 1
      omega

omit hm in
/-- Every segment starts and ends at the bounds of the range or where one of `m` does. -/
theorem aligned {d : Nat} (hd : ∀ {last start u}, m.get? last = some (start, u) →
      d ∣ start ∧ d ∣ last + 1) (ha : d ∣ a) (hb : d ∣ b) {last start : Nat} {w : V}
    (hs : m'.get? last = some (start, w)) : d ∣ start ∧ d ∣ last + 1 := by
  rcases (h last start w).mp hs with ⟨rfl, rfl, -⟩ | ⟨last₀, hs₀, hlt, rfl⟩ |
      ⟨start₀, w₀, hs₀, hge, rfl, -⟩
  · rw [Nat.sub_add_cancel (by omega)]
    exact ⟨ha, hb⟩
  · refine ⟨(hd hs₀).1, ?_⟩
    rcases Nat.le_total last₀ (a - 1) with hle | hle
    · rw [min_eq_left hle]
      exact (hd hs₀).2
    · rw [min_eq_right hle, Nat.sub_add_cancel (by omega)]
      exact ha
  · refine ⟨?_, (hd hs₀).2⟩
    rcases Nat.le_total start₀ b with hle | hle
    · rw [max_eq_right hle]
      exact hb
    · rw [max_eq_left hle]
      exact (hd hs₀).1

end Overwritten

/-- The keys below the last one of the range depend on the front only, the others on the back. -/
theorem overwritten_of_halves {m m' : SegmentMap V} {a b a' b' : Nat} {v : V} (hab : a < b)
    (ha : a' ≤ a) (hb : b ≤ b')
    (hleft : ∀ last start w, last < b - 1 → (m'.get? last = some (start, w) ↔
      ∃ last₀, m.get? last₀ = some (start, w) ∧ start < a' ∧ last = min last₀ (a' - 1)))
    (hright : ∀ last start w, b - 1 ≤ last → (m'.get? last = some (start, w) ↔
      (last = b' - 1 ∧ start = a' ∧ w = v) ∨ ∃ start₀ w₀, m.get? last = some (start₀, w₀) ∧
        b' ≤ last ∧ start = max start₀ b' ∧ w = (start - start₀) +ᵥ w₀)) :
    Overwritten m m' a' b' v := by
  intro last start w
  by_cases hlast : last < b - 1
  · rw [hleft last start w hlast]
    constructor
    · exact fun h => .inr (.inl h)
    · rintro (⟨rfl, -⟩ | h | ⟨start₀, w₀, -, hle, -⟩)
      · omega
      · exact h
      · omega
  · rw [hright last start w (Nat.le_of_not_lt hlast)]
    constructor
    · rintro (h | h)
      · exact .inl h
      · exact .inr (.inr h)
    · rintro (h | ⟨last₀, -, hlt, rfl⟩ | h)
      · exact .inl h
      · omega
      · exact .inr h

section Front

variable {m : SegmentMap V} (hm : Separate m) {a : Nat}
include hm

omit [AddAction ℕ V] in
theorem front_none (hfront : ∀ last start w, m.get? last = some (start, w) → start < a → last + 1 < a)
    (last start : Nat) (w : V) :
    (∃ last₀, m.get? last₀ = some (start, w) ∧ start < a ∧ last = min last₀ (a - 1)) ↔
      m.get? last = some (start, w) ∧ last + 1 < a := by
  constructor
  · rintro ⟨last₀, hs, hlt, rfl⟩
    have := hfront last₀ start w hs hlt
    rw [min_eq_left (by omega)]
    exact ⟨hs, this⟩
  · rintro ⟨hs, hlt⟩
    have := hm.pos hs
    exact ⟨last, hs, by omega, by omega⟩

variable {front start : Nat} {w : V} (hs : m.get? front = some (start, w)) (hlt : start < a)
  (hle : a - 1 ≤ front)
include hs hlt hle

omit [AddAction ℕ V] in
theorem front_keep (last start' : Nat) (w' : V) :
    (∃ last₀, m.get? last₀ = some (start', w') ∧ start' < a ∧ last = min last₀ (a - 1)) ↔
      (last = a - 1 ∧ start' = start ∧ w' = w) ∨ (m.get? last = some (start', w') ∧ last + 1 < a) := by
  constructor
  · rintro ⟨last₀, hs', hlt', rfl⟩
    by_cases hin : last₀ + 1 < a
    · rw [min_eq_left (by omega)]
      exact .inr ⟨hs', hin⟩
    · have heq : last₀ = front :=
        hm.eq_of_mem hs' hs (show start' ≤ a - 1 ∧ a - 1 ≤ last₀ by omega) (by omega)
      subst heq
      rw [hs] at hs'
      cases hs'
      exact .inl ⟨by omega, rfl, rfl⟩
  · rintro (⟨rfl, rfl, rfl⟩ | ⟨hs', hin⟩)
    · exact ⟨front, hs, hlt, by omega⟩
    · have := hm.pos hs'
      exact ⟨last, hs', by omega, by omega⟩

omit [AddAction ℕ V] in
/-- The range is extended to the start of the segment that reaches over its own start. -/
theorem front_merge (last start' : Nat) (w' : V) :
    (∃ last₀, m.get? last₀ = some (start', w') ∧ start' < start ∧ last = min last₀ (start - 1)) ↔
      m.get? last = some (start', w') ∧ last + 1 < a := by
  constructor
  · rintro ⟨last₀, hs', hlt', rfl⟩
    have hbefore : last₀ < start := by
      rcases lt_trichotomy last₀ front with h | rfl | h
      · exact hm.apart hs' hs h
      · rw [hs] at hs'
        cases hs'
        omega
      · have h1 := hm.apart hs hs' h
        have h2 := hm.pos hs
        omega
    rw [min_eq_left (by omega)]
    exact ⟨hs', by omega⟩
  · rintro ⟨hs', hin⟩
    have h1 := hm.apart hs' hs (by omega)
    have h2 := hm.pos hs'
    exact ⟨last, hs', by omega, by omega⟩

end Front

section Back

variable {m : SegmentMap V} (hm : Separate m) {b : Nat} {back start : Nat} {w : V}
  (hback : m.firstFrom (b - 1) = some (back, start, w))
include hm hback

omit [AddAction ℕ V] hm in
theorem back_first : m.get? back = some (start, w) ∧ b - 1 ≤ back ∧
    ∀ last start' w', m.get? last = some (start', w') → b - 1 ≤ last → back ≤ last := by
  obtain ⟨hs, hle, hmin⟩ := (OrderedMap.firstFrom_eq_some_iff m _ _ _).mp hback
  exact ⟨hs, hle, fun last start' w' => hmin last (start', w')⟩

theorem back_beyond (hle : b ≤ start) (last start' : Nat) (w' : V) (hlast : b - 1 ≤ last) :
    (∃ start₀ w₀, m.get? last = some (start₀, w₀) ∧ b ≤ last ∧ start' = max start₀ b ∧
      w' = (start' - start₀) +ᵥ w₀) ↔ m.get? last = some (start', w') := by
  obtain ⟨hs, -, hmin⟩ := back_first hback
  have hstart : ∀ start₀ w₀, m.get? last = some (start₀, w₀) → start ≤ start₀ := by
    intro start₀ w₀ hs'
    rcases Nat.lt_or_eq_of_le (hmin last start₀ w₀ hs' hlast) with hlt | rfl
    · have h1 := hm.apart hs hs' hlt
      have h2 := hm.pos hs
      omega
    · rw [hs] at hs'
      cases hs'
      exact Nat.le_refl _
  constructor
  · rintro ⟨start₀, w₀, hs', hb, rfl, rfl⟩
    have := hstart start₀ w₀ hs'
    rw [max_eq_left (by omega), Nat.sub_self, zero_vadd]
    exact hs'
  · intro hs'
    have h1 := hstart start' w' hs'
    have h2 := hm.pos hs'
    exact ⟨start', w', hs', by omega, by omega, by rw [Nat.sub_self, zero_vadd]⟩

theorem back_merge (last start' : Nat) (w' : V) (hlast : b - 1 ≤ last) :
    (∃ start₀ w₀, m.get? last = some (start₀, w₀) ∧ back + 1 ≤ last ∧ start' = max start₀ (back + 1) ∧
      w' = (start' - start₀) +ᵥ w₀) ↔ last ≠ back ∧ m.get? last = some (start', w') := by
  obtain ⟨hs, -, hmin⟩ := back_first hback
  constructor
  · rintro ⟨start₀, w₀, hs', hb, rfl, rfl⟩
    have := hm.apart hs hs' hb
    rw [max_eq_left (by omega), Nat.sub_self, zero_vadd]
    exact ⟨by omega, hs'⟩
  · rintro ⟨hne, hs'⟩
    have h1 := hmin last start' w' hs' hlast
    have h2 := hm.apart hs hs' (by omega)
    exact ⟨start', w', hs', by omega, by omega, by rw [Nat.sub_self, zero_vadd]⟩

theorem back_cut (hpos : 0 < b) (hlt : start < b) (last start' : Nat) (w' : V)
    (hlast : b - 1 ≤ last) :
    (∃ start₀ w₀, m.get? last = some (start₀, w₀) ∧ b ≤ last ∧ start' = max start₀ b ∧
      w' = (start' - start₀) +ᵥ w₀) ↔
    (last = back ∧ last ≠ b - 1 ∧ start' = b ∧ w' = (b - start) +ᵥ w) ∨
      (last ≠ back ∧ m.get? last = some (start', w')) := by
  obtain ⟨hs, hle, hmin⟩ := back_first hback
  constructor
  · rintro ⟨start₀, w₀, hs', hb, rfl, rfl⟩
    by_cases heq : last = back
    · subst heq
      rw [hs] at hs'
      cases hs'
      rw [max_eq_right (by omega)]
      exact .inl ⟨rfl, by omega, rfl, rfl⟩
    · have h1 := hmin last start₀ w₀ hs' hlast
      have h2 := hm.apart hs hs' (by omega)
      rw [max_eq_left (by omega), Nat.sub_self, zero_vadd]
      exact .inr ⟨heq, hs'⟩
  · rintro (⟨rfl, hne, rfl, rfl⟩ | ⟨hne, hs'⟩)
    · exact ⟨start, w, hs, by omega, by omega, rfl⟩
    · have h1 := hmin last start' w' hs' hlast
      have h2 := hm.apart hs hs' (by omega)
      exact ⟨start', w', hs', by omega, by omega, by rw [Nat.sub_self, zero_vadd]⟩

end Back

/-- The segments of `m'` are those of `m`, but for two that meet at `a` and are one there. The
value of the first goes on in the second. -/
structure MergedAt (m m' : SegmentMap V) (a start last : Nat) (v : V) : Prop where
  pos : 0 < a
  before : m.get? (a - 1) = some (start, v)
  behind : m.get? last = some (a, (a - start) +ᵥ v)
  get : ∀ k, m'.get? k =
    if k = a - 1 then none else if k = last then some (start, v) else m.get? k

namespace MergedAt

variable {m m' : SegmentMap V} {a start last : Nat} {v : V} (hm : MergedAt m m' a start last v)
  (h : Separate m)

include hm in
theorem cases_get {last' start' : Nat} {w : V} (hs : m'.get? last' = some (start', w)) :
    last' ≠ a - 1 ∧ (last' = last ∧ start' = start ∧ w = v
      ∨ last' ≠ last ∧ m.get? last' = some (start', w)) := by
  rw [hm.get] at hs
  split_ifs at hs with h1 h2
  · cases hs
    exact ⟨h1, .inl ⟨h2, rfl, rfl⟩⟩
  · exact ⟨h1, .inr ⟨h2, hs⟩⟩

include hm h in
theorem separate : Separate m' := by
  have hpos := hm.pos
  have hstart := h.pos hm.before
  have hlast := h.pos hm.behind
  constructor
  · intro last' start' w hs
    rcases (hm.cases_get hs).2 with ⟨rfl, rfl, -⟩ | ⟨-, hold⟩
    · omega
    · exact h.pos hold
  · intro last' start' w last'' start'' w' hs hs' hlt
    obtain ⟨hne, hcase⟩ := hm.cases_get hs
    rcases hcase with ⟨rfl, rfl, -⟩ | ⟨-, hold⟩
    · rcases (hm.cases_get hs').2 with ⟨rfl, -, -⟩ | ⟨-, hold'⟩
      · omega
      · exact h.apart hm.behind hold' hlt
    · rcases (hm.cases_get hs').2 with ⟨rfl, rfl, -⟩ | ⟨-, hold'⟩
      · have := h.apart hold hm.behind hlt
        exact h.apart hold hm.before (by omega)
      · exact h.apart hold hold' hlt

include hm h in
theorem locate_eq {o : Nat} {w : V} (hw : locate m o = some w) : locate m' o = some w := by
  have hpos := hm.pos
  have hstart := h.pos hm.before
  have hlast := h.pos hm.behind
  have hnew : m'.get? last = some (start, v) := by
    rw [hm.get, if_neg (by omega), if_pos rfl]
  obtain ⟨last', start', w', hs, hmin, hmax, rfl⟩ := (h.locate_eq_some_iff o w).mp hw
  by_cases h1 : last' = a - 1
  · rw [h1, hm.before] at hs
    cases hs
    exact (hm.separate h).locate_of_mem hnew hmin (by omega)
  · by_cases h2 : last' = last
    · rw [h2, hm.behind] at hs
      cases hs
      rw [(hm.separate h).locate_of_mem hnew (by omega) (by omega), vadd_vadd,
        show o - a + (a - start) = o - start by omega]
    · have hsame : m'.get? last' = some (start', w') := by
        rw [hm.get, if_neg h1, if_neg h2]
        exact hs
      exact (hm.separate h).locate_of_mem hsame hmin hmax

end MergedAt

end Segments
