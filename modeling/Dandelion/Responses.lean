import Dandelion.SystemTransfers
import Mathlib.Data.List.Chain

/-!
# Writing the responses of a request

`response_write` takes space for a response in the output context and puts its preamble and its
body there, one behind the other. The responses are laid out in the order in which they are
written: all gaps before the last region are too small for even one byte.
-/

namespace Dandelion

open Outcome Stateful

/-- What an engine has received for one request. The preamble is a text in UTF-8, with the status
line and all headers. -/
structure ResponseInformation where
  itemName : String
  itemKey : Nat
  preamble : List UInt8
  body : List UInt8
deriving DecidableEq, Repr

/-- The length of the entire response. -/
def ResponseInformation.length (response : ResponseInformation) : Nat :=
  response.preamble.length + response.body.length

/-- `context.write(offset, data)?` -/
def ContextType.tryWrite (context : ContextType) (offset : Nat) (data : List UInt8) :
    DandelionResult ContextType :=
  match context.write offset data with
  | (after, .ok ()) => .ok after
  | (_, .error stop) => .error stop

/-- Push an item to the set at an index, if there is a set. -/
def pushItem (content : List (Option DataSet)) (index : Nat) (item : DataItem) :
    DandelionResult (List (Option DataSet)) :=
  match content[index]? with
  | none => crash
  | some none => pure content
  | some (some set) => pure (content.set index (some { set with buffers := set.buffers ++ [item] }))

def responseWrite (context : Context) (response : ResponseInformation) : DandelionResult Context := do
  let preambleLen := response.preamble.length
  let bodyLen := response.body.length
  let responseLen ← Usize.add .checked preambleLen bodyLen
  -- allocate space in the context for the entire response
  let (responseStart, occupation) ←
    getFreeSpace .checked context.size context.occupation responseLen 128
  let bodyStart ← Usize.add .checked responseStart preambleLen
  let written ← match context.context with
    | .system destination => do
      let destination ← systemContextWriteFromBytes destination response.preamble responseStart
        preambleLen
      let destination ← systemContextWriteFromBytes destination response.body bodyStart bodyLen
      pure (.system destination)
    | .stored _ => do
      let destination ← context.context.tryWrite responseStart response.preamble
      if 0 < bodyLen then destination.tryWrite bodyStart response.body else pure destination
  let content ← pushItem context.content 0
    ⟨response.itemName, ⟨responseStart, responseLen⟩, response.itemKey⟩
  let content ← pushItem content 1
    ⟨response.itemName, ⟨bodyStart, responseLen - preambleLen⟩, response.itemKey⟩
  pure { context with context := written, content, occupation }

/-- The set of a name, if the function has an output of that name. -/
def outputSet (outputSetNames : List String) (name : String) : Option DataSet :=
  if name ∈ outputSetNames then some ⟨name, []⟩ else none

/-- The context with which the debt is fulfilled. -/
def responsesWrite (contextSize : Nat) (outputSetNames : List String)
    (responses : List ResponseInformation) : DandelionResult Context :=
  let outContext := Context.new (.system ⟨OrderedMap.empty, contextSize⟩) contextSize
  if outputSetNames.isEmpty then pure outContext
  else responses.foldlM responseWrite
    { outContext with
      content := [outputSet outputSetNames "response", outputSet outputSetNames "body"] }

/-! ## Layout -/

/-- The first offset from `offset` on at which a response can start. -/
def nextStart (offset : Nat) : Nat := (offset + 127) / 128 * 128

/-- The responses fit one behind the other, from an offset on. -/
def ResponsesFit (contextSize : Nat) : Nat → List ResponseInformation → Prop
  | _, [] => True
  | offset, response :: responses => nextStart offset + response.length ≤ contextSize
    ∧ ResponsesFit contextSize (nextStart offset + response.length) responses

instance decidableResponsesFit (contextSize : Nat) : (offset : Nat) →
    (responses : List ResponseInformation) → Decidable (ResponsesFit contextSize offset responses)
  | _, [] => isTrue trivial
  | offset, response :: responses =>
    have := decidableResponsesFit contextSize (nextStart offset + response.length) responses
    inferInstanceAs (Decidable (_ ∧ _))

theorem le_nextStart (offset : Nat) : offset ≤ nextStart offset := by
  unfold nextStart
  omega

theorem nextMultipleOf_eq {offset : Nat} (h : nextStart offset < Usize.limit) :
    (Usize.nextMultipleOf .checked offset 128 : DandelionResult Nat) = .ok (nextStart offset) := by
  unfold nextStart at h
  rw [Usize.nextMultipleOf, if_neg (by omega)]
  by_cases hzero : offset % 128 = 0
  · rw [if_pos hzero, nextStart, show (offset + 127) / 128 * 128 = offset by omega]
    rfl
  · rw [if_neg hzero, Usize.add_eq_ok (by omega), nextStart]
    congr 1
    omega

theorem eq_nextStart {offset start : Nat}
    (h : (Usize.nextMultipleOf .checked offset 128 : DandelionResult Nat) = .ok start) :
    start = nextStart offset := by
  rw [Usize.nextMultipleOf, if_neg (by omega)] at h
  unfold nextStart
  by_cases hzero : offset % 128 = 0
  · rw [if_pos hzero] at h
    have := Except.ok.inj h
    omega
  · rw [if_neg hzero] at h
    have := (Usize.add_eq_ok_iff.mp h).2
    omega

/-- Each region starts where the next response after the one before it starts. -/
def Packed (occupation : List Position) : Prop :=
  occupation.IsChain fun p q => q.offset = nextStart (p.offset + p.size)

/-- The occupation of a context in which regions follow each other up to `stop`. -/
structure Sequential (contextSize stop : Nat) (occupation : List Position) : Prop where
  inside : ∀ p ∈ occupation, p.offset + p.size ≤ contextSize
  shape : (∃ regions last, occupation = regions ++ [last, ⟨contextSize, 0⟩]
      ∧ Packed (regions ++ [last]) ∧ last.offset + last.size = stop)
    ∨ (stop = contextSize ∧ Packed occupation)

theorem sequential_cleared (contextSize : Nat) :
    Sequential contextSize 0 (clearedOccupation contextSize) where
  inside := by
    intro p hp
    rcases List.mem_cons.mp hp with rfl | hp
    · exact Nat.zero_le _
    · rw [List.mem_singleton.mp hp]
      exact Nat.le_refl _
  shape := .inl ⟨[], ⟨0, 0⟩, rfl, List.IsChain.singleton _, rfl⟩

section Space

variable {contextSize size : Nat} (hlimit : contextSize + 1 < Usize.limit) (hpos : 0 < size)
include hlimit hpos

theorem searchSpace_window {lower upper : Position} {rest : List Position} {index : Nat} {best : Space}
    (hlower : lower.offset + lower.size ≤ contextSize) (hupper : upper.offset ≤ contextSize)
    (hnext : upper.offset = nextStart (lower.offset + lower.size)) :
    searchSpace .checked (Usize.nextMultipleOf .checked · 128) size (lower :: upper :: rest) index best
      = searchSpace .checked (Usize.nextMultipleOf .checked · 128) size (upper :: rest) (index + 1)
        best := by
  rw [searchSpace, Usize.add_eq_ok (by omega), ok_bind, nextMultipleOf_eq (by omega), ok_bind]
  dsimp only
  rw [if_neg (by omega)]

theorem searchSpace_last {regions : List Position} {last : Position} {index : Nat} {best : Space}
    (h : Packed (regions ++ [last]))
    (hinside : ∀ p ∈ regions ++ [last], p.offset + p.size ≤ contextSize)
    (hstart : nextStart (last.offset + last.size) < Usize.limit) :
    searchSpace .checked (Usize.nextMultipleOf .checked · 128) size
        (regions ++ [last, ⟨contextSize, 0⟩]) index best
      = .ok (if size ≤ contextSize - nextStart (last.offset + last.size)
            ∧ contextSize - nextStart (last.offset + last.size) < best.size then
          ⟨contextSize - nextStart (last.offset + last.size), index + regions.length,
            nextStart (last.offset + last.size)⟩
        else best) := by
  induction regions generalizing index with
  | nil =>
    have hlast := hinside last List.mem_cons_self
    rw [List.nil_append, searchSpace, Usize.add_eq_ok (by omega), ok_bind, nextMultipleOf_eq hstart,
      ok_bind]
    rfl
  | cons lower regions ih =>
    obtain ⟨hlower, hrest⟩ := List.forall_mem_cons.mp hinside
    have hcount : index + (lower :: regions).length = index + 1 + regions.length := by
      rw [List.length_cons]
      omega
    rw [hcount]
    cases regions with
    | nil =>
      obtain ⟨hnext, htail⟩ := List.isChain_cons_cons.mp h
      have hupper := hrest last List.mem_cons_self
      rw [List.cons_append, List.nil_append, searchSpace_window hlimit hpos hlower (by omega) hnext]
      exact ih htail hrest
    | cons upper regions =>
      obtain ⟨hnext, htail⟩ := List.isChain_cons_cons.mp h
      have hupper := hrest upper List.mem_cons_self
      rw [List.cons_append, List.cons_append,
        searchSpace_window hlimit hpos hlower (by omega) hnext]
      exact ih htail hrest

omit hpos in
/-- A region is merged with the end of the context if it reaches it. -/
theorem absorb_last (region : Position) (hinside : region.offset + region.size ≤ contextSize) :
    ∃ tail, absorb .checked region [⟨contextSize, 0⟩] = .ok (region :: tail)
      ∧ (tail = [⟨contextSize, 0⟩] ∨ tail = [] ∧ region.offset + region.size = contextSize) := by
  rw [absorb, Usize.add_eq_ok (by omega), ok_bind]
  dsimp only
  by_cases hmeet : contextSize ≤ region.offset + region.size
  · have hsame : contextSize - region.offset + 0 = region.size := by omega
    refine ⟨[], ?_, .inr ⟨rfl, by omega⟩⟩
    rw [if_pos hmeet, Usize.sub_eq_ok (by omega), ok_bind, Usize.add_eq_ok (by omega), ok_bind, hsame]
    rfl
  · rw [if_neg hmeet]
    exact ⟨_, rfl, .inl rfl⟩

omit hlimit hpos in
/-- Packed regions with the end of the context behind them, unless the last one has reached it. -/
theorem sequential_of_packed {front tail : List Position} {region : Position}
    (h : Packed (front ++ [region])) (hfront : ∀ p ∈ front, p.offset + p.size ≤ contextSize)
    (hregion : region.offset + region.size ≤ contextSize)
    (htail : tail = [⟨contextSize, 0⟩] ∨ tail = [] ∧ region.offset + region.size = contextSize) :
    Sequential contextSize (region.offset + region.size) (front ++ region :: tail) := by
  rcases htail with rfl | ⟨rfl, hfull⟩
  · refine ⟨fun p hp => ?_, .inl ⟨front, region, rfl, h, rfl⟩⟩
    rcases List.mem_append.mp hp with hp | hp
    · exact hfront p hp
    · rcases List.mem_cons.mp hp with rfl | hp
      · exact hregion
      · rw [List.mem_singleton.mp hp]
        exact Nat.le_refl _
  · refine ⟨fun p hp => ?_, .inr ⟨hfull, h⟩⟩
    rcases List.mem_append.mp hp with hp | hp
    · exact hfront p hp
    · rw [List.mem_singleton.mp hp]
      exact hregion

omit hpos in
/-- A region that starts at the next start is inserted behind packed regions. -/
theorem insertOccupation_last {regions : List Position} {last : Position}
    (h : Packed (regions ++ [last]))
    (hinside : ∀ p ∈ regions ++ [last], p.offset + p.size ≤ contextSize)
    (hfits : nextStart (last.offset + last.size) + size ≤ contextSize) :
    ∃ occupation, insertOccupation .checked (regions ++ [last, ⟨contextSize, 0⟩]) regions.length
        (nextStart (last.offset + last.size)) size = .ok occupation
      ∧ Sequential contextSize (nextStart (last.offset + last.size) + size) occupation := by
  have hlast := hinside last (List.mem_append_right _ List.mem_cons_self)
  have hregions : ∀ p ∈ regions, p.offset + p.size ≤ contextSize :=
    fun p hp => hinside p (List.mem_append_left _ hp)
  have hle := le_nextStart (last.offset + last.size)
  have hget : (regions ++ [last, ⟨contextSize, 0⟩])[regions.length]? = some last := by
    rw [List.getElem?_append_right (Nat.le_refl _), Nat.sub_self]
    rfl
  have hsplit : regions ++ [last, ⟨contextSize, 0⟩] = (regions ++ [last]) ++ [⟨contextSize, 0⟩] :=
    List.append_cons ..
  have hcount : (regions ++ [last]).length = regions.length + 1 := List.length_append
  have htake : (regions ++ [last, ⟨contextSize, 0⟩]).take (regions.length + 1) = regions ++ [last] := by
    rw [hsplit, ← hcount, List.take_left]
  have hdrop : (regions ++ [last, ⟨contextSize, 0⟩]).drop (regions.length + 1) = [⟨contextSize, 0⟩] := by
    rw [hsplit, ← hcount, List.drop_left]
  rw [insertOccupation, hget]
  dsimp only
  rw [Usize.add_eq_ok (by omega), ok_bind, hdrop, htake, List.take_left]
  by_cases hseam : last.offset + last.size = nextStart (last.offset + last.size)
  · have hgrown : last.offset + (nextStart (last.offset + last.size) - last.offset + size)
        = nextStart (last.offset + last.size) + size := by omega
    have hroom : last.offset + (nextStart (last.offset + last.size) - last.offset + size)
        ≤ contextSize := by omega
    obtain ⟨tail, habsorb, htail⟩ := absorb_last hlimit
      ⟨last.offset, nextStart (last.offset + last.size) - last.offset + size⟩ hroom
    rw [← hgrown]
    refine ⟨_, ?_, sequential_of_packed ?_ hregions hroom htail⟩
    · rw [if_pos hseam, Usize.sub_eq_ok (by omega), ok_bind, Usize.add_eq_ok (by omega), ok_bind,
        habsorb]
      rfl
    · obtain ⟨hfront, -, hcross⟩ := List.isChain_append.mp h
      exact List.isChain_append.mpr ⟨hfront, List.IsChain.singleton _, fun p hp q hq => by
        rw [← Option.mem_some_iff.mp hq]
        exact hcross p hp last rfl⟩
  · obtain ⟨tail, habsorb, htail⟩ := absorb_last hlimit
      ⟨nextStart (last.offset + last.size), size⟩ hfits
    refine ⟨_, ?_, sequential_of_packed ?_ hinside hfits htail⟩
    · rw [if_neg hseam, habsorb]
      rfl
    · exact List.isChain_append.mpr ⟨h, List.IsChain.singleton _, fun p hp q hq => by
        rw [List.getLast?_concat] at hp
        rw [← Option.mem_some_iff.mp hq, ← Option.mem_some_iff.mp hp]⟩

/-- The space for the next response: it starts behind all others, if it fits there. -/
theorem getFreeSpace_sequential {stop : Nat} {occupation : List Position}
    (h : Sequential contextSize stop occupation) (hfits : nextStart stop + size ≤ contextSize) :
    ∃ occupation', getFreeSpace .checked contextSize occupation size 128
        = .ok (nextStart stop, occupation')
      ∧ Sequential contextSize (nextStart stop + size) occupation' := by
  have hle := le_nextStart stop
  rcases h.shape with ⟨regions, last, rfl, hpacked, rfl⟩ | ⟨rfl, -⟩
  · have hinside : ∀ p ∈ regions ++ [last], p.offset + p.size ≤ contextSize := by
      intro p hp
      apply h.inside p
      rw [List.append_cons]
      exact List.mem_append_left _ hp
    obtain ⟨occupation', hinsert, hafter⟩ := insertOccupation_last hlimit hpacked hinside hfits
    have hfind : findSpace .checked (Usize.nextMultipleOf .checked · 128) contextSize
        (regions ++ [last, ⟨contextSize, 0⟩]) size
        = .ok ⟨contextSize - nextStart (last.offset + last.size), regions.length,
          nextStart (last.offset + last.size)⟩ := by
      have hsearch : searchSpace .checked _ size _ 0 ⟨contextSize + 1, 0, 0⟩ = _ :=
        searchSpace_last hlimit hpos hpacked hinside (by omega)
      rw [if_pos (by dsimp only; omega), Nat.zero_add] at hsearch
      rw [findSpace, Usize.add_eq_ok (by omega), ok_bind, hsearch, ok_bind,
        if_neg (by dsimp only; omega)]
      rfl
    refine ⟨occupation', ?_, hafter⟩
    rw [getFreeSpace, hfind, ok_bind, hinsert]
    rfl
  · omega

omit hlimit in
theorem Packed.no_room {front back : List Position} {lower upper : Position} {space : Space}
    (h : Packed (front ++ lower :: upper :: back))
    (hfits : FitsGap (Usize.nextMultipleOf .checked · 128) size lower upper space) : False := by
  obtain ⟨-, hchain, -⟩ := List.isChain_append.mp h
  have hnext := (List.isChain_cons_cons.mp hchain).1
  have hstart := eq_nextStart hfits.start_eq
  have hsize := hfits.size_eq
  have hle := hfits.size_le
  omega

omit hlimit in
theorem fits_of_getFreeSpace {stop : Nat} {occupation : List Position} {found : Nat × List Position}
    (h : Sequential contextSize stop occupation)
    (hok : getFreeSpace .checked contextSize occupation size 128 = .ok found) :
    nextStart stop + size ≤ contextSize := by
  obtain ⟨space, hfind, -⟩ := (bind_eq_ok_iff _ _ _).mp hok
  obtain ⟨front, lower, upper, back, hsplit, -, hfits⟩ := findSpace_ok hfind
  rcases h.shape with ⟨regions, last, rfl, hpacked, rfl⟩ | ⟨-, hpacked⟩
  · rcases List.eq_nil_or_concat back with rfl | ⟨back, final, rfl⟩
    · -- the window at the end
      obtain ⟨-, hlast⟩ := List.append_inj' hsplit rfl
      obtain ⟨rfl, rfl⟩ : last = lower ∧ (⟨contextSize, 0⟩ : Position) = upper := by simpa using hlast
      have hstart := eq_nextStart hfits.start_eq
      have hsize := hfits.size_eq
      have hle := hfits.size_le
      dsimp only at hsize
      omega
    · rw [List.append_cons, List.concat_eq_append, ← List.cons_append, ← List.cons_append,
        ← List.append_assoc] at hsplit
      obtain ⟨hregions, -⟩ := List.append_inj' hsplit rfl
      rw [hregions] at hpacked
      exact (hpacked.no_room hpos hfits).elim
  · rw [hsplit] at hpacked
    exact (hpacked.no_room hpos hfits).elim

end Space

end Dandelion
