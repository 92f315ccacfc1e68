import Dandelion.GuestOutput

/-!
# When reading the output cannot panic

The checks of `read_output_structs` compare the function's values only after they
have been added up, and the offsets of the output sets only with the sentinel. The
condition given here lists the sums and indices that are reached before an error
is reported; the call returns exactly when all of them are in range.
-/

namespace Dandelion

open Outcome Usize

theorem Allocator.fits_le {alloc : Allocator} {bytes : Nat} (h : alloc.fits bytes = true) :
    bytes ≤ isizeMax := by
  unfold fits at h
  by_cases h0 : bytes = 0
  · rw [h0]
    exact Nat.zero_le _
  · simp only [h0, decide_false, Bool.false_or, Bool.and_eq_true, decide_eq_true_eq] at h
    exact h.1

@[simp] theorem returns_tryReserve (alloc : Allocator) (elementSize count : Nat) :
    Returns (tryReserve alloc elementSize count) := by
  unfold tryReserve
  split
  · exact returns_pure _
  · exact returns_fail _

theorem tryReserve_ok_iff (alloc : Allocator) (elementSize count : Nat) (u : Unit) :
    tryReserve alloc elementSize count = .ok u ↔ alloc.fits (elementSize * count) = true := by
  unfold tryReserve
  by_cases h : alloc.fits (elementSize * count) = true
  · rw [if_pos h]
    exact ⟨fun _ => h, fun _ => rfl⟩
  · rw [if_neg h]
    refine ⟨fun he => ?_, fun he => absurd he h⟩
    cases he

section Memory

variable {memory : List UInt8}

/-- The bytes can be read at this alignment. -/
def Readable (memory : List UInt8) (align offset size : Nat) : Prop :=
  offset % align = 0 ∧ offset + size ≤ memory.length

theorem readMemory_eq_ok {align offset size : Nat} (hmem : memory.length < limit)
    (h : Readable memory align offset size) :
    readMemory .checked memory align offset size = .ok ((memory.drop offset).take size) := by
  have hlt : offset + size < limit := h.2.trans_lt hmem
  rw [readMemory, if_neg (not_not.mpr h.1), add_eq_ok hlt]
  change (if memory.length < offset + size then _ else _) = _
  rw [if_neg (Nat.not_lt.mpr h.2), slice, if_pos ⟨Nat.le_add_right _ _, h.2⟩,
    Nat.add_sub_cancel_left]
  rfl

theorem readMemory_ok {align offset size : Nat} {bytes : List UInt8}
    (h : readMemory .checked memory align offset size = .ok bytes) :
    Readable memory align offset size := by
  unfold readMemory at h
  split at h
  · cases h
  · rename_i halign
    obtain ⟨readEnd, hadd, h⟩ := (bind_eq_ok_iff _ _ _).mp h
    obtain ⟨-, rfl⟩ := add_eq_ok_iff.mp hadd
    split at h
    · cases h
    · rename_i hend
      exact ⟨not_not.mp halign, Nat.not_lt.mp hend⟩

theorem returns_readMemory (hmem : memory.length < limit) (align offset size : Nat) :
    Returns (readMemory .checked memory align offset size) ↔
      (offset % align = 0 → offset + size < limit) := by
  by_cases halign : offset % align = 0
  · simp only [halign, forall_const]
    constructor
    · intro h
      rw [readMemory, if_neg (not_not.mpr halign), returns_bind, returns_add] at h
      exact h.1
    · intro hlt
      by_cases hend : offset + size ≤ memory.length
      · rw [readMemory_eq_ok hmem ⟨halign, hend⟩]
        exact returns_ok _
      · rw [readMemory, if_neg (not_not.mpr halign), add_eq_ok hlt]
        change Returns (if memory.length < offset + size then _ else _)
        rw [if_pos (Nat.lt_of_not_le hend)]
        exact returns_fail _
  · rw [readMemory, if_pos halign]
    simp [halign]

/-- An identifier whose allocation and address computation succeed. -/
def IdentFits (alloc : Allocator) (offset length : Nat) : Prop :=
  alloc.fits length = true ∧ offset + length < limit

/-- An identifier that lies in the memory and is valid text. -/
def IdentDecodes (memory : List UInt8) (offset length : Nat) : Prop :=
  offset + length ≤ memory.length ∧
    (String.fromUTF8? ⟨((memory.drop offset).take length).toArray⟩).isSome

theorem returns_fromUtf8 (bytes : List UInt8) : Returns (fromUtf8 bytes) := by
  unfold fromUtf8
  split
  · exact returns_pure _
  · exact returns_fail _

theorem returns_readIdent (hmem : memory.length < limit) (alloc : Allocator) (offset length : Nat) :
    Returns (readIdent .checked alloc memory offset length) ↔ IdentFits alloc offset length := by
  unfold readIdent vecZeroed IdentFits
  by_cases hfits : alloc.fits length = true
  · rw [if_pos hfits, pure_bind, returns_bind, returns_readMemory hmem]
    simp [hfits, Nat.mod_one, returns_fromUtf8]
  · rw [if_neg hfits]
    constructor
    · intro h
      exact absurd ((returns_bind _ _).mp h).1 not_returns_crash
    · exact fun h => absurd h.1 hfits

theorem readIdent_ok_iff (hmem : memory.length < limit) {alloc : Allocator} {offset length : Nat}
    (hfits : IdentFits alloc offset length) :
    (∃ s, readIdent .checked alloc memory offset length = .ok s) ↔
      IdentDecodes memory offset length := by
  unfold readIdent vecZeroed IdentDecodes
  rw [if_pos hfits.1, pure_bind]
  constructor
  · rintro ⟨s, h⟩
    obtain ⟨bytes, hread, h⟩ := (bind_eq_ok_iff _ _ _).mp h
    have hin := readMemory_ok hread
    rw [readMemory_eq_ok hmem hin] at hread
    cases hread
    refine ⟨hin.2, ?_⟩
    unfold fromUtf8 at h
    split at h
    · rename_i hs
      rw [hs]
      rfl
    · cases h
  · rintro ⟨hin, hutf⟩
    obtain ⟨s, hs⟩ := Option.isSome_iff_exists.mp hutf
    refine ⟨s, ?_⟩
    rw [readMemory_eq_ok hmem ⟨Nat.mod_one _, hin⟩]
    change fromUtf8 _ = _
    rw [fromUtf8, hs]
    rfl

theorem returns_identString (hmem : memory.length < limit) (alloc : Allocator)
    (setIdentLen offset length : Nat) :
    Returns (identString .checked alloc memory setIdentLen offset length) ↔
      (0 < setIdentLen → IdentFits alloc offset length) := by
  unfold identString
  by_cases hpos : 0 < setIdentLen
  · simp [hpos, returns_readIdent hmem]
  · simp [hpos]

theorem identString_ok_iff (hmem : memory.length < limit) {alloc : Allocator}
    {setIdentLen offset length : Nat} (hfits : 0 < setIdentLen → IdentFits alloc offset length) :
    (∃ s, identString .checked alloc memory setIdentLen offset length = .ok s) ↔
      (0 < setIdentLen → IdentDecodes memory offset length) := by
  unfold identString
  by_cases hpos : 0 < setIdentLen
  · simp only [hpos, if_true, forall_const]
    exact readIdent_ok_iff hmem (hfits hpos)
  · simp only [hpos, if_false, false_imp_iff, iff_true]
    exact ⟨"", rfl⟩

end Memory

section Items

variable (alloc : Allocator) (ctx : FlatContext) (buffers : List IoBufferDescriptor)

/-- The sums for an item stay in range, as far as they are reached. -/
def ItemFits (setIdentLen : Nat) (buffer : IoBufferDescriptor) : Prop :=
  (0 < setIdentLen → IdentFits alloc buffer.ident buffer.identLen) ∧
    ((0 < setIdentLen → IdentDecodes ctx.memory buffer.ident buffer.identLen) →
      buffer.data + buffer.dataLen < limit)

/-- The item is decoded without an error. -/
def ItemDecodes (setIdentLen : Nat) (buffer : IoBufferDescriptor) : Prop :=
  (0 < setIdentLen → IdentDecodes ctx.memory buffer.ident buffer.identLen) ∧
    buffer.data + buffer.dataLen ≤ ctx.size

/-- Every buffer index of the range that is reached names a descriptor that fits. -/
def ItemsFit (setIdentLen first past : Nat) : Prop :=
  ∀ i, first ≤ i → i < past →
    (∀ j, first ≤ j → j < i → ∃ b, buffers[j]? = some b ∧ ItemDecodes ctx setIdentLen b) →
    ∃ b, buffers[i]? = some b ∧ ItemFits alloc ctx setIdentLen b

def ItemsDecode (setIdentLen first past : Nat) : Prop :=
  ∀ i, first ≤ i → i < past → ∃ b, buffers[i]? = some b ∧ ItemDecodes ctx setIdentLen b

variable {alloc ctx buffers}

theorem itemsFit_succ {setIdentLen first count : Nat} {b : IoBufferDescriptor}
    (hb : buffers[first]? = some b) :
    ItemsFit alloc ctx buffers setIdentLen first (first + (count + 1)) ↔
      ItemFits alloc ctx setIdentLen b ∧ (ItemDecodes ctx setIdentLen b →
        ItemsFit alloc ctx buffers setIdentLen (first + 1) (first + 1 + count)) := by
  constructor
  · intro h
    constructor
    · obtain ⟨b', hb', hfits⟩ := h first (Nat.le_refl _) (by omega) (fun j _ _ => by omega)
      rw [hb] at hb'
      cases hb'
      exact hfits
    · intro hdec i hi hlt hprev
      refine h i (by omega) (by omega) (fun j hj hji => ?_)
      by_cases hjf : j = first
      · rw [hjf]
        exact ⟨b, hb, hdec⟩
      · exact hprev j (by omega) hji
  · rintro ⟨hfits, hrest⟩ i hi hlt hprev
    by_cases hif : i = first
    · rw [hif]
      exact ⟨b, hb, hfits⟩
    · obtain ⟨b', hb', hdec⟩ := hprev first (Nat.le_refl _) (by omega)
      rw [hb] at hb'
      cases hb'
      exact hrest hdec i (by omega) (by omega) (fun j hj hji => hprev j (by omega) hji)

theorem itemsDecode_succ {setIdentLen first count : Nat} {b : IoBufferDescriptor}
    (hb : buffers[first]? = some b) :
    ItemsDecode ctx buffers setIdentLen first (first + (count + 1)) ↔
      ItemDecodes ctx setIdentLen b ∧
        ItemsDecode ctx buffers setIdentLen (first + 1) (first + 1 + count) := by
  constructor
  · intro h
    constructor
    · obtain ⟨b', hb', hdec⟩ := h first (Nat.le_refl _) (by omega)
      rw [hb] at hb'
      cases hb'
      exact hdec
    · exact fun i hi hlt => h i (by omega) (by omega)
  · rintro ⟨hdec, hrest⟩ i hi hlt
    by_cases hif : i = first
    · rw [hif]
      exact ⟨b, hb, hdec⟩
    · exact hrest i (by omega) (by omega)

/-- The loop over the items of a set returns exactly when every item that is reached fits. -/
theorem returns_readItems {setIdentLen : Nat} (count first : Nat) {occupation : List Position}
    (hocc : InContext ctx.size occupation) :
    Returns (readItems .checked alloc ctx buffers setIdentLen count first occupation) ↔
      ItemsFit alloc ctx buffers setIdentLen first (first + count) := by
  induction count generalizing first occupation with
  | zero =>
    simp only [readItems, returns_pure, true_iff]
    intro i hi hlt
    omega
  | succ count ih =>
    rw [readItems]
    cases hb : buffers[first]? with
    | none =>
      constructor
      · exact fun h => absurd h not_returns_crash
      · intro h
        obtain ⟨b, hb', -⟩ := h first (Nat.le_refl _) (by omega) (fun j _ _ => by omega)
        rw [hb] at hb'
        cases hb'
    | some b =>
      rw [itemsFit_succ hb, returns_bind, returns_identString ctx.memory_lt]
      constructor
      · rintro ⟨hident, hnext⟩
        refine ⟨⟨hident, fun hdec => ?_⟩, fun hdec => ?_⟩
        · obtain ⟨s, hs⟩ := (identString_ok_iff ctx.memory_lt hident).mpr hdec
          have hret := hnext s hs
          rw [returns_bind, occupySpace_returns ctx.size_lt hocc] at hret
          exact hret.1
        · obtain ⟨s, hs⟩ := (identString_ok_iff ctx.memory_lt hident).mpr hdec.1
          have hret := hnext s hs
          rw [returns_bind] at hret
          obtain ⟨merged, hok, hin⟩ := occupySpace_inside ctx.size_lt hocc hdec.2
          have hrest := hret.2 merged hok
          rw [returns_bind] at hrest
          exact (ih (first + 1) hin).mp hrest.1
      · rintro ⟨⟨hident, hdata⟩, hrest⟩
        refine ⟨hident, fun s hs => ?_⟩
        have hdec := (identString_ok_iff ctx.memory_lt hident).mp ⟨s, hs⟩
        rw [returns_bind, occupySpace_returns ctx.size_lt hocc]
        refine ⟨hdata hdec, fun merged hok => ?_⟩
        have hle := occupySpace_ok_le hok
        obtain ⟨merged', hok', hin⟩ := occupySpace_inside ctx.size_lt hocc hle
        rw [hok] at hok'
        cases hok'
        rw [returns_bind]
        exact ⟨(ih (first + 1) hin).mpr (hrest ⟨hdec, hle⟩), fun _ _ => returns_pure _⟩

theorem readItems_ok_iff {setIdentLen : Nat} (count first : Nat) {occupation : List Position}
    (hocc : InContext ctx.size occupation)
    (hfit : ItemsFit alloc ctx buffers setIdentLen first (first + count)) :
    (∃ r, readItems .checked alloc ctx buffers setIdentLen count first occupation = .ok r) ↔
      ItemsDecode ctx buffers setIdentLen first (first + count) := by
  induction count generalizing first occupation with
  | zero =>
    refine iff_of_true ⟨_, rfl⟩ (fun i hi hlt => ?_)
    omega
  | succ count ih =>
    obtain ⟨b, hb, -⟩ := hfit first (Nat.le_refl _) (by omega) (fun j _ _ => by omega)
    obtain ⟨hitem, hrest⟩ := (itemsFit_succ hb).mp hfit
    rw [itemsDecode_succ hb, readItems, hb]
    constructor
    · rintro ⟨r, h⟩
      obtain ⟨s, hs, h⟩ := (bind_eq_ok_iff _ _ _).mp h
      obtain ⟨merged, hmerged, h⟩ := (bind_eq_ok_iff _ _ _).mp h
      obtain ⟨r', hr', -⟩ := (bind_eq_ok_iff _ _ _).mp h
      have hdec : ItemDecodes ctx setIdentLen b :=
        ⟨(identString_ok_iff ctx.memory_lt hitem.1).mp ⟨s, hs⟩, occupySpace_ok_le hmerged⟩
      obtain ⟨merged', hok, hin⟩ := occupySpace_inside ctx.size_lt hocc hdec.2
      rw [hmerged] at hok
      cases hok
      exact ⟨hdec, (ih (first + 1) hin (hrest hdec)).mp ⟨r', hr'⟩⟩
    · rintro ⟨hdec, hmore⟩
      obtain ⟨s, hs⟩ := (identString_ok_iff ctx.memory_lt hitem.1).mpr hdec.1
      obtain ⟨merged, hok, hin⟩ := occupySpace_inside ctx.size_lt hocc hdec.2
      obtain ⟨⟨items, occupation'⟩, hr⟩ := (ih (first + 1) hin (hrest hdec)).mpr hmore
      refine ⟨_, (bind_eq_ok_iff _ _ _).mpr ⟨s, hs, (bind_eq_ok_iff _ _ _).mpr ⟨merged, hok,
        (bind_eq_ok_iff _ _ _).mpr ⟨_, hr, rfl⟩⟩⟩⟩

theorem readItems_inContext {setIdentLen : Nat} (count first : Nat) {occupation : List Position}
    (hocc : InContext ctx.size occupation) {r : List DataItem × List Position}
    (h : readItems .checked alloc ctx buffers setIdentLen count first occupation = .ok r) :
    InContext ctx.size r.2 := by
  induction count generalizing first occupation r with
  | zero =>
    cases h
    exact hocc
  | succ count ih =>
    rw [readItems] at h
    cases hb : buffers[first]? with
    | none =>
      rw [hb] at h
      cases h
    | some b =>
      simp only [hb] at h
      obtain ⟨s, -, h⟩ := (bind_eq_ok_iff _ _ _).mp h
      obtain ⟨merged, hmerged, h⟩ := (bind_eq_ok_iff _ _ _).mp h
      obtain ⟨r', hr', h⟩ := (bind_eq_ok_iff _ _ _).mp h
      obtain ⟨merged', hok, hin⟩ := occupySpace_inside ctx.size_lt hocc (occupySpace_ok_le hmerged)
      rw [hmerged] at hok
      cases hok
      have hrest := ih (first + 1) hin hr'
      cases h
      exact hrest

end Items

section Sets

variable (alloc : Allocator) (ctx : FlatContext) (buffers : List IoBufferDescriptor)

/-- The sums and indices for a set stay in range, as far as they are reached. -/
def SetFits (info : IoSetInfo) (past : Nat) : Prop :=
  info.offset < past →
    (0 < info.identLen → IdentFits alloc info.ident info.identLen) ∧
    ((0 < info.identLen → IdentDecodes ctx.memory info.ident info.identLen) →
      alloc.fits (dataItemSize * (past - info.offset)) = true →
      ItemsFit alloc ctx buffers info.identLen info.offset past)

/-- The set is decoded without an error. -/
def SetDecodes (info : IoSetInfo) (past : Nat) : Prop :=
  info.offset < past →
    (0 < info.identLen → IdentDecodes ctx.memory info.ident info.identLen) ∧
    alloc.fits (dataItemSize * (past - info.offset)) = true ∧
    ItemsDecode ctx buffers info.identLen info.offset past

/-- Every set that is reached fits; its buffers end where those of the next one start. -/
def SetsFit : List IoSetInfo → Prop
  | info :: next :: rest => SetFits alloc ctx buffers info next.offset ∧
      (SetDecodes alloc ctx buffers info next.offset → SetsFit (next :: rest))
  | _ => True

variable {alloc ctx buffers}

theorem setsFit_congr {content : List (Option DataSet)} {state : ContextState}
    {occupation : List Position} (sets : List IoSetInfo) :
    SetsFit alloc { ctx with content, state, occupation } buffers sets ↔
      SetsFit alloc ctx buffers sets := by
  induction sets with
  | nil => exact Iff.rfl
  | cons info rest ih =>
    cases rest with
    | nil => exact Iff.rfl
    | cons next rest => exact and_congr_right fun _ => imp_congr_right fun _ => ih

theorem returns_readSet {info : IoSetInfo} {past : Nat} {occupation : List Position}
    (hocc : InContext ctx.size occupation) :
    Returns (readSet .checked alloc ctx buffers info past occupation) ↔
      SetFits alloc ctx buffers info past := by
  unfold readSet SetFits
  by_cases hpast : past ≤ info.offset
  · rw [if_pos hpast]
    simp [Nat.not_lt.mpr hpast]
  · have hlt : info.offset < past := Nat.lt_of_not_le hpast
    have hsum : info.offset + (past - info.offset) = past := by omega
    rw [if_neg hpast, returns_bind, returns_identString ctx.memory_lt]
    simp only [hlt, forall_const]
    have hitems : Returns (readItems .checked alloc ctx buffers info.identLen
        (past - info.offset) info.offset occupation) ↔
        ItemsFit alloc ctx buffers info.identLen info.offset (info.offset + (past - info.offset)) :=
      returns_readItems _ _ hocc
    rw [hsum] at hitems
    refine and_congr_right fun hident => ?_
    constructor
    · intro hnext hdec hfits
      obtain ⟨s, hs⟩ := (identString_ok_iff ctx.memory_lt hident).mpr hdec
      have hret := hnext s hs
      rw [returns_bind] at hret
      have hrest := hret.2 () ((tryReserve_ok_iff _ _ _ _).mpr hfits)
      rw [returns_bind] at hrest
      exact hitems.mp hrest.1
    · intro hnext s hs
      have hdec := (identString_ok_iff ctx.memory_lt hident).mp ⟨s, hs⟩
      rw [returns_bind]
      refine ⟨returns_tryReserve _ _ _, fun u hu => ?_⟩
      rw [returns_bind]
      exact ⟨hitems.mpr (hnext hdec ((tryReserve_ok_iff _ _ _ _).mp hu)), fun _ _ => returns_pure _⟩

theorem readSet_ok_iff {info : IoSetInfo} {past : Nat} {occupation : List Position}
    (hocc : InContext ctx.size occupation) (hfit : SetFits alloc ctx buffers info past) :
    (∃ r, readSet .checked alloc ctx buffers info past occupation = .ok r) ↔
      SetDecodes alloc ctx buffers info past := by
  unfold readSet SetDecodes
  by_cases hpast : past ≤ info.offset
  · rw [if_pos hpast]
    exact iff_of_true ⟨_, rfl⟩ (fun hlt => absurd hlt (Nat.not_lt.mpr hpast))
  · have hlt : info.offset < past := Nat.lt_of_not_le hpast
    obtain ⟨hident, hitemsFit⟩ := hfit hlt
    have hsum : info.offset + (past - info.offset) = past := by omega
    rw [if_neg hpast]
    simp only [hlt, forall_const]
    constructor
    · rintro ⟨r, h⟩
      obtain ⟨s, hs, h⟩ := (bind_eq_ok_iff _ _ _).mp h
      obtain ⟨u, hu, h⟩ := (bind_eq_ok_iff _ _ _).mp h
      obtain ⟨r', hr', -⟩ := (bind_eq_ok_iff _ _ _).mp h
      have hdec := (identString_ok_iff ctx.memory_lt hident).mp ⟨s, hs⟩
      have hfits := (tryReserve_ok_iff _ _ _ _).mp hu
      have hall := (readItems_ok_iff _ _ hocc (hsum.symm ▸ hitemsFit hdec hfits)).mp ⟨r', hr'⟩
      exact ⟨hdec, hfits, hsum ▸ hall⟩
    · rintro ⟨hdec, hfits, hall⟩
      obtain ⟨s, hs⟩ := (identString_ok_iff ctx.memory_lt hident).mpr hdec
      obtain ⟨⟨items, occupation'⟩, hr⟩ := (readItems_ok_iff (past - info.offset) info.offset hocc
        (hsum.symm ▸ hitemsFit hdec hfits)).mpr (hsum.symm ▸ hall)
      exact ⟨_, (bind_eq_ok_iff _ _ _).mpr ⟨s, hs, (bind_eq_ok_iff _ _ _).mpr
        ⟨(), (tryReserve_ok_iff _ _ _ _).mpr hfits, (bind_eq_ok_iff _ _ _).mpr ⟨_, hr, rfl⟩⟩⟩⟩

theorem readSet_inContext {info : IoSetInfo} {past : Nat} {occupation : List Position}
    (hocc : InContext ctx.size occupation) {r : Option DataSet × List Position}
    (h : readSet .checked alloc ctx buffers info past occupation = .ok r) :
    InContext ctx.size r.2 := by
  unfold readSet at h
  split at h
  · cases h
    exact hocc
  · obtain ⟨s, -, h⟩ := (bind_eq_ok_iff _ _ _).mp h
    obtain ⟨u, -, h⟩ := (bind_eq_ok_iff _ _ _).mp h
    obtain ⟨r', hr', h⟩ := (bind_eq_ok_iff _ _ _).mp h
    have hitems := readItems_inContext _ _ hocc hr'
    cases h
    exact hitems

theorem returns_readSets (sets : List IoSetInfo) {occupation : List Position}
    (hocc : InContext ctx.size occupation) :
    Returns (readSets .checked alloc ctx buffers sets occupation) ↔
      SetsFit alloc ctx buffers sets := by
  induction sets generalizing occupation with
  | nil => simp [readSets, SetsFit]
  | cons info rest ih =>
    cases rest with
    | nil => simp [readSets, SetsFit]
    | cons next rest =>
      rw [readSets, SetsFit, returns_bind, returns_readSet hocc]
      refine and_congr_right fun hfit => ?_
      constructor
      · intro hnext hdec
        obtain ⟨r, hr⟩ := (readSet_ok_iff hocc hfit).mpr hdec
        have hret := hnext r hr
        rw [returns_bind] at hret
        exact (ih (readSet_inContext hocc hr)).mp hret.1
      · intro hnext r hr
        rw [returns_bind]
        exact ⟨(ih (readSet_inContext hocc hr)).mpr (hnext ((readSet_ok_iff hocc hfit).mp ⟨r, hr⟩)),
          fun _ _ => returns_pure _⟩

end Sets

section Output

variable (alloc : Allocator) (width : Width) (ctx : FlatContext)

/-- The end of a table is computed without overflow, as far as its address is aligned. -/
def AddressFits (align offset size : Nat) : Prop := offset % align = 0 → offset + size < limit

def tableBytes (offset size : Nat) : List UInt8 := (ctx.memory.drop offset).take size

/-- The buffer descriptors, as many as the sentinel's offset says, and what they are read for. -/
def BuffersFit (outputBufs : Nat) (sets : List IoSetInfo) (sentinel : IoSetInfo) : Prop :=
  let size := ioBufferDescriptorSize width * sentinel.offset
  alloc.fits size = true →
    AddressFits width.bytes outputBufs size ∧
    (Readable ctx.memory width.bytes outputBufs size →
      SetsFit alloc ctx (decodeTable (IoBufferDescriptor.decode width) (ioBufferDescriptorSize width)
        sentinel.offset (tableBytes ctx outputBufs size)) sets)

/-- The table of the sets with its sentinel, and what follows it. -/
def SetTableFits (system : SystemData) : Prop :=
  let size := ioSetInfoSize width * (system.outputSetsLen + 1)
  system.outputSetsLen + 1 < limit ∧
    (alloc.fits size = true →
      AddressFits width.bytes system.outputSets size ∧
      (Readable ctx.memory width.bytes system.outputSets size →
        alloc.fits (dataSetSize * system.outputSetsLen) = true →
        ∀ sentinel, (decodeTable (IoSetInfo.decode width) (ioSetInfoSize width)
            (system.outputSetsLen + 1) (tableBytes ctx system.outputSets size))[system.outputSetsLen]?
              = some sentinel →
          BuffersFit alloc width ctx system.outputBufs (decodeTable (IoSetInfo.decode width)
            (ioSetInfoSize width) (system.outputSetsLen + 1)
            (tableBytes ctx system.outputSets size)) sentinel))

/-- Every sum and every index that is reached before an error is in range. -/
def OutputFits (baseAddress : Nat) : Prop :=
  AddressFits width.bytes baseAddress (systemDataSize width) ∧
    (Readable ctx.memory width.bytes baseAddress (systemDataSize width) →
      let system := SystemData.decode width (tableBytes ctx baseAddress (systemDataSize width))
      system.outputSetsLen ≠ 0 → SetTableFits alloc width ctx system)

variable {alloc width ctx}

theorem returns_readTable_bind {α β : Type} {memory : List UInt8} (hmem : memory.length < limit)
    (align offset size : Nat) (f : List UInt8 → α) (g : α → DandelionResult β) :
    Returns (f <$> readMemory .checked memory align offset size >>= g) ↔
      AddressFits align offset size ∧ (Readable memory align offset size →
        Returns (g (f ((memory.drop offset).take size)))) := by
  rw [map_eq_pure_bind, bind_assoc, returns_bind, returns_readMemory hmem]
  refine and_congr_right fun _ => ?_
  simp only [pure_bind]
  constructor
  · exact fun h hin => h _ (readMemory_eq_ok hmem hin)
  · intro h bytes hread
    have hin := readMemory_ok hread
    rw [readMemory_eq_ok hmem hin] at hread
    cases hread
    exact h hin

theorem returns_tryReserve_bind {β : Type} (elementSize count : Nat) (g : Unit → DandelionResult β) :
    Returns (tryReserve alloc elementSize count >>= g) ↔
      (alloc.fits (elementSize * count) = true → Returns (g ())) := by
  rw [returns_bind]
  simp only [returns_tryReserve, true_and, tryReserve_ok_iff]
  exact ⟨fun h hfits => h () hfits, fun h _ hfits => h hfits⟩

theorem decodeTable_last {α : Type} (decode : List UInt8 → α) (elementSize count : Nat)
    (bytes : List UInt8) :
    ∃ last, (decodeTable decode elementSize (count + 1) bytes)[count]? = some last := by
  simp [decodeTable]

theorem returns_readOutputSets (hocc : InContext ctx.size ctx.occupation) (system : SystemData) :
    Returns (readOutputSets .checked alloc width ctx system) ↔
      SetTableFits alloc width ctx system := by
  unfold readOutputSets SetTableFits
  rw [returns_bind, returns_add]
  simp only [add_eq_ok_iff]
  refine and_congr_right fun hlt => ?_
  simp only [hlt, true_and, forall_eq]
  rw [returns_tryReserve_bind]
  refine forall_congr' fun _ => ?_
  rw [returns_readTable_bind ctx.memory_lt]
  refine and_congr_right fun _ => forall_congr' fun _ => ?_
  rw [returns_tryReserve_bind]
  refine forall_congr' fun _ => ?_
  obtain ⟨sentinel, hlast⟩ := decodeTable_last (IoSetInfo.decode width) (ioSetInfoSize width)
    system.outputSetsLen (tableBytes ctx system.outputSets
      (ioSetInfoSize width * (system.outputSetsLen + 1)))
  rw [← tableBytes]
  simp only [hlast, Option.some.injEq, forall_eq']
  rw [returns_tryReserve_bind, returns_readTable_bind ctx.memory_lt]
  unfold BuffersFit
  refine forall_congr' fun _ => and_congr_right fun _ => forall_congr' fun _ => ?_
  exact returns_readSets _ hocc

/-- Reading the output returns exactly when every sum and index reached before an error
is in range. -/
theorem returns_readOutputStructs (baseAddress : Nat) :
    Returns (readOutputStructs .checked alloc width ctx baseAddress) ↔
      OutputFits alloc width ctx baseAddress := by
  unfold readOutputStructs OutputFits
  rw [returns_readTable_bind ctx.memory_lt]
  refine and_congr_right fun _ => forall_congr' fun _ => ?_
  simp only [tableBytes]
  by_cases hzero : (SystemData.decode width
      ((ctx.memory.drop baseAddress).take (systemDataSize width))).outputSetsLen = 0
  · simp [hzero]
  · rw [if_neg hzero, returns_bind, returns_readOutputSets (inContext_cleared _)]
    simp only [returns_pure, implies_true, and_true, ne_eq, hzero, not_false_iff, forall_const]
    unfold SetTableFits BuffersFit
    simp only [setsFit_congr, tableBytes]

/-- Two output sets, of which the first claims one buffer while the sentinel counts none. -/
def miscountedOutput : FlatContext where
  memory := [0, 0, 0, 0, 0, 2, 72, 0, 72, 0, 0, 0, 0, 0, 1, 0, 0, 0].flatMap fun word =>
    word :: List.replicate 7 0
  size := 144
  content := []
  state := .inPreparation
  occupation := clearedOccupation 144
  memory_lt := by decide +kernel
  size_lt := by decide +kernel

/-- Such an output stops the engine, however overflows are treated. -/
theorem readOutputStructs_miscounted :
    (∀ mode ∈ [Overflow.checked, .wrapping],
      readOutputStructs mode (fun _ => true) .u64 miscountedOutput 0 = crash) ∧
    ¬ Returns (readOutputStructs .checked (fun _ => true) .u64 miscountedOutput 0) := by
  have hcrash : ∀ mode ∈ [Overflow.checked, .wrapping],
      readOutputStructs mode (fun _ => true) .u64 miscountedOutput 0 = crash := by decide +kernel
  refine ⟨hcrash, fun h => not_returns_crash (hcrash .checked List.mem_cons_self ▸ h)⟩

end Output

end Dandelion
