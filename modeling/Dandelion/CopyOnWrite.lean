import Dandelion.KvmWrites

/-!
# Copy on write

A context behaves as an array of bytes in pages: a write puts its bytes in the range, sets
the bytes of the touched pages to zero that were not there before and leaves all others.
-/

namespace Dandelion.KvmContext

open Outcome Segments Stateful

/-- The bytes of a context after a write. -/
def written (view : Nat → Option UInt8) (offset : Nat) (data : List UInt8) (o : Nat) : Option UInt8 :=
  if offset ≤ o ∧ o < offset + data.length then data[o - offset]?
  else if roundDownToPage offset ≤ o ∧ o < nextPage (offset + data.length) then
    some ((view o).getD 0)
  else view o

section Fill

variable {context : KvmContext} {storage : List UInt8} {o : Nat}

theorem filled_of_settled {lo hi : Nat} {zeroed : Prop} [Decidable zeroed]
    (hs : ¬ zeroed ∧ Loaded context lo hi storage ∨ zeroed ∧ Absent context lo hi) (ho : lo ≤ o)
    (ho' : o < hi) :
    (if zeroed then some 0 else storage[o]?) = some ((context.view o).getD 0) := by
  rcases hs with ⟨hnot, hloaded⟩ | ⟨hzeroed, habsent⟩
  · obtain ⟨byte, hview, hbyte⟩ := hloaded o ho ho'
    rw [if_neg hnot, hview, hbyte]
    rfl
  · rw [if_pos hzeroed, habsent o ho ho']
    rfl

theorem HeaderSettled.filled {offset zeroHeader : Nat}
    (hs : HeaderSettled context offset zeroHeader storage) (ho : roundDownToPage offset ≤ o)
    (ho' : o < offset) :
    (if zeroHeader ≤ o ∧ o < offset then some 0 else storage[o]?) =
      some ((context.view o).getD 0) := by
  rcases hs with ⟨rfl, hloaded⟩ | ⟨rfl, habsent⟩
  · exact filled_of_settled (.inl ⟨by omega, hloaded⟩) ho ho'
  · exact filled_of_settled (.inr ⟨⟨ho, ho'⟩, habsent⟩) ho ho'

theorem TrailerSettled.filled {writeEnd zeroTrailer : Nat}
    (hs : TrailerSettled context writeEnd zeroTrailer storage) (ho : writeEnd ≤ o)
    (ho' : o < nextPage writeEnd) :
    (if writeEnd ≤ o ∧ o < zeroTrailer then some 0 else storage[o]?) =
      some ((context.view o).getD 0) := by
  rcases hs with ⟨rfl, hloaded⟩ | ⟨rfl, habsent⟩
  · exact filled_of_settled (.inl ⟨by omega, hloaded⟩) ho ho'
  · exact filled_of_settled (.inr ⟨⟨ho, ho'⟩, habsent⟩) ho ho'

end Fill

theorem touched_lt {data : List UInt8} (hdata : data ≠ []) (offset : Nat) :
    roundDownToPage offset < nextPage (offset + data.length) := by
  have h1 := roundDownToPage_le offset
  have h2 := le_nextPage (offset + data.length)
  have h3 := List.length_pos_iff.mpr hdata
  omega

section Write

variable {context : KvmContext} (h : Paged context) {offset : Nat} {data : List UInt8}
  (htouched : roundDownToPage offset < nextPage (offset + data.length))
  (hfits : offset + data.length ≤ context.storage.length)
include h htouched hfits

theorem writePages_runs :
    Runs (writePages context.overlay offset data) context.storage
      (fun overlay storage =>
        overlay = (planEdit context.overlay (roundDownToPage offset)
          (nextPage (offset + data.length)) none).apply context.overlay ∧
        storage.length = context.storage.length ∧
        ∀ o, storage[o]? =
          if offset ≤ o ∧ o < offset + data.length then data[o - offset]?
          else if roundDownToPage offset ≤ o ∧ o < nextPage (offset + data.length) then
            some ((context.view o).getD 0)
          else context.storage[o]?)
      (Halted context offset (offset + data.length)) := by
  have hle : offset ≤ offset + data.length := Nat.le_add_right _ _
  generalize hend : offset + data.length = writeEnd at *
  have hround := roundDownToPage_le offset
  have hnext := le_nextPage writeEnd
  have hstop := nextPage_le h.storage_pages hfits
  unfold writePages
  simp only [hend]
  rw [Usize.sub_eq_ok (by omega), runs_lift_ok_bind]
  refine (writeLoop_spec h hle htouched hstop).bind fun state storage hloop => ?_
  obtain ⟨hedit, hkept, hheader, htrailer⟩ := hloop
  have hlen := hkept.length
  have hzero : state.zeroHeader ≤ offset := by
    rcases hheader with ⟨hz, -⟩ | ⟨hz, -⟩
    · omega
    · omega
  have hzero' : writeEnd ≤ state.zeroTrailer ∧ state.zeroTrailer ≤ nextPage writeEnd := by
    rcases htrailer with ⟨hz, -⟩ | ⟨hz, -⟩
    · omega
    · omega
  refine (fillZero_runs hzero (by omega)).bind fun _ storage₂ hfill => ?_
  obtain ⟨hlen₂, hbytes₂⟩ := hfill
  have hcopy : offset + data.length ≤ storage₂.length := by omega
  rw [runs_modify_bind]
  refine (fillZero_runs hzero'.1 (by rw [length_copyInto hcopy]; omega)).bind
    fun _ storage₃ hfill => ?_
  obtain ⟨hlen₃, hbytes₃⟩ := hfill
  rw [length_copyInto hcopy] at hlen₃
  refine ⟨hedit, by omega, fun o => ?_⟩
  rw [hbytes₃ o, getElem?_copyInto hcopy, hbytes₂ o, hend]
  by_cases hin : offset ≤ o ∧ o < writeEnd
  · rw [if_pos hin, if_pos hin, if_neg (by omega)]
  · rw [if_neg hin, if_neg hin]
    by_cases hbefore : roundDownToPage offset ≤ o ∧ o < offset
    · rw [if_neg (by omega), hheader.filled hbefore.1 hbefore.2, if_pos (by omega)]
    · by_cases hafter : writeEnd ≤ o ∧ o < nextPage writeEnd
      · have hnot : ¬ (state.zeroHeader ≤ o ∧ o < offset) := by omega
        rw [if_neg hnot, htrailer.filled hafter.1 hafter.2, if_pos (by omega)]
      · have hz : roundDownToPage offset ≤ state.zeroHeader := by
          rcases hheader with ⟨hz, -⟩ | ⟨hz, -⟩
          · omega
          · omega
        rw [if_neg (by omega), if_neg (by omega), if_neg (by omega), hkept.outside o hbefore hafter]

omit h htouched hfits in
theorem Kept.view_eq {writeEnd : Nat} {storage : List UInt8} (hkept : Kept context offset writeEnd storage)
    (o : Nat) : view ⟨context.overlay, storage⟩ o = context.view o := by
  unfold view
  cases hloc : locate context.overlay o with
  | none => rfl
  | some item =>
    cases item with
    | none => exact hkept.stored o hloc
    | some item => rfl

omit hfits in
/-- The bytes of the context with the overlay and the storage of a finished write. -/
theorem view_written {storage : List UInt8}
    (hbytes : ∀ o, storage[o]? =
      if offset ≤ o ∧ o < offset + data.length then data[o - offset]?
      else if roundDownToPage offset ≤ o ∧ o < nextPage (offset + data.length) then
        some ((context.view o).getD 0)
      else context.storage[o]?) (o : Nat) :
    view ⟨(planEdit context.overlay (roundDownToPage offset) (nextPage (offset + data.length))
      none).apply context.overlay, storage⟩ o = written context.view offset data o := by
  have hround := roundDownToPage_le offset
  have hnext := le_nextPage (offset + data.length)
  have hlocate := locate_planEdit h.overlay.separate htouched none o
  rw [view, hlocate, written]
  by_cases hin : roundDownToPage offset ≤ o ∧ o < nextPage (offset + data.length)
  · rw [if_pos hin, vadd_none]
    change storage[o]? = _
    rw [hbytes o, if_pos hin, if_pos hin]
  · rw [if_neg hin, if_neg (by omega), if_neg hin, view]
    cases locate context.overlay o with
    | none => rfl
    | some item =>
      cases item with
      | none =>
        change storage[o]? = context.storage[o]?
        rw [hbytes o, if_neg (by omega), if_neg hin]
      | some item => rfl

omit hfits in
/-- A write that touches a page fails with the bytes unchanged, or plans the touched pages
without an item. Inside the storage it fails only where a read from an item does. -/
theorem write_cases (align : Nat) (hlimit : offset + data.length < Usize.limit) :
    (∃ e storage, write align context offset data = (⟨context.overlay, storage⟩, fail e) ∧
      storage.length = context.storage.length ∧
      (∀ o, view ⟨context.overlay, storage⟩ o = context.view o) ∧
      (offset % align = 0 → offset + data.length ≤ context.storage.length →
        ¬ Solid context.overlay)) ∨
    offset + data.length ≤ context.storage.length ∧
      ∃ storage, write align context offset data =
          (⟨(planEdit context.overlay (roundDownToPage offset) (nextPage (offset + data.length))
            none).apply context.overlay, storage⟩, .ok ()) ∧
        storage.length = context.storage.length ∧
        ∀ o, view ⟨(planEdit context.overlay (roundDownToPage offset)
          (nextPage (offset + data.length)) none).apply context.overlay, storage⟩ o =
            written context.view offset data o := by
  rw [write, Usize.add_eq_ok hlimit]
  by_cases halign : offset % align ≠ 0
  · rw [if_pos halign]
    exact .inl ⟨_, context.storage, rfl, rfl, fun _ => rfl, fun hzero _ => absurd hzero halign⟩
  · rw [if_neg halign]
    simp only
    by_cases hbounds : context.storage.length < offset + data.length
    · rw [if_pos hbounds]
      exact .inl ⟨_, context.storage, rfl, rfl, fun _ => rfl, fun _ hle => by omega⟩
    · rw [if_neg hbounds]
      have hfits := Nat.le_of_not_lt hbounds
      have hruns := writePages_runs h htouched hfits
      unfold Runs at hruns
      cases hexec : exec (writePages context.overlay offset data) context.storage with
      | mk result storage =>
        rw [hexec] at hruns
        cases result with
        | ok overlay =>
          obtain ⟨rfl, hlen, hbytes⟩ := hruns
          exact .inr ⟨hfits, storage, rfl, hlen, view_written h htouched hbytes⟩
        | error stop =>
          obtain ⟨⟨e, rfl⟩, hhalted⟩ := hruns
          exact .inl ⟨e, storage, rfl, hhalted.length, hhalted.toKept.view_eq,
            fun _ _ => hhalted.unreadable⟩

end Write

/-- What a write of at least one byte does to a valid context. -/
structure Wrote (context : KvmContext) (offset : Nat) (data : List UInt8)
    (after : KvmContext × DandelionResult Unit) : Prop where
  returns : Returns after.2
  valid : Valid after.1
  length : after.1.storage.length = context.storage.length
  fits : after.2 = .ok () → offset + data.length ≤ context.storage.length
  view_ok : after.2 = .ok () → ∀ o, after.1.view o = written context.view offset data o
  view_error : after.2 ≠ .ok () → ∀ o, after.1.view o = context.view o

theorem write_spec {context : KvmContext} (h : Valid context) (align : Nat) {offset : Nat}
    {data : List UInt8} (hdata : data ≠ []) (hlimit : offset + data.length < Usize.limit) :
    Wrote context offset data (write align context offset data) := by
  rcases write_cases h.paged (touched_lt hdata offset) align hlimit with ⟨e, storage, heq, hlen, hview, -⟩ |
      ⟨hfits, storage, heq, hlen, hview⟩
  · rw [heq]
    exact ⟨returns_fail e, ⟨hlen ▸ h.overlay, hlen ▸ h.storage_pages, hlen ▸ h.storage_le⟩, hlen,
      (by intro hok; cases hok), (by intro hok; cases hok), fun _ => hview⟩
  · have hab := touched_lt hdata offset
    have hnone : ∀ item, (none : Option OverlayItem) = some item → item.Backs
        (nextPage (offset + data.length) - roundDownToPage offset) :=
      fun item hitem => by cases hitem
    have hplanned := ValidOverlay.planEdit hab (dvd_roundDownToPage offset)
      (dvd_nextPage (offset + data.length)) h.overlay (nextPage_le h.storage_pages hfits) hnone
    rw [heq]
    exact ⟨returns_ok _, ⟨hlen ▸ hplanned, hlen ▸ h.storage_pages, hlen ▸ h.storage_le⟩, hlen,
      fun _ => hfits, fun _ => hview, fun hne => absurd rfl hne⟩

/-- Where every read from an item succeeds, a write inside the storage succeeds, and stays so. -/
theorem write_solid {context : KvmContext} (h : Paged context) (hsolid : Solid context.overlay)
    {align offset : Nat} (halign : offset % align = 0) {data : List UInt8} (hdata : data ≠ [])
    (hlimit : offset + data.length < Usize.limit)
    (hfits : offset + data.length ≤ context.storage.length) :
    (write align context offset data).2 = .ok () ∧
      Solid (write align context offset data).1.overlay := by
  rcases write_cases h (touched_lt hdata offset) align hlimit with
    ⟨-, -, -, -, -, hunreadable⟩ | ⟨-, storage, heq, -⟩
  · exact absurd hsolid (hunreadable halign hfits)
  · rw [heq]
    refine ⟨rfl, fun last start item hget => ?_⟩
    refine planEdit_items (P := Readable) ?_ ?_ h.overlay.separate (touched_lt hdata offset)
      (hsolid _ _ _) (fun item hitem => by cases hitem) hget
    · exact fun hreadable hle distance buffer hbuffer => hreadable distance buffer (by omega)
    · intro item start length d hreadable hd distance buffer hbuffer
      have := hreadable (d + distance) buffer (by omega)
      rwa [← Nat.add_assoc] at this

end Dandelion.KvmContext
