import Dandelion.PagedBytes

/-!
# Writes without bytes

A write of no bytes inside of a page treats the page as any write does. At a page boundary it
touches no page, and its loop plans an entry that ends before it starts. The entry takes the
place of the one that ends there, unless the page on either side is in the storage.
-/

namespace Dandelion.KvmContext

open Outcome Segments Stateful

section Boundary

variable {a : Nat} {state : WriteState}

theorem writeLoop_beyond {entries : List OverlayEntry}
    (hnext : ∀ entry ∈ entries.head?, entry.1 ≠ state.edit.newStart - 1)
    (hstart : ∀ entry ∈ entries.head?, a ≤ entry.2.1) :
    writeLoop a a a entries state
      = pure { state with edit := planBack none a entries.head? state.edit } := by
  cases entries with
  | nil => rfl
  | cons entry entries =>
    obtain ⟨last, start, item⟩ := entry
    have hbeyond : a ≤ start := hstart _ rfl
    rw [writeLoop, if_neg (hnext _ rfl), if_pos hbeyond, List.head?_cons, planBack]
    by_cases hmerge : (item.isNone && decide (start = a)) = true
    · have hle : ((none : Option OverlayItem).isNone && item.isNone && decide (start ≤ a)) = true := by
        simp only [Option.isNone_none, Bool.true_and, Bool.and_eq_true, decide_eq_true_eq] at hmerge ⊢
        exact ⟨hmerge.1, hmerge.2.le⟩
      rw [if_pos hmerge, if_pos hle]
    · have hgt : ¬ ((none : Option OverlayItem).isNone && item.isNone && decide (start ≤ a)) = true := by
        simp only [Option.isNone_none, Bool.true_and, Bool.and_eq_true, decide_eq_true_eq] at hmerge ⊢
        exact fun hle => hmerge ⟨hle.1, Nat.le_antisymm hle.2 hbeyond⟩
      rw [if_neg hmerge, if_neg hgt, if_neg (Nat.not_lt.mpr hbeyond)]

theorem writeLoop_over {last start : Nat} {item : Option OverlayItem} {entries : List OverlayEntry}
    (hnew : state.edit.newStart = a) (hbefore : state.edit.insertBefore = none) (hstart : start < a)
    (hlast : a ≤ last)
    (hitem : ∀ it, item = some it → it.offset + (a - start) < Usize.limit) :
    writeLoop a a a ((last, start, item) :: entries) state
      = pure { state with edit := if item.isSome
          then { state.edit with
            insertBefore := some (a - 1, start, item), changed := some (last, a, (a - start) +ᵥ item),
            newInsert := some (a - 1, a, none) }
          else { state.edit with
            newStart := start, changed := some (last, start, none), newInsert := none } } := by
  subst hnew
  have hnext : last ≠ state.edit.newStart - 1 := by omega
  rw [writeLoop, if_neg hnext, if_neg (Nat.not_le.mpr hstart), copyHeader, if_neg (by omega),
    pure_bind]
  cases item with
  | none =>
    have hkeep : keepFront none start none state.edit
        = .ok { state.edit with newStart := start } := if_pos (by omega)
    rw [hkeep, lift_ok_bind, copyTrailer, if_neg (by omega), pure_bind, if_pos (by omega)]
    rfl
  | some item =>
    have hkeep : keepFront none start (some item) state.edit = .ok { state.edit with
        insertBefore := some (state.edit.newStart - 1, start, some item) } := by
      rw [keepFront, if_pos (by omega), hbefore]
      rfl
    have hadvance : advanceItem (state.edit.newStart - start) (some item)
        = .ok ((state.edit.newStart - start) +ᵥ some item) := advanceItem_eq_ok hitem
    rw [hkeep, lift_ok_bind, copyTrailer, if_neg (by omega), pure_bind, if_pos (by omega)]
    simp only [hadvance]
    rw [lift_ok_bind]
    rfl

end Boundary

/-- What the loop of an empty write at a page boundary makes of the overlay. -/
inductive BoundaryEdit (overlay : Overlay) (a : Nat) (edit : OverlayEdit) : Prop
  /-- an entry that ends before it starts -/
  | inverted (hinsert : edit.newInsert = some (a - 1, a, none))
      (hbefore : locate overlay (a - 1) ≠ some none) (hbehind : locate overlay a ≠ some none)
  /-- the entry that is changed or inserted is there already -/
  | same (hsame : edit.apply overlay = overlay)
      (hstored : locate overlay (a - 1) = some none ∨ locate overlay a = some none)
  /-- the entries on both sides become one -/
  | merged {start last : Nat} (hbefore : overlay.get? (a - 1) = some (start, none))
      (hbehind : overlay.get? last = some (a, none))
      (hedit : edit = ⟨start, [a - 1], none, none, some (last, start, none)⟩)

theorem apply_same {overlay : Overlay} {edit : OverlayEdit}
    (h : ∀ k, (entryAt edit.newInsert k).or ((entryAt edit.insertBefore k).or
      (if k ∈ edit.toRemove then none else (entryAt edit.changed k).or (overlay.get? k)))
        = overlay.get? k) : edit.apply overlay = overlay :=
  OrderedMap.ext_get? fun k => (get?_apply edit overlay k).trans (h k)

theorem entryAt_or_get? {overlay : Overlay} {key : Nat} {value : Nat × Option OverlayItem}
    (hget : overlay.get? key = some value) (k : Nat) :
    (entryAt (some (key, value)) k).or (overlay.get? k) = overlay.get? k := by
  rw [entryAt]
  by_cases hk : k = key
  · rw [if_pos hk, hk, hget]
    rfl
  · rw [if_neg hk, Option.none_or]

section Pages

variable {overlay : Overlay} (h : PagedOverlay overlay)
include h

theorem locate_stored_iff (o : Nat) :
    locate overlay o = some none ↔ ∃ last start, overlay.firstFrom o = some (last, start, none)
      ∧ start ≤ o := by
  rw [h.separate.locate_firstFrom]
  cases hfirst : overlay.firstFrom o with
  | none => simp
  | some entry =>
    obtain ⟨last, start, item⟩ := entry
    simp only [Option.bind_some]
    by_cases hstart : start ≤ o
    · rw [if_pos hstart]
      cases item with
      | none => simp [hstart]
      | some item => simp [vadd_some]
    · rw [if_neg hstart]
      simp [hstart]

omit h in
theorem mem_head_rangeFrom {a : Nat} {entry : OverlayEntry}
    (hentry : entry ∈ (overlay.rangeFrom a).head?) :
    overlay.get? entry.1 = some entry.2 ∧ a ≤ entry.1 :=
  (OrderedMap.mem_rangeFrom _ _ _).mp (List.mem_of_mem_head? hentry)

/-- The entry behind the boundary is left alone, or starts there in the storage. -/
theorem planBack_beyond {a : Nat} (edit : OverlayEdit)
    (hstart : ∀ entry ∈ (overlay.rangeFrom a).head?, a ≤ entry.2.1) :
    (planBack none a (overlay.rangeFrom a).head? edit = edit ∧ locate overlay a ≠ some none)
      ∨ ∃ last, overlay.get? last = some (a, none) ∧ a ≤ last
        ∧ locate overlay a = some none
        ∧ planBack none a (overlay.rangeFrom a).head? edit
          = { edit with changed := some (last, edit.newStart, none), newInsert := none } := by
  have hlocate := locate_stored_iff h a
  have hmem : ∀ entry ∈ (overlay.rangeFrom a).head?,
      overlay.get? entry.1 = some entry.2 ∧ a ≤ entry.1 := fun entry => mem_head_rangeFrom
  change _ ↔ ∃ last start, (overlay.rangeFrom a).head? = _ ∧ _ at hlocate
  cases hhead : (overlay.rangeFrom a).head? with
  | none =>
    left
    refine ⟨rfl, ?_⟩
    rw [Ne, hlocate, hhead]
    simp
  | some entry =>
    obtain ⟨last, start, item⟩ := entry
    have hbeyond : a ≤ start := hstart _ hhead
    obtain ⟨hget, hlast⟩ := hmem _ hhead
    rw [hhead] at hlocate
    by_cases hstored : start = a ∧ item = none
    · obtain ⟨rfl, rfl⟩ := hstored
      refine .inr ⟨last, hget, hlast, hlocate.mpr ⟨last, start, rfl, le_refl _⟩, ?_⟩
      rw [planBack, if_pos (by simp)]
    · left
      constructor
      · rw [planBack, if_neg, if_neg (Nat.not_lt.mpr hbeyond)]
        simp only [Option.isNone_none, Bool.true_and, Bool.and_eq_true, Option.isNone_iff_eq_none,
          decide_eq_true_eq]
        rintro ⟨hitem, hle⟩
        exact hstored ⟨Nat.le_antisymm hle hbeyond, hitem⟩
      · rw [Ne, hlocate]
        rintro ⟨last', start', hsome, hle⟩
        cases hsome
        exact hstored ⟨Nat.le_antisymm hle hbeyond, rfl⟩

theorem boundaryEdit_of_none {a : Nat} (hpos : 0 < a)
    (hsame : overlay.rangeFrom (a - 1) = overlay.rangeFrom a) :
    ∃ edit, writeLoop a a a (overlay.rangeFrom (a - 1)) ⟨startEdit none a a [], a, a⟩
        = pure ⟨edit, a, a⟩ ∧ BoundaryEdit overlay a edit := by
  have hbefore := locate_stored_iff h (a - 1)
  have hbehind := locate_stored_iff h a
  change _ ↔ ∃ last start, (overlay.rangeFrom (a - 1)).head? = _ ∧ _ at hbefore
  change _ ↔ ∃ last start, (overlay.rangeFrom a).head? = _ ∧ _ at hbehind
  rw [hsame] at hbefore ⊢
  by_cases hbeyond : ∀ entry ∈ (overlay.rangeFrom a).head?, a ≤ entry.2.1
  · have hnext : ∀ entry ∈ (overlay.rangeFrom a).head?, entry.1 ≠ a - 1 := by
      intro entry hentry
      have := (mem_head_rangeFrom hentry).2
      omega
    rw [writeLoop_beyond hnext hbeyond]
    refine ⟨_, rfl, ?_⟩
    rcases planBack_beyond h (startEdit none a a []) hbeyond with
      ⟨hplan, hnot⟩ | ⟨last, hget, -, hstored, hplan⟩
    · rw [hplan]
      refine .inverted rfl ?_ hnot
      rw [Ne, hbefore]
      rintro ⟨last, start, hhead, hle⟩
      have := hbeyond _ hhead
      simp only at this
      omega
    · rw [hplan]
      refine .same (apply_same fun k => ?_) (.inr hstored)
      exact entryAt_or_get? hget k
  · -- one entry on both sides
    push Not at hbeyond
    obtain ⟨⟨last, start, item⟩, hhead, hstart⟩ := hbeyond
    obtain ⟨hget, hlast⟩ := mem_head_rangeFrom hhead
    obtain ⟨rest, hrange⟩ := List.head?_eq_some_iff.mp hhead
    have hfits : ∀ it, item = some it → it.offset + (a - start) < Usize.limit := by
      rintro it rfl
      have := (h.items hget).lt
      simp only at hlast
      omega
    have hnew : (WriteState.mk (startEdit none a a []) a a).edit.newStart = a := rfl
    rw [hrange, writeLoop_over hnew rfl hstart hlast hfits]
    refine ⟨_, rfl, ?_⟩
    cases item with
    | none =>
      refine .same (apply_same fun k => ?_) (.inr (hbehind.mpr ⟨last, start, hhead, hstart.le⟩))
      exact entryAt_or_get? hget k
    | some item =>
      refine .inverted rfl ?_ ?_
      · rw [Ne, hbefore, hhead]
        simp
      · rw [Ne, hbehind, hhead]
        simp

theorem boundaryEdit_of_some {a start : Nat} {item : Option OverlayItem} (hpos : 0 < a)
    (hget : overlay.get? (a - 1) = some (start, item))
    (hcons : overlay.rangeFrom (a - 1) = (a - 1, start, item) :: overlay.rangeFrom a) :
    ∃ edit, writeLoop a a a (overlay.rangeFrom (a - 1)) ⟨startEdit none a a [], a, a⟩
        = pure ⟨edit, a, a⟩ ∧ BoundaryEdit overlay a edit := by
  have hstart := h.separate.pos hget
  have hlocate : locate overlay (a - 1) = some ((a - 1 - start) +ᵥ item) :=
    h.separate.locate_of_mem hget hstart (le_refl _)
  have hbeyond : ∀ entry ∈ (overlay.rangeFrom a).head?, a ≤ entry.2.1 := by
    rintro ⟨last, start', item'⟩ hentry
    obtain ⟨hget', hge⟩ := mem_head_rangeFrom hentry
    simp only at hge ⊢
    have := h.separate.apart hget hget' (by omega)
    omega
  have hadjacent : a - 1 = (startEdit none a a []).newStart - 1 := rfl
  rw [hcons, writeLoop, if_pos hadjacent]
  cases item with
  | none =>
    have hnext : ∀ entry ∈ (overlay.rangeFrom a).head?, entry.1 ≠ start - 1 := by
      intro entry hentry
      have := (mem_head_rangeFrom hentry).2
      omega
    simp only [Option.isNone_none, if_true]
    rw [writeLoop_beyond hnext hbeyond]
    refine ⟨_, rfl, ?_⟩
    rcases planBack_beyond h ⟨start, [a - 1], some (a - 1, start, none), none, none⟩ hbeyond with
      ⟨hplan, hnot⟩ | ⟨last, hgetLast, -, hstored, hplan⟩
    · refine .same ?_ (.inl hlocate)
      refine (congrArg (OverlayEdit.apply · overlay) hplan).trans (apply_same fun k => ?_)
      rw [entryAt_some]
      by_cases hk : k = a - 1
      · rw [if_pos hk, hk, hget]
        rfl
      · rw [if_neg hk, if_neg (by simpa using hk)]
        rfl
    · exact .merged hget hgetLast hplan
  | some item =>
    have hnext : ∀ entry ∈ (overlay.rangeFrom a).head?, entry.1 ≠ a - 1 := by
      intro entry hentry
      have := (mem_head_rangeFrom hentry).2
      omega
    simp only [Option.isNone_some, Bool.false_eq_true, if_false]
    rw [writeLoop_beyond hnext hbeyond]
    refine ⟨_, rfl, ?_⟩
    rcases planBack_beyond h (startEdit none a a []) hbeyond with
      ⟨hplan, hnot⟩ | ⟨last, hgetLast, -, hstored, hplan⟩
    · rw [hplan]
      refine .inverted rfl ?_ hnot
      rw [hlocate, vadd_some]
      simp
    · rw [hplan]
      refine .same (apply_same fun k => ?_) (.inr hstored)
      exact entryAt_or_get? hgetLast k

end Pages

/-! ## The write -/

theorem exec_fillZero_empty {a : Nat} {storage : List UInt8} (hfits : a ≤ storage.length) :
    exec (fillZero a a) storage = (.ok ⟨⟩, storage) := by
  rw [fillZero, exec_get_bind, if_pos ⟨le_refl _, hfits⟩, Nat.sub_self]
  change ((.ok ⟨⟩ : DandelionResult PUnit), copyInto storage a []) = _
  rw [copyInto_nil]

theorem roundDownToPage_of_dvd {a : Nat} (ha : pageSize ∣ a) : roundDownToPage a = a :=
  Nat.div_mul_cancel ha

theorem nextPage_of_dvd {a : Nat} (ha : pageSize ∣ a) : nextPage a = a :=
  Nat.le_antisymm (nextPage_le ha (le_refl a)) (le_nextPage a)

theorem writePages_boundary {overlay : Overlay} (h : PagedOverlay overlay) {a : Nat}
    (ha : pageSize ∣ a) (hpos : 0 < a) {storage : List UInt8} (hfits : a ≤ storage.length) :
    ∃ edit, exec (writePages overlay a []) storage = (.ok (edit.apply overlay), storage)
      ∧ BoundaryEdit overlay a edit := by
  have hloop : ∃ edit, writeLoop a a a (overlay.rangeFrom (a - 1)) ⟨startEdit none a a [], a, a⟩
      = pure ⟨edit, a, a⟩ ∧ BoundaryEdit overlay a edit := by
    rcases rangeFrom_pred overlay a with hsame | ⟨start, item, -, hget, hcons⟩
    · exact boundaryEdit_of_none h hpos hsame
    · exact boundaryEdit_of_some h hpos hget hcons
  obtain ⟨edit, hloop, hedit⟩ := hloop
  refine ⟨edit, ?_, hedit⟩
  have hlast : (Usize.sub .checked a 1 : DandelionResult Nat) = .ok (a - 1) := Usize.sub_eq_ok hpos
  simp only [writePages, List.length_nil, Nat.add_zero, roundDownToPage_of_dvd ha, nextPage_of_dvd ha,
    hlast, lift_ok_bind]
  change exec (writeLoop a a a _ ⟨startEdit none a a [], a, a⟩ >>= _) storage = _
  rw [hloop, pure_bind, exec_bind_ok (exec_fillZero_empty hfits), exec_modify_bind, copyInto_nil,
    exec_bind_ok (exec_fillZero_empty hfits)]
  rfl

/-- Entries of whole pages, none of them empty, that do not overlap. -/
structure PagedEntries (overlay : Overlay) : Prop where
  separate : Separate overlay
  aligned : ∀ {last start item}, overlay.get? last = some (start, item) →
    pageSize ∣ start ∧ pageSize ∣ last + 1

/-- The write returns, keeps the bytes there are, and keeps entries of whole pages. -/
structure Harmless (context : KvmContext) (after : KvmContext × DandelionResult Unit) : Prop where
  returns : Returns after.2
  view : ∀ o byte, context.view o = some byte → after.1.view o = some byte
  entries : PagedEntries after.1.overlay

/-- The write does not reach the boundary case, or a page next to the boundary is in the storage. -/
def EmptyWritable (context : KvmContext) (align offset : Nat) : Prop :=
  offset % align ≠ 0 ∨ ¬ pageSize ∣ offset
    ∨ 0 < offset ∧ (locate context.overlay (offset - 1) = some none
      ∨ locate context.overlay offset = some none)

section Harmless

variable {context : KvmContext} (h : Paged context)
include h

theorem harmless_unchanged {storage : List UInt8} {e : DandelionError}
    (hview : ∀ o, view ⟨context.overlay, storage⟩ o = context.view o) :
    Harmless context (⟨context.overlay, storage⟩, fail e) :=
  ⟨returns_fail e, fun o _ hbyte => (hview o).trans hbyte, ⟨h.overlay.separate, h.overlay.aligned⟩⟩

theorem harmless_inside {offset : Nat} (align : Nat) (hoffset : ¬ pageSize ∣ offset)
    (hlimit : offset < Usize.limit) : Harmless context (write align context offset []) := by
  have hround := roundDownToPage_le offset
  have htouched : roundDownToPage offset < nextPage (offset + ([] : List UInt8).length) := by
    have hne : roundDownToPage offset ≠ offset := fun heq => hoffset (heq ▸ dvd_roundDownToPage offset)
    have := le_nextPage offset
    simp only [List.length_nil, Nat.add_zero]
    omega
  rcases write_cases h htouched align (by simpa using hlimit) with ⟨e, storage, heq, -, hview, -⟩ |
      ⟨hfits, storage, heq, -, hview⟩
  · rw [heq]
    exact harmless_unchanged h hview
  · rw [heq]
    have hnone : ∀ item, (none : Option OverlayItem) = some item → item.Addresses
        (nextPage (offset + ([] : List UInt8).length) - roundDownToPage offset) :=
      fun item hitem => by cases hitem
    have hplanned := PagedOverlay.planEdit htouched (dvd_roundDownToPage offset) (dvd_nextPage _)
      h.overlay hnone
    refine ⟨returns_ok _, fun o _ hbyte => ?_, ⟨hplanned.separate, hplanned.aligned⟩⟩
    rw [hview o, written, if_neg (by simp only [List.length_nil]; omega), hbyte]
    split_ifs
    · rfl
    · rfl

theorem harmless_merged {a start last : Nat} (hpos : 0 < a)
    (hbefore : context.overlay.get? (a - 1) = some (start, none))
    (hbehind : context.overlay.get? last = some (a, none)) :
    Harmless context (⟨OverlayEdit.apply ⟨start, [a - 1], none, none, some (last, start, none)⟩
      context.overlay, context.storage⟩, .ok ()) := by
  have hmerged : MergedAt context.overlay (OverlayEdit.apply
      ⟨start, [a - 1], none, none, some (last, start, none)⟩ context.overlay) a start last none := by
    refine ⟨hpos, hbefore, hbehind, fun k => ?_⟩
    rw [get?_apply]
    simp only [entryAt_none, Option.none_or, entryAt_some, List.mem_singleton]
    by_cases hk : k = last
    · rw [if_pos hk, if_pos hk]
      rfl
    · rw [if_neg hk, if_neg hk, Option.none_or]
  have hsep := h.overlay.separate
  refine ⟨returns_ok _, fun o _ hbyte => ?_, ⟨hmerged.separate hsep, fun hget => ?_⟩⟩
  · cases hlocate : locate context.overlay o with
    | none =>
      rw [view, hlocate] at hbyte
      cases hbyte
    | some item =>
      rw [view, hmerged.locate_eq hsep hlocate]
      rw [view, hlocate] at hbyte
      exact hbyte
  · rcases (hmerged.cases_get hget).2 with ⟨rfl, rfl, -⟩ | ⟨-, hold⟩
    · exact ⟨(h.overlay.aligned hbefore).1, (h.overlay.aligned hbehind).2⟩
    · exact h.overlay.aligned hold

theorem harmless_boundary_iff {a : Nat} (hpos : 0 < a) {edit : OverlayEdit}
    (hedit : BoundaryEdit context.overlay a edit) :
    Harmless context (⟨edit.apply context.overlay, context.storage⟩, .ok ())
      ↔ locate context.overlay (a - 1) = some none ∨ locate context.overlay a = some none := by
  cases hedit with
  | inverted hinsert hbefore hbehind =>
    constructor
    · intro hharmless
      have hget : (edit.apply context.overlay).get? (a - 1) = some (a, none) := by
        rw [get?_apply, hinsert, entryAt_some, if_pos rfl]
        rfl
      have := hharmless.entries.separate.pos hget
      omega
    · rintro (hstored | hstored)
      · exact absurd hstored hbefore
      · exact absurd hstored hbehind
  | same hsame hstored =>
    refine ⟨fun _ => hstored, fun _ => ?_⟩
    rw [hsame]
    exact ⟨returns_ok _, fun _ _ hbyte => hbyte, ⟨h.overlay.separate, h.overlay.aligned⟩⟩
  | merged hbefore hbehind hedit =>
    have hstart := h.overlay.separate.pos hbefore
    refine ⟨fun _ => .inl (h.overlay.separate.locate_of_mem hbefore hstart (le_refl _)), fun _ => ?_⟩
    rw [hedit]
    exact harmless_merged h hpos hbefore hbehind

/-- A write of no bytes does no harm exactly if it is inside of a page, or a page next to its
offset is in the storage. -/
theorem emptyWrite_harmless_iff (align : Nat) {offset : Nat} (hfits : offset ≤ context.storage.length) :
    Harmless context (write align context offset []) ↔ EmptyWritable context align offset := by
  have hlimit : offset < Usize.limit := by
    have := h.storage_le
    unfold Usize.isizeMax at this
    unfold Usize.limit
    omega
  by_cases halign : offset % align ≠ 0
  · refine ⟨fun _ => .inl halign, fun _ => ?_⟩
    rw [write, if_pos halign]
    exact harmless_unchanged h fun _ => rfl
  by_cases hpage : pageSize ∣ offset
  swap
  · exact ⟨fun _ => .inr (.inl hpage), fun _ => harmless_inside h align hpage hlimit⟩
  have hcond : EmptyWritable context align offset ↔ 0 < offset ∧
      (locate context.overlay (offset - 1) = some none ∨ locate context.overlay offset = some none) := by
    unfold EmptyWritable
    constructor
    · rintro (hmis | hnot | hok)
      · exact absurd hmis halign
      · exact absurd hpage hnot
      · exact hok
    · exact fun hok => .inr (.inr hok)
  have hend : (Usize.add .checked offset ([] : List UInt8).length : DandelionResult Nat) = .ok offset :=
    Usize.add_eq_ok (show offset + 0 < Usize.limit from hlimit)
  rw [hcond, write, if_neg halign, hend]
  dsimp only
  rw [if_neg (Nat.not_lt.mpr hfits)]
  rcases Nat.eq_zero_or_pos offset with rfl | hpos
  · -- the end of the touched pages is zero
    refine ⟨fun hharmless => ?_, fun hok => absurd hok.1 (lt_irrefl 0)⟩
    have hexec : exec (writePages context.overlay 0 []) context.storage = (crash, context.storage) := rfl
    rw [hexec] at hharmless
    exact absurd hharmless.returns not_returns_crash
  · obtain ⟨edit, hexec, hedit⟩ := writePages_boundary h.overlay hpage hpos hfits
    rw [hexec]
    refine (harmless_boundary_iff h hpos hedit).trans ⟨fun hstored => ⟨hpos, hstored⟩, fun hok => hok.2⟩

end Harmless

/-- The second page is in the storage. -/
theorem splitPages_emptyWrite : Paged splitPages ∧ Harmless splitPages (write 1 splitPages 4096 []) := by
  have hlength : splitPages.storage.length = 8192 := List.length_replicate
  have hfits : 4096 ≤ splitPages.storage.length := hlength.symm ▸ by decide
  refine ⟨valid_splitPages.paged, (emptyWrite_harmless_iff valid_splitPages.paged 1 hfits).mpr ?_⟩
  exact .inr (.inr ⟨by decide, .inr rfl⟩)

/-- Two pages, the first one remapped from another context and the second one not there. -/
def remappedPage : KvmContext :=
  ⟨⟨[(4095, 0, some ⟨joinedPages.toRef, 0⟩)], by decide⟩, List.replicate 8192 0⟩

theorem valid_remappedPage : Valid remappedPage := by
  refine valid_twoPages (by decide) (by decide) fun entry hentry item hitem => ?_
  obtain rfl := List.mem_singleton.mp hentry
  obtain rfl := Option.some.inj hitem
  refine ⟨toRef_lawful valid_joinedPages, ?_⟩
  simp only [toRef, joinedPages, List.length_replicate]
  omega

/-- The first page is lost by an empty write behind it; and an empty write at the start panics. -/
theorem remappedPage_lost : Paged remappedPage ∧
    ¬ Harmless remappedPage (write 1 remappedPage 4096 []) ∧
    ¬ Harmless remappedPage (write 1 remappedPage 0 []) := by
  refine ⟨valid_remappedPage.paged, fun hharmless => ?_, fun hharmless => ?_⟩
  · have hbyte : remappedPage.view 0 = some 7 := by decide +kernel
    have hlost : (write 1 remappedPage 4096 []).1.view 0 = none := by decide +kernel
    have hkept := hharmless.view 0 7 hbyte
    rw [hlost] at hkept
    cases hkept
  · have hpanics : (write 1 remappedPage 0 []).2 = crash := by decide +kernel
    have hreturns := hharmless.returns
    rw [hpanics] at hreturns
    exact not_returns_crash hreturns

end Dandelion.KvmContext
