import Dandelion.KvmContext

/-!
# Editing an overlay

Both loops over the overlay collect the same edit: the entries that end inside the new
range are removed, the first one is cut before the range or merged with it, and the one
that reaches the end of the range is cut behind it or merged with it. Applied to the
overlay, the edit overwrites the range, extended over what was merged.
-/

namespace Dandelion.KvmContext

open Outcome Segments

@[simp] theorem vadd_none (d : ℕ) : d +ᵥ (none : Option OverlayItem) = none := rfl

theorem vadd_some (d : ℕ) (item : OverlayItem) :
    d +ᵥ some item = some { item with offset := item.offset + d } := rfl

/-- The entry at a key, if it is the given one. -/
def entryAt : Option OverlayEntry → Nat → Option (Nat × Option OverlayItem)
  | none, _ => none
  | some (key, value), k => if k = key then some value else none

@[simp] theorem entryAt_none (k : Nat) : entryAt none k = none := rfl

theorem entryAt_some (key k : Nat) (value : Nat × Option OverlayItem) :
    entryAt (some (key, value)) k = if k = key then some value else none := rfl

theorem get?_insertEntry (overlay : Overlay) (entry : Option OverlayEntry) (k : Nat) :
    (insertEntry overlay entry).get? k = (entryAt entry k).or (overlay.get? k) := by
  cases entry with
  | none => rfl
  | some entry =>
    obtain ⟨key, value⟩ := entry
    rw [insertEntry, OrderedMap.get?_insert, entryAt]
    by_cases h : k = key
    · rw [if_pos h, if_pos h]
      rfl
    · rw [if_neg h, if_neg h]
      rfl

theorem get?_removeAll (keys : List Nat) (overlay : Overlay) (k : Nat) :
    (keys.foldl OrderedMap.remove overlay).get? k = if k ∈ keys then none else overlay.get? k := by
  induction keys generalizing overlay with
  | nil => rfl
  | cons key keys ih =>
    rw [List.foldl_cons, ih, OrderedMap.get?_remove]
    by_cases hk : k ∈ keys
    · rw [if_pos hk, if_pos (List.mem_cons_of_mem _ hk)]
    · by_cases heq : k = key
      · rw [if_neg hk, if_pos heq, if_pos (List.mem_cons.mpr (.inl heq))]
      · rw [if_neg hk, if_neg heq, if_neg (by simp [hk, heq])]

theorem get?_apply (edit : OverlayEdit) (overlay : Overlay) (k : Nat) :
    (edit.apply overlay).get? k = (entryAt edit.newInsert k).or ((entryAt edit.insertBefore k).or
      (if k ∈ edit.toRemove then none else (entryAt edit.changed k).or (overlay.get? k))) := by
  rw [OverlayEdit.apply, get?_insertEntry, get?_insertEntry, get?_removeAll, get?_insertEntry]

/-- What becomes of the entry that reaches over the start of the range. -/
def planFront (newItem : Option OverlayItem) (a : Nat) : Option OverlayEntry →
    Nat × Option OverlayEntry
  | none => (a, none)
  | some (_, start, item) =>
    if item.isSome || newItem.isSome then (a, some (a - 1, start, item)) else (start, none)

/-- What becomes of the entry that reaches the end of the range. -/
def planBack (newItem : Option OverlayItem) (b : Nat) :
    Option OverlayEntry → OverlayEdit → OverlayEdit
  | none, edit => edit
  | some (last, start, item), edit =>
    if newItem.isNone && item.isNone && start ≤ b then
      { edit with changed := some (last, edit.newStart, item), newInsert := none }
    else if start < b then { edit with changed := some (last, b, (b - start) +ᵥ item) }
    else edit

/-- The entry that covers the byte before the range. -/
def frontEntry (overlay : Overlay) (a : Nat) : Option OverlayEntry :=
  (overlay.firstFrom (a - 1)).filter fun entry => entry.2.1 < a

/-- The keys of the entries that end in the range or right before it. -/
def innerKeys (overlay : Overlay) (a b : Nat) : List Nat :=
  (overlay.entries.filter fun entry => a - 1 ≤ entry.1 ∧ entry.1 < b - 1).map Prod.fst

/-- The edit that puts an item in the range from `a` to `b`. -/
def planEdit (overlay : Overlay) (a b : Nat) (newItem : Option OverlayItem) : OverlayEdit :=
  let front := planFront newItem a (frontEntry overlay a)
  planBack newItem b (overlay.firstFrom (b - 1))
    { newStart := front.1, toRemove := innerKeys overlay a b,
      newInsert := some (b - 1, front.1, newItem), insertBefore := front.2, changed := none }

/-- The end of the range after the edit. -/
def plannedEnd (overlay : Overlay) (b : Nat) (newItem : Option OverlayItem) : Nat :=
  match overlay.firstFrom (b - 1) with
  | none => b
  | some (last, start, item) => if newItem.isNone && item.isNone && start ≤ b then last + 1 else b

def plannedStart (overlay : Overlay) (a : Nat) (newItem : Option OverlayItem) : Nat :=
  (planFront newItem a (frontEntry overlay a)).1

theorem mem_innerKeys (overlay : Overlay) (a b k : Nat) :
    k ∈ innerKeys overlay a b ↔ (∃ value, overlay.get? k = some value) ∧ a - 1 ≤ k ∧ k < b - 1 := by
  simp only [innerKeys, List.mem_map, List.mem_filter, decide_eq_true_eq]
  constructor
  · rintro ⟨entry, ⟨hmem, hin⟩, rfl⟩
    exact ⟨⟨entry.2, (OrderedMap.get?_eq_some_iff _ _ _).mpr hmem⟩, hin⟩
  · rintro ⟨⟨value, hget⟩, hin⟩
    exact ⟨(k, value), ⟨(OrderedMap.get?_eq_some_iff _ _ _).mp hget, hin⟩, rfl⟩

theorem frontEntry_eq_some {overlay : Overlay} {a last start : Nat} {item : Option OverlayItem}
    (hf : frontEntry overlay a = some (last, start, item)) :
    overlay.get? last = some (start, item) ∧ start < a ∧ a - 1 ≤ last := by
  obtain ⟨hfirst, hlt⟩ := Option.filter_eq_some_iff.mp hf
  obtain ⟨hget, hle, -⟩ := (OrderedMap.firstFrom_eq_some_iff _ _ _ _).mp hfirst
  exact ⟨hget, by simpa using hlt, hle⟩

theorem frontEntry_eq_none {overlay : Overlay} (h : Separate overlay) {a : Nat}
    (hf : frontEntry overlay a = none) (last start : Nat) (item : Option OverlayItem)
    (hget : overlay.get? last = some (start, item)) (hlt : start < a) : last + 1 < a := by
  by_contra hge
  cases hfirst : overlay.firstFrom (a - 1) with
  | none =>
    have := (OrderedMap.firstFrom_eq_none_iff _ _).mp hfirst last _ hget
    omega
  | some entry =>
    obtain ⟨last', start', item'⟩ := entry
    obtain ⟨hget', hle', hmin⟩ := (OrderedMap.firstFrom_eq_some_iff _ _ _ _).mp hfirst
    rw [frontEntry, hfirst, Option.filter_eq_none_iff] at hf
    have hge' : a ≤ start' := by simpa using hf _ rfl
    rcases Nat.lt_or_eq_of_le (hmin last _ hget (by omega)) with hl | rfl
    · have h1 := h.apart hget' hget hl
      have h2 := h.pos hget'
      omega
    · rw [hget] at hget'
      cases hget'
      omega

section Plan

variable {overlay : Overlay} (h : Separate overlay) {a b : Nat} (hab : a < b)
  (newItem : Option OverlayItem)

/-- The back of the plan leaves the front and the removed keys alone. -/
theorem planBack_front (back : Option OverlayEntry) (edit : OverlayEdit) :
    (planBack newItem b back edit).insertBefore = edit.insertBefore ∧
      (planBack newItem b back edit).toRemove = edit.toRemove := by
  cases back with
  | none => exact ⟨rfl, rfl⟩
  | some entry =>
    obtain ⟨last, start, item⟩ := entry
    rw [planBack]
    split
    · exact ⟨rfl, rfl⟩
    · split
      · exact ⟨rfl, rfl⟩
      · exact ⟨rfl, rfl⟩

theorem get?_planEdit_left {k : Nat} (hk : k < b - 1) :
    ((planEdit overlay a b newItem).apply overlay).get? k =
      (entryAt (planFront newItem a (frontEntry overlay a)).2 k).or
        (if a - 1 ≤ k then none else overlay.get? k) := by
  have hnone : ∀ key value, b - 1 ≤ key → entryAt (some (key, value)) k = none := by
    intro key value hkey
    rw [entryAt, if_neg (by omega)]
  have hinner : (if k ∈ innerKeys overlay a b then none else overlay.get? k) =
      if a - 1 ≤ k then none else overlay.get? k := by
    by_cases hak : a - 1 ≤ k
    · rw [if_pos hak]
      cases hget : overlay.get? k with
      | none => exact ite_self _
      | some value => rw [if_pos ((mem_innerKeys _ _ _ _).mpr ⟨⟨value, hget⟩, hak, hk⟩)]
    · rw [if_neg hak, if_neg (fun hmem => hak ((mem_innerKeys _ _ _ _).mp hmem).2.1)]
  rw [get?_apply, planEdit]
  simp only [planBack_front]
  cases hback : overlay.firstFrom (b - 1) with
  | none =>
    simp only [planBack, hnone _ _ (Nat.le_refl _)]
    simp only [entryAt, Option.none_or, hinner]
  | some entry =>
    obtain ⟨last, start, item⟩ := entry
    obtain ⟨-, hle, -⟩ := back_first hback
    rw [planBack]
    split
    · simp only [hnone _ _ hle]
      simp only [entryAt, Option.none_or, hinner]
    · split
      · simp only [hnone _ _ hle, hnone _ _ (Nat.le_refl _), Option.none_or, hinner]
      · simp only [hnone _ _ (Nat.le_refl _)]
        simp only [entryAt, Option.none_or, hinner]

theorem get?_planEdit_right (hab : a < b) {k : Nat} (hk : b - 1 ≤ k) :
    ((planEdit overlay a b newItem).apply overlay).get? k =
      (entryAt (planEdit overlay a b newItem).newInsert k).or
        ((entryAt (planEdit overlay a b newItem).changed k).or (overlay.get? k)) := by
  have hbefore : entryAt (planEdit overlay a b newItem).insertBefore k = none := by
    rw [planEdit, (planBack_front _ _ _).1]
    cases hfront : frontEntry overlay a with
    | none => rfl
    | some entry =>
      obtain ⟨last, start, item⟩ := entry
      obtain ⟨-, hlt, -⟩ := frontEntry_eq_some hfront
      rw [planFront]
      split
      · rw [entryAt, if_neg (by omega)]
      · rfl
  have hremove : k ∉ (planEdit overlay a b newItem).toRemove := by
    rw [planEdit, (planBack_front _ _ _).2, mem_innerKeys]
    omega
  rw [get?_apply, hbefore, if_neg hremove, Option.none_or]

omit overlay in
theorem planFront_le {start : Nat} (last : Nat) (item : Option OverlayItem) (hlt : start < a) :
    (planFront newItem a (some (last, start, item))).1 ≤ a := by
  rw [planFront]
  split
  · exact Nat.le_refl _
  · exact hlt.le

theorem plannedStart_le : plannedStart overlay a newItem ≤ a := by
  rw [plannedStart]
  cases hfront : frontEntry overlay a with
  | none => exact Nat.le_refl _
  | some entry =>
    obtain ⟨last, start, item⟩ := entry
    obtain ⟨-, hlt, -⟩ := frontEntry_eq_some hfront
    exact planFront_le newItem last item hlt

theorem le_plannedEnd : b ≤ plannedEnd overlay b newItem := by
  rw [plannedEnd]
  cases hback : overlay.firstFrom (b - 1) with
  | none => exact Nat.le_refl _
  | some entry =>
    obtain ⟨last, start, item⟩ := entry
    obtain ⟨-, hle, -⟩ := back_first hback
    simp only
    split
    · omega
    · exact Nat.le_refl _

theorem before_range_iff (k start : Nat) (w : Option OverlayItem) :
    (if a - 1 ≤ k then none else overlay.get? k) = some (start, w) ↔
      overlay.get? k = some (start, w) ∧ k + 1 < a := by
  by_cases hk : a - 1 ≤ k
  · rw [if_pos hk]
    constructor
    · intro hn
      cases hn
    · rintro ⟨-, hlt⟩
      omega
  · rw [if_neg hk]
    exact ⟨fun hs => ⟨hs, by omega⟩, fun hs => hs.1⟩

theorem or_entryAt_iff (key k : Nat) (value value' : Nat × Option OverlayItem)
    (other : Option (Nat × Option OverlayItem)) :
    (entryAt (some (key, value)) k).or other = some value' ↔
      k = key ∧ value' = value ∨ k ≠ key ∧ other = some value' := by
  rw [entryAt]
  by_cases hk : k = key
  · simp [hk, eq_comm]
  · simp [hk]

include h in
theorem planEdit_left (last start : Nat) (w : Option OverlayItem) (hlast : last < b - 1) :
    ((planEdit overlay a b newItem).apply overlay).get? last = some (start, w) ↔
      ∃ last₀, overlay.get? last₀ = some (start, w) ∧ start < plannedStart overlay a newItem ∧
        last = min last₀ (plannedStart overlay a newItem - 1) := by
  rw [get?_planEdit_left newItem hlast, plannedStart]
  cases hfront : frontEntry overlay a with
  | none =>
    simp only [planFront, entryAt, Option.none_or]
    rw [before_range_iff, front_none h (frontEntry_eq_none h hfront)]
  | some entry =>
    obtain ⟨front, frontStart, item⟩ := entry
    obtain ⟨hget, hlt, hle⟩ := frontEntry_eq_some hfront
    rw [planFront]
    split
    · rw [or_entryAt_iff, before_range_iff, front_keep h hget hlt hle, Prod.mk.injEq]
      refine or_congr_right ⟨fun hs => hs.2, fun hs => ⟨by omega, hs⟩⟩
    · simp only [entryAt, Option.none_or]
      rw [before_range_iff, front_merge h hget hlt hle]

include h hab in
theorem planEdit_right (last start : Nat) (w : Option OverlayItem) (hlast : b - 1 ≤ last) :
    ((planEdit overlay a b newItem).apply overlay).get? last = some (start, w) ↔
      (last = plannedEnd overlay b newItem - 1 ∧ start = plannedStart overlay a newItem ∧
        w = newItem) ∨
      ∃ start₀ w₀, overlay.get? last = some (start₀, w₀) ∧ plannedEnd overlay b newItem ≤ last ∧
        start = max start₀ (plannedEnd overlay b newItem) ∧ w = (start - start₀) +ᵥ w₀ := by
  rw [get?_planEdit_right newItem hab hlast, plannedEnd, planEdit, ← plannedStart]
  cases hback : overlay.firstFrom (b - 1) with
  | none =>
    have hnone : overlay.get? last = none := by
      rw [OrderedMap.get?_eq_none_iff]
      intro value hmem
      have := (OrderedMap.firstFrom_eq_none_iff _ _).mp hback last value
        ((OrderedMap.get?_eq_some_iff _ _ _).mpr hmem)
      omega
    simp only [planBack, or_entryAt_iff, hnone, entryAt_none, Option.none_or, Prod.mk.injEq,
      reduceCtorEq, and_false, or_false, false_and, exists_false]
  | some entry =>
    obtain ⟨back, backStart, item⟩ := entry
    obtain ⟨hget, hle, hmin⟩ := back_first hback
    simp only [planBack]
    by_cases hmerge : (newItem.isNone && item.isNone && decide (backStart ≤ b)) = true
    · simp only [hmerge, if_true, Nat.add_sub_cancel]
      rw [back_merge h hback last start w hlast]
      simp only [Bool.and_eq_true, Option.isNone_iff_eq_none] at hmerge
      obtain ⟨⟨rfl, rfl⟩, -⟩ := hmerge
      rw [entryAt_none, Option.none_or, or_entryAt_iff, Prod.mk.injEq]
    · simp only [hmerge, Bool.false_eq_true, if_false]
      by_cases hcut : backStart < b
      · simp only [hcut, if_true]
        rw [or_entryAt_iff, or_entryAt_iff, back_cut h hback (by omega) hcut last start w hlast,
          Prod.mk.injEq, Prod.mk.injEq]
        refine or_congr_right ⟨?_, ?_⟩
        · rintro ⟨hne, ⟨rfl, hs⟩ | hs⟩
          · exact .inl ⟨rfl, hne, hs⟩
          · exact .inr hs
        · rintro (⟨rfl, hne, hs⟩ | ⟨hne, hs⟩)
          · exact ⟨hne, .inl ⟨rfl, hs⟩⟩
          · have := hmin last start w hs hlast
            exact ⟨by omega, .inr ⟨hne, hs⟩⟩
      · simp only [hcut, if_false]
        rw [or_entryAt_iff, entryAt_none, Option.none_or,
          back_beyond h hback (Nat.le_of_not_lt hcut) last start w hlast, Prod.mk.injEq]
        refine or_congr_right ⟨fun hs => hs.2, fun hs => ⟨?_, hs⟩⟩
        have h1 := hmin last start w hs hlast
        have h2 := h.pos hget
        omega

include h hab in
/-- The edit overwrites the range, extended over the entries it is merged with. -/
theorem planEdit_overwritten :
    Overwritten overlay ((planEdit overlay a b newItem).apply overlay)
      (plannedStart overlay a newItem) (plannedEnd overlay b newItem) newItem :=
  overwritten_of_halves hab (plannedStart_le newItem) (le_plannedEnd newItem)
    (planEdit_left h newItem) (planEdit_right h hab newItem)

/-- The range starts where it did, or where an entry without item starts that reaches it. -/
theorem plannedStart_cases :
    plannedStart overlay a newItem = a ∨ newItem = none ∧ ∃ last,
      overlay.get? last = some (plannedStart overlay a newItem, none) ∧ a - 1 ≤ last := by
  rw [plannedStart]
  cases hfront : frontEntry overlay a with
  | none => exact .inl rfl
  | some entry =>
    obtain ⟨last, start, item⟩ := entry
    obtain ⟨hget, -, hle⟩ := frontEntry_eq_some hfront
    rw [planFront]
    cases item with
    | some item => exact .inl rfl
    | none =>
      cases newItem with
      | some newItem => exact .inl rfl
      | none => exact .inr ⟨rfl, last, hget, hle⟩

/-- The range ends where it did, or where an entry without item ends that it reaches. -/
theorem plannedEnd_cases :
    plannedEnd overlay b newItem = b ∨ newItem = none ∧ ∃ start,
      overlay.get? (plannedEnd overlay b newItem - 1) = some (start, none) ∧ start ≤ b ∧
        b ≤ plannedEnd overlay b newItem := by
  have hle : b ≤ plannedEnd overlay b newItem := le_plannedEnd newItem
  revert hle
  rw [plannedEnd]
  cases hback : overlay.firstFrom (b - 1) with
  | none => exact fun _ => .inl rfl
  | some entry =>
    obtain ⟨last, start, item⟩ := entry
    obtain ⟨hget, -, -⟩ := back_first hback
    simp only
    split
    · next hmerge =>
      simp only [Bool.and_eq_true, Option.isNone_iff_eq_none, decide_eq_true_eq] at hmerge
      obtain ⟨⟨hnew, rfl⟩, hstart⟩ := hmerge
      exact fun hle => .inr ⟨hnew, start, hget, hstart, hle⟩
    · exact fun _ => .inl rfl

include h hab in
/-- The range maps to the new item, and everything else stays where it was. -/
theorem locate_planEdit (o : Nat) :
    locate ((planEdit overlay a b newItem).apply overlay) o =
      if a ≤ o ∧ o < b then some ((o - a) +ᵥ newItem) else locate overlay o := by
  have hover := planEdit_overwritten h hab newItem
  have hstart : plannedStart overlay a newItem ≤ a := plannedStart_le newItem
  have hend : b ≤ plannedEnd overlay b newItem := le_plannedEnd newItem
  have hab' : plannedStart overlay a newItem < plannedEnd overlay b newItem := by omega
  have hstarts : plannedStart overlay a newItem = a ∨ _ := plannedStart_cases newItem
  have hends : plannedEnd overlay b newItem = b ∨ _ := plannedEnd_cases newItem
  by_cases hin : plannedStart overlay a newItem ≤ o ∧ o < plannedEnd overlay b newItem
  · rw [hover.locate_inside hab' h hin.1 hin.2]
    by_cases hrange : a ≤ o ∧ o < b
    · rw [if_pos hrange]
      rcases hstarts with heq | ⟨rfl, -⟩
      · rw [heq]
      · rfl
    · rw [if_neg hrange]
      by_cases hao : a ≤ o
      · rcases hends with heq | ⟨rfl, start, hget, hle, -⟩
        · omega
        · rw [h.locate_of_mem hget (by omega) (by omega)]
          rfl
      · rcases hstarts with heq | ⟨rfl, last, hget, hle⟩
        · omega
        · rw [h.locate_of_mem hget (by omega) (by omega)]
  · rw [hover.locate_outside hab' h (by omega), if_neg (by omega)]

end Plan

/-- The items of the overlay stay inside the address space. -/
def Addressable (overlay : Overlay) : Prop :=
  ∀ last start item, overlay.get? last = some (start, some item) →
    item.offset + (last + 1 - start) < Usize.limit

theorem advanceItem_eq_ok {bytes : Nat} {item : Option OverlayItem}
    (h : ∀ it, item = some it → it.offset + bytes < Usize.limit) :
    advanceItem bytes item = .ok (bytes +ᵥ item) := by
  cases item with
  | none => rfl
  | some item =>
    rw [advanceItem, Usize.add_eq_ok (h item rfl)]
    rfl

section Loop

variable {b : Nat} {newItem : Option OverlayItem}

theorem insertLoop_reach {last start : Nat} {item : Option OverlayItem} (entries : List OverlayEntry)
    {edit edit' : OverlayEdit} (hback : b - 1 ≤ last) (hpos : start ≤ last)
    (hfits : ∀ it, item = some it → it.offset + (last + 1 - start) < Usize.limit)
    (hfront : start < b → keepFront newItem start item edit = .ok edit')
    (hbeyond : b ≤ start → edit' = edit) :
    insertLoop b newItem ((last, start, item) :: entries) edit =
      .ok (planBack newItem b (some (last, start, item)) edit') := by
  rw [insertLoop, planBack]
  by_cases hstart : b ≤ start
  · rw [if_pos hstart, hbeyond hstart]
    by_cases hmerge : (newItem.isNone && item.isNone && decide (start = b)) = true
    · have hle : (newItem.isNone && item.isNone && decide (start ≤ b)) = true := by
        simp only [Bool.and_eq_true, decide_eq_true_eq] at hmerge ⊢
        exact ⟨hmerge.1, hmerge.2.le⟩
      rw [if_pos hmerge, if_pos hle]
      rfl
    · have hgt : ¬ (newItem.isNone && item.isNone && decide (start ≤ b)) = true := by
        simp only [Bool.and_eq_true, decide_eq_true_eq] at hmerge ⊢
        exact fun hle => hmerge ⟨hle.1, Nat.le_antisymm hle.2 hstart⟩
      rw [if_neg hmerge, if_neg hgt, if_neg (Nat.not_lt.mpr hstart)]
      rfl
  · have hlt : start < b := Nat.lt_of_not_le hstart
    rw [if_neg hstart, hfront hlt]
    change (if b - 1 ≤ last then _ else _) = _
    rw [if_pos hback]
    by_cases hmerge : (newItem.isNone && item.isNone && decide (start ≤ b)) = true
    · have hboth : (item.isNone && newItem.isNone) = true := by
        simp only [Bool.and_eq_true, decide_eq_true_eq] at hmerge ⊢
        exact ⟨hmerge.1.2, hmerge.1.1⟩
      rw [if_pos hboth, if_pos hmerge]
      rfl
    · have hboth : ¬ (item.isNone && newItem.isNone) = true := by
        simp only [Bool.and_eq_true, decide_eq_true_eq] at hmerge ⊢
        exact fun hb => hmerge ⟨⟨hb.2, hb.1⟩, hlt.le⟩
      rw [if_neg hboth, if_neg hmerge, if_pos hlt]
      rw [advanceItem_eq_ok fun it hit => (by have := hfits it hit; omega)]
      rfl

theorem insertLoop_inner {last start : Nat} {item : Option OverlayItem} (entries : List OverlayEntry)
    {edit edit' : OverlayEdit} (hinner : last < b - 1) (hpos : start ≤ last)
    (hfront : keepFront newItem start item edit = .ok edit') {key keyStart : Nat}
    (hinsert : edit'.newInsert = some (key, keyStart, newItem)) :
    insertLoop b newItem ((last, start, item) :: entries) edit =
      insertLoop b newItem entries { edit' with
        toRemove := edit'.toRemove ++ [last],
        newInsert := some (b - 1, edit'.newStart, newItem) } := by
  rw [insertLoop, if_neg (by omega), hfront]
  change (if b - 1 ≤ last then _ else _) = _
  rw [if_neg (by omega), hinsert]

/-- Entries in order, none of them empty, with items that stay inside the address space. -/
structure Listed (entries : List OverlayEntry) : Prop where
  apart : entries.Pairwise fun e f => e.1 < f.2.1
  pos : ∀ entry ∈ entries, entry.2.1 ≤ entry.1
  fits : ∀ entry ∈ entries, ∀ item, entry.2.2 = some item →
    item.offset + (entry.1 + 1 - entry.2.1) < Usize.limit

theorem Listed.tail {entry : OverlayEntry} {entries : List OverlayEntry}
    (h : Listed (entry :: entries)) : Listed entries where
  apart := (List.pairwise_cons.mp h.apart).2
  pos := fun e he => h.pos e (List.mem_cons_of_mem _ he)
  fits := fun e he => h.fits e (List.mem_cons_of_mem _ he)

theorem Listed.lt {entry : OverlayEntry} {entries : List OverlayEntry}
    (h : Listed (entry :: entries)) {e : OverlayEntry} (he : e ∈ entries) : entry.1 < e.2.1 :=
  (List.pairwise_cons.mp h.apart).1 e he

/-- Entries that end inside the range come before the one that reaches its end. -/
theorem Listed.filter_eq_nil {entry : OverlayEntry} {entries : List OverlayEntry}
    (h : Listed (entry :: entries)) (hback : b - 1 ≤ entry.1) :
    entries.filter (fun entry => entry.1 < b - 1) = [] := by
  rw [List.filter_eq_nil_iff]
  intro e he
  have h1 := h.lt he
  have h2 := h.pos e (List.mem_cons_of_mem _ he)
  simp only [decide_eq_true_eq]
  omega

theorem insertLoop_tail {entries : List OverlayEntry} (h : Listed entries) {edit : OverlayEdit}
    (hstart : ∀ entry ∈ entries, edit.newStart ≤ entry.2.1)
    (hinsert : edit.newInsert = some (b - 1, edit.newStart, newItem)) :
    insertLoop b newItem entries edit =
      .ok (planBack newItem b (entries.find? fun entry => b - 1 ≤ entry.1)
        { edit with toRemove := edit.toRemove ++
            (entries.filter fun entry => entry.1 < b - 1).map Prod.fst }) := by
  induction entries generalizing edit with
  | nil =>
    simp only [List.filter_nil, List.map_nil, List.append_nil]
    rfl
  | cons entry entries ih =>
    obtain ⟨last, start, item⟩ := entry
    obtain ⟨hstart₀, hstart'⟩ := List.forall_mem_cons.mp hstart
    have hpos : start ≤ last := h.pos _ List.mem_cons_self
    have hfront : keepFront newItem start item edit = .ok edit := by
      rw [keepFront, if_neg (Nat.not_lt.mpr hstart₀)]
      rfl
    by_cases hback : b - 1 ≤ last
    · rw [insertLoop_reach entries hback hpos (h.fits _ List.mem_cons_self) (fun _ => hfront)
          (fun _ => rfl), List.find?_cons_of_pos (by simpa using hback),
        List.filter_cons_of_neg (by simpa using hback), h.filter_eq_nil hback, List.map_nil,
        List.append_nil]
    · have hrest : insertLoop b newItem entries { edit with
          toRemove := edit.toRemove ++ [last],
          newInsert := some (b - 1, edit.newStart, newItem) } = .ok _ := ih h.tail hstart' rfl
      rw [insertLoop_inner entries (Nat.lt_of_not_le hback) hpos hfront hinsert, hrest,
        List.find?_cons_of_neg (by simpa using hback),
        List.filter_cons_of_pos (by simp only [decide_eq_true_eq]; omega), List.map_cons,
        List.append_assoc, hinsert]
      rfl

/-- The edit that the loop starts from. -/
def startEdit (newItem : Option OverlayItem) (a b : Nat) (toRemove : List Nat) : OverlayEdit :=
  { newStart := a, toRemove, newInsert := some (b - 1, a, newItem), insertBefore := none,
    changed := none }

/-- The edit that the loop collects from a list of entries. -/
def planEntries (newItem : Option OverlayItem) (a b : Nat) (toRemove : List Nat)
    (entries : List OverlayEntry) : OverlayEdit :=
  let front := planFront newItem a (entries.head?.filter fun entry => entry.2.1 < a)
  planBack newItem b (entries.find? fun entry => b - 1 ≤ entry.1)
    { newStart := front.1,
      toRemove := toRemove ++ (entries.filter fun entry => entry.1 < b - 1).map Prod.fst,
      newInsert := some (b - 1, front.1, newItem), insertBefore := front.2, changed := none }

/-- The first entry of a list, where it reaches over the start of the range. -/
theorem keepFront_startEdit {a start : Nat} (last : Nat) (hlt : start < a) (toRemove : List Nat)
    (item : Option OverlayItem) :
    keepFront newItem start item (startEdit newItem a b toRemove) = .ok
      { newStart := (planFront newItem a (some (last, start, item))).1, toRemove,
        newInsert := some (b - 1, a, newItem),
        insertBefore := (planFront newItem a (some (last, start, item))).2, changed := none } := by
  rw [keepFront, startEdit, if_pos hlt, planFront]
  by_cases hsome : (item.isSome || newItem.isSome) = true
  · rw [if_pos hsome, if_pos hsome]
    rfl
  · rw [if_neg hsome, if_neg hsome]
    rfl

theorem insertLoop_eq {a : Nat} (hab : a < b) (toRemove : List Nat) {entries : List OverlayEntry}
    (h : Listed entries) (hnext : ∀ entry ∈ entries, a - 1 ≤ entry.1) :
    insertLoop b newItem entries (startEdit newItem a b toRemove) =
      .ok (planEntries newItem a b toRemove entries) := by
  cases entries with
  | nil =>
    simp only [planEntries, List.filter_nil, List.map_nil, List.append_nil]
    rfl
  | cons entry entries =>
    obtain ⟨last, start, item⟩ := entry
    have hpos : start ≤ last := h.pos _ List.mem_cons_self
    rw [planEntries, List.head?_cons]
    by_cases hstart : start < a
    · -- the first entry reaches over the start of the range
      rw [Option.filter_some_pos (by simpa using hstart)]
      have hkeep : keepFront newItem start item (startEdit newItem a b toRemove) = .ok _ :=
        keepFront_startEdit last hstart toRemove item
      by_cases hback : b - 1 ≤ last
      · rw [insertLoop_reach entries hback hpos (h.fits _ List.mem_cons_self) (fun _ => hkeep)
            (fun hle => by omega), List.find?_cons_of_pos (by simpa using hback),
          List.filter_cons_of_neg (by simpa using hback), h.filter_eq_nil hback, List.map_nil,
          List.append_nil]
        -- where the start has moved, nothing is inserted
        rw [planFront, planBack, planBack]
        cases item with
        | some item => rfl
        | none =>
          cases newItem with
          | some newItem => rfl
          | none => simp [Nat.le_of_lt (Nat.lt_trans hstart hab)]
      · have hall : ∀ e ∈ entries, (planFront newItem a (some (last, start, item))).1 ≤ e.2.1 := by
          intro e he
          have h1 : last < e.2.1 := h.lt he
          have h2 : a - 1 ≤ last := hnext _ List.mem_cons_self
          have h3 := planFront_le newItem last item hstart
          omega
        rw [insertLoop_inner entries (Nat.lt_of_not_le hback) hpos hkeep rfl,
          insertLoop_tail h.tail hall rfl, List.find?_cons_of_neg (by simpa using hback),
          List.filter_cons_of_pos (by simp only [decide_eq_true_eq]; omega), List.map_cons,
          List.append_assoc]
        rfl
    · rw [Option.filter_some_neg (by simpa using hstart)]
      have hall : ∀ e ∈ (last, start, item) :: entries, a ≤ e.2.1 := by
        intro e he
        rcases List.mem_cons.mp he with rfl | he
        · exact Nat.le_of_not_lt hstart
        · have : last < e.2.1 := h.lt he
          omega
      rw [insertLoop_tail h hall rfl]
      rfl

end Loop

section Insert

variable {overlay : Overlay} (h : Separate overlay) (hfits : Addressable overlay) {a b : Nat}
  (hab : a < b) (newItem : Option OverlayItem)

include h hfits in
theorem listed_rangeFrom (k : Nat) : Listed (overlay.rangeFrom k) := by
  have hget : ∀ e ∈ overlay.rangeFrom k, overlay.get? e.1 = some (e.2.1, e.2.2) :=
    fun e he => (OrderedMap.get?_eq_some_iff _ _ _).mpr (List.mem_filter.mp he).1
  constructor
  · refine (overlay.sorted.filter _).imp_of_mem fun {e f} he hf hlt => ?_
    exact h.apart (hget e he) (hget f hf) hlt
  · exact fun e he => h.pos (hget e he)
  · intro e he item hitem
    refine hfits e.1 e.2.1 item ?_
    rw [hget e he, hitem]

theorem find?_rangeFrom {k k' : Nat} (hk : k ≤ k') :
    ((overlay.rangeFrom k).find? fun entry => k' ≤ entry.1) = overlay.firstFrom k' := by
  rw [OrderedMap.firstFrom, OrderedMap.rangeFrom, OrderedMap.rangeFrom, List.find?_filter,
    List.head?_filter]
  congr 1
  funext e
  by_cases he : k' ≤ e.1
  · simp [he, Nat.le_trans hk he]
  · simp [he]

theorem planEntries_rangeFrom (hab : a < b) :
    planEntries newItem a b [] (overlay.rangeFrom (a - 1)) = planEdit overlay a b newItem := by
  rw [planEntries, planEdit, find?_rangeFrom (by omega), ← OrderedMap.firstFrom, ← frontEntry,
    List.nil_append, innerKeys, OrderedMap.rangeFrom, List.filter_filter]
  simp only [Bool.decide_and, Bool.and_comm]

include h hfits hab in
theorem insertIntoOverlay_eq (storage : List UInt8) :
    insertIntoOverlay ⟨overlay, storage⟩ a b newItem =
      .ok ⟨(planEdit overlay a b newItem).apply overlay, storage⟩ := by
  rw [insertIntoOverlay, Usize.sub_eq_ok (by omega)]
  change (insertLoop b newItem (overlay.rangeFrom (a - 1)) (startEdit newItem a b []) >>= _) = _
  rw [insertLoop_eq hab [] (listed_rangeFrom h hfits _), planEntries_rangeFrom newItem hab]
  · rfl
  · intro entry hentry
    simpa using (List.mem_filter.mp hentry).2

end Insert


end Dandelion.KvmContext
