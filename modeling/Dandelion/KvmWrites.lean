import Dandelion.StorageCopies

/-!
# Writes to a context

The loop of `write` collects the edit that `insert_into_overlay` would make for the touched
pages. It copies the rest of the first page when it passes the entry that covers it, and the
rest of the last page when it stops.
-/

namespace Dandelion.KvmContext

open Outcome Segments Stateful

/-- The first page up to the write is in the storage, or is to be set to zero. -/
def HeaderSettled (context : KvmContext) (offset zeroHeader : Nat) (storage : List UInt8) : Prop :=
  zeroHeader = offset ∧ Loaded context (roundDownToPage offset) offset storage ∨
    zeroHeader = roundDownToPage offset ∧ Absent context (roundDownToPage offset) offset

/-- The last page from the end of the write on is in the storage, or is to be set to zero. -/
def TrailerSettled (context : KvmContext) (writeEnd zeroTrailer : Nat) (storage : List UInt8) : Prop :=
  zeroTrailer = writeEnd ∧ Loaded context writeEnd (nextPage writeEnd) storage ∨
    zeroTrailer = nextPage writeEnd ∧ Absent context writeEnd (nextPage writeEnd)

theorem HeaderSettled.congr {context : KvmContext} {offset writeEnd zeroHeader : Nat}
    {storage storage' : List UInt8} (hle : offset ≤ writeEnd)
    (hs : HeaderSettled context offset zeroHeader storage)
    (hsame : SameOutside writeEnd (nextPage writeEnd) storage storage') :
    HeaderSettled context offset zeroHeader storage' := by
  rcases hs with ⟨hz, hloaded⟩ | habsent
  · refine .inl ⟨hz, fun o ho ho' => ?_⟩
    rw [hsame.outside o (by omega)]
    exact hloaded o ho ho'
  · exact .inr habsent

/-- What the loop leaves, if `insert_into_overlay` makes the edit `edit'`. -/
structure Looped (context : KvmContext) (offset writeEnd : Nat) (edit' : DandelionResult OverlayEdit)
    (state : WriteState) (storage : List UInt8) : Prop where
  edit : edit' = .ok state.edit
  kept : Kept context offset writeEnd storage
  header : HeaderSettled context offset state.zeroHeader storage
  trailer : TrailerSettled context writeEnd state.zeroTrailer storage

section Loop

variable {context : KvmContext} (h : Paged context) {offset writeEnd : Nat}
  (hle : offset ≤ writeEnd) (htouched : roundDownToPage offset < nextPage writeEnd)
  (hfits : nextPage writeEnd ≤ context.storage.length)

/-- What the loop relies on before an entry. -/
structure Ready (context : KvmContext) (offset writeEnd : Nat) (state : WriteState)
    (storage : List UInt8) : Prop where
  kept : Kept context offset writeEnd storage
  header : HeaderSettled context offset state.zeroHeader storage
  trailer : state.zeroTrailer = nextPage writeEnd

include h hle hfits in
theorem writeLoop_reach {last start : Nat} {item : Option OverlayItem}
    (hget : context.overlay.get? last = some (start, item)) (entries : List OverlayEntry)
    {state : WriteState} {storage : List UInt8} {edit' : OverlayEdit}
    (hnext : last ≠ state.edit.newStart - 1) (hstart : start < nextPage writeEnd)
    (hlast : nextPage writeEnd - 1 ≤ last)
    (hheader : Runs (copyHeader offset start item state) storage
      (fun state' storage' => state'.edit = state.edit ∧ Ready context offset writeEnd state' storage')
      (Halted context offset writeEnd))
    (hkeep : keepFront none start item state.edit = .ok edit')
    (hinsert : item.isSome → edit'.newInsert = some (nextPage writeEnd - 1, edit'.newStart, none)) :
    Runs (writeLoop offset writeEnd (nextPage writeEnd) ((last, start, item) :: entries) state) storage
      (Looped context offset writeEnd
        (insertLoop (nextPage writeEnd) none ((last, start, item) :: entries) state.edit))
      (Halted context offset writeEnd) := by
  rw [writeLoop, if_neg hnext, if_neg (Nat.not_le.mpr hstart), insertLoop,
    if_neg (Nat.not_le.mpr hstart), hkeep]
  refine hheader.bind fun state₁ storage₁ hready => ?_
  obtain ⟨hedit, hready⟩ := hready
  rw [hedit, hkeep, runs_lift_ok_bind]
  have hzero : ({ state₁ with edit := edit' } : WriteState).zeroTrailer = _ := hready.trailer
  refine (copyTrailer_runs h hget hready.kept hstart hlast hfits hzero).bind ?_
  rintro state₂ storage₂ ⟨hedit₂, hzero₂, hkept₂, htrailer₂, hsame₂, hloaded₂⟩
  have hheader₂ : HeaderSettled context offset state₂.zeroHeader storage₂ := by
    rw [hzero₂]
    exact hready.header.congr hle hsame₂
  have htrailer : TrailerSettled context writeEnd state₂.zeroTrailer storage₂ :=
    .inl ⟨htrailer₂, hloaded₂⟩
  simp only at hedit₂
  rw [if_pos hlast, hedit₂]
  cases item with
  | none =>
    refine (runs_pure _).mpr ⟨?_, hkept₂, hheader₂, htrailer⟩
    change (if nextPage writeEnd - 1 ≤ last then _ else _) = _
    rw [if_pos hlast]
    rfl
  | some item =>
    have hitem := (h.overlay.items hget).lt
    have hadvance : advanceItem (nextPage writeEnd - start) (some item) = .ok _ :=
      advanceItem_eq_ok fun it hit => by cases hit; omega
    simp only [hadvance]
    refine (runs_lift_ok_bind _ _).mpr ((runs_pure _).mpr ⟨?_, hkept₂, hheader₂, htrailer⟩)
    change (if nextPage writeEnd - 1 ≤ last then _ else _) = _
    rw [if_pos hlast, ← hinsert rfl]
    rfl

theorem writeLoop_inner {last start : Nat} {item : Option OverlayItem} {entries : List OverlayEntry}
    {state : WriteState} {storage : List UInt8} {edit' : OverlayEdit}
    (hnext : last ≠ state.edit.newStart - 1) (hpos : start ≤ last)
    (hinner : last < nextPage writeEnd - 1)
    (hheader : Runs (copyHeader offset start item state) storage
      (fun state' storage' => state'.edit = state.edit ∧ Ready context offset writeEnd state' storage')
      (Halted context offset writeEnd))
    (hkeep : keepFront none start item state.edit = .ok edit') {key keyStart : Nat}
    (hinsert : edit'.newInsert = some (key, keyStart, none))
    (hrest : ∀ state' storage', state'.edit = { edit' with
        toRemove := edit'.toRemove ++ [last],
        newInsert := some (nextPage writeEnd - 1, edit'.newStart, none) } →
      Ready context offset writeEnd state' storage' →
      Runs (writeLoop offset writeEnd (nextPage writeEnd) entries state') storage'
        (Looped context offset writeEnd (insertLoop (nextPage writeEnd) none entries state'.edit))
        (Halted context offset writeEnd)) :
    Runs (writeLoop offset writeEnd (nextPage writeEnd) ((last, start, item) :: entries) state) storage
      (Looped context offset writeEnd
        (insertLoop (nextPage writeEnd) none ((last, start, item) :: entries) state.edit))
      (Halted context offset writeEnd) := by
  rw [writeLoop, if_neg hnext, if_neg (by omega),
    insertLoop_inner entries hinner hpos hkeep hinsert]
  refine hheader.bind fun state₁ storage₁ hready => ?_
  obtain ⟨hedit, hready⟩ := hready
  rw [hedit, hkeep, runs_lift_ok_bind, copyTrailer, if_neg (by omega), pure_bind, if_neg (by omega)]
  exact hrest _ storage₁ rfl ⟨hready.kept, hready.header, hready.trailer⟩

include h hle htouched hfits in
theorem writeLoop_tail {entries : List OverlayEntry} (hlisted : Listed entries)
    (hmem : ∀ entry ∈ entries, context.overlay.get? entry.1 = some entry.2)
    (hfind : (entries.find? fun entry => nextPage writeEnd - 1 ≤ entry.1) =
      context.overlay.firstFrom (nextPage writeEnd - 1))
    {state : WriteState} {storage : List UInt8}
    (hstart : ∀ entry ∈ entries, offset < entry.2.1 ∧ state.edit.newStart ≤ entry.2.1)
    (hinsert : state.edit.newInsert = some (nextPage writeEnd - 1, state.edit.newStart, none))
    (hready : Ready context offset writeEnd state storage) :
    Runs (writeLoop offset writeEnd (nextPage writeEnd) entries state) storage
      (Looped context offset writeEnd (insertLoop (nextPage writeEnd) none entries state.edit))
      (Halted context offset writeEnd) := by
  induction entries generalizing state storage with
  | nil =>
    have habsent : Absent context writeEnd (nextPage writeEnd) :=
      absent_trailer h (by rw [h.overlay.separate.locate_firstFrom, ← hfind]; rfl)
    exact ⟨rfl, hready.kept, hready.header, .inr ⟨hready.trailer, habsent⟩⟩
  | cons entry entries ih =>
    obtain ⟨last, start, item⟩ := entry
    obtain ⟨hstart₀, hstart'⟩ := List.forall_mem_cons.mp hstart
    obtain ⟨hget, hmem'⟩ := List.forall_mem_cons.mp hmem
    have hpos : start ≤ last := hlisted.pos _ List.mem_cons_self
    simp only at hstart₀ hget
    have hnext : last ≠ state.edit.newStart - 1 := by omega
    have hkeep : keepFront none start item state.edit = .ok state.edit := by
      rw [keepFront, if_neg (by omega)]
      rfl
    have hheader : Runs (copyHeader offset start item state) storage
        (fun state' storage' => state'.edit = state.edit ∧ Ready context offset writeEnd state' storage')
        (Halted context offset writeEnd) := by
      rw [copyHeader, if_neg (by omega)]
      exact ⟨rfl, hready⟩
    by_cases hback : nextPage writeEnd - 1 ≤ last
    · rw [List.find?_cons_of_pos (by simpa using hback)] at hfind
      by_cases hbeyond : nextPage writeEnd ≤ start
      · have habsent : Absent context writeEnd (nextPage writeEnd) :=
          absent_trailer h (by
            rw [h.overlay.separate.locate_firstFrom, ← hfind]
            exact if_neg (by simp only; omega))
        rw [writeLoop, if_neg hnext, if_pos hbeyond, insertLoop, if_pos hbeyond]
        by_cases hmerge : (item.isNone && decide (start = nextPage writeEnd)) = true
        · rw [if_pos hmerge, if_pos (by simpa using hmerge)]
          exact ⟨rfl, hready.kept, hready.header, .inr ⟨hready.trailer, habsent⟩⟩
        · rw [if_neg hmerge, if_neg (by simpa using hmerge)]
          exact ⟨rfl, hready.kept, hready.header, .inr ⟨hready.trailer, habsent⟩⟩
      · exact writeLoop_reach h hle hfits hget entries hnext (by omega) hback hheader hkeep fun _ => hinsert
    · rw [List.find?_cons_of_neg (by simpa using hback)] at hfind
      refine writeLoop_inner hnext hpos (by omega) hheader hkeep hinsert fun state' storage' hedit hr => ?_
      refine ih hlisted.tail hmem' hfind ?_ ?_ hr
      · rw [hedit]
        exact hstart'
      · rw [hedit]

omit h hle in
theorem keepFront_none (a' b start : Nat) (removed : List Nat) (item : Option OverlayItem) :
    ∃ edit', keepFront none start item (startEdit none a' b removed) = .ok edit' ∧
      edit'.newStart ≤ a' ∧ edit'.newInsert = some (b - 1, a', none) ∧
      (item.isSome → edit'.newStart = a') := by
  rw [keepFront, startEdit]
  by_cases hstart : start < a'
  · rw [if_pos hstart]
    cases item with
    | none => exact ⟨_, rfl, hstart.le, rfl, fun hn => by cases hn⟩
    | some item => exact ⟨_, rfl, Nat.le_refl _, rfl, fun _ => rfl⟩
  · rw [if_neg hstart]
    exact ⟨_, rfl, Nat.le_refl _, rfl, fun _ => rfl⟩

include h hle htouched hfits in
/-- The loop on the entries that end behind the start of the first page. -/
theorem writeLoop_from {a' : Nat} (ha : a' ≤ roundDownToPage offset) (removed : List Nat) :
    Runs (writeLoop offset writeEnd (nextPage writeEnd)
        (context.overlay.rangeFrom (roundDownToPage offset))
        ⟨startEdit none a' (nextPage writeEnd) removed, roundDownToPage offset, nextPage writeEnd⟩)
      context.storage
      (Looped context offset writeEnd (insertLoop (nextPage writeEnd) none
        (context.overlay.rangeFrom (roundDownToPage offset))
        (startEdit none a' (nextPage writeEnd) removed)))
      (Halted context offset writeEnd) := by
  have hround := roundDownToPage_le offset
  have hround' := lt_roundDownToPage_add offset
  have hnextPage := le_nextPage writeEnd
  have hlisted := listed_rangeFrom h.overlay.separate h.overlay.addressable (roundDownToPage offset)
  have hmem : ∀ entry ∈ context.overlay.rangeFrom (roundDownToPage offset),
      context.overlay.get? entry.1 = some entry.2 ∧ roundDownToPage offset ≤ entry.1 := by
    intro entry hentry
    obtain ⟨hin, hge⟩ := List.mem_filter.mp hentry
    exact ⟨(OrderedMap.get?_eq_some_iff _ _ _).mpr hin, by simpa using hge⟩
  have hfind : ((context.overlay.rangeFrom (roundDownToPage offset)).find? fun entry =>
      nextPage writeEnd - 1 ≤ entry.1) = _ := find?_rangeFrom (by omega)
  have hhead : (context.overlay.rangeFrom (roundDownToPage offset)).head? =
    context.overlay.firstFrom (roundDownToPage offset) := rfl
  have hkept : Kept context offset writeEnd context.storage := ⟨rfl, fun _ _ => rfl, fun _ _ _ => rfl⟩
  generalize context.overlay.rangeFrom (roundDownToPage offset) = entries at *
  by_cases hcover : ∃ last start item rest, entries = (last, start, item) :: rest ∧
      start ≤ roundDownToPage offset
  · -- the first entry covers the first page
    obtain ⟨last, start, item, rest, rfl, hstart⟩ := hcover
    obtain ⟨⟨hget, hlast⟩, hmem'⟩ := List.forall_mem_cons.mp hmem
    simp only at hget hlast
    have hpos : start ≤ last := hlisted.pos _ List.mem_cons_self
    have hpage := add_pageSize_le (dvd_roundDownToPage offset) (h.overlay.aligned hget).2 (by omega)
    have hnext : last ≠ a' - 1 := by
      have : 1 < pageSize := by decide
      omega
    have hheader : Runs (copyHeader offset start item ⟨startEdit none a' (nextPage writeEnd) removed,
        roundDownToPage offset, nextPage writeEnd⟩) context.storage
        (fun state' storage' => state'.edit = startEdit none a' (nextPage writeEnd) removed ∧
          Ready context offset writeEnd state' storage') (Halted context offset writeEnd) := by
      refine (copyHeader_runs h hget hkept hstart hlast (by omega) ha rfl).imp ?_
      rintro state' storage' ⟨hedit, htrailer, hkept', hzero, hloaded⟩
      exact ⟨hedit, hkept', .inl ⟨hzero, hloaded⟩, htrailer⟩
    obtain ⟨edit', hkeep, hstart', hinsert, hsome⟩ :=
      keepFront_none a' (nextPage writeEnd) start removed item
    by_cases hback : nextPage writeEnd - 1 ≤ last
    · exact writeLoop_reach h hle hfits hget rest hnext (by omega) hback hheader hkeep fun hitem => by
        rw [hinsert, hsome hitem]
    · rw [List.find?_cons_of_neg (by simpa using hback)] at hfind
      refine writeLoop_inner hnext hpos (by omega) hheader hkeep hinsert fun state' storage' hedit hr => ?_
      refine writeLoop_tail h hle htouched hfits hlisted.tail
        (fun entry hentry => (hmem' entry hentry).1) hfind ?_ ?_ hr
      · intro entry hentry
        have : last < entry.2.1 := hlisted.lt hentry
        rw [hedit]
        exact ⟨by omega, by simp only; omega⟩
      · rw [hedit]
  · -- no entry covers the first page
    have hfirst : ∀ entry ∈ entries, roundDownToPage offset < entry.2.1 := by
      intro entry hentry
      cases entries with
      | nil => cases hentry
      | cons head rest =>
        have hlt₀ : roundDownToPage offset < head.2.1 := by
          by_contra hle₀
          exact hcover ⟨head.1, head.2.1, head.2.2, rest, rfl, Nat.le_of_not_lt hle₀⟩
        rcases List.mem_cons.mp hentry with rfl | hentry
        · exact hlt₀
        · have h1 := hlisted.lt hentry
          have h2 := hlisted.pos _ List.mem_cons_self
          omega
    have habsent : Absent context (roundDownToPage offset) offset := by
      apply absent_header h
      rw [h.overlay.separate.locate_firstFrom, ← hhead]
      cases entries with
      | nil => rfl
      | cons head rest => exact if_neg (Nat.not_le.mpr (hfirst _ List.mem_cons_self))
    refine writeLoop_tail h hle htouched hfits hlisted
      (fun entry hentry => (hmem entry hentry).1) hfind ?_ rfl
      ⟨hkept, .inr ⟨rfl, habsent⟩, rfl⟩
    intro entry hentry
    obtain ⟨last, start, item⟩ := entry
    have h1 : roundDownToPage offset < start := hfirst _ hentry
    have h2 := add_pageSize_le (dvd_roundDownToPage offset)
      (h.overlay.aligned (hmem _ hentry).1).1 h1
    exact ⟨by simp only; omega, by simp only [startEdit]; omega⟩

end Loop

section Adjacent

variable {overlay : Overlay}

theorem apply_reinsert {edit : OverlayEdit} {key : Nat} {value : Nat × Option OverlayItem}
    (hget : overlay.get? key = some value) (hbefore : edit.insertBefore = none)
    (hremove : key ∉ edit.toRemove) (hchanged : entryAt edit.changed key = none) :
    ({ edit with toRemove := key :: edit.toRemove, insertBefore := some (key, value) } :
      OverlayEdit).apply overlay = edit.apply overlay := by
  apply OrderedMap.ext_get?
  intro k
  rw [get?_apply, get?_apply, hbefore, entryAt_none, Option.none_or]
  congr 1
  rw [entryAt_some]
  by_cases hk : k = key
  · rw [hk, if_pos rfl, if_neg hremove, hchanged, hget]
    rfl
  · rw [if_neg hk, Option.none_or]
    simp [hk]

theorem planBack_before (newItem : Option OverlayItem) (b : Nat) (back : Option OverlayEntry)
    (edit : OverlayEdit) (toRemove : List Nat) (insertBefore : Option OverlayEntry) :
    planBack newItem b back { edit with toRemove, insertBefore } =
      { planBack newItem b back edit with toRemove, insertBefore } := by
  cases back with
  | none => rfl
  | some entry =>
    obtain ⟨last, start, item⟩ := entry
    rw [planBack, planBack]
    split
    · rfl
    · split
      · rfl
      · rfl

/-- The entry that the back of a plan changes ends behind the range. -/
theorem entryAt_changed (newItem : Option OverlayItem) {b k : Nat} {back : Option OverlayEntry}
    {edit : OverlayEdit} (hback : ∀ entry, back = some entry → k < entry.1)
    (hnone : edit.changed = none) : entryAt (planBack newItem b back edit).changed k = none := by
  cases back with
  | none =>
    rw [planBack, hnone]
    rfl
  | some entry =>
    obtain ⟨last, start, item⟩ := entry
    have hlt : k ≠ last := (hback _ rfl).ne
    rw [planBack]
    split
    · exact if_neg hlt
    · split
      · exact if_neg hlt
      · rw [hnone]
        rfl

theorem apply_adjacent {a b start : Nat} {item : Option OverlayItem} {keys : List Nat}
    {back : Option OverlayEntry} (hget : overlay.get? (a - 1) = some (start, item)) (hpos : 0 < a)
    (hkeys : ∀ key ∈ keys, a ≤ key) (hback : ∀ entry, back = some entry → a ≤ entry.1) :
    (planBack none b back ⟨a, (a - 1) :: keys, some (b - 1, a, none), some (a - 1, start, item),
        none⟩).apply overlay =
      (planBack none b back ⟨a, keys, some (b - 1, a, none), none, none⟩).apply overlay := by
  have hfront := planBack_front none (b := b) back ⟨a, keys, some (b - 1, a, none), none, none⟩
  have hplan := planBack_before none b back ⟨a, keys, some (b - 1, a, none), none, none⟩
    ((a - 1) :: keys) (some (a - 1, start, item))
  have hchanged : entryAt (planBack none b back ⟨a, keys, some (b - 1, a, none), none, none⟩).changed
      (a - 1) = none := by
    refine entryAt_changed none (fun entry hentry => ?_) rfl
    have := hback entry hentry
    omega
  have hremove : a - 1 ∉ keys := fun hmem => by
    have := hkeys _ hmem
    omega
  have happly := apply_reinsert hget hfront.1 (by rw [hfront.2]; exact hremove) hchanged
  rw [hfront.2] at happly
  rw [hplan]
  exact happly

/-- The entry that ends right before an offset, and those behind it. -/
theorem rangeFrom_pred (overlay : Overlay) (a : Nat) :
    overlay.rangeFrom (a - 1) = overlay.rangeFrom a ∨ ∃ start item, 0 < a ∧
      overlay.get? (a - 1) = some (start, item) ∧
      overlay.rangeFrom (a - 1) = (a - 1, start, item) :: overlay.rangeFrom a := by
  cases a with
  | zero => exact .inl rfl
  | succ a =>
    rw [Nat.add_sub_cancel, OrderedMap.rangeFrom_succ overlay a]
    cases hget : overlay.get? a with
    | none => exact .inl rfl
    | some value => exact .inr ⟨value.1, value.2, Nat.succ_pos a, rfl, rfl⟩

end Adjacent

/-- The loop of `write` plans what `insert_into_overlay` does for the touched pages. -/
theorem writeLoop_spec {context : KvmContext} (h : Paged context) {offset writeEnd : Nat}
    (hle : offset ≤ writeEnd) (htouched : roundDownToPage offset < nextPage writeEnd)
    (hfits : nextPage writeEnd ≤ context.storage.length) :
    Runs (writeLoop offset writeEnd (nextPage writeEnd)
        (context.overlay.rangeFrom (roundDownToPage offset - 1))
        ⟨startEdit none (roundDownToPage offset) (nextPage writeEnd) [], roundDownToPage offset,
          nextPage writeEnd⟩) context.storage
      (fun state storage =>
        state.edit.apply context.overlay =
          (planEdit context.overlay (roundDownToPage offset) (nextPage writeEnd) none).apply
            context.overlay ∧
        Kept context offset writeEnd storage ∧
        HeaderSettled context offset state.zeroHeader storage ∧
        TrailerSettled context writeEnd state.zeroTrailer storage)
      (Halted context offset writeEnd) := by
  have hlisted := listed_rangeFrom h.overlay.separate h.overlay.addressable (roundDownToPage offset - 1)
  have hnext : ∀ entry ∈ context.overlay.rangeFrom (roundDownToPage offset - 1),
      roundDownToPage offset - 1 ≤ entry.1 := fun entry hentry =>
    ((OrderedMap.mem_rangeFrom _ _ _).mp hentry).2
  have hplan : insertLoop (nextPage writeEnd) none _ _ = .ok _ := insertLoop_eq htouched [] hlisted hnext
  rw [planEntries_rangeFrom none htouched] at hplan
  rcases rangeFrom_pred context.overlay (roundDownToPage offset) with hsame |
      ⟨start, item, hpos, hget, hcons⟩
  · -- no entry ends where the first page starts
    rw [hsame] at hplan ⊢
    refine (writeLoop_from h hle htouched hfits (Nat.le_refl _) []).imp fun state storage hloop => ?_
    have hedit := hplan.symm.trans hloop.edit
    exact ⟨by rw [← Except.ok.inj hedit], hloop.kept, hloop.header, hloop.trailer⟩
  · have hstart := h.overlay.separate.pos hget
    rw [hcons] at hplan hlisted ⊢
    have hadjacent : roundDownToPage offset - 1 =
      (startEdit none (roundDownToPage offset) (nextPage writeEnd) []).newStart - 1 := rfl
    rw [writeLoop, if_pos hadjacent]
    cases item with
    | none =>
      -- the write is appended to the entry before it
      have hkeep : keepFront none start none (startEdit none (roundDownToPage offset)
          (nextPage writeEnd) []) = .ok _ :=
        keepFront_startEdit (roundDownToPage offset - 1) (by omega) [] none
      rw [insertLoop_inner _ (by omega) hstart hkeep rfl] at hplan
      refine (writeLoop_from h hle htouched hfits (show start ≤ _ by omega) [roundDownToPage offset - 1]).imp
        fun state storage hloop => ?_
      have hedit := hplan.symm.trans hloop.edit
      exact ⟨by rw [← Except.ok.inj hedit], hloop.kept, hloop.header, hloop.trailer⟩
    | some item =>
      -- the entry before the write is left alone
      refine (writeLoop_from h hle htouched hfits (Nat.le_refl _) []).imp fun state storage hloop => ?_
      refine ⟨?_, hloop.kept, hloop.header, hloop.trailer⟩
      have hkeep : keepFront none start (some item) (startEdit none (roundDownToPage offset)
          (nextPage writeEnd) []) = .ok _ :=
        keepFront_startEdit (roundDownToPage offset - 1) (by omega) [] (some item)
      have hbehind : ∀ entry ∈ context.overlay.rangeFrom (roundDownToPage offset),
          roundDownToPage offset ≤ entry.2.1 := by
        intro entry hentry
        have : roundDownToPage offset - 1 < entry.2.1 := hlisted.lt hentry
        omega
      have hedit := hloop.edit
      rw [insertLoop_tail hlisted.tail hbehind rfl] at hedit
      rw [insertLoop_inner _ (by omega) hstart hkeep rfl,
        insertLoop_tail hlisted.tail hbehind rfl] at hplan
      rw [← Except.ok.inj hedit, ← Except.ok.inj hplan]
      refine (apply_adjacent hget hpos ?_ ?_).symm
      · intro key hkey
        obtain ⟨entry, hentry, rfl⟩ := List.mem_map.mp hkey
        exact ((OrderedMap.mem_rangeFrom _ _ _).mp (List.mem_filter.mp hentry).1).2
      · intro entry hentry
        exact ((OrderedMap.mem_rangeFrom _ _ _).mp (List.mem_of_find?_eq_some hentry)).2

end Dandelion.KvmContext
