import Dandelion.TransferCorrectness

/-!
# Overlays without items

A context that is only written to has all of its pages in the storage. A write then joins the
touched pages with all entries that overlap or adjoin them, so that there is a gap between any
two entries. A write of no bytes at a page boundary joins an empty range, and can leave an entry
without pages; there is a gap around it as well.
-/

namespace Dandelion.KvmContext

open Outcome Segments Stateful

/-- Entries in the storage, empty ones included, with a gap between any two of them. -/
structure StoredEntries (entries : List OverlayEntry) : Prop where
  stored : ∀ entry ∈ entries, entry.2.2 = none
  ordered : ∀ entry ∈ entries, entry.2.1 ≤ entry.1 + 1
  aligned : ∀ entry ∈ entries, pageSize ∣ entry.2.1 ∧ pageSize ∣ entry.1 + 1
  apart : entries.Pairwise fun entry entry' => entry.1 + 1 < entry'.2.1

theorem StoredEntries.tail {entry : OverlayEntry} {entries : List OverlayEntry}
    (h : StoredEntries (entry :: entries)) : StoredEntries entries where
  stored e he := h.stored e (List.mem_cons_of_mem _ he)
  ordered e he := h.ordered e (List.mem_cons_of_mem _ he)
  aligned e he := h.aligned e (List.mem_cons_of_mem _ he)
  apart := (List.pairwise_cons.mp h.apart).2

section Loop

theorem copyHeader_stored (offset start : Nat) (state : WriteState) :
    copyHeader offset start none state = pure { state with
      zeroHeader := if state.edit.newStart < offset ∧ start ≤ offset then offset
        else state.zeroHeader } := by
  rw [copyHeader]
  split_ifs with hcopied
  · rfl
  · rfl

theorem copyTrailer_stored (writeEnd roundedEnd last start : Nat) (state : WriteState) :
    copyTrailer writeEnd roundedEnd last start none state = pure { state with
      zeroTrailer := if roundedEnd - 1 ≤ last ∧ writeEnd < roundedEnd then writeEnd
        else state.zeroTrailer } := by
  rw [copyTrailer]
  split_ifs with hcopied
  · rfl
  · rfl

theorem keepFront_stored (start : Nat) (edit : OverlayEdit) :
    keepFront none start none edit = .ok { edit with newStart := min start edit.newStart } := by
  rw [keepFront]
  split_ifs with hfront hitem
  · cases hitem
  · rw [Nat.min_eq_left hfront.le]
    rfl
  · rw [Nat.min_eq_right (Nat.le_of_not_lt hfront)]
    rfl

/-- The edit puts an entry from `lo` to `hi` in the place of those of the entries that overlap or
adjoin the range from `start` to `stop`. -/
structure Joins (entries : List OverlayEntry) (start stop : Nat) (removed : List Nat)
    (edit : OverlayEdit) (lo hi : Nat) (gone : List Nat) : Prop where
  get_apply : ∀ (overlay : Overlay) k, (edit.apply overlay).get? k =
    if k = hi - 1 then some (lo, none) else if k ∈ removed ++ gone then none else overlay.get? k
  lo_le : lo ≤ start
  le_hi : stop ≤ hi
  lo_eq : lo = start ∨ ∃ entry ∈ entries, lo = entry.2.1
  hi_eq : hi = stop ∨ ∃ entry ∈ entries, hi = entry.1 + 1
  parts : ∀ entry ∈ entries,
    (lo ≤ entry.2.1 ∧ entry.1 + 1 ≤ hi ∧ (entry.1 ∈ gone ∨ entry.1 = hi - 1)) ∨ hi < entry.2.1
  gone_inside : ∀ k ∈ gone, lo ≤ k + 1 ∧ k + 1 ≤ hi

/-- The bytes of a stored page around the write are not filled with zeros. -/
structure Spared (entries : List OverlayEntry) (offset writeEnd : Nat)
    (zeroHeader zeroTrailer zeroHeader' zeroTrailer' : Nat) : Prop where
  header_eq : zeroHeader' = zeroHeader ∨ zeroHeader' = offset
  trailer_eq : zeroTrailer' = zeroTrailer ∨ zeroTrailer' = writeEnd
  header : ∀ entry ∈ entries, ∀ o, entry.2.1 ≤ o → o ≤ entry.1 → roundDownToPage offset ≤ o →
    o < offset → zeroHeader' = offset
  trailer : ∀ entry ∈ entries, ∀ o, entry.2.1 ≤ o → o ≤ entry.1 → writeEnd ≤ o →
    o < nextPage writeEnd → zeroTrailer' = writeEnd

theorem joins_insert (entries : List OverlayEntry) {start stop : Nat} (removed : List Nat)
    (hbeyond : ∀ entry ∈ entries, stop < entry.2.1) :
    Joins entries start stop removed (startEdit none start stop removed) start stop [] where
  get_apply overlay k := by
    rw [get?_apply, startEdit, entryAt_some, entryAt_none, List.append_nil]
    by_cases hk : k = stop - 1
    · rw [if_pos hk, if_pos hk]
      rfl
    · rw [if_neg hk, if_neg hk]
      simp only [Option.none_or]
  lo_le := le_refl _
  le_hi := le_refl _
  lo_eq := .inl rfl
  hi_eq := .inl rfl
  parts entry hentry := .inr (hbeyond entry hentry)
  gone_inside k hk := by cases hk

theorem joins_change {last first lo start stop : Nat} {entries : List OverlayEntry}
    {removed : List Nat} (hentries : StoredEntries ((last, first, none) :: entries))
    (hfresh : last ∉ removed) (hstop : stop ≤ last + 1) (hlo : lo = min first start) :
    Joins ((last, first, none) :: entries) start stop removed
      ⟨lo, removed, none, none, some (last, lo, none)⟩ lo (last + 1) [] where
  get_apply overlay k := by
    rw [get?_apply, List.append_nil, Nat.add_sub_cancel]
    simp only [entryAt_none, Option.none_or, entryAt_some]
    by_cases hk : k = last
    · rw [if_pos hk, if_pos hk, hk, if_neg hfresh]
      rfl
    · rw [if_neg hk, if_neg hk, Option.none_or]
  lo_le := by omega
  le_hi := hstop
  lo_eq := by
    rcases Nat.le_total first start with hle | hle
    · exact .inr ⟨_, List.mem_cons_self, by dsimp only; omega⟩
    · exact .inl (by omega)
  hi_eq := .inr ⟨_, List.mem_cons_self, rfl⟩
  parts := by
    refine List.forall_mem_cons.mpr ⟨.inl ⟨?_, Nat.le_refl _, .inr rfl⟩, fun entry hentry => ?_⟩
    · dsimp only
      omega
    · exact .inr ((List.pairwise_cons.mp hentries.apart).1 entry hentry)
  gone_inside k hk := by cases hk

/-- An entry that the range covers is removed, and the loop goes on. -/
theorem Joins.cons {last first start start' stop lo hi : Nat} {entries : List OverlayEntry}
    {removed gone : List Nat} {edit : OverlayEdit}
    (h : Joins entries start' stop (removed ++ [last]) edit lo hi gone)
    (hordered : first ≤ last + 1) (hstart : start' = min first start) (hlast : last + 1 ≤ stop) :
    Joins ((last, first, none) :: entries) start stop removed edit lo hi (last :: gone) where
  get_apply overlay k := by
    rw [h.get_apply, List.append_assoc]
    rfl
  lo_le := by have := h.lo_le; omega
  le_hi := h.le_hi
  lo_eq := by
    rcases h.lo_eq with heq | ⟨entry, hentry, heq⟩
    · rcases Nat.le_total first start with hle | hle
      · exact .inr ⟨_, List.mem_cons_self, by dsimp only; omega⟩
      · exact .inl (by omega)
    · exact .inr ⟨entry, List.mem_cons_of_mem _ hentry, heq⟩
  hi_eq := by
    rcases h.hi_eq with heq | ⟨entry, hentry, heq⟩
    · exact .inl heq
    · exact .inr ⟨entry, List.mem_cons_of_mem _ hentry, heq⟩
  parts := by
    have hlo := h.lo_le
    have hhi := h.le_hi
    refine List.forall_mem_cons.mpr ⟨.inl ⟨?_, ?_, .inl List.mem_cons_self⟩, fun entry hentry => ?_⟩
    · dsimp only
      omega
    · dsimp only
      omega
    · rcases h.parts entry hentry with ⟨h1, h2, h3 | h3⟩ | hbeyond
      · exact .inl ⟨h1, h2, .inl (List.mem_cons_of_mem _ h3)⟩
      · exact .inl ⟨h1, h2, .inr h3⟩
      · exact .inr hbeyond
  gone_inside := by
    have hlo := h.lo_le
    have hhi := h.le_hi
    exact List.forall_mem_cons.mpr ⟨by omega, h.gone_inside⟩

variable {offset writeEnd : Nat}

theorem spared_beyond (hle : offset ≤ writeEnd) {entries : List OverlayEntry}
    (hbeyond : ∀ entry ∈ entries, nextPage writeEnd ≤ entry.2.1) (zeroHeader zeroTrailer : Nat) :
    Spared entries offset writeEnd zeroHeader zeroTrailer zeroHeader zeroTrailer where
  header_eq := .inl rfl
  trailer_eq := .inl rfl
  header entry hentry o hfirst _ _ hlt := by
    have := hbeyond entry hentry
    have := le_nextPage writeEnd
    omega
  trailer entry hentry o hfirst _ _ hlt := by
    have := hbeyond entry hentry
    omega

theorem Spared.cons {entries : List OverlayEntry} {last first : Nat} {item : Option OverlayItem}
    {header trailer header₁ trailer₁ header' trailer' : Nat}
    (h : Spared entries offset writeEnd header₁ trailer₁ header' trailer')
    (hheader : header₁ = header ∨ header₁ = offset) (htrailer : trailer₁ = trailer ∨ trailer₁ = writeEnd)
    (hheaded : ∀ o, first ≤ o → o ≤ last → roundDownToPage offset ≤ o → o < offset →
      header₁ = offset)
    (htrailed : ∀ o, first ≤ o → o ≤ last → writeEnd ≤ o → o < nextPage writeEnd →
      trailer₁ = writeEnd) :
    Spared ((last, first, item) :: entries) offset writeEnd header trailer header' trailer' where
  header_eq := by have := h.header_eq; omega
  trailer_eq := by have := h.trailer_eq; omega
  header := by
    refine List.forall_mem_cons.mpr ⟨fun o hfirst hlast hpage hlt => ?_, h.header⟩
    have := hheaded o hfirst hlast hpage hlt
    have := h.header_eq
    omega
  trailer := by
    refine List.forall_mem_cons.mpr ⟨fun o hfirst hlast hpage hlt => ?_, h.trailer⟩
    have := htrailed o hfirst hlast hpage hlt
    have := h.trailer_eq
    omega

theorem writeLoop_stored (stop last first : Nat) (entries : List OverlayEntry) (start : Nat)
    (removed : List Nat) (zeroHeader zeroTrailer : Nat) :
    writeLoop offset writeEnd stop ((last, first, none) :: entries)
      ⟨startEdit none start stop removed, zeroHeader, zeroTrailer⟩ =
    if last = start - 1 then writeLoop offset writeEnd stop entries
      ⟨startEdit none first stop (removed ++ [last]), zeroHeader, zeroTrailer⟩
    else if stop ≤ first then
      if first = stop then pure
        ⟨⟨start, removed, none, none, some (last, start, none)⟩, zeroHeader, zeroTrailer⟩
      else pure ⟨startEdit none start stop removed, zeroHeader, zeroTrailer⟩
    else if stop - 1 ≤ last then pure
      ⟨⟨min first start, removed, none, none, some (last, min first start, none)⟩,
        if start < offset ∧ first ≤ offset then offset else zeroHeader,
        if writeEnd < stop then writeEnd else zeroTrailer⟩
    else writeLoop offset writeEnd stop entries
      ⟨startEdit none (min first start) stop (removed ++ [last]),
        if start < offset ∧ first ≤ offset then offset else zeroHeader, zeroTrailer⟩ := by
  rw [writeLoop]
  by_cases hadjoins : last = start - 1
  · exact (if_pos hadjoins).trans (if_pos hadjoins).symm
  refine (if_neg hadjoins).trans (Eq.trans ?_ (if_neg hadjoins).symm)
  by_cases hbeyond : stop ≤ first
  · refine (if_pos hbeyond).trans (Eq.trans ?_ (if_pos hbeyond).symm)
    simp only [Option.isNone_none, Bool.true_and, decide_eq_true_eq]
    rfl
  refine (if_neg hbeyond).trans (Eq.trans ?_ (if_neg hbeyond).symm)
  rw [copyHeader_stored, pure_bind, keepFront_stored, lift_ok_bind, copyTrailer_stored, pure_bind]
  by_cases hlast : stop - 1 ≤ last
  · simp only [hlast, true_and, if_true]
    rfl
  · simp only [hlast, false_and, if_false]
    rfl

theorem writeLoop_joins (hle : offset ≤ writeEnd) {entries : List OverlayEntry}
    (h : StoredEntries entries) {start : Nat} (hstart : start ≤ roundDownToPage offset)
    (hkeys : ∀ entry ∈ entries, start ≤ entry.1 + 1) {removed : List Nat}
    (hfresh : ∀ entry ∈ entries, entry.1 ∉ removed) (zeroHeader zeroTrailer : Nat) :
    ∃ edit lo hi gone header trailer, writeLoop offset writeEnd (nextPage writeEnd) entries
        ⟨startEdit none start (nextPage writeEnd) removed, zeroHeader, zeroTrailer⟩
          = pure ⟨edit, header, trailer⟩ ∧
      Joins entries start (nextPage writeEnd) removed edit lo hi gone ∧
      Spared entries offset writeEnd zeroHeader zeroTrailer header trailer := by
  have hround := roundDownToPage_le offset
  have hnext := le_nextPage writeEnd
  induction entries generalizing start removed zeroHeader zeroTrailer with
  | nil =>
    exact ⟨_, _, _, _, _, _, rfl, joins_insert [] removed (fun _ he => by cases he),
      spared_beyond hle (fun _ he => by cases he) _ _⟩
  | cons entry entries ih =>
    obtain ⟨last, first, item⟩ := entry
    obtain rfl : item = none := h.stored _ List.mem_cons_self
    have hordered : first ≤ last + 1 := h.ordered _ List.mem_cons_self
    have hkey : start ≤ last + 1 := hkeys _ List.mem_cons_self
    have hunremoved : last ∉ removed := hfresh _ List.mem_cons_self
    have hpages := h.aligned _ List.mem_cons_self
    have hbehind := (List.pairwise_cons.mp h.apart).1
    have hpage : pageSize ≤ last + 1 := Nat.le_of_dvd (Nat.succ_pos _) hpages.2
    have hfresh' : ∀ entry ∈ entries, entry.1 ∉ removed ++ [last] := by
      intro entry hentry hmem
      rcases List.mem_append.mp hmem with hold | hlast
      · exact hfresh entry (List.mem_cons_of_mem _ hentry) hold
      · have := hbehind entry hentry
        have := h.ordered entry (List.mem_cons_of_mem _ hentry)
        have := List.mem_singleton.mp hlast
        dsimp only at *
        omega
    have hkeys' : ∀ start', start' ≤ last + 1 → ∀ entry ∈ entries, start' ≤ entry.1 + 1 := by
      intro start' hle' entry hentry
      have := hbehind entry hentry
      have := h.ordered entry (List.mem_cons_of_mem _ hentry)
      dsimp only at *
      omega
    rw [writeLoop_stored]
    by_cases hadjoins : last = start - 1
    · -- the entry ends where the range starts
      have hstop : last + 1 = start := by unfold pageSize at hpage; omega
      rw [if_pos hadjoins]
      obtain ⟨edit, lo, hi, gone, header, trailer, hloop, hjoins, hspared⟩ :=
        ih h.tail (by omega : first ≤ roundDownToPage offset) (hkeys' first hordered) hfresh'
          zeroHeader zeroTrailer
      refine ⟨edit, lo, hi, last :: gone, header, trailer, hloop,
        hjoins.cons hordered (by omega) (by omega), hspared.cons (.inl rfl) (.inl rfl) ?_ ?_⟩
      · intro o _ _ _ _
        omega
      · intro o _ _ _ _
        omega
    rw [if_neg hadjoins]
    have hlt : start < last + 1 := by unfold pageSize at hpage; omega
    by_cases hbeyond : nextPage writeEnd ≤ first
    · have hspared : Spared ((last, first, none) :: entries) offset writeEnd zeroHeader
          zeroTrailer zeroHeader zeroTrailer := by
        refine spared_beyond hle (List.forall_mem_cons.mpr ⟨hbeyond, fun entry hentry => ?_⟩) _ _
        have := hbehind entry hentry
        dsimp only at this
        omega
      rw [if_pos hbeyond]
      by_cases hmeets : first = nextPage writeEnd
      · -- the entry starts where the range ends
        rw [if_pos hmeets]
        exact ⟨_, _, _, _, _, _, rfl, joins_change h hunremoved (by omega) (by omega), hspared⟩
      · rw [if_neg hmeets]
        refine ⟨_, _, _, _, _, _, rfl, joins_insert _ removed ?_, hspared⟩
        refine List.forall_mem_cons.mpr ⟨by dsimp only; omega, fun entry hentry => ?_⟩
        have := hbehind entry hentry
        dsimp only at this
        omega
    rw [if_neg hbeyond]
    have hheaded : ∀ o, first ≤ o → o ≤ last → roundDownToPage offset ≤ o → o < offset →
        (if start < offset ∧ first ≤ offset then offset else zeroHeader) = offset := by
      intro o hfirst _ hfrom hto
      rw [if_pos (by omega)]
    have hheader : (if start < offset ∧ first ≤ offset then offset else zeroHeader) = zeroHeader ∨
        (if start < offset ∧ first ≤ offset then offset else zeroHeader) = offset := by
      split_ifs
      · exact .inr rfl
      · exact .inl rfl
    by_cases hreaches : nextPage writeEnd - 1 ≤ last
    · -- the entry goes on behind the range
      rw [if_pos hreaches]
      refine ⟨_, _, _, _, _, _, rfl, joins_change h hunremoved (by omega) rfl, ?_⟩
      refine Spared.cons (spared_beyond hle (fun entry hentry => ?_) _ _) hheader ?_ hheaded ?_
      · have := hbehind entry hentry
        dsimp only at this
        omega
      · split_ifs
        · exact .inr rfl
        · exact .inl rfl
      · intro o _ _ hfrom hto
        rw [if_pos (by omega)]
    · rw [if_neg hreaches]
      obtain ⟨edit, lo, hi, gone, header, trailer, hloop, hjoins, hspared⟩ :=
        ih h.tail (by omega : min first start ≤ roundDownToPage offset)
          (hkeys' (min first start) (by omega)) hfresh'
          (if start < offset ∧ first ≤ offset then offset else zeroHeader) zeroTrailer
      refine ⟨edit, lo, hi, last :: gone, header, trailer, hloop, hjoins.cons hordered rfl (by omega),
        hspared.cons hheader (.inl rfl) hheaded ?_⟩
      -- a stored byte of the last page would make the entry reach the end of the range
      intro o _ hlast hfrom hto
      have := nextPage_lt_add writeEnd
      have := nextPage_le hpages.2 (show writeEnd ≤ last + 1 by omega)
      omega

end Loop

/-! ## Contexts -/

/-- A context that was only written to. -/
structure StoredContext (context : KvmContext) : Prop where
  entries : StoredEntries context.overlay.entries
  inside : ∀ entry ∈ context.overlay.entries, entry.1 + 1 ≤ context.storage.length
  storage_pages : pageSize ∣ context.storage.length
  storage_le : context.storage.length ≤ Usize.isizeMax

theorem storedEntries_of_get {overlay : Overlay}
    (hentries : ∀ {last start item}, overlay.get? last = some (start, item) →
      item = none ∧ start ≤ last + 1 ∧ pageSize ∣ start ∧ pageSize ∣ last + 1)
    (hapart : ∀ {last start item last' start' item'}, overlay.get? last = some (start, item) →
      overlay.get? last' = some (start', item') → last < last' → last + 1 < start') :
    StoredEntries overlay.entries := by
  have hmem : ∀ entry ∈ overlay.entries, overlay.get? entry.1 = some (entry.2.1, entry.2.2) :=
    fun entry hentry => (OrderedMap.get?_eq_some_iff _ _ _).mpr hentry
  refine ⟨fun entry he => (hentries (hmem entry he)).1, fun entry he => (hentries (hmem entry he)).2.1,
    fun entry he => (hentries (hmem entry he)).2.2, ?_⟩
  exact overlay.sorted.imp_of_mem fun he he' hlt => hapart (hmem _ he) (hmem _ he') hlt

namespace StoredContext

variable {context : KvmContext} (h : StoredContext context)
include h

theorem get_spec {last start : Nat} {item : Option OverlayItem}
    (hget : context.overlay.get? last = some (start, item)) :
    item = none ∧ start ≤ last + 1 ∧ (pageSize ∣ start ∧ pageSize ∣ last + 1) ∧
      last + 1 ≤ context.storage.length := by
  have hmem := (OrderedMap.get?_eq_some_iff _ _ _).mp hget
  exact ⟨h.entries.stored _ hmem, h.entries.ordered _ hmem, h.entries.aligned _ hmem,
    h.inside _ hmem⟩

theorem apart {last start last' start' : Nat} {item item' : Option OverlayItem}
    (hget : context.overlay.get? last = some (start, item))
    (hget' : context.overlay.get? last' = some (start', item')) (hlt : last < last') :
    last + 1 < start' := by
  have hmem := (OrderedMap.get?_eq_some_iff _ _ _).mp hget
  have hmem' := (OrderedMap.get?_eq_some_iff _ _ _).mp hget'
  have hgaps : context.overlay.entries.Pairwise fun entry entry' : OverlayEntry =>
      entry.1 < entry'.1 → entry.1 + 1 < entry'.2.1 := by
    refine h.entries.apart.imp ?_
    exact fun hgap _ => hgap
  refine hgaps.forall_of_forall_of_flip ?_ ?_ hmem hmem' hlt
  · exact fun entry _ hself => absurd hself (lt_irrefl _)
  · refine context.overlay.sorted.imp ?_
    exact fun hbefore hbehind => absurd hbehind (lt_asymm hbefore)

theorem rangeFrom (k : Nat) : StoredEntries (context.overlay.rangeFrom k) := by
  have hsub : (context.overlay.rangeFrom k).Sublist context.overlay.entries := List.filter_sublist
  exact ⟨fun e he => h.entries.stored e (hsub.mem he), fun e he => h.entries.ordered e (hsub.mem he),
    fun e he => h.entries.aligned e (hsub.mem he), h.entries.apart.sublist hsub⟩

end StoredContext

/-- What a write does to a context that was only written to. -/
structure StoredWrite (context : KvmContext) (offset : Nat) (data : List UInt8)
    (after : KvmContext) : Prop where
  stored : StoredContext after
  length : after.storage.length = context.storage.length
  grown : ∀ {lo hi}, OneEntry context lo hi → OneEntry after lo hi
  covers : OneEntry after (roundDownToPage offset) (nextPage (offset + data.length))
  joins : ∀ {lo hi}, OneEntry context lo hi → lo ≤ nextPage (offset + data.length) →
    roundDownToPage offset ≤ hi →
    OneEntry after (min lo (roundDownToPage offset)) (max hi (nextPage (offset + data.length)))
  written : ∀ i < data.length, after.storage[offset + i]? = data[i]?
  kept : ∀ {o}, OneEntry context o (o + 1) → ¬ (offset ≤ o ∧ o < offset + data.length) →
    after.storage[o]? = context.storage[o]?

section Write

variable {context : KvmContext} (h : StoredContext context) {offset : Nat} {data : List UInt8}
  {edit : OverlayEdit} {lo hi : Nat} {gone : List Nat}
  (hjoins : Joins (context.overlay.rangeFrom (roundDownToPage offset - 1)) (roundDownToPage offset)
    (nextPage (offset + data.length)) [] edit lo hi gone)

include hjoins in
theorem Joins.get (k : Nat) : (edit.apply context.overlay).get? k =
    if k = hi - 1 then some (lo, none) else if k ∈ gone then none else context.overlay.get? k := by
  rw [hjoins.get_apply, List.nil_append]

include h hjoins

/-- An entry is joined, or lies behind or in front of the joined ones. -/
theorem Joins.cases_get {last start : Nat} {item : Option OverlayItem}
    (hget : context.overlay.get? last = some (start, item)) :
    (lo ≤ start ∧ last + 1 ≤ hi ∧ (last ∈ gone ∨ last = hi - 1)) ∨ hi < start ∨ last + 1 < lo := by
  by_cases hrange : roundDownToPage offset - 1 ≤ last
  · have hmem : (last, start, item) ∈ context.overlay.rangeFrom (roundDownToPage offset - 1) :=
      (OrderedMap.mem_rangeFrom _ _ _).mpr ⟨hget, hrange⟩
    rcases hjoins.parts _ hmem with hjoined | hbehind
    · exact .inl hjoined
    · exact .inr (.inl hbehind)
  · refine .inr (.inr ?_)
    rcases hjoins.lo_eq with heq | ⟨⟨last', start', item'⟩, hentry, heq⟩
    · omega
    · obtain ⟨hget', hle⟩ := (OrderedMap.mem_rangeFrom _ _ _).mp hentry
      have := h.apart hget hget' (by dsimp only at hle; omega)
      dsimp only at heq
      omega

variable (hfits : offset + data.length ≤ context.storage.length)
  (hpos : 0 < nextPage (offset + data.length))
include hpos

theorem Joins.get_outside {last start : Nat} {item : Option OverlayItem}
    (hget : context.overlay.get? last = some (start, item)) (hout : hi < start ∨ last + 1 < lo) :
    (edit.apply context.overlay).get? last = some (start, item) := by
  have hordered := (h.get_spec hget).2.1
  have hlo := hjoins.lo_le
  have hhi := hjoins.le_hi
  have hround := roundDownToPage_le offset
  have hnext := le_nextPage (offset + data.length)
  have hgone : last ∉ gone := by
    intro hmem
    have := hjoins.gone_inside last hmem
    omega
  rw [hjoins.get, if_neg (by omega), if_neg hgone, hget]

omit h hpos in
theorem Joins.oneEntry (storage : List UInt8) {l r : Nat} (hl : lo ≤ l) (hr : r ≤ hi) :
    OneEntry ⟨edit.apply context.overlay, storage⟩ l r := by
  have hhi := hjoins.le_hi
  refine ⟨hi - 1, lo, none, ?_, hl, by omega⟩
  rw [hjoins.get, if_pos rfl]

theorem Joins.grown (storage : List UInt8) {l r : Nat} (hone : OneEntry context l r) :
    OneEntry ⟨edit.apply context.overlay, storage⟩ l r := by
  obtain ⟨last, start, item, hget, hstart, hlast⟩ := hone
  rcases hjoins.cases_get h hget with ⟨hlo, hhi, -⟩ | hout
  · exact hjoins.oneEntry storage (by omega) (by omega)
  · exact ⟨last, start, item, hjoins.get_outside h hpos hget hout, hstart, hlast⟩

include hfits in
theorem Joins.stored {storage : List UInt8} (hlength : storage.length = context.storage.length) :
    StoredContext ⟨edit.apply context.overlay, storage⟩ := by
  have hlo := hjoins.lo_le
  have hhi := hjoins.le_hi
  have hround := roundDownToPage_le offset
  have hnext := le_nextPage (offset + data.length)
  have hold : ∀ {last start item}, (edit.apply context.overlay).get? last = some (start, item) →
      (last = hi - 1 ∧ start = lo ∧ item = none) ∨
      (context.overlay.get? last = some (start, item) ∧ (hi < start ∨ last + 1 < lo)) := by
    intro last start item hget
    rw [hjoins.get] at hget
    split_ifs at hget with hkey hgone
    · cases hget
      exact .inl ⟨hkey, rfl, rfl⟩
    · rcases hjoins.cases_get h hget with ⟨-, -, hin | hin⟩ | hout
      · exact absurd hin hgone
      · exact absurd hin hkey
      · exact .inr ⟨hget, hout⟩
  have haligned : pageSize ∣ lo ∧ pageSize ∣ hi ∧ hi ≤ context.storage.length := by
    have hrange := h.rangeFrom (roundDownToPage offset - 1)
    refine ⟨?_, ?_⟩
    · rcases hjoins.lo_eq with heq | ⟨entry, hentry, heq⟩
      · rw [heq]
        exact dvd_roundDownToPage offset
      · rw [heq]
        exact (hrange.aligned entry hentry).1
    · rcases hjoins.hi_eq with heq | ⟨entry, hentry, heq⟩
      · rw [heq]
        exact ⟨dvd_nextPage _, nextPage_le h.storage_pages hfits⟩
      · rw [heq]
        exact ⟨(hrange.aligned entry hentry).2, h.inside entry (List.mem_of_mem_filter hentry)⟩
  have hspec : ∀ {last start item}, (edit.apply context.overlay).get? last = some (start, item) →
      item = none ∧ start ≤ last + 1 ∧ (pageSize ∣ start ∧ pageSize ∣ last + 1) ∧
        last + 1 ≤ storage.length := by
    intro last start item hget
    rcases hold hget with ⟨rfl, rfl, rfl⟩ | ⟨hget', -⟩
    · rw [Nat.sub_add_cancel (by omega), hlength]
      exact ⟨rfl, by omega, ⟨haligned.1, haligned.2.1⟩, haligned.2.2⟩
    · rw [hlength]
      exact h.get_spec hget'
  refine ⟨storedEntries_of_get (fun hget => ?_) ?_, fun entry hentry => ?_,
    hlength ▸ h.storage_pages, hlength ▸ h.storage_le⟩
  · obtain ⟨hitem, hordered, hpages, -⟩ := hspec hget
    exact ⟨hitem, hordered, hpages⟩
  · intro last start item last' start' item' hget hget' hlt
    have hordered := (hspec hget).2.1
    rcases hold hget with ⟨rfl, rfl, rfl⟩ | ⟨hbefore, hout⟩
    · rcases hold hget' with ⟨rfl, -⟩ | ⟨hbefore', hout'⟩
      · omega
      · omega
    · rcases hold hget' with ⟨rfl, rfl, rfl⟩ | ⟨hbefore', -⟩
      · omega
      · exact h.apart hbefore hbefore' hlt
  · exact (hspec ((OrderedMap.get?_eq_some_iff _ _ _).mpr hentry)).2.2.2

omit hjoins in
include hfits in
/-- A write joins its pages with what is stored, and keeps the bytes around it. -/
theorem writePages_stored :
    Runs (writePages context.overlay offset data) context.storage
      (fun overlay storage => StoredWrite context offset data ⟨overlay, storage⟩) fun _ => False := by
  have hround := roundDownToPage_le offset
  have hnext := le_nextPage (offset + data.length)
  have hstop := nextPage_le h.storage_pages hfits
  have hkeys : ∀ entry ∈ context.overlay.rangeFrom (roundDownToPage offset - 1),
      roundDownToPage offset ≤ entry.1 + 1 := by
    intro entry hentry
    have := ((OrderedMap.mem_rangeFrom _ _ _).mp hentry).2
    omega
  obtain ⟨edit, lo, hi, gone, header, trailer, hloop, hjoins, hspared⟩ :=
    writeLoop_joins (Nat.le_add_right offset data.length) (h.rangeFrom (roundDownToPage offset - 1))
      (le_refl _) hkeys (fun _ _ hmem => absurd hmem List.not_mem_nil) (roundDownToPage offset)
      (nextPage (offset + data.length))
  have hheader := hspared.header_eq
  have htrailer := hspared.trailer_eq
  have hlo := hjoins.lo_le
  have hhi := hjoins.le_hi
  unfold writePages
  simp only
  rw [Usize.sub_eq_ok hpos, runs_lift_ok_bind]
  change Runs (writeLoop offset (offset + data.length) (nextPage (offset + data.length))
    (context.overlay.rangeFrom (roundDownToPage offset - 1)) ⟨startEdit none (roundDownToPage offset)
      (nextPage (offset + data.length)) [], roundDownToPage offset,
      nextPage (offset + data.length)⟩ >>= _) _ _ _
  rw [hloop, pure_bind]
  dsimp only
  refine (fillZero_runs (by omega) (by omega)).bind fun _ storage₁ hfill => ?_
  obtain ⟨hlength₁, hbytes₁⟩ := hfill
  have hcopy : offset + data.length ≤ storage₁.length := by omega
  rw [runs_modify_bind]
  refine (fillZero_runs (by omega) (by rw [length_copyInto hcopy]; omega)).bind
    fun _ storage₂ hfill => ?_
  obtain ⟨hlength₂, hbytes₂⟩ := hfill
  rw [length_copyInto hcopy] at hlength₂
  refine ⟨hjoins.stored h hfits hpos (by omega), by dsimp only; omega, hjoins.grown h hpos _,
    hjoins.oneEntry _ hlo hhi, fun hone hle hge => ?_, fun i hi => ?_, fun hone hout => ?_⟩
  · obtain ⟨last, start, item, hget, hstart, hlast⟩ := hone
    rcases hjoins.cases_get h hget with hjoined | hbehind | hbefore
    · exact hjoins.oneEntry _ (by omega) (by omega)
    · omega
    · omega
  · dsimp only
    rw [hbytes₂, if_neg (by omega), getElem?_copyInto hcopy, if_pos (by omega),
      Nat.add_sub_cancel_left]
  · rename_i o
    obtain ⟨last, start, item, hget, hstart, hlast⟩ := hone
    have hentry (hge : roundDownToPage offset ≤ o) :
        (last, start, item) ∈ context.overlay.rangeFrom (roundDownToPage offset - 1) :=
      (OrderedMap.mem_rangeFrom _ _ _).mpr ⟨hget, by dsimp only; omega⟩
    dsimp only
    rw [hbytes₂, getElem?_copyInto hcopy, hbytes₁]
    by_cases hbehind : offset + data.length ≤ o ∧ o < nextPage (offset + data.length)
    · have := hspared.trailer _ (hentry (by omega)) o hstart (by dsimp only; omega) hbehind.1 hbehind.2
      rw [if_neg (by omega), if_neg (by omega), if_neg (by omega)]
    · by_cases hbefore : roundDownToPage offset ≤ o ∧ o < offset
      · have := hspared.header _ (hentry hbefore.1) o hstart (by dsimp only; omega) hbefore.1 hbefore.2
        rw [if_neg (by omega), if_neg (by omega), if_neg (by omega)]
      · rw [if_neg (by omega), if_neg (by omega), if_neg (by omega)]

omit hjoins in
include hfits in
theorem write_stored :
    ∃ after, write 1 context offset data = (after, .ok ()) ∧ StoredWrite context offset data after := by
  have hlimit : offset + data.length < Usize.limit := by
    have := h.storage_le
    unfold Usize.isizeMax at this
    unfold Usize.limit
    omega
  obtain ⟨overlay, storage, hexec, hwrote⟩ := (writePages_stored h hfits hpos).exists_ok
  refine ⟨⟨overlay, storage⟩, ?_, hwrote⟩
  rw [write, Usize.add_eq_ok hlimit, if_neg (by omega)]
  simp only
  rw [if_neg (by omega), hexec]
  rfl

end Write

end Dandelion.KvmContext
