import Dandelion.PageTables

/-!
# What `set_range` does to the tables

The joint array is read as a p2 entry for each region of 512 pages and a p1 entry for each
page; `lookup` is the entry they give to a page, that of a large page being cut to it.
`setRange_spec` is the effect of one call on it, with p1 tables of any content.
-/

open Outcome Paging

namespace Dandelion.Kvm

/-! ## The joint array -/

/-- The page of the p1 table of a region, from the start of the array. -/
def p1Page (region : Nat) : Nat := region / 512 * 513 + 1 + region % 512

def p2Index (region : Nat) : Nat := region / 512 * 513 * 512 + region % 512

def p1Index (page : Nat) : Nat := p1Page (page / 512) * 512 + page % 512

theorem p2Index_getP2 (page : Nat) : (getP2 page).1 + (getP2 page).2 = p2Index (page / 512) := by
  unfold getP2 p2Index tableSize
  omega

theorem p1Index_getP2 (page : Nat) :
    (getP2 page).1 + (1 + (getP2 page).2) * tableSize = p1Page (page / 512) * 512 := by
  unfold getP2 p1Page tableSize
  omega

theorem p2Index_inj {r r' : Nat} : p2Index r = p2Index r' ↔ r = r' := by
  unfold p2Index
  omega

theorem p1Index_inj {page page' : Nat} : p1Index page = p1Index page' ↔ page = page' := by
  unfold p1Index p1Page
  omega

theorem p2Index_ne_p1Index (r page : Nat) : p2Index r ≠ p1Index page := by
  unfold p1Index p1Page p2Index
  omega

theorem p2Index_lt {r n : Nat} (h : r < n * 512) : p2Index r < n * (513 * 512) := by
  unfold p2Index
  omega

theorem p1Index_lt {page n : Nat} (h : page < n * 512 * 512) : p1Index page < n * (513 * 512) := by
  unfold p1Index p1Page
  omega

/-- The entry of a p2 table for the p1 table of a region, the array starting at the page `base`. -/
def pointer (base region : Nat) : Nat := entry 7 (base + p1Page region)

/-- The entry of a page by its p2 entry and its p1 entry. -/
def resolve (p2Entry p1Entry page : Nat) : Nat :=
  if present p2Entry then
    if isPage p2Entry then p2Entry - pde64IsPage + page % 512 * 4096 else p1Entry
  else 0

/-- The entry of a page, its p1 table being where the array has it. -/
def lookup (word : Nat → Nat) (page : Nat) : Nat :=
  resolve (word (p2Index (page / 512))) (word (p1Index page)) page

/-- Flags of a page that is present. -/
structure PageFlags (flags : Nat) : Prop where
  lt : flags < 8
  isPresent : present flags = true

/-- A p2 entry is absent, a large page, or the p1 table of its region. -/
inductive P2Entry (base region : Nat) : Nat → Prop
  | absent : P2Entry base region 0
  | large {flags f : Nat} (hflags : PageFlags flags) (hlarge : f % 512 = 0) (hf : f + 512 ≤ 2 ^ 40) :
    P2Entry base region (entry (flags + 128) f)
  | table : P2Entry base region (pointer base region)

def Shape (base n : Nat) (word : Nat → Nat) : Prop :=
  ∀ r < n * 512, P2Entry base r (word (p2Index r))

@[simp] theorem resolve_zero (e page : Nat) : resolve 0 e page = 0 := rfl

@[simp] theorem resolve_pointer (base r e page : Nat) : resolve (pointer base r) e page = e := by
  rw [resolve, pointer, present_entry, isPage_entry]
  rfl

section Update

variable {word : Nat → Nat} {base n r page value : Nat}

@[simp] theorem update_p2_p2 (r' : Nat) :
    Function.update word (p2Index r) value (p2Index r') = if r' = r then value else word (p2Index r') := by
  rw [Function.update_apply]
  simp only [p2Index_inj]

@[simp] theorem update_p2_p1 :
    Function.update word (p2Index r) value (p1Index page) = word (p1Index page) :=
  Function.update_of_ne (p2Index_ne_p1Index r page).symm _ _

@[simp] theorem update_p1_p2 :
    Function.update word (p1Index page) value (p2Index r) = word (p2Index r) :=
  Function.update_of_ne (p2Index_ne_p1Index r page) _ _

@[simp] theorem update_p1_p1 (page' : Nat) :
    Function.update word (p1Index page) value (p1Index page')
      = if page' = page then value else word (p1Index page') := by
  rw [Function.update_apply]
  simp only [p1Index_inj]

theorem lookup_update_p2 (v : Nat) : lookup (Function.update word (p2Index r) value) v
    = if v / 512 = r then resolve value (word (p1Index v)) v else lookup word v := by
  simp only [lookup, update_p2_p2, update_p2_p1]
  split_ifs
  · rfl
  · rfl

theorem lookup_update_p1 (v : Nat) : lookup (Function.update word (p1Index page) value) v
    = if v = page then resolve (word (p2Index (v / 512))) value v else lookup word v := by
  simp only [lookup, update_p1_p2, update_p1_p1]
  split_ifs
  · rfl
  · rfl

theorem Shape.update_p1 (h : Shape base n word) :
    Shape base n (Function.update word (p1Index page) value) := by
  intro r hr
  rw [update_p1_p2]
  exact h r hr

theorem Shape.update_p2 (h : Shape base n word)
    (hvalue : P2Entry base r value) :
    Shape base n (Function.update word (p2Index r) value) := by
  intro r' hr'
  rw [update_p2_p2]
  split_ifs with heq
  · rw [heq]
    exact hvalue
  · exact h r' hr'

end Update

/-- The array after the words of a part of a p1 table have become zero. -/
def clearP1 (word : Nat → Nat) (r start past : Nat) : Nat → Nat := fun i =>
  if p1Page r * 512 + start ≤ i ∧ i < p1Page r * 512 + past then 0 else word i

section Clear

variable {word : Nat → Nat} {base n r start past : Nat}

theorem clearP1_p2 (r' : Nat) (hpast : past ≤ 512) :
    clearP1 word r start past (p2Index r') = word (p2Index r') := by
  apply if_neg
  unfold p1Page p2Index
  omega

theorem clearP1_p1 (page : Nat) (hpast : past ≤ 512) :
    clearP1 word r start past (p1Index page)
      = if page / 512 = r ∧ start ≤ page % 512 ∧ page % 512 < past then 0 else word (p1Index page) := by
  have hiff : (p1Page r * 512 + start ≤ p1Index page ∧ p1Index page < p1Page r * 512 + past)
      ↔ (page / 512 = r ∧ start ≤ page % 512 ∧ page % 512 < past) := by
    unfold p1Index p1Page
    omega
  simp only [clearP1, hiff]

theorem lookup_clearP1 (v : Nat) (hpast : past ≤ 512) (hr : word (p2Index r) = pointer base r) :
    lookup (clearP1 word r start past) v
      = if v / 512 = r ∧ start ≤ v % 512 ∧ v % 512 < past then 0 else lookup word v := by
  rw [lookup, clearP1_p2 _ hpast, clearP1_p1 _ hpast]
  split_ifs with h
  · rw [h.1, hr, resolve_pointer]
  · rfl

theorem Shape.clearP1 (h : Shape base n word) (hpast : past ≤ 512) :
    Shape base n (clearP1 word r start past) := by
  intro r' hr'
  rw [clearP1_p2 _ hpast]
  exact h r' hr'

end Clear

/-! ## Entries of a range -/

theorem PageFlags.resolve1 {flags f : Nat} (h : PageFlags flags) (hf : f < 2 ^ 40) :
    resolve1 (entry flags f) = some ⟨f, writable flags, user flags⟩ := by
  have := h.lt
  rw [Paging.resolve1, present_entry, h.isPresent, frame_entry (by omega) hf, writable_entry,
    user_entry]
  rfl

section Large

variable {flags : Nat} (h : PageFlags flags)
include h

theorem PageFlags.present_large : present (flags + 128) = true := by
  have := h.isPresent
  unfold present at *
  simp only [decide_eq_true_eq] at *
  omega

theorem PageFlags.isPage_large : isPage (flags + 128) = true := by
  have := h.lt
  unfold isPage
  simp only [decide_eq_true_eq]
  omega

theorem PageFlags.writable_large : writable (flags + 128) = writable flags := by
  have := h.lt
  unfold writable
  congr 1
  apply propext
  omega

theorem PageFlags.user_large : user (flags + 128) = user flags := by
  have := h.lt
  unfold user
  congr 1
  apply propext
  omega

theorem PageFlags.resolve_large (f e v : Nat) :
    resolve (entry (flags + 128) f) e v = entry flags (f + v % 512) := by
  rw [resolve, present_entry, h.present_large, isPage_entry, h.isPage_large, if_pos rfl, if_pos rfl]
  unfold entry pde64IsPage
  omega

end Large

theorem or_pointer (base r : Nat) :
    pde64AllAllowed ||| (4096 * base + p1Page r * 512 * 8) = pointer base r := by
  have hflags : pde64AllAllowed = 7 := by decide
  rw [hflags, or_eq_entry (by omega) (by omega), pointer]
  congr 1
  omega

theorem or_large {flags : Nat} (h : flags < 8) (f : Nat) :
    flags ||| pde64IsPage ||| 4096 * f = entry (flags + 128) f := by
  have hflags : flags ||| pde64IsPage = flags + 128 := by
    have := Nat.two_pow_add_eq_or_of_lt (i := 7) (b := flags) (by omega) 1
    have h128 : 2 ^ 7 * 1 = 128 := rfl
    rw [h128] at this
    rw [Nat.or_comm, pde64IsPage, ← this, Nat.add_comm]
  rw [hflags, or_eq_entry (by omega) (by omega)]
  congr 1
  omega

theorem or_small {flags : Nat} (h : flags < 8) (f : Nat) : flags ||| 4096 * f = entry flags f := by
  rw [or_eq_entry (by omega) (by omega)]
  congr 1
  omega

theorem Words.set_eq {words : Words} {i : Nat} (value : Nat) (h : i < words.length) :
    words.set i value = .ok { words with word := Function.update words.word i value } :=
  if_pos h

theorem Words.fill_eq {words : Words} {start past : Nat} (value : Nat) (h : start ≤ past)
    (h' : past ≤ words.length) : words.fill start past value
      = .ok { words with word := fun i => if start ≤ i ∧ i < past then value else words.word i } :=
  if_pos ⟨h, h'⟩

theorem fillP1_eq {T : Words} {n r : Nat} (hT : T.length = n * (513 * 512)) (hr : r < n * 512)
    (start past : Nat) (hstart : start ≤ past) (hpast : past ≤ 512) :
    T.fill (p1Page r * 512 + start) (p1Page r * 512 + past) 0
      = .ok { T with word := clearP1 T.word r start past } := by
  apply Words.fill_eq
  · omega
  · rw [hT]
    unfold p1Page
    omega

/-! ## The loop -/

/-- The pages from `c` up to `e` have been mapped to those from `b` on. -/
structure PagesSet (base n flags e c b : Nat) (T T' : Words) : Prop where
  length : T'.length = T.length
  mapped : ∀ v, c ≤ v → v < e →
    lookup T'.word v = entry flags (b + (v - c))
  below : ∀ v < c, lookup T'.word v = lookup T.word v
  above : ∀ v, e ≤ v → (v / 512 = e / 512 → e % 512 = 0) → lookup T'.word v = lookup T.word v
  ready : e % 512 ≠ 0 → T'.word (p2Index (e / 512)) = pointer base (e / 512)
  shape : Shape base n T.word → Shape base n T'.word

section Loop

variable {base n flags e c b : Nat} {T T' : Words}

theorem PagesSet.refl (hready : e % 512 ≠ 0 → T.word (p2Index (e / 512)) = pointer base (e / 512)) :
    PagesSet base n flags e e b T T where
  length := rfl
  mapped := fun v h h' => by omega
  below := fun v _ => rfl
  above := fun v _ _ => rfl
  ready := hready
  shape := id

theorem PagesSet.large (hflags : PageFlags flags) (hb : b + 512 ≤ 2 ^ 40) (hlarge : b % 512 = 0)
    (hc : c % 512 = 0) (hce : c + 512 ≤ e)
    (h : PagesSet base n flags e (c + 512) (b + 512)
      { T with word := Function.update T.word (p2Index (c / 512)) (entry (flags + 128) b) } T') :
    PagesSet base n flags e c b T T' where
  length := h.length
  mapped := by
    intro v hcv hve
    by_cases hv : v < c + 512
    · have hframe : v - c = v % 512 := by omega
      rw [h.below v hv, lookup_update_p2, if_pos (by omega), hflags.resolve_large, hframe]
    · have hframe : b + 512 + (v - (c + 512)) = b + (v - c) := by omega
      rw [h.mapped v (by omega) hve, hframe]
  below := by
    intro v hv
    rw [h.below v (by omega), lookup_update_p2, if_neg (by omega)]
  above := by
    intro v hv hregion
    rw [h.above v hv hregion, lookup_update_p2, if_neg (by omega)]
  ready := h.ready
  shape := by
    intro hshape
    exact h.shape (hshape.update_p2 (.large hflags hlarge hb))

theorem PagesSet.small
    (hready : T.word (p2Index (c / 512)) = pointer base (c / 512)) (hce : c < e)
    (h : PagesSet base n flags e (c + 1) (b + 1)
      { T with word := Function.update T.word (p1Index c) (entry flags b) } T') :
    PagesSet base n flags e c b T T' where
  length := h.length
  mapped := by
    intro v hcv hve
    by_cases hv : v = c
    · rw [h.below v (by omega), lookup_update_p1, if_pos hv, hv, hready, resolve_pointer,
        Nat.sub_self, Nat.add_zero]
    · have hframe : b + 1 + (v - (c + 1)) = b + (v - c) := by omega
      rw [h.mapped v (by omega) hve, hframe]
  below := by
    intro v hv
    rw [h.below v (by omega), lookup_update_p1, if_neg (by omega)]
  above := by
    intro v hv hregion
    rw [h.above v hv hregion, lookup_update_p1, if_neg (by omega)]
  ready := h.ready
  shape := fun hshape => h.shape hshape.update_p1

theorem PagesSet.start (hc : c % 512 = 0) (hce : c < e)
    (h : PagesSet base n flags e c b
      { T with word := Function.update T.word (p2Index (c / 512)) (pointer base (c / 512)) } T') :
    PagesSet base n flags e c b T T' where
  length := h.length
  mapped := h.mapped
  below := by
    intro v hv
    rw [h.below v hv, lookup_update_p2, if_neg (by omega)]
  above := by
    intro v hv hregion
    rw [h.above v hv hregion, lookup_update_p2, if_neg (by omega)]
  ready := h.ready
  shape := fun hshape => h.shape (hshape.update_p2 .table)

end Loop

theorem setPages_spec {base n flags e : Nat} (hflags : PageFlags flags) (he : e ≤ n * 512 * 512)
    {T : Words} (hT : T.length = n * (513 * 512)) {c b : Nat} (hc : c ≤ e) (hb : b % 512 = c % 512)
    (hfit : b + (e - c) ≤ 2 ^ 40)
    (hready : c % 512 ≠ 0 → T.word (p2Index (c / 512)) = pointer base (c / 512)) :
    ∃ T', setPages (4096 * base) flags e T c (4096 * b) = .ok (T', e)
      ∧ PagesSet base n flags e c b T T' := by
  induction hk : e - c using Nat.strongRecOn generalizing T c b with
  | ind k ih =>
    rw [setPages]
    by_cases hlt : c < e
    · rw [if_pos hlt]
      simp only [p2Index_getP2, p1Index_getP2]
      have hp2 : p2Index (c / 512) < T.length := by
        rw [hT]
        exact p2Index_lt (by omega)
      have hnext : 4096 * b + pageSize = 4096 * (b + 1) := by
        unfold pageSize
        omega
      have hnextLarge : 4096 * b + largePage = 4096 * (b + 512) := by
        unfold largePage
        omega
      -- one page of a region that has its p1 table
      have hsmall : ∀ T₀ : Words, T₀.length = n * (513 * 512) →
          T₀.word (p2Index (c / 512)) = pointer base (c / 512) →
          ∃ T', (T₀.set (p1Page (c / 512) * 512 + c % tableSize) (flags ||| 4096 * b) >>= fun T₁ =>
              setPages (4096 * base) flags e T₁ (c + 1) (4096 * b + pageSize)) = .ok (T', e)
            ∧ PagesSet base n flags e c b T₀ T' := by
        intro T₀ hT₀ hready₀
        have hset : T₀.set (p1Page (c / 512) * 512 + c % tableSize) (flags ||| 4096 * b)
            = .ok { T₀ with word := Function.update T₀.word (p1Index c) (entry flags b) } := by
          rw [or_small hflags.lt]
          exact Words.set_eq _ (by rw [hT₀]; exact p1Index_lt (by omega))
        rw [hset, hnext]
        obtain ⟨T', heq, hpages⟩ := ih (e - (c + 1)) (by omega)
          (T := { T₀ with word := Function.update T₀.word (p1Index c) (entry flags b) })
          hT₀ (c := c + 1) (b := b + 1) hlt (by omega) (by omega)
          (fun hmod => by
            have hregion : (c + 1) / 512 = c / 512 := by omega
            rw [hregion]
            change Function.update T₀.word (p1Index c) (entry flags b) (p2Index (c / 512)) = _
            rw [update_p1_p2]
            exact hready₀) rfl
        exact ⟨T', heq, hpages.small hready₀ hlt⟩
      split_ifs with hlarge hstart
      · -- a large page
        unfold tableSize at hlarge ⊢
        rw [Words.set_eq _ hp2, or_large hflags.lt, hnextLarge]
        obtain ⟨T', heq, hset⟩ := ih (e - (c + 512)) (by omega)
          (T := { T with word := Function.update T.word (p2Index (c / 512)) (entry (flags + 128) b) })
          hT (c := c + 512) (b := b + 512) hlarge.2 (by omega) (by omega) (by omega) rfl
        exact ⟨T', heq, hset.large hflags (by omega) (by omega) hlarge.1 hlarge.2⟩
      · -- the first page of a region that is not filled
        rw [Words.set_eq _ hp2, or_pointer]
        obtain ⟨T', heq, hpages⟩ := hsmall
          { T with word := Function.update T.word (p2Index (c / 512)) (pointer base (c / 512)) } hT
          (Function.update_self _ _ _)
        exact ⟨T', heq, hpages.start hstart hlt⟩
      · exact hsmall T hT (hready hstart)
    · obtain rfl : c = e := by omega
      rw [if_neg hlt]
      exact ⟨T, rfl, .refl hready⟩

/-! ## The whole range -/

theorem nextMultipleOf_tableSize (page : Nat) :
    nextMultipleOf page tableSize = (page + 511) / 512 * 512 := rfl

section Range

variable {base n s prev : Nat} {T : Words}

/-- The first page of a range has its p1 table, and nothing before it is mapped by mistake. -/
structure Started (base n s prev : Nat) (T T' : Words) : Prop where
  length : T'.length = T.length
  before : ∀ v < s, lookup T'.word v
    = if v / 512 = s / 512 ∧ nextMultipleOf prev tableSize ≤ s then 0 else lookup T.word v
  elsewhere : ∀ v, (v / 512 = s / 512 → s % 512 = 0) → lookup T'.word v = lookup T.word v
  ready : s % 512 ≠ 0 → T'.word (p2Index (s / 512)) = pointer base (s / 512)
  shape : Shape base n T.word → Shape base n T'.word

theorem startTable_spec (hs : s ≤ n * 512 * 512) (hT : T.length = n * (513 * 512))
    (hready : s % 512 ≠ 0 → nextMultipleOf prev tableSize ≤ s
      ∨ T.word (p2Index (s / 512)) = pointer base (s / 512)) :
    ∃ T', startTable T (4096 * base) s prev = .ok T' ∧ Started base n s prev T T' := by
  rw [startTable]
  split_ifs with hfirst
  · -- the region is set up: its p2 entry, and the p1 entries before the range
    have hmod : s % 512 ≠ 0 := hfirst.2
    have hp2 : p2Index (s / 512) < T.length := by
      rw [hT]
      exact p2Index_lt (by omega)
    simp only [p2Index_getP2, p1Index_getP2, or_pointer]
    rw [Words.set_eq _ hp2]
    have hpointer : Function.update T.word (p2Index (s / 512)) (pointer base (s / 512))
        (p2Index (s / 512)) = pointer base (s / 512) := Function.update_self _ _ _
    have hfill := fillP1_eq
      (T := { T with word := Function.update T.word (p2Index (s / 512)) (pointer base (s / 512)) })
      hT (r := s / 512) (by omega) 0 (s % 512) (by omega) (by omega)
    rw [Nat.add_zero] at hfill
    refine ⟨_, hfill, rfl, ?_, ?_, ?_, ?_⟩
    · intro v hv
      rw [lookup_clearP1 v (by omega) hpointer, lookup_update_p2]
      by_cases hregion : v / 512 = s / 512
      · rw [if_pos ⟨hregion, by omega, by omega⟩, if_pos ⟨hregion, hfirst.1⟩]
      · rw [if_neg (fun h => hregion h.1), if_neg hregion, if_neg (fun h => hregion h.1)]
    · intro v hv
      have hregion : v / 512 ≠ s / 512 := fun h => hmod (hv h)
      rw [lookup_clearP1 v (by omega) hpointer, lookup_update_p2, if_neg (fun h => hregion h.1),
        if_neg hregion]
    · intro _
      dsimp only
      rw [clearP1_p2 _ (by omega)]
      exact hpointer
    · intro hshape
      exact (hshape.update_p2 .table).clearP1 (by omega)
  · refine ⟨T, rfl, rfl, ?_, fun v _ => rfl, ?_, id⟩
    · intro v hv
      rw [if_neg]
      intro h
      exact hfirst ⟨h.2, by unfold tableSize; omega⟩
    · intro hmod
      rcases hready hmod with hprev | hpointer
      · exact absurd ⟨hprev, hmod⟩ hfirst
      · exact hpointer

theorem clearTable_spec {e : Nat} (he : e ≤ n * 512 * 512) (hT : T.length = n * (513 * 512))
    (hready : e % 512 ≠ 0 → T.word (p2Index (e / 512)) = pointer base (e / 512)) :
    ∃ T', clearTable T e = .ok T' ∧ T'.length = T.length
      ∧ (∀ v, lookup T'.word v
        = if e ≤ v ∧ v / 512 = e / 512 ∧ e % 512 ≠ 0 then 0 else lookup T.word v)
      ∧ (∀ r, T'.word (p2Index r) = T.word (p2Index r)) := by
  rw [clearTable]
  split_ifs with hmod
  · unfold tableSize at hmod
    have hlast : e + tableSize * (1 + e / (tableSize * tableSize)) = p1Page (e / 512) * 512 + e % 512 := by
      unfold p1Page tableSize
      omega
    have hnext : nextMultipleOf (p1Page (e / 512) * 512 + e % 512) tableSize
        = p1Page (e / 512) * 512 + 512 := by
      rw [nextMultipleOf_tableSize]
      omega
    rw [hlast]
    dsimp only
    rw [hnext, fillP1_eq hT (by omega) _ _ (by omega) (le_refl _)]
    refine ⟨_, rfl, rfl, ?_, fun r => clearP1_p2 r (le_refl _)⟩
    intro v
    rw [lookup_clearP1 v (le_refl _) (hready hmod)]
    have hiff : (v / 512 = e / 512 ∧ e % 512 ≤ v % 512 ∧ v % 512 < 512)
        ↔ (e ≤ v ∧ v / 512 = e / 512 ∧ e % 512 ≠ 0) := by omega
    simp only [hiff]
  · refine ⟨T, rfl, rfl, fun v => ?_, fun r => rfl⟩
    rw [if_neg (fun h => hmod h.2.2)]

/-- The effect of `set_range` on the pages from `s` up to `e`, the previous range having ended
before the page `prev`. -/
structure RangeSet (base n flags s e b prev : Nat) (T T' : Words) : Prop where
  length : T'.length = T.length
  lookup : ∀ v, lookup T'.word v
    = if s ≤ v ∧ v < e then entry flags (b + (v - s))
      else if (e ≤ v ∧ v / 512 = e / 512 ∧ e % 512 ≠ 0)
          ∨ (v < s ∧ v / 512 = s / 512 ∧ nextMultipleOf prev tableSize ≤ s) then 0
      else lookup T.word v
  ready : e % 512 ≠ 0 → T'.word (p2Index (e / 512)) = pointer base (e / 512)
  shape : Shape base n T.word → Shape base n T'.word

theorem setRange_spec {flags e b : Nat} (hflags : PageFlags flags) (he : e ≤ n * 512 * 512)
    (hT : T.length = n * (513 * 512)) (hse : s ≤ e) (hb : b % 512 = s % 512)
    (hfit : b + (e - s) ≤ 2 ^ 40)
    (hready : s % 512 ≠ 0 → nextMultipleOf prev tableSize ≤ s
      ∨ T.word (p2Index (s / 512)) = pointer base (s / 512)) :
    ∃ T', setRange T (4096 * base) (4096 * s) (4096 * e) flags (4096 * b) prev = .ok (T', e)
      ∧ RangeSet base n flags s e b prev T T' := by
  obtain ⟨T₁, heq₁, h₁⟩ := startTable_spec (by omega) hT hready
  obtain ⟨T₂, heq₂, h₂⟩ := setPages_spec hflags he (h₁.length.trans hT) hse hb hfit h₁.ready
  have hT₂ : T₂.length = n * (513 * 512) := h₂.length.trans (h₁.length.trans hT)
  obtain ⟨T₃, heq₃, hlength, hlookup, hp2⟩ := clearTable_spec he hT₂ h₂.ready
  have hs : 4096 * s / pageSize = s := by
    unfold pageSize
    omega
  have he' : 4096 * e / pageSize = e := by
    unfold pageSize
    omega
  refine ⟨T₃, ?_, ?_, ?_, ?_, ?_⟩
  · rw [setRange]
    simp only [hs, he']
    rw [heq₁]
    change (setPages _ _ _ _ _ _ >>= _) = _
    rw [heq₂]
    change (clearTable _ _ >>= _) = _
    rw [heq₃]
    rfl
  · rw [hlength, h₂.length, h₁.length]
  · intro v
    rw [hlookup]
    by_cases hin : s ≤ v ∧ v < e
    · rw [if_pos hin, if_neg (by omega), h₂.mapped v hin.1 hin.2]
    · rw [if_neg hin]
      by_cases hrest : e ≤ v ∧ v / 512 = e / 512 ∧ e % 512 ≠ 0
      · rw [if_pos hrest, if_pos (Or.inl hrest)]
      · rw [if_neg hrest]
        by_cases hbelow : v < s
        · rw [h₂.below v hbelow, h₁.before v hbelow]
          simp only [hrest, hbelow, true_and, false_or]
        · rw [if_neg (by omega), h₂.above v (by omega) (by omega), h₁.elsewhere v (by omega)]
  · intro hmod
    rw [hp2, h₂.ready hmod]
  · intro hshape r hr
    rw [hp2]
    exact h₂.shape (h₁.shape hshape) r hr

end Range

/-! ## Walks through the array -/

/-- The walk from a p2 entry, for an array that starts at the page `base` of a memory. -/
theorem Shape.resolve2_eq {base n page : Nat} {word memory : Nat → Nat} (h : Shape base n word)
    (hbase : base + 513 * n ≤ 2 ^ 40) (hmemory : ∀ i < n * (513 * 512), memory (512 * base + i) = word i)
    (hpage : page / 512 < n * 512) :
    resolve2 memory (word (p2Index (page / 512))) page = resolve1 (lookup word page) := by
  have hentry := h _ hpage
  have hp1 : memory (512 * base + p1Index page) = word (p1Index page) :=
    hmemory _ (p1Index_lt (by omega))
  rw [lookup]
  generalize word (p2Index (page / 512)) = p2Entry at hentry
  cases hentry with
  | absent => rfl
  | large hflags hlarge hf =>
    have hlt := hflags.lt
    rw [hflags.resolve_large, hflags.resolve1 (by omega), resolve2, present_entry,
      hflags.present_large, isPage_entry, hflags.isPage_large, if_pos rfl, if_pos rfl,
      largeFrame_entry (by omega) (by omega) hlarge, writable_entry, user_entry,
      hflags.writable_large, hflags.user_large]
  | table =>
    have hframe : frame (pointer base (page / 512)) = base + p1Page (page / 512) := by
      apply frame_entry (by decide)
      unfold p1Page
      omega
    have hindex : 512 * (base + p1Page (page / 512)) + page % 512 = 512 * base + p1Index page := by
      unfold p1Index
      omega
    rw [resolve_pointer, resolve2, hframe, hindex, hp1, pointer, present_entry, isPage_entry,
      map_restrict_all]
    rfl

end Dandelion.Kvm
