import Dandelion.OverlayEdits

/-!
# Valid contexts

What the operations on a context rely on and keep: entries of whole pages that lie inside
the storage and do not overlap, and items that lie inside lawful contexts.
-/

namespace Dandelion

open Outcome Segments

/-- What a shared context promises to those that read from it. -/
structure ContextRef.Lawful (context : ContextRef) : Prop where
  size_le : context.size ≤ Usize.isizeMax
  byte_lt : ∀ {o b}, context.byte o = some b → o < context.size
  read_length : ∀ o buffer, (context.read o buffer).1.length = buffer.length
  read_returns : ∀ o buffer, o + buffer.length < Usize.limit → Returns (context.read o buffer).2
  read_bytes : ∀ o buffer, (context.read o buffer).2 = .ok () → ∀ i < buffer.length,
    (context.read o buffer).1[i]? = context.byte (o + i)
  read_defined : ∀ o buffer, 0 < buffer.length →
    (∀ i < buffer.length, (context.byte (o + i)).isSome) → (context.read o buffer).2 = .ok ()
  chunk_returns : ∀ o n, o + n < Usize.limit → Returns (context.getChunkRef o n)
  chunk_bytes : ∀ o n chunk, 0 < n → context.getChunkRef o n = .ok chunk →
    0 < chunk.length ∧ chunk.length ≤ n ∧ ∀ i < chunk.length, chunk[i]? = context.byte (o + i)
  chunk_defined : ∀ o n, 0 < n → o + n ≤ context.size → (context.byte o).isSome →
    ∃ chunk, context.getChunkRef o n = .ok chunk

/-- The first `length` bytes of an item are in its context. -/
structure OverlayItem.Backs (item : OverlayItem) (length : Nat) : Prop where
  lawful : item.context.Lawful
  fits : item.offset + length ≤ item.context.size

theorem OverlayItem.Backs.mono {item : OverlayItem} {length length' : Nat} (h : item.Backs length)
    (hle : length' ≤ length) : item.Backs length' :=
  ⟨h.lawful, by have := h.fits; omega⟩

theorem OverlayItem.Backs.advance {context : ContextRef} {offset length d : Nat}
    (h : OverlayItem.Backs ⟨context, offset⟩ length) (hd : d ≤ length) :
    OverlayItem.Backs ⟨context, offset + d⟩ (length - d) :=
  ⟨h.lawful, by have := h.fits; simp only at this ⊢; omega⟩

theorem OverlayItem.Backs.lt {item : OverlayItem} {length : Nat} (h : item.Backs length) :
    item.offset + length < Usize.limit := by
  have h1 := h.fits
  have h2 := h.lawful.size_le
  unfold Usize.isizeMax at h2
  unfold Usize.limit
  omega

/-- An item of a lawful context whose first `length` bytes have addresses. -/
structure OverlayItem.Addresses (item : OverlayItem) (length : Nat) : Prop where
  lawful : item.context.Lawful
  lt : item.offset + length < Usize.limit

theorem OverlayItem.Backs.addresses {item : OverlayItem} {length : Nat} (h : item.Backs length) :
    item.Addresses length :=
  ⟨h.lawful, h.lt⟩

namespace KvmContext

/-- Entries of whole pages that do not overlap. -/
structure PagedOverlay (overlay : Overlay) : Prop where
  separate : Separate overlay
  aligned : ∀ {last start item}, overlay.get? last = some (start, item) →
    pageSize ∣ start ∧ pageSize ∣ last + 1
  items : ∀ {last start item}, overlay.get? last = some (start, some item) →
    item.Addresses (last + 1 - start)

/-- A context over whole pages. Nothing is said about where its entries end, nor about which
bytes the contexts of its items define. -/
structure Paged (context : KvmContext) : Prop where
  overlay : PagedOverlay context.overlay
  storage_pages : pageSize ∣ context.storage.length
  storage_le : context.storage.length ≤ Usize.isizeMax

/-- Entries of whole pages of a storage of the given length. -/
structure ValidOverlay (size : Nat) (overlay : Overlay) : Prop where
  separate : Separate overlay
  aligned : ∀ {last start item}, overlay.get? last = some (start, item) →
    pageSize ∣ start ∧ pageSize ∣ last + 1
  inside : ∀ {last start item}, overlay.get? last = some (start, item) → last < size
  items : ∀ {last start item}, overlay.get? last = some (start, some item) →
    item.Backs (last + 1 - start)

structure Valid (context : KvmContext) : Prop where
  overlay : ValidOverlay context.storage.length context.overlay
  storage_pages : pageSize ∣ context.storage.length
  storage_le : context.storage.length ≤ Usize.isizeMax

theorem ValidOverlay.paged {size : Nat} {overlay : Overlay} (h : ValidOverlay size overlay) :
    PagedOverlay overlay :=
  ⟨h.separate, h.aligned, fun hget => (h.items hget).addresses⟩

theorem Valid.paged {context : KvmContext} (h : Valid context) : Paged context :=
  ⟨h.overlay.paged, h.storage_pages, h.storage_le⟩

theorem PagedOverlay.addressable {overlay : Overlay} (h : PagedOverlay overlay) :
    Addressable overlay :=
  fun _ _ _ hget => (h.items hget).lt

theorem valid_of_entries {overlay : Overlay} {storage : List UInt8}
    (hentries : ∀ entry ∈ overlay.entries, entry.2.1 ≤ entry.1 ∧
      (pageSize ∣ entry.2.1 ∧ pageSize ∣ entry.1 + 1) ∧ entry.1 < storage.length)
    (hapart : ∀ e ∈ overlay.entries, ∀ f ∈ overlay.entries, e.1 < f.1 → e.1 < f.2.1)
    (hitems : ∀ entry ∈ overlay.entries, ∀ item, entry.2.2 = some item →
      item.Backs (entry.1 + 1 - entry.2.1))
    (hpages : pageSize ∣ storage.length) (hle : storage.length ≤ Usize.isizeMax) :
    Valid ⟨overlay, storage⟩ := by
  have hmem : ∀ {last start item}, overlay.get? last = some (start, item) →
      (last, start, item) ∈ overlay.entries := (OrderedMap.get?_eq_some_iff _ _ _).mp
  have hseparate : Separate overlay :=
    ⟨fun hget => (hentries _ (hmem hget)).1,
      fun hget hget' hlt => hapart _ (hmem hget) _ (hmem hget') hlt⟩
  exact ⟨⟨hseparate, fun hget => (hentries _ (hmem hget)).2.1,
    fun hget => (hentries _ (hmem hget)).2.2, fun hget => hitems _ (hmem hget) _ rfl⟩, hpages, hle⟩

section Insert

variable {overlay : Overlay} {a b : Nat} {newItem : Option OverlayItem}

/-- The new entry ends where the range does, or where the entry behind it does. -/
theorem planEdit_bounds (newItem : Option OverlayItem)
    (haligned : ∀ {last start item}, overlay.get? last = some (start, item) →
      pageSize ∣ start ∧ pageSize ∣ last + 1)
    (hab : a < b) (ha : pageSize ∣ a) (hb : pageSize ∣ b) :
    plannedStart overlay a newItem < plannedEnd overlay b newItem ∧
      pageSize ∣ plannedStart overlay a newItem ∧ pageSize ∣ plannedEnd overlay b newItem := by
  have hstart : plannedStart overlay a newItem ≤ a := plannedStart_le newItem
  have hend : b ≤ plannedEnd overlay b newItem := le_plannedEnd newItem
  refine ⟨by omega, ?_, ?_⟩
  · rcases plannedStart_cases newItem with heq | ⟨-, last, hget, -⟩
    · rw [heq]
      exact ha
    · exact (haligned hget).1
  · rcases plannedEnd_cases newItem with heq | ⟨-, start, hget, -, -⟩
    · rw [heq]
      exact hb
    · have := (haligned hget).2
      rwa [Nat.sub_add_cancel (by omega)] at this

/-- What holds of all items holds after the edit, if it holds of the parts of an item. -/
theorem planEdit_items {P : OverlayItem → Nat → Prop}
    (hmono : ∀ {item length length'}, P item length → length' ≤ length → P item length')
    (hadvance : ∀ {context offset length d}, P ⟨context, offset⟩ length → d ≤ length →
      P ⟨context, offset + d⟩ (length - d))
    (hsep : Separate overlay) (hab : a < b)
    (hitems : ∀ {last start item}, overlay.get? last = some (start, some item) →
      P item (last + 1 - start))
    (hnew : ∀ item, newItem = some item → P item (b - a)) {last start : Nat} {item : OverlayItem}
    (hget : ((planEdit overlay a b newItem).apply overlay).get? last = some (start, some item)) :
    P item (last + 1 - start) := by
  have hstarts : plannedStart overlay a newItem = a ∨ _ := plannedStart_cases newItem
  have hends : plannedEnd overlay b newItem = b ∨ _ := plannedEnd_cases newItem
  rcases (planEdit_overwritten hsep hab newItem last start (some item)).mp hget with
      ⟨rfl, rfl, hitem⟩ | ⟨last₀, hs₀, -, rfl⟩ | ⟨start₀, item₀, hs₀, hle, rfl, hitem⟩
  · have hback := hnew item hitem.symm
    rcases hstarts with heq | ⟨rfl, -⟩
    · rcases hends with heq' | ⟨rfl, -⟩
      · exact hmono hback (by omega)
      · cases hitem
    · cases hitem
  · exact hmono (hitems hs₀) (by omega)
  · cases item₀ with
    | none => cases hitem
    | some item₀ =>
      rw [vadd_some, Option.some.injEq] at hitem
      rw [hitem]
      have hback : P ⟨item₀.context, item₀.offset⟩ _ := hitems hs₀
      exact hmono (hadvance hback (by omega)) (by omega)

variable (hab : a < b) (ha : pageSize ∣ a) (hb : pageSize ∣ b)
include hab ha hb

theorem PagedOverlay.planEdit (h : PagedOverlay overlay)
    (hnew : ∀ item, newItem = some item → item.Addresses (b - a)) :
    PagedOverlay ((planEdit overlay a b newItem).apply overlay) := by
  have hover := planEdit_overwritten h.separate hab newItem
  obtain ⟨hab', ha', hb'⟩ := planEdit_bounds newItem h.aligned hab ha hb
  refine ⟨hover.separate hab' h.separate, hover.aligned hab' h.aligned ha' hb', ?_⟩
  intro last start item hget
  refine planEdit_items ?_ ?_ h.separate hab h.items hnew hget
  · exact fun hitem hle => ⟨hitem.lawful, by have := hitem.lt; omega⟩
  · exact fun hitem hd => ⟨hitem.lawful, by have := hitem.lt; simp only at this ⊢; omega⟩

theorem ValidOverlay.planEdit {size : Nat} (h : ValidOverlay size overlay) (hsize : b ≤ size)
    (hnew : ∀ item, newItem = some item → item.Backs (b - a)) :
    ValidOverlay size ((planEdit overlay a b newItem).apply overlay) := by
  have hover := planEdit_overwritten h.separate hab newItem
  have hpaged := h.paged.planEdit hab ha hb fun item hitem => (hnew item hitem).addresses
  have hends : plannedEnd overlay b newItem = b ∨ _ := plannedEnd_cases newItem
  have hsize' : plannedEnd overlay b newItem ≤ size := by
    rcases hends with heq | ⟨-, start, hget, -, -⟩
    · omega
    · have := h.inside hget
      omega
  obtain ⟨hab', -⟩ := planEdit_bounds newItem h.aligned hab ha hb
  refine ⟨hpaged.separate, hpaged.aligned, ?_, ?_⟩
  · intro last start item hs
    rcases (hover last start item).mp hs with ⟨rfl, -⟩ | ⟨last₀, hs₀, -, rfl⟩ | ⟨_, _, hs₀, -⟩
    · omega
    · have := h.inside hs₀
      omega
    · exact h.inside hs₀
  · intro last start item hget
    exact planEdit_items (P := OverlayItem.Backs) OverlayItem.Backs.mono OverlayItem.Backs.advance
      h.separate hab h.items hnew hget

end Insert

/-- `insert_into_overlay` replaces the range and keeps the rest of a valid context. -/
theorem insertIntoOverlay_spec {context : KvmContext} (h : Valid context) {a b : Nat} (hab : a < b)
    (ha : pageSize ∣ a) (hb : pageSize ∣ b) (hsize : b ≤ context.storage.length)
    {newItem : Option OverlayItem} (hnew : ∀ item, newItem = some item → item.Backs (b - a)) :
    ∃ overlay, insertIntoOverlay context a b newItem = .ok ⟨overlay, context.storage⟩ ∧
      ValidOverlay context.storage.length overlay ∧ ∀ o, locate overlay o =
        if a ≤ o ∧ o < b then some ((o - a) +ᵥ newItem) else locate context.overlay o :=
  ⟨_, insertIntoOverlay_eq h.overlay.separate h.overlay.paged.addressable hab newItem context.storage,
    ValidOverlay.planEdit hab ha hb h.overlay hsize hnew, locate_planEdit h.overlay.separate hab newItem⟩

/-- `insert_into_overlay` on any overlay of whole pages whose items lie in the address space: it
returns, the range maps to the new item, and every other offset to what it did before. -/
theorem insertIntoOverlay_replaces {overlay : Overlay} (hseparate : Separate overlay)
    (haligned : ∀ {last start item}, overlay.get? last = some (start, item) →
      pageSize ∣ start ∧ pageSize ∣ last + 1)
    (haddressable : Addressable overlay) {a b : Nat} (hab : a < b) (ha : pageSize ∣ a)
    (hb : pageSize ∣ b) (newItem : Option OverlayItem) (storage : List UInt8) :
    ∃ overlay', insertIntoOverlay ⟨overlay, storage⟩ a b newItem = .ok ⟨overlay', storage⟩ ∧
      Separate overlay' ∧
      (∀ {last start item}, overlay'.get? last = some (start, item) →
        pageSize ∣ start ∧ pageSize ∣ last + 1) ∧
      ∀ o, locate overlay' o = if a ≤ o ∧ o < b then some ((o - a) +ᵥ newItem) else locate overlay o := by
  have hover := planEdit_overwritten hseparate hab newItem
  obtain ⟨hab', ha', hb'⟩ := planEdit_bounds newItem haligned hab ha hb
  exact ⟨_, insertIntoOverlay_eq hseparate haddressable hab newItem storage,
    hover.separate hab' hseparate, fun hget => hover.aligned hab' haligned ha' hb' hget,
    locate_planEdit hseparate hab newItem⟩

/-- An overlay of one item, over three pages. -/
def threePages : Overlay :=
  OrderedMap.empty.insert (3 * pageSize - 1)
    (0, some ⟨toRef ⟨OrderedMap.empty, List.replicate (4 * pageSize) 0⟩, pageSize⟩)

theorem threePages_entry {last start : Nat} {item : Option OverlayItem}
    (h : threePages.get? last = some (start, item)) : last = 3 * pageSize - 1 ∧ start = 0 ∧
      ∀ it, item = some it → it.offset = pageSize := by
  rcases (OrderedMap.get?_insert_eq_some_iff _ _ _ _ _).mp h with ⟨rfl, hvalue⟩ | ⟨-, hnone⟩
  · cases hvalue
    refine ⟨rfl, rfl, fun it hit => ?_⟩
    cases hit
    rfl
  · cases hnone

/-- The page in the middle of an item goes to the storage. -/
theorem threePages_cut : ∃ overlay',
    insertIntoOverlay ⟨threePages, []⟩ pageSize (2 * pageSize) none = .ok ⟨overlay', []⟩ ∧
    Separate overlay' ∧ ∀ o, locate overlay' o =
      if pageSize ≤ o ∧ o < 2 * pageSize then some none else locate threePages o := by
  have hseparate : Separate threePages := by
    constructor
    · intro last start item hget
      obtain ⟨-, rfl, -⟩ := threePages_entry hget
      exact Nat.zero_le last
    · intro last start item last' start' item' hget hget' hlt
      obtain ⟨rfl, -⟩ := threePages_entry hget
      obtain ⟨rfl, -⟩ := threePages_entry hget'
      exact absurd hlt (Nat.lt_irrefl _)
  have haligned : ∀ {last start item}, threePages.get? last = some (start, item) →
      pageSize ∣ start ∧ pageSize ∣ last + 1 := by
    intro last start item hget
    obtain ⟨rfl, rfl, -⟩ := threePages_entry hget
    exact ⟨Nat.dvd_zero _, by decide⟩
  have haddressable : Addressable threePages := by
    intro last start item hget
    obtain ⟨rfl, rfl, hoffset⟩ := threePages_entry hget
    rw [hoffset item rfl]
    decide
  obtain ⟨overlay', hok, hsep, -, hlocate⟩ := insertIntoOverlay_replaces hseparate haligned
    haddressable (show pageSize < 2 * pageSize by decide) (Nat.dvd_refl _) (Nat.dvd_mul_left _ _)
    none []
  exact ⟨overlay', hok, hsep, hlocate⟩

end KvmContext
end Dandelion
