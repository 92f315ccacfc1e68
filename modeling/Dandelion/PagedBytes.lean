import Dandelion.TransferCorrectness

/-!
# A context as an array of bytes

What a context of whole pages promises to its users: writes change the touched pages
only, reads and chunks give back the bytes that are there. No entry has to end inside
the storage and no item has to be defined everywhere.
-/

namespace Dandelion.KvmContext

open Outcome Segments

/-- The chunks of a range: each call asks for what is left of it. The pieces so far, and the
result of the last call. -/
def getChunks (context : KvmContext) :
    Nat → Nat → Nat → List (List UInt8) × DandelionResult Unit
  | _, _, 0 => ([], pure ())
  | 0, _, _ + 1 => ([], .error .diverge)
  | fuel + 1, offset, size + 1 =>
    match getChunkRef context offset (size + 1) with
    | .error stop => ([], .error stop)
    | .ok chunk =>
      let (pieces, result) := getChunks context fuel (offset + chunk.length) (size + 1 - chunk.length)
      (chunk :: pieces, result)

/-- Pieces of the bytes from an offset on, as far as the calls went. -/
structure PiecesOf (byte : Nat → Option UInt8) (offset size : Nat)
    (after : List (List UInt8) × DandelionResult Unit) : Prop where
  returns : Returns after.2
  nonempty : ∀ piece ∈ after.1, piece ≠ []
  length_le : after.1.flatten.length ≤ size
  bytes : ∀ i < after.1.flatten.length, after.1.flatten[i]? = byte (offset + i)
  complete : after.2 = .ok () → after.1.flatten.length = size
  defined : (∀ i < size, (byte (offset + i)).isSome) → after.2 = .ok ()

theorem piecesOf_nil {byte : Nat → Option UInt8} {offset size : Nat} {result : DandelionResult Unit}
    (hreturns : Returns result) (hok : result = .ok () → size = 0)
    (hdefined : (∀ i < size, (byte (offset + i)).isSome) → result = .ok ()) :
    PiecesOf byte offset size ([], result) where
  returns := hreturns
  nonempty := fun piece hpiece => by cases hpiece
  length_le := Nat.zero_le _
  bytes := fun i hi => by cases hi
  complete := fun h => (hok h).symm
  defined := hdefined

theorem PiecesOf.cons {byte : Nat → Option UInt8} {offset size : Nat} {chunk : List UInt8}
    {rest : List (List UInt8) × DandelionResult Unit} (hpos : 0 < chunk.length)
    (hle : chunk.length ≤ size) (hbytes : ∀ i < chunk.length, chunk[i]? = byte (offset + i))
    (hrest : PiecesOf byte (offset + chunk.length) (size - chunk.length) rest) :
    PiecesOf byte offset size (chunk :: rest.1, rest.2) where
  returns := hrest.returns
  nonempty := List.forall_mem_cons.mpr ⟨List.ne_nil_of_length_pos hpos, hrest.nonempty⟩
  length_le := by
    have := hrest.length_le
    simp only [List.flatten_cons, List.length_append]
    omega
  bytes := by
    intro i hi
    simp only [List.flatten_cons, List.length_append] at hi ⊢
    by_cases hlt : i < chunk.length
    · rw [List.getElem?_append_left hlt]
      exact hbytes i hlt
    · rw [List.getElem?_append_right (by omega), hrest.bytes _ (by omega)]
      congr 1
      omega
  complete := by
    intro hok
    have := hrest.complete hok
    simp only [List.flatten_cons, List.length_append]
    omega
  defined := by
    intro hall
    refine hrest.defined fun i hi => ?_
    rw [Nat.add_assoc]
    exact hall (chunk.length + i) (by omega)

section Paged

variable {context : KvmContext} (h : Paged context)
include h

theorem getChunks_spec (fuel : Nat) {offset size : Nat} (hfuel : size ≤ fuel)
    (hbounds : offset + size ≤ context.storage.length) :
    PiecesOf context.view offset size (getChunks context fuel offset size) := by
  induction fuel generalizing offset size with
  | zero =>
    obtain rfl := Nat.le_zero.mp hfuel
    rw [getChunks]
    exact piecesOf_nil (returns_pure _) (fun _ => rfl) (fun _ => rfl)
  | succ fuel ih =>
    cases size with
    | zero =>
      rw [getChunks]
      exact piecesOf_nil (returns_pure _) (fun _ => rfl) (fun _ => rfl)
    | succ size =>
      obtain ⟨hpieces, hdefined⟩ := getChunkRef_pieces h (Nat.succ_pos size) hbounds
      have hreturns := returns_getChunkRef h (lt_limit h hbounds)
      rw [getChunks]
      cases hchunk : getChunkRef context offset (size + 1) with
      | error stop =>
        obtain ⟨e, rfl⟩ := hreturns stop hchunk
        refine piecesOf_nil (returns_fail e) (fun hok => by cases hok) fun hall => ?_
        obtain ⟨chunk, hok⟩ := hdefined hall
        rw [hchunk] at hok
        cases hok
      | ok chunk =>
        obtain ⟨hpos, hle, hbytes⟩ := hpieces chunk hchunk
        exact PiecesOf.cons hpos hle hbytes (ih (by omega) (by omega))

omit h in
theorem read_out_of_bounds {align offset : Nat} {buffer : List UInt8}
    (hbounds : context.storage.length < offset + buffer.length) :
    (read align context offset buffer).2 ≠ .ok () ∧
      (offset + buffer.length < Usize.limit → Returns (read align context offset buffer).2) := by
  rw [read]
  by_cases halign : offset % align ≠ 0
  · rw [if_pos halign]
    exact ⟨fun hok => (by cases hok), fun _ => returns_fail _⟩
  · rw [if_neg halign]
    by_cases hlimit : offset + buffer.length < Usize.limit
    · rw [Usize.add_eq_ok hlimit]
      simp only
      rw [if_pos hbounds]
      exact ⟨fun hok => (by cases hok), fun _ => returns_fail _⟩
    · rw [Usize.add_eq_crash hlimit]
      exact ⟨fun hok => (by cases hok), fun hlt => absurd hlt hlimit⟩

end Paged

/-- What a write does to the bytes of a context. -/
structure WritesBytes (context : KvmContext) (offset : Nat) (data : List UInt8)
    (after : KvmContext × DandelionResult Unit) : Prop where
  returns : Returns after.2
  paged : Paged after.1
  view_ok : after.2 = .ok () → ∀ o, after.1.view o = written context.view offset data o
  view_error : after.2 ≠ .ok () → ∀ o, after.1.view o = context.view o

theorem write_bytes {context : KvmContext} (h : Paged context) (align : Nat) {offset : Nat}
    {data : List UInt8} (hdata : data ≠ []) (hlimit : offset + data.length < Usize.limit) :
    WritesBytes context offset data (write align context offset data) := by
  rcases write_cases h (touched_lt hdata offset) align hlimit with ⟨e, storage, heq, hlen, hview, -⟩ |
      ⟨-, storage, heq, hlen, hview⟩
  · rw [heq]
    exact ⟨returns_fail e, ⟨h.overlay, hlen ▸ h.storage_pages, hlen ▸ h.storage_le⟩,
      (by intro hok; cases hok), fun _ => hview⟩
  · have hnone : ∀ item, (none : Option OverlayItem) = some item → item.Addresses
        (nextPage (offset + data.length) - roundDownToPage offset) :=
      fun item hitem => by cases hitem
    have hplanned := PagedOverlay.planEdit (touched_lt hdata offset) (dvd_roundDownToPage offset)
      (dvd_nextPage (offset + data.length)) h.overlay hnone
    rw [heq]
    exact ⟨returns_ok _, ⟨hplanned, hlen ▸ h.storage_pages, hlen ▸ h.storage_le⟩, fun _ => hview,
      fun hne => absurd rfl hne⟩

/-- The promises of a context as an array of bytes, for elements of the given alignment. No
slice is longer than `isizeMax`. -/
structure BehavesAsBytes (align : Nat) (context : KvmContext) : Prop where
  write : ∀ offset data, offset ≤ context.storage.length → data ≠ [] →
    data.length ≤ Usize.isizeMax →
    WritesBytes context offset data (write align context offset data)
  read_returns : ∀ offset buffer, offset ≤ context.storage.length →
    buffer.length ≤ Usize.isizeMax → buffer ≠ [] → Returns (read align context offset buffer).2
  read_ok_iff : ∀ offset buffer, buffer ≠ [] → offset % align = 0 →
    ((read align context offset buffer).2 = .ok () ↔
      offset + buffer.length ≤ context.storage.length ∧
        ∀ i < buffer.length, (context.view (offset + i)).isSome)
  read_bytes : ∀ offset buffer, buffer ≠ [] → (read align context offset buffer).2 = .ok () →
    (read align context offset buffer).1.map some =
      (List.range buffer.length).map fun i => context.view (offset + i)
  chunks : ∀ offset size, offset + size ≤ context.storage.length →
    PiecesOf context.view offset size (getChunks context size offset size)

theorem add_lt_limit {a b : Nat} (ha : a ≤ Usize.isizeMax) (hb : b ≤ Usize.isizeMax) :
    a + b < Usize.limit := by
  unfold Usize.isizeMax at ha hb
  unfold Usize.limit
  omega

theorem aligned_of_read_ok {context : KvmContext} {align offset : Nat} {buffer : List UInt8}
    (hok : (read align context offset buffer).2 = .ok ()) : offset % align = 0 := by
  by_contra halign
  rw [read, if_pos halign] at hok
  cases hok

/-- A context of whole pages behaves as an array of bytes. -/
theorem behavesAsBytes_of_paged {context : KvmContext} (h : Paged context) (align : Nat) :
    BehavesAsBytes align context where
  write := by
    intro offset data hoffset hdata hslice
    exact write_bytes h align hdata (add_lt_limit (hoffset.trans h.storage_le) hslice)
  read_returns := by
    intro offset buffer hoffset hslice hbuffer
    by_cases hbounds : offset + buffer.length ≤ context.storage.length
    · by_cases halign : offset % align = 0
      · exact (read_spec h halign hbuffer hbounds).returns
      · rw [read, if_pos halign]
        exact returns_fail _
    · exact (read_out_of_bounds (Nat.lt_of_not_le hbounds)).2
        (add_lt_limit (hoffset.trans h.storage_le) hslice)
  read_ok_iff := by
    intro offset buffer hbuffer halign
    constructor
    · intro hok
      have hbounds : offset + buffer.length ≤ context.storage.length := by
        by_contra hlt
        exact (read_out_of_bounds (Nat.lt_of_not_le hlt)).1 hok
      have hread := read_spec h halign hbuffer hbounds
      refine ⟨hbounds, fun i hi => ?_⟩
      rw [← hread.bytes hok i hi, List.getElem?_eq_getElem (by rw [hread.length]; exact hi)]
      rfl
    · rintro ⟨hbounds, hall⟩
      exact (read_spec h halign hbuffer hbounds).defined hall
  read_bytes := by
    intro offset buffer hbuffer hok
    have hbounds : offset + buffer.length ≤ context.storage.length := by
      by_contra hlt
      exact (read_out_of_bounds (Nat.lt_of_not_le hlt)).1 hok
    have hread := read_spec h (aligned_of_read_ok hok) hbuffer hbounds
    apply List.ext_getElem?
    intro i
    rw [List.getElem?_map, List.getElem?_map]
    by_cases hi : i < buffer.length
    · rw [List.getElem?_range hi, Option.map_some, ← hread.bytes hok i hi,
        List.getElem?_eq_getElem (by rw [hread.length]; exact hi)]
      rfl
    · rw [List.getElem?_eq_none (by rw [hread.length]; omega),
        List.getElem?_eq_none (by rw [List.length_range]; omega)]
      rfl
  chunks := fun offset size hbounds => getChunks_spec h size (Nat.le_refl _) hbounds

/-- A write over the end of a remapped page and the start of a written one. -/
theorem splitPages_written : Paged splitPages ∧
    (write 1 splitPages 4090 (List.replicate 12 9)).2 = .ok () ∧
    ∀ o, (write 1 splitPages 4090 (List.replicate 12 9)).1.view o =
      written splitPages.view 4090 (List.replicate 12 9) o := by
  have hbytes := behavesAsBytes_of_paged valid_splitPages.paged 1
  have hok : (write 1 splitPages 4090 (List.replicate 12 9)).2 = .ok () := by decide +kernel
  have hlength : splitPages.storage.length = 8192 := List.length_replicate
  have hwrite := hbytes.write 4090 (List.replicate 12 9) (hlength.symm ▸ by decide) (by decide)
    (by decide +kernel)
  exact ⟨valid_splitPages.paged, hok, hwrite.view_ok hok⟩

end Dandelion.KvmContext
