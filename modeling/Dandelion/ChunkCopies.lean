import Dandelion.CopyOnWrite
import Dandelion.KvmReads
import Dandelion.Transfer

/-!
# Copying chunk by chunk

A transfer changes the bytes of its range to those of the source. Other bytes that were
defined stay, and bytes that become defined are in the pages of the range. The copy loop
keeps this for the part that it has copied, whatever the chunks are.
-/

namespace Dandelion.KvmContext

open Outcome Segments Stateful

/-- The page of an offset has a byte of the range. -/
def TouchedPage (offset size o : Nat) : Prop :=
  ∃ q, offset ≤ q ∧ q < offset + size ∧ q / pageSize = o / pageSize

theorem TouchedPage.mono {offset size offset' size' o : Nat} (h : TouchedPage offset size o)
    (hle : offset' ≤ offset) (hle' : offset + size ≤ offset' + size') : TouchedPage offset' size' o := by
  obtain ⟨q, h1, h2, h3⟩ := h
  exact ⟨q, by omega, by omega, h3⟩

/-- Outside the range, the pages that a write rounds to are touched pages. -/
theorem touchedPage_of_rounded {offset size o : Nat} (hpos : 0 < size)
    (hout : ¬ (offset ≤ o ∧ o < offset + size))
    (hround : roundDownToPage offset ≤ o ∧ o < nextPage (offset + size)) :
    TouchedPage offset size o := by
  by_cases hlt : o < offset
  · have := lt_roundDownToPage_add offset
    exact ⟨offset, Nat.le_refl _, by omega, div_eq_of_mem_page hround.1 (by omega)⟩
  · have h1 := roundDownToPage_le (offset + size - 1)
    have h2 := lt_roundDownToPage_add (offset + size - 1)
    have hdvd := Nat.dvd_add (dvd_roundDownToPage (offset + size - 1)) (dvd_refl pageSize)
    have h3 := nextPage_le hdvd (show offset + size ≤ _ by omega)
    exact ⟨offset + size - 1, by omega, by omega, div_eq_of_mem_page (by omega) (by omega)⟩

/-- What a transfer does to the bytes of its destination. -/
structure Transferred (before after : KvmContext) (byte : Nat → Option UInt8)
    (destinationOffset sourceOffset size : Nat) : Prop where
  copied : ∀ i < size, after.view (destinationOffset + i) = byte (sourceOffset + i)
  kept : ∀ o b, ¬ (destinationOffset ≤ o ∧ o < destinationOffset + size) → before.view o = some b →
    after.view o = some b
  fresh : ∀ o, ¬ (destinationOffset ≤ o ∧ o < destinationOffset + size) → before.view o = none →
    (after.view o).isSome → TouchedPage destinationOffset size o

/-- A transfer that has copied every byte. -/
structure Copied (before after : KvmContext) (byte : Nat → Option UInt8)
    (destinationOffset sourceOffset size : Nat) : Prop extends
    Transferred before after byte destinationOffset sourceOffset size where
  valid : Valid after
  length : after.storage.length = before.storage.length
  defined : ∀ i < size, (byte (sourceOffset + i)).isSome

theorem copied_zero {context : KvmContext} (h : Valid context) (byte : Nat → Option UInt8)
    (destinationOffset sourceOffset : Nat) :
    Copied context context byte destinationOffset sourceOffset 0 where
  copied := fun i hi => absurd hi (Nat.not_lt_zero i)
  kept := fun _ _ _ hview => hview
  fresh := fun o _ hnone hsome => by
    rw [hnone] at hsome
    cases hsome
  valid := h
  length := rfl
  defined := fun i hi => absurd hi (Nat.not_lt_zero i)

theorem writeBytes_runs {context : KvmContext} (h : Valid context) {offset : Nat} {data : List UInt8}
    (hdata : data ≠ []) (hlimit : offset + data.length < Usize.limit) :
    Runs (writeBytes offset data) context
      (fun _ after => Wrote context offset data (after, .ok ())) (fun _ => True) := by
  have hwrote := write_spec h 1 hdata hlimit
  rw [writeBytes, runs_get_bind]
  cases hwrite : write 1 context offset data with
  | mk after result =>
    rw [hwrite] at hwrote
    change Runs (set after >>= fun _ => lift result) context _ _
    rw [runs_set_bind]
    refine runs_lift hwrote.returns (fun value hok => ?_) trivial
    cases hok
    exact hwrote

section Step

variable {before context after : KvmContext} {byte : Nat → Option UInt8}
  {destinationOffset sourceOffset n : Nat} {chunk : List UInt8}

theorem Copied.step (h : Copied before context byte destinationOffset sourceOffset n)
    (hpos : 0 < chunk.length)
    (hchunk : ∀ i < chunk.length, chunk[i]? = byte (sourceOffset + n + i))
    (hwrote : Wrote context (destinationOffset + n) chunk (after, .ok ())) :
    Copied before after byte destinationOffset sourceOffset (n + chunk.length) := by
  have hview : ∀ o, after.view o = written context.view (destinationOffset + n) chunk o :=
    hwrote.view_ok rfl
  -- defined bytes outside the chunk stay
  have hstay : ∀ o b, ¬ (destinationOffset + n ≤ o ∧ o < destinationOffset + n + chunk.length) →
      context.view o = some b → after.view o = some b := by
    intro o b hout hb
    rw [hview, written, if_neg hout, hb]
    exact ite_self _
  refine ⟨⟨fun i hi => ?_, fun o b hout hb => ?_, fun o hout hnone hsome => ?_⟩, hwrote.valid,
    hwrote.length.trans h.length, fun i hi => ?_⟩
  · by_cases hlt : i < n
    · obtain ⟨b, hb⟩ := Option.isSome_iff_exists.mp (h.defined i hlt)
      rw [hb, hstay _ b (by omega) ((h.copied i hlt).trans hb)]
    · rw [hview, written, if_pos (by omega), hchunk _ (by omega)]
      congr 1
      omega
  · exact hstay o b (by omega) (h.kept o b (by omega) hb)
  · rw [hview, written, if_neg (by omega)] at hsome
    by_cases hround : roundDownToPage (destinationOffset + n) ≤ o ∧
        o < nextPage (destinationOffset + n + chunk.length)
    · exact (touchedPage_of_rounded hpos (by omega) hround).mono (by omega) (by omega)
    · rw [if_neg hround] at hsome
      exact (h.fresh o (by omega) hnone hsome).mono (by omega) (by omega)
  · by_cases hlt : i < n
    · exact h.defined i hlt
    · have := hchunk (i - n) (by omega)
      rw [show sourceOffset + n + (i - n) = sourceOffset + i by omega] at this
      rw [← this, List.getElem?_eq_getElem (by omega)]
      rfl

end Step

section Loop

variable {source : ContextRef} (hsource : source.Lawful) {before : KvmContext}
  {sourceOffset destinationOffset size : Nat} (hread : sourceOffset + size ≤ source.size)
  (hwrite : destinationOffset + size ≤ before.storage.length)
include hsource hread hwrite

theorem copyLoop_runs (fuel : Nat) {n : Nat} {context : KvmContext}
    (h : Copied before context source.byte destinationOffset sourceOffset n) (hn : n ≤ size)
    (hfuel : size ≤ n + fuel) :
    Runs (copyLoop source sourceOffset destinationOffset size fuel n) context
      (fun _ after => Copied before after source.byte destinationOffset sourceOffset size)
      (fun _ => True) := by
  induction fuel generalizing n context with
  | zero =>
    obtain rfl : n = size := by omega
    rw [copyLoop, if_neg (Nat.lt_irrefl n)]
    exact h
  | succ fuel ih =>
    rw [copyLoop]
    by_cases hlt : n < size
    · have hsize := hsource.size_le
      have hlimit : source.size < Usize.limit := by
        unfold Usize.isizeMax at hsize
        unfold Usize.limit
        omega
      rw [if_pos hlt]
      refine (runs_lift (Q := fun chunk context' => context' = context ∧
        source.getChunkRef (sourceOffset + n) (size - n) = .ok chunk)
        (hsource.chunk_returns _ _ (by omega)) (fun chunk hchunk => ⟨rfl, hchunk⟩) trivial).bind ?_
      rintro chunk context' ⟨rfl, hchunk⟩
      obtain ⟨hpos, hle, hbytes⟩ := hsource.chunk_bytes _ _ chunk (by omega) hchunk
      rw [if_neg (by omega)]
      refine (writeBytes_runs h.valid (List.ne_nil_of_length_pos hpos) ?_).bind fun _ after hwrote => ?_
      · have := lt_limit h.valid.paged (n := destinationOffset + size) (by rw [h.length]; exact hwrite)
        omega
      · exact ih (h.step hpos hbytes hwrote) (by omega) (by omega)
    · obtain rfl : n = size := by omega
      rw [if_neg hlt]
      exact h

theorem copyChunks_runs (h : Valid before) :
    Runs (copyChunks source sourceOffset destinationOffset size) before
      (fun _ after => Copied before after source.byte destinationOffset sourceOffset size)
      (fun _ => True) :=
  copyLoop_runs hsource hread hwrite size (copied_zero h _ _ _) (Nat.zero_le _) (by omega)

end Loop

end Dandelion.KvmContext
