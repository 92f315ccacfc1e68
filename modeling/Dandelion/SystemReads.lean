import Dandelion.SystemTransfers
import Dandelion.Transitions

/-!
# Where the read of a system context ends

A read goes from one response to the next, each time by the length of the body. The loop over the
chunks of a body is left when the body is used up or when as many bytes were read from it as the
buffer has, which the bytes of earlier items do not count for. So it stands still where the body of
a later item is longer than the rest of the buffer.
-/

namespace Dandelion

open Outcome Stateful Transitions

namespace SystemContext

/-- What the two functions that put items into a system context ensure: a body is stored with its
length, and a range of another context lies inside that context. -/
structure Coherent (context : SystemContext) : Prop where
  body : ∀ {key body size}, context.localOffsetToDataPosition.get? key
    = some (.responseInformationStorage body, size) → size = body.length
  stored : ∀ {key stored storedSize actualOffset size}, context.localOffsetToDataPosition.get? key
    = some (.contextStorage stored storedSize actualOffset, size) →
      (stored.toRef storedSize).Lawful ∧ actualOffset + size ≤ storedSize

theorem coherent_empty (size : Nat) : Coherent ⟨OrderedMap.empty, size⟩ where
  body := fun h => by cases h
  stored := fun h => by cases h

theorem Coherent.writeFromBytes {context after : SystemContext} (h : Coherent context)
    {source : List UInt8} {offset size : Nat}
    (hwrite : systemContextWriteFromBytes context source offset size = .ok after) :
    Coherent after := by
  unfold systemContextWriteFromBytes at hwrite
  by_cases hsize : size = source.length
  · rw [if_neg (not_not.mpr hsize)] at hwrite
    cases hwrite
    constructor
    · intro key body size' hget
      rw [get?_put] at hget
      by_cases hkey : key = offset
      · rw [if_pos hkey] at hget
        cases hget
        exact hsize
      · rw [if_neg hkey] at hget
        exact h.body hget
    · intro key stored storedSize actualOffset size' hget
      rw [get?_put] at hget
      by_cases hkey : key = offset
      · rw [if_pos hkey] at hget
        cases hget
      · rw [if_neg hkey] at hget
        exact h.stored hget
  · rw [if_pos hsize] at hwrite
    cases hwrite

theorem entryUpTo_some {context : SystemContext} {offset key : Nat} {entry : DataPosition × Nat}
    (h : context.entryUpTo offset = some (key, entry)) :
    context.localOffsetToDataPosition.get? key = some entry ∧ key ≤ offset := by
  obtain ⟨hget, hlt, -⟩ := (OrderedMap.lastBefore_eq_some_iff _ _ _ _).mp h
  exact ⟨hget, Nat.le_of_lt_succ hlt⟩

/-! ## The loop over a body -/

theorem exec_readResponse_stall {body buffer : List UInt8} {total bytesRead : Nat} (fuel : Nat)
    (htotal : 0 < total) (hbody : bytesRead < body.length)
    (hfull : bytesRead + total = buffer.length) :
    exec (readResponse body total fuel bytesRead) buffer = (.error .diverge, buffer) := by
  induction fuel with
  | zero =>
    rw [readResponse, exec_get_bind, if_pos ⟨by omega, hbody⟩]
    rfl
  | succ fuel ih =>
    rw [exec_readResponse_round fuel (by omega) hbody hfull.le, hfull, Nat.sub_self, Nat.zero_min,
      List.take_zero, KvmContext.copyInto_nil]
    exact ih

theorem exec_readResponse_longer {body buffer : List UInt8} {total : Nat}
    (hrest : total < buffer.length) (hlonger : buffer.length - total < body.length) :
    exec (readResponse body total body.length 0) buffer =
      (if total = 0 then .ok buffer.length else .error .diverge,
        KvmContext.copyInto buffer total (body.take (buffer.length - total))) := by
  obtain ⟨fuel, hfuel⟩ := Nat.exists_eq_succ_of_ne_zero (show body.length ≠ 0 by omega)
  have hmin : min (buffer.length - (0 + total)) (body.length - 0) = buffer.length - total := by omega
  have hround := exec_readResponse_round fuel (show 0 < buffer.length by omega)
    (show 0 < body.length by omega) (show 0 + total ≤ buffer.length by omega)
  have hcopied : (KvmContext.copyInto buffer total (body.take (buffer.length - total))).length
      = buffer.length := KvmContext.length_copyInto (by rw [List.length_take]; omega)
  rw [hmin, List.drop_zero, Nat.zero_add, Nat.zero_add, ← Nat.succ_eq_add_one, ← hfuel] at hround
  rw [hround]
  by_cases htotal : total = 0
  · rw [if_pos htotal, exec_readResponse_done (by omega), htotal, Nat.sub_zero]
  · rw [if_neg htotal, exec_readResponse_stall fuel (by omega) hlonger (by omega)]

theorem exec_readResponse_first {body buffer : List UInt8} (hbody : body ≠ [])
    (hbuffer : 0 < buffer.length) :
    exec (readResponse body 0 body.length 0) buffer =
      (.ok (min buffer.length body.length), KvmContext.copyInto buffer 0 (body.take buffer.length)) := by
  by_cases hfits : body.length ≤ buffer.length
  · rw [exec_readResponse hbody (by omega), Nat.min_eq_right hfits, List.take_of_length_le hfits]
  · rw [exec_readResponse_longer hbuffer (by omega), if_pos rfl, Nat.min_eq_left (by omega),
      Nat.sub_zero]

/-! ## A round of the loop over the items -/

variable {context : SystemContext} {offset total : Nat} {buffer : List UInt8}

theorem exec_readLoop_done (hdone : buffer.length ≤ total) (fuel : Nat) :
    exec (readLoop context offset fuel total) buffer = (.ok (), buffer) := by
  cases fuel with
  | zero =>
    rw [readLoop, exec_get_bind, if_neg (by omega)]
    rfl
  | succ fuel =>
    rw [readLoop, exec_get_bind, if_neg (by omega)]
    rfl

theorem exec_readLoop_none (fuel : Nat) (hlt : total < buffer.length)
    (hentry : context.entryUpTo (offset + total) = none) :
    exec (readLoop context offset (fuel + 1) total) buffer = (.ok (), buffer) := by
  rw [readLoop, exec_get_bind, if_pos hlt, hentry]
  rfl

section Entry

variable {key size : Nat} {position : DataPosition} (fuel : Nat) (hlt : total < buffer.length)
include hlt

theorem exec_readLoop_overflow
    (hentry : context.entryUpTo (offset + total) = some (key, position, size))
    (hend : Usize.limit ≤ key + size) :
    exec (readLoop context offset (fuel + 1) total) buffer = (.error .panic, buffer) := by
  rw [readLoop, exec_get_bind, if_pos hlt, hentry]
  dsimp only
  rw [Usize.add_eq_crash (by omega)]
  rfl

theorem exec_readLoop_gap
    (hentry : context.entryUpTo (offset + total) = some (key, position, size))
    (hend : key + size < Usize.limit) (hgap : key + size ≤ offset + total) :
    exec (readLoop context offset (fuel + 1) total) buffer = (.ok (), buffer) := by
  rw [readLoop, exec_get_bind, if_pos hlt, hentry]
  dsimp only
  rw [Usize.add_eq_ok hend, exec_lift_ok_bind, if_neg (by omega)]
  rfl

theorem exec_readLoop_stored {stored : DataContext} {storedSize actualOffset : Nat}
    (hentry : context.entryUpTo (offset + total)
      = some (key, .contextStorage stored storedSize actualOffset, size))
    (hend : key + size < Usize.limit) (hinside : offset + total < key + size)
    (hstored : actualOffset + (offset + total - key) < Usize.limit) :
    exec (readLoop context offset (fuel + 1) total) buffer
      = (stored.read (actualOffset + (offset + total - key)) buffer).swap := by
  rw [readLoop, exec_get_bind, if_pos hlt, hentry]
  dsimp only
  rw [Usize.add_eq_ok hend, exec_lift_ok_bind, if_pos hinside, Usize.add_eq_ok hstored,
    exec_lift_ok_bind]
  rfl

theorem exec_readLoop_response {body : List UInt8}
    (hentry : context.entryUpTo (offset + total)
      = some (key, .responseInformationStorage body, size))
    (hend : key + size < Usize.limit) (hinside : offset + total < key + size) :
    exec (readLoop context offset (fuel + 1) total) buffer =
      exec (readResponse body total body.length 0 >>= fun bytesRead =>
        readLoop context offset fuel (total + bytesRead)) buffer := by
  rw [readLoop, exec_get_bind, if_pos hlt, hentry]
  dsimp only
  rw [Usize.add_eq_ok hend, exec_lift_ok_bind, if_pos hinside]

end Entry

/-! ## Whole reads -/

/-- A round that reads a response goes on behind the length of its body. -/
def Next (context : SystemContext) (offset t t' : Nat) : Prop :=
  ∃ key body size, context.entryUpTo (offset + t) = some (key, .responseInformationStorage body, size)
    ∧ offset + t < key + size ∧ t' = t + body.length

/-- The item that is found after `t` bytes ends in the address space, and a response that is not the
first item is not longer than the rest of a buffer of the given length. -/
def Passes (context : SystemContext) (offset length t : Nat) : Prop :=
  ∀ key position size, context.entryUpTo (offset + t) = some (key, position, size) →
    key + size < Usize.limit ∧ ∀ body, position = .responseInformationStorage body →
      offset + t < key + size → t = 0 ∨ t + body.length ≤ length

theorem safeFrom_behind {length t : Nat} (h : length ≤ t) :
    SafeFrom (Next context offset) (fun t => t < length → Passes context offset length t) t := by
  intro u hu hlt
  have hbehind : length ≤ u := by
    refine hu.invariant (I := fun u => length ≤ u) ?_ h
    rintro s s' hs ⟨key, body, size, -, -, rfl⟩
    omega
  omega

theorem safeFrom_last {length t : Nat} (hpasses : Passes context offset length t)
    (hnext : ∀ t', ¬ Next context offset t t') :
    SafeFrom (Next context offset) (fun t => t < length → Passes context offset length t) t :=
  (safeFrom_iff t).mpr ⟨fun _ => hpasses, fun t' ht' => absurd ht' (hnext t')⟩

theorem passes_response {key size : Nat} {body : List UInt8} (length : Nat)
    (hentry : context.entryUpTo (offset + total)
      = some (key, .responseInformationStorage body, size))
    (hend : key + size < Usize.limit) (hinside : offset + total < key + size) :
    Passes context offset length total ↔ total = 0 ∨ total + body.length ≤ length := by
  constructor
  · exact fun hp => (hp _ _ _ hentry).2 body rfl hinside
  · intro hfits key' position' size' hsome
    cases hentry.symm.trans hsome
    refine ⟨hend, fun body' hbody' _ => ?_⟩
    cases hbody'
    exact hfits

theorem next_response {key size : Nat} {body : List UInt8}
    (hentry : context.entryUpTo (offset + total)
      = some (key, .responseInformationStorage body, size))
    (hinside : offset + total < key + size) (t' : Nat) :
    Next context offset total t' ↔ t' = total + body.length := by
  constructor
  · rintro ⟨key', body', size', hsome, -, rfl⟩
    cases hentry.symm.trans hsome
    rfl
  · exact fun ht' => ⟨key, body, size, hentry, hinside, ht'⟩

-- A round that reads no response is the last one; the others go by `Next`, so the induction on the
-- rounds follows the unfolding of `SafeFrom`.
theorem readLoop_returns_iff (h : Coherent context) {length : Nat} (hlength : buffer.length = length)
    (hbuffer : length ≤ Usize.isizeMax) (fuel : Nat) (hfuel : length ≤ total + fuel) :
    Returns (exec (readLoop context offset fuel total) buffer).1 ↔
      SafeFrom (Next context offset) (fun t => t < length → Passes context offset length t) total := by
  induction fuel generalizing total buffer with
  | zero =>
    rw [exec_readLoop_done (by omega)]
    exact iff_of_true (returns_ok ()) (safeFrom_behind (by omega))
  | succ fuel ih =>
    by_cases hlt : total < length
    swap
    · rw [exec_readLoop_done (by omega)]
      exact iff_of_true (returns_ok ()) (safeFrom_behind (by omega))
    cases hentry : context.entryUpTo (offset + total) with
    | none =>
      rw [exec_readLoop_none fuel (by omega) hentry]
      refine iff_of_true (returns_ok ()) (safeFrom_last ?_ ?_)
      · intro key position size hsome
        cases hentry.symm.trans hsome
      · rintro t' ⟨key, body, size, hsome, -⟩
        cases hentry.symm.trans hsome
    | some entry =>
      obtain ⟨key, position, size⟩ := entry
      obtain ⟨hget, hkey⟩ := entryUpTo_some hentry
      by_cases hend : key + size < Usize.limit
      swap
      · rw [exec_readLoop_overflow fuel (by omega) hentry (by omega)]
        refine iff_of_false not_returns_crash fun hsafe => hend ?_
        exact ((safeFrom_iff _).mp hsafe).1 hlt key position size hentry |>.1
      by_cases hinside : offset + total < key + size
      swap
      · rw [exec_readLoop_gap fuel (by omega) hentry hend (by omega)]
        refine iff_of_true (returns_ok ()) (safeFrom_last ?_ ?_)
        · intro key' position' size' hsome
          cases hentry.symm.trans hsome
          exact ⟨hend, fun _ _ hin => absurd hin hinside⟩
        · rintro t' ⟨key', body, size', hsome, hin, -⟩
          cases hentry.symm.trans hsome
          exact hinside hin
      cases position with
      | contextStorage stored storedSize actualOffset =>
        obtain ⟨hlawful, hrange⟩ := h.stored hget
        have hsize : storedSize ≤ Usize.isizeMax := hlawful.size_le
        have hlimit : Usize.isizeMax + Usize.isizeMax < Usize.limit := by decide
        rw [exec_readLoop_stored fuel (by omega) hentry hend hinside (by omega)]
        refine iff_of_true (hlawful.read_returns _ _ (by omega)) (safeFrom_last ?_ ?_)
        · intro key' position' size' hsome
          cases hentry.symm.trans hsome
          exact ⟨hend, fun _ hbody => by cases hbody⟩
        · rintro t' ⟨key', body, size', hsome, -⟩
          cases hentry.symm.trans hsome
      | responseInformationStorage body =>
        have hbody := h.body hget
        have hpasses := passes_response length hentry hend hinside
        have hnext := next_response hentry hinside
        rw [exec_readLoop_response fuel (by omega) hentry hend hinside, safeFrom_iff]
        by_cases hfits : total + body.length ≤ length
        · have hne : body ≠ [] := List.ne_nil_of_length_pos (by omega)
          rw [exec_bind_ok (exec_readResponse hne (by omega)),
            ih ((KvmContext.length_copyInto (by omega)).trans hlength) (by omega)]
          constructor
          · intro hsafe
            refine ⟨fun _ => hpasses.mpr (.inr hfits), fun t' ht' => ?_⟩
            rw [(hnext t').mp ht']
            exact hsafe
          · exact fun hsafe => hsafe.2 _ ((hnext _).mpr rfl)
        · have hlonger := exec_readResponse_longer (show total < buffer.length by omega)
            (show buffer.length - total < body.length by omega)
          by_cases htotal : total = 0
          · rw [if_pos htotal] at hlonger
            rw [exec_bind_ok hlonger, exec_readLoop_done]
            · refine iff_of_true (returns_ok ()) ⟨fun _ => hpasses.mpr (.inl htotal), fun t' ht' => ?_⟩
              rw [(hnext t').mp ht']
              exact safeFrom_behind (by omega)
            · rw [KvmContext.length_copyInto (by rw [List.length_take]; omega)]
              omega
          · rw [if_neg htotal] at hlonger
            rw [exec_bind_error hlonger]
            refine iff_of_false not_returns_diverge fun hsafe => ?_
            rcases hpasses.mp (hsafe.1 hlt) with hzero | hle
            · exact htotal hzero
            · exact hfits hle

/-- A read inside the context ends exactly if none of the items it comes to, from one response to
the next, ends behind the address space, and no response after the first item is longer than what
is left of the buffer. -/
theorem read_ends_iff (h : Coherent context) (hinside : offset + buffer.length ≤ context.size)
    (hsize : context.size < Usize.limit) (hbuffer : buffer.length ≤ Usize.isizeMax) :
    Returns (context.read offset buffer).2 ↔
      ∀ t, Reaches (Next context offset) 0 t → t < buffer.length →
        Passes context offset buffer.length t := by
  rw [SystemContext.read, Usize.add_eq_ok (by omega)]
  dsimp only
  rw [if_neg (by omega)]
  exact readLoop_returns_iff h rfl hbuffer buffer.length (by omega)

/-- Two responses, the second one longer than the first. -/
def twoBodies : SystemContext :=
  ((⟨OrderedMap.empty, 5⟩ : SystemContext).put 0 (.responseInformationStorage [1, 2]) 2).put 2
    (.responseInformationStorage [3, 4, 5]) 3

theorem coherent_twoBodies : Coherent twoBodies := by
  have hfirst : systemContextWriteFromBytes ⟨OrderedMap.empty, 5⟩ [1, 2] 0 2
      = .ok ((⟨OrderedMap.empty, 5⟩ : SystemContext).put 0 (.responseInformationStorage [1, 2]) 2) :=
    rfl
  have hsecond : systemContextWriteFromBytes ((⟨OrderedMap.empty, 5⟩ : SystemContext).put 0
      (.responseInformationStorage [1, 2]) 2) [3, 4, 5] 2 3 = .ok twoBodies := rfl
  exact ((coherent_empty 5).writeFromBytes hfirst).writeFromBytes hsecond

theorem twoBodies_ends : Returns (twoBodies.read 0 [0, 0, 0, 0, 0]).2 := by
  refine (read_ends_iff coherent_twoBodies (le_refl 5) (by decide) (by decide)).mpr ?_
  have hstage : ∀ t, Reaches (Next twoBodies 0) 0 t → t = 0 ∨ t = 2 ∨ 5 ≤ t := by
    intro t ht
    refine ht.invariant (I := fun t => t = 0 ∨ t = 2 ∨ 5 ≤ t) ?_ (.inl rfl)
    rintro s s' hs ⟨key, body, size, hentry, -, rfl⟩
    rcases hs with rfl | rfl | hs
    · cases hentry
      exact .inr (.inl rfl)
    · cases hentry
      exact .inr (.inr (le_refl 5))
    · exact .inr (.inr (by omega))
  intro t ht hlt key position size hentry
  rcases hstage t ht with rfl | rfl | hle
  · cases hentry
    exact ⟨by decide, fun _ _ _ => .inl rfl⟩
  · cases hentry
    refine ⟨by decide, fun body hbody _ => .inr ?_⟩
    cases hbody
    exact le_refl 5
  · exact absurd hlt (by simpa using hle)

/-- A buffer of three bytes takes the first response and a byte of the second. -/
theorem twoBodies_stalls : Coherent twoBodies ∧ 0 + [0, 0, 0].length ≤ twoBodies.size
    ∧ ¬ Returns (twoBodies.read 0 [0, 0, 0]).2 := by
  refine ⟨coherent_twoBodies, by decide, ?_⟩
  have hread : (twoBodies.read 0 [0, 0, 0]).2 = .error .diverge := rfl
  rw [hread]
  exact not_returns_diverge

end SystemContext

end Dandelion
