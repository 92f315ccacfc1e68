import Dandelion.MessageGrammar

/-!
# The readers of a request

What each reader does at a position in the frames: it takes the bytes of its field and
leaves the position behind them, it reports an error, or it stops where the field is
not safe to read.
-/

namespace Dandelion

open Outcome Stateful FrameBuf

/-- The buffer stands before these frames, with `bound` bytes at most. -/
structure Represents (bound : Nat) (buf : FrameBuf) (frames : List (List UInt8)) : Prop where
  unread : buf.unread = frames
  remaining : buf.remaining = frames.flatten.length
  bounded : frames.flatten.length ≤ bound
  offset : ∀ frame, (buf.byteIter.drop buf.currentFrame).head? = some frame →
    buf.currentBufOffset ≤ frame.length

theorem Represents.mono {bound bound' : Nat} {buf : FrameBuf} {frames : List (List UInt8)}
    (h : Represents bound buf frames) (hle : bound ≤ bound') : Represents bound' buf frames :=
  ⟨h.unread, h.remaining, h.bounded.trans hle, h.offset⟩

theorem Represents.tight {bound : Nat} {buf : FrameBuf} {frames : List (List UInt8)}
    (h : Represents bound buf frames) : Represents frames.flatten.length buf frames :=
  ⟨h.unread, h.remaining, Nat.le_refl _, h.offset⟩

theorem represents_start (frames : List (List UInt8)) :
    Represents frames.flatten.length ⟨frames, frames.flatten.length, 0, 0⟩ frames where
  unread := by
    cases frames with
    | nil => rfl
    | cons frame frames => rfl
  remaining := rfl
  bounded := Nat.le_refl _
  offset := fun _ _ => Nat.zero_le _

theorem trimFirst_zero (frames : List (List UInt8)) : trimFirst 0 frames = frames := by
  cases frames with
  | nil => rfl
  | cons frame frames => rfl

/-- The loop of `advance` drops the bytes from the frames. -/
theorem advanceLoop_spec (frames : List (List UInt8)) (toAdvance current offset : Nat)
    (hoffset : ∀ frame, frames.head? = some frame → offset ≤ frame.length)
    (hle : toAdvance ≤ (trimFirst offset frames).flatten.length) :
    ∃ used offset', advanceLoop frames toAdvance current offset = .ok (current + used, offset') ∧
      trimFirst offset' (frames.drop used) = dropBytes (trimFirst offset frames) toAdvance ∧
      ∀ frame, (frames.drop used).head? = some frame → offset' ≤ frame.length := by
  induction frames generalizing toAdvance current offset with
  | nil =>
    obtain rfl := Nat.le_zero.mp hle
    exact ⟨0, offset, rfl, rfl, hoffset⟩
  | cons frame frames ih =>
    have hlen := hoffset frame rfl
    cases toAdvance with
    | zero => exact ⟨0, offset, rfl, by simp, hoffset⟩
    | succ toAdvance =>
      rw [trimFirst, List.flatten_cons, List.length_append, List.length_drop] at hle
      by_cases hinside : offset + (toAdvance + 1) < frame.length
      · refine ⟨0, offset + (toAdvance + 1), ?_, ?_, ?_⟩
        · rw [advanceLoop, if_pos hinside]
          rfl
        · rw [List.drop_zero, trimFirst, trimFirst, dropBytes,
            if_pos (by rw [List.length_drop]; omega), List.drop_drop]
        · intro first hfirst
          cases hfirst
          exact hinside.le
      · obtain ⟨used, offset', hok, htrim, hlast⟩ := ih (toAdvance + 1 - (frame.length - offset))
          (current + 1) 0 (fun _ _ => Nat.zero_le _) (by rw [trimFirst_zero]; omega)
        refine ⟨used + 1, offset', ?_, ?_, hlast⟩
        · rw [advanceLoop, if_neg hinside, Usize.sub_eq_ok hlen]
          change (Usize.sub .checked (toAdvance + 1) (frame.length - offset) >>= _) = _
          rw [Usize.sub_eq_ok (by omega), show current + (used + 1) = current + 1 + used by omega]
          exact hok
        · rw [List.drop_succ_cons, htrim, trimFirst_zero, trimFirst, dropBytes,
            if_neg (by rw [List.length_drop]; omega), List.length_drop]

section Buffer

variable {bound : Nat} {buf : FrameBuf} {frames : List (List UInt8)} (h : Represents bound buf frames)
include h

theorem exec_advance {cnt : Nat} (hle : cnt ≤ frames.flatten.length) :
    ∃ buf', exec (advance cnt) buf = (.ok ⟨⟩, buf') ∧
      Represents (bound - cnt) buf' (dropBytes frames cnt) := by
  have hunread : trimFirst buf.currentBufOffset (buf.byteIter.drop buf.currentFrame) = frames := h.unread
  obtain ⟨used, offset', hok, htrim, hlast⟩ := advanceLoop_spec (buf.byteIter.drop buf.currentFrame)
    cnt buf.currentFrame buf.currentBufOffset h.offset (hunread.symm ▸ hle)
  rw [List.drop_drop] at htrim hlast
  refine ⟨⟨buf.byteIter, buf.remaining - cnt, buf.currentFrame + used, offset'⟩, ?_, ?_⟩
  · rw [advance, exec_get_bind, Usize.sub_eq_ok (by rw [h.remaining]; exact hle), exec_lift_ok_bind, hok,
      exec_lift_ok_bind]
    rfl
  · refine ⟨htrim.trans (by rw [hunread]), ?_, ?_, hlast⟩
    · rw [length_dropBytes, ← h.remaining]
    · have := h.bounded
      rw [length_dropBytes]
      omega

theorem not_answers_advance {cnt : Nat} (hlt : frames.flatten.length < cnt) :
    ¬ Answers (advance cnt) buf := by
  have hsub : (Usize.sub .checked buf.remaining cnt : DandelionResult Nat) = crash :=
    if_neg (by rw [h.remaining]; omega)
  rw [advance, answers_get_bind, hsub]
  exact not_answers_bind not_returns_crash

theorem exec_chunk {frame : List UInt8} {rest : List (List UInt8)} (hframes : frames = frame :: rest) :
    exec chunk buf = (.ok frame, buf) := by
  have hunread := h.unread
  rw [FrameBuf.unread, hframes] at hunread
  cases hdrop : buf.byteIter.drop buf.currentFrame with
  | nil =>
    rw [hdrop] at hunread
    cases hunread
  | cons current others =>
    rw [hdrop, trimFirst] at hunread
    obtain ⟨hcurrent, -⟩ := List.cons.inj hunread
    have hget : buf.byteIter[buf.currentFrame]? = some current := by
      rw [← List.head?_drop, hdrop]
      rfl
    have hoffset := h.offset current (by rw [hdrop]; rfl)
    rw [chunk, exec_get_bind, hget]
    simp only
    rw [if_pos hoffset, hcurrent]
    rfl

theorem exec_chunk_nil (hframes : frames = []) : exec chunk buf = (crash, buf) := by
  have hunread := h.unread
  rw [FrameBuf.unread, hframes] at hunread
  cases hdrop : buf.byteIter.drop buf.currentFrame with
  | cons current others =>
    rw [hdrop, trimFirst] at hunread
    cases hunread
  | nil =>
    have hget : buf.byteIter[buf.currentFrame]? = none := by
      rw [← List.head?_drop, hdrop]
      rfl
    rw [chunk, exec_get_bind, hget]
    rfl

end Buffer

theorem dropBytes_frame (frame : List UInt8) (frames : List (List UInt8)) (hframe : frame ≠ []) :
    dropBytes (frame :: frames) frame.length = frames := by
  obtain ⟨byte, bytes, rfl⟩ := List.exists_cons_of_ne_nil hframe
  rw [List.length_cons, dropBytes, if_neg (by simp), List.length_cons, Nat.sub_self, dropBytes_zero]

/-- A round that finds an empty frame leaves the position as it is, so the copy never ends. -/
theorem not_answers_copy_stuck (fuel left : Nat) (copied : List UInt8) {bound : Nat} {buf : FrameBuf}
    {rest : List (List UInt8)} (h : Represents bound buf ([] :: rest)) :
    ¬ Answers (copyLoop fuel (left + 1) copied) buf := by
  induction fuel generalizing copied buf with
  | zero => exact not_returns_diverge
  | succ fuel ih =>
    obtain ⟨buf', hexec, hrep⟩ := exec_advance h (Nat.zero_le _)
    rw [copyLoop, answers_bind_ok (exec_chunk h rfl)]
    simp only [List.length_nil, Nat.zero_min, List.take_nil, List.append_nil, Nat.sub_zero]
    rw [answers_bind_ok hexec]
    exact ih copied hrep

/-- The copy takes the next bytes if they are readable, and does not end otherwise. -/
theorem copyLoop_spec (fuel left : Nat) (copied : List UInt8) {bound : Nat} {buf : FrameBuf}
    {frames : List (List UInt8)} (h : Represents bound buf frames)
    (hle : left ≤ frames.flatten.length) (hfuel : left ≤ fuel) :
    (BytesReadable frames left ∧ ∃ buf',
      exec (copyLoop fuel left copied) buf = (.ok (copied ++ frames.flatten.take left), buf') ∧
        Represents (bound - left) buf' (dropBytes frames left)) ∨
    (¬ BytesReadable frames left ∧ ¬ Answers (copyLoop fuel left copied) buf) := by
  induction fuel generalizing left copied bound buf frames with
  | zero =>
    obtain rfl := Nat.le_zero.mp hfuel
    refine .inl ⟨by cases frames <;> trivial, buf, ?_, by rwa [dropBytes_zero]⟩
    rw [copyLoop, List.take_zero, List.append_nil]
    rfl
  | succ fuel ih =>
    cases left with
    | zero =>
      refine .inl ⟨by cases frames <;> trivial, buf, ?_, by rwa [dropBytes_zero]⟩
      rw [copyLoop, List.take_zero, List.append_nil]
      rfl
    | succ left =>
      cases frames with
      | nil => exact absurd hle (Nat.not_succ_le_zero _)
      | cons frame frames =>
        by_cases hframe : frame = []
        · subst hframe
          exact .inr ⟨fun hread => hread.1 rfl, not_answers_copy_stuck (fuel + 1) left copied h⟩
        · have hpos := List.length_pos_iff.mpr hframe
          rw [List.flatten_cons, List.length_append] at hle
          rw [copyLoop, Answers, exec_bind_ok (exec_chunk h rfl)]
          by_cases hinside : left + 1 ≤ frame.length
          · -- the chunk has all of them
            obtain ⟨buf', hexec, hrep⟩ := exec_advance h
              (show left + 1 ≤ (frame :: frames).flatten.length by
                rw [List.flatten_cons, List.length_append]
                omega)
            simp only [Nat.min_eq_right hinside, Nat.sub_self]
            refine .inl ⟨⟨hframe, ?_⟩, buf', ?_, hrep⟩
            · rw [Nat.sub_eq_zero_of_le hinside]
              cases frames <;> trivial
            · rw [exec_bind_ok hexec, copyLoop, List.flatten_cons, List.take_append_of_le_length hinside]
              rfl
          · have hlt := Nat.lt_of_not_le hinside
            obtain ⟨buf', hexec, hrep⟩ := exec_advance h
              (show frame.length ≤ (frame :: frames).flatten.length by simp)
            rw [dropBytes_frame frame frames hframe] at hrep
            simp only [Nat.min_eq_left hlt.le, List.take_length]
            rw [exec_bind_ok hexec]
            have htake : (frame :: frames).flatten.take (left + 1) =
                frame ++ frames.flatten.take (left + 1 - frame.length) := by
              rw [List.flatten_cons, List.take_append, List.take_of_length_le hlt.le]
            have hdrop : dropBytes (frame :: frames) (left + 1) =
                dropBytes frames (left + 1 - frame.length) := by
              rw [dropBytes, if_neg (Nat.not_lt.mpr hlt.le)]
            rw [htake, hdrop, ← List.append_assoc, BytesReadable]
            rcases ih (left + 1 - frame.length) (copied ++ frame) hrep (by omega) (by omega) with
              ⟨hread, buf'', hexec', hrep'⟩ | ⟨hread, hstop⟩
            · exact .inl ⟨⟨hframe, hread⟩, buf'', hexec', hrep'.mono (by omega)⟩
            · exact .inr ⟨fun hboth => hread hboth.2, hstop⟩

section Getters

variable {bound : Nat} {buf : FrameBuf} {frames : List (List UInt8)} (h : Represents bound buf frames)
include h

theorem exec_copyToSlice {count : Nat} (hle : count ≤ frames.flatten.length) :
    (BytesReadable frames count ∧ ∃ buf',
      exec (copyToSlice count) buf = (.ok (frames.flatten.take count), buf') ∧
        Represents (bound - count) buf' (dropBytes frames count)) ∨
    (¬ BytesReadable frames count ∧ ¬ Answers (copyToSlice count) buf) := by
  rw [copyToSlice, Answers, exec_get_bind, if_neg (by rw [h.remaining]; omega)]
  exact copyLoop_spec count count [] h hle (Nat.le_refl _)

theorem not_answers_copyToSlice {count : Nat} (hlt : frames.flatten.length < count) :
    ¬ Answers (copyToSlice count) buf := by
  rw [copyToSlice, answers_get_bind, if_pos (by rw [h.remaining]; exact hlt)]
  exact not_returns_crash

theorem exec_getNumber {size : Nat} (hpos : 0 < size) (hle : size ≤ frames.flatten.length) :
    (BytesReadable frames size ∧ ∃ buf',
      exec (getNumber size) buf = (.ok (frames.flatten.take size), buf') ∧
        Represents (bound - size) buf' (dropBytes frames size)) ∨
    (¬ BytesReadable frames size ∧ ¬ Answers (getNumber size) buf) := by
  cases frames with
  | nil => exact absurd hle (Nat.not_le.mpr hpos)
  | cons frame frames =>
    rw [getNumber, Answers, exec_bind_ok (exec_chunk h rfl)]
    by_cases hinside : size ≤ frame.length
    · obtain ⟨buf', hexec, hrep⟩ := exec_advance h hle
      obtain ⟨size, rfl⟩ := Nat.exists_eq_add_one.mpr hpos
      rw [if_pos hinside, exec_bind_ok hexec]
      refine .inl ⟨⟨fun hnil => ?_, ?_⟩, buf', ?_, hrep⟩
      · rw [hnil] at hinside
        exact absurd hinside (Nat.not_succ_le_zero _)
      · rw [Nat.sub_eq_zero_of_le hinside]
        cases frames <;> trivial
      · rw [List.flatten_cons, List.take_append_of_le_length hinside]
        rfl
    · rw [if_neg hinside]
      exact exec_copyToSlice h hle

theorem not_answers_getNumber {size : Nat} (hlt : frames.flatten.length < size) :
    ¬ Answers (getNumber size) buf := by
  rw [getNumber]
  cases frames with
  | nil =>
    refine not_answers_bind ?_
    rw [Answers, exec_chunk_nil h rfl]
    exact not_returns_crash
  | cons frame frames =>
    have hframe : frame.length ≤ (frame :: frames).flatten.length := by simp
    rw [answers_bind_ok (exec_chunk h rfl), if_neg (by omega)]
    exact not_answers_copyToSlice h hlt

theorem exec_checkRemaining {size : Nat} (hle : size ≤ frames.flatten.length) :
    exec (checkRemaining size) buf = (.ok ⟨⟩, buf) := by
  rw [checkRemaining, exec_get_bind, if_neg (by rw [h.remaining]; omega)]
  rfl

theorem exec_checkRemaining_fail {size : Nat} (hlt : frames.flatten.length < size) :
    exec (checkRemaining size) buf = (fail (.requestError .streamEnd), buf) := by
  rw [checkRemaining, exec_get_bind, if_pos (by rw [h.remaining]; exact hlt)]
  rfl

theorem exec_getI8 {first : UInt8} {frame : List UInt8} {rest : List (List UInt8)}
    (hframes : frames = (first :: frame) :: rest) :
    ∃ buf', exec getI8 buf = (.ok first.toInt8, buf') ∧
      Represents (bound - 1) buf' (dropBytes frames 1) := by
  have hle : 1 ≤ frames.flatten.length := by
    rw [hframes]
    simp
  obtain ⟨buf', hexec, hrep⟩ := exec_advance h hle
  refine ⟨buf', ?_, hrep⟩
  rw [getI8, exec_get_bind, if_neg (by rw [h.remaining]; omega), exec_bind_ok (exec_chunk h hframes)]
  change exec (advance 1 >>= _) buf = _
  rw [exec_bind_ok hexec]
  rfl

theorem not_answers_getI8 {rest : List (List UInt8)} (hframes : frames = [] :: rest) :
    ¬ Answers getI8 buf := by
  rw [getI8, answers_get_bind]
  split
  · exact not_returns_crash
  · rw [answers_bind_ok (exec_chunk h hframes)]
    exact not_returns_crash

theorem exec_getByte :
    (byteAt frames = none ∧ Takeable frames 1 ∧
      exec (checkRemaining 1) buf = (fail (.requestError .streamEnd), buf)) ∨
    (∃ b buf', byteAt frames = some b ∧ Takeable frames 1 ∧
      exec (checkRemaining 1) buf = (.ok ⟨⟩, buf) ∧ exec getI8 buf = (.ok b, buf') ∧
      Represents (bound - 1) buf' (dropBytes frames 1)) ∨
    (¬ Takeable frames 1 ∧ exec (checkRemaining 1) buf = (.ok ⟨⟩, buf) ∧ ¬ Answers getI8 buf) := by
  by_cases hempty : frames.flatten = []
  · refine .inl ⟨by rw [byteAt, hempty]; rfl, fun hle => ?_, exec_checkRemaining_fail h ?_⟩
    · rw [hempty] at hle
      exact absurd hle (Nat.not_succ_le_zero 0)
    · rw [hempty]
      exact Nat.one_pos
  · have hle : 1 ≤ frames.flatten.length := List.length_pos_iff.mpr hempty
    have hcheck := exec_checkRemaining h hle
    cases hframes : frames with
    | nil =>
      rw [hframes] at hempty
      exact absurd rfl hempty
    | cons frame rest =>
      cases frame with
      | nil =>
        refine .inr (.inr ⟨fun hread => ?_, hcheck, not_answers_getI8 h hframes⟩)
        exact (hread (hframes ▸ hle)).1 rfl
      | cons first frame =>
        obtain ⟨buf', hexec, hrep⟩ := exec_getI8 h hframes
        rw [hframes] at hrep
        refine .inr (.inl ⟨first.toInt8, buf', rfl, fun _ => ⟨List.cons_ne_nil _ _, ?_⟩, hcheck, hexec,
          hrep⟩)
        rw [List.length_cons, Nat.sub_eq_zero_of_le (Nat.succ_le_succ (Nat.zero_le _))]
        cases rest <;> trivial

theorem exec_readTypeByte :
    (byteAt frames = none ∧ Takeable frames 1 ∧
      exec readTypeByte buf = (fail (.requestError .streamEnd), buf)) ∨
    (∃ b buf', byteAt frames = some b ∧ Takeable frames 1 ∧ exec readTypeByte buf = (.ok b, buf') ∧
      Represents (bound - 1) buf' (dropBytes frames 1)) ∨
    (¬ Takeable frames 1 ∧ ¬ Answers readTypeByte buf) := by
  rcases exec_getByte h with ⟨hnone, hread, hcheck⟩ | ⟨b, buf', hb, hread, hcheck, hexec, hrep⟩ |
    ⟨hread, hcheck, hstop⟩
  · exact .inl ⟨hnone, hread, exec_bind_error hcheck _⟩
  · exact .inr (.inl ⟨b, buf', hb, hread, (exec_bind_ok hcheck _).trans hexec, hrep⟩)
  · refine .inr (.inr ⟨hread, ?_⟩)
    rw [readTypeByte, answers_bind_ok hcheck]
    exact hstop

theorem exec_readLength :
    (∃ n buf', lengthAt frames = some n ∧ 4 ≤ frames.flatten.length ∧ Takeable frames 4 ∧
      exec readLength buf = (.ok n, buf') ∧ Represents (bound - 4) buf' (dropBytes frames 4)) ∨
    (∃ e buf', lengthAt frames = none ∧ Takeable frames 4 ∧ exec readLength buf = (fail e, buf') ∧
      Represents bound buf' (if 4 ≤ frames.flatten.length then dropBytes frames 4 else frames)) ∨
    (¬ Takeable frames 4 ∧ ¬ Answers readLength buf) := by
  by_cases hle : 4 ≤ frames.flatten.length
  · have hcheck := exec_checkRemaining h hle
    rcases exec_getNumber h (by omega) hle with ⟨hread, buf', hexec, hrep⟩ | ⟨hread, hstop⟩
    · have hlength : exec getI32Le buf =
          (.ok (BitVec.ofNat 32 (leWord (frames.flatten.take 4))).toInt, buf') := by
        rw [getI32Le, exec_bind_ok hexec]
        rfl
      rw [readLength, exec_bind_ok hcheck, exec_bind_ok hlength, lengthAt, if_pos hle]
      by_cases hsign : 0 ≤ (BitVec.ofNat 32 (leWord (frames.flatten.take 4))).toInt
      · rw [if_pos hsign, if_pos ⟨hle, hsign⟩]
        exact .inl ⟨_, buf', rfl, hle, fun _ => hread, rfl, hrep⟩
      · rw [if_neg hsign, if_neg (fun hboth => hsign hboth.2)]
        exact .inr (.inl ⟨_, buf', rfl, fun _ => hread, rfl, hrep.mono (Nat.sub_le _ _)⟩)
    · refine .inr (.inr ⟨fun hreadable => hread (hreadable hle), ?_⟩)
      rw [readLength, answers_bind_ok hcheck]
      exact not_answers_bind (not_answers_bind hstop)
  · rw [readLength, exec_bind_error (exec_checkRemaining_fail h (Nat.lt_of_not_le hle)), lengthAt,
      if_neg (fun hboth => hle hboth.1), if_neg hle]
    exact .inr (.inl ⟨_, buf, rfl, fun hle' => absurd hle' hle, rfl, h⟩)

end Getters

section Names

theorem exec_utf8Unwrap {bytes : List UInt8} {piece : String} (h : decodeUtf8 bytes = some piece)
    {buf : FrameBuf} : exec (lift (utf8Unwrap bytes)) buf = (.ok piece, buf) := by
  rw [utf8Unwrap, h]
  rfl

theorem not_answers_utf8Unwrap {bytes : List UInt8} (h : decodeUtf8 bytes = none) {buf : FrameBuf} :
    ¬ Answers (lift (utf8Unwrap bytes)) buf := by
  rw [utf8Unwrap, h]
  exact not_returns_crash

/-- A round that finds an empty frame leaves the position as it is, so the loop never ends. -/
theorem not_answers_stuck (fuel : Nat) (cstring : String) {bound : Nat} {buf : FrameBuf}
    {rest : List (List UInt8)} (h : Represents bound buf ([] :: rest)) (hrest : rest.flatten ≠ []) :
    ¬ Answers (readCstringLoop fuel cstring) buf := by
  have hpos : 0 < buf.remaining := by
    rw [h.remaining, List.flatten_cons, List.nil_append]
    exact List.length_pos_iff.mpr hrest
  induction fuel generalizing cstring buf with
  | zero =>
    rw [readCstringLoop, answers_get_bind, if_pos hpos]
    exact not_returns_diverge
  | succ fuel ih =>
    rw [readCstringLoop, answers_get_bind, if_pos hpos, answers_bind_ok (exec_chunk h rfl)]
    simp only [List.findIdx?_nil, List.length_nil]
    cases hpiece : decodeUtf8 [] with
    | none => exact not_answers_bind (not_answers_utf8Unwrap hpiece)
    | some piece =>
      obtain ⟨buf', hexec, hrep⟩ := exec_advance h (Nat.zero_le _)
      rw [dropBytes_zero] at hrep
      have hpos' : 0 < buf'.remaining := by rwa [hrep.remaining, ← h.remaining]
      rw [answers_bind_ok (exec_utf8Unwrap hpiece), answers_bind_ok hexec]
      exact ih (cstring ++ piece) hrep hpos'

theorem exec_readCstringLoop_end (fuel : Nat) (cstring : String) {bound : Nat} {buf : FrameBuf}
    {frames : List (List UInt8)} (h : Represents bound buf frames) (hempty : frames.flatten = []) :
    NameReadable frames ∧ nameAt frames = some ("", frames) ∧
      exec (readCstringLoop fuel cstring) buf = (.ok (cstring ++ ""), buf) := by
  have hzero : ¬ 0 < buf.remaining := by
    rw [h.remaining, hempty]
    exact Nat.lt_irrefl 0
  refine ⟨?_, ?_, ?_⟩
  · cases frames with
    | nil => trivial
    | cons frame frames => exact .inl hempty
  · cases frames with
    | nil => rfl
    | cons frame frames => exact if_pos hempty
  · rw [String.append_empty]
    cases fuel with
    | zero =>
      rw [readCstringLoop, exec_get_bind, if_neg hzero]
      rfl
    | succ fuel =>
      rw [readCstringLoop, exec_get_bind, if_neg hzero]
      rfl

/-- A name and what the reader does with it: it is read, or the reader does not answer. -/
def NameRead (bound : Nat) (frames : List (List UInt8)) (buf : FrameBuf) (cstring : String)
    (m : FrameM String) : Prop :=
  (NameReadable frames ∧ ∃ name rest buf', nameAt frames = some (name, rest) ∧
    exec m buf = (.ok (cstring ++ name), buf') ∧ Represents bound buf' rest) ∨
  (¬ NameReadable frames ∧ ¬ Answers m buf)

theorem nameRead_last (fuel : Nat) (cstring : String) {bound : Nat} {buf : FrameBuf}
    {frame : List UInt8} {frames : List (List UInt8)} (h : Represents bound buf (frame :: frames))
    (hpos : 0 < buf.remaining) {index : Nat} (hindex : frame.findIdx? (· = 0) = some index) :
    NameRead bound (frame :: frames) buf cstring (readCstringLoop (fuel + 1) cstring) := by
  have hempty : (frame :: frames).flatten ≠ [] := by
    rw [← List.length_pos_iff, ← h.remaining]
    exact hpos
  have hlt : index < frame.length := (List.findIdx?_eq_some_iff_findIdx_eq.mp hindex).1
  have hreadable : NameReadable (frame :: frames) ↔ (decodeUtf8 (frame.take (index + 1))).isSome := by
    simp only [NameReadable, hindex, hempty, false_or]
  rw [NameRead, hreadable, nameAt, if_neg hempty, Answers, readCstringLoop, exec_get_bind,
    if_pos hpos, exec_bind_ok (exec_chunk h rfl)]
  simp only [hindex]
  cases hpiece : decodeUtf8 (frame.take (index + 1)) with
  | none => exact .inr ⟨by simp, not_answers_bind (not_answers_utf8Unwrap hpiece)⟩
  | some piece =>
    obtain ⟨buf', hexec, hrep⟩ := exec_advance h
      (show index + 1 ≤ (frame :: frames).flatten.length by
        rw [List.flatten_cons, List.length_append]
        omega)
    refine .inl ⟨rfl, piece, _, buf', rfl, ?_, hrep.mono (Nat.sub_le _ _)⟩
    rw [exec_bind_ok (exec_utf8Unwrap hpiece), exec_bind_ok hexec]
    rfl

theorem nameRead_readCstringLoop (fuel : Nat) (cstring : String) {bound : Nat} {buf : FrameBuf}
    {frames : List (List UInt8)} (h : Represents bound buf frames)
    (hfuel : frames.flatten.length ≤ fuel) :
    NameRead bound frames buf cstring (readCstringLoop fuel cstring) := by
  induction fuel generalizing cstring buf frames with
  | zero =>
    obtain ⟨hsafe, hname, hexec⟩ := exec_readCstringLoop_end 0 cstring h
      (List.length_eq_zero_iff.mp (Nat.le_zero.mp hfuel))
    exact .inl ⟨hsafe, "", frames, buf, hname, hexec, h⟩
  | succ fuel ih =>
    by_cases hempty : frames.flatten = []
    · obtain ⟨hsafe, hname, hexec⟩ := exec_readCstringLoop_end (fuel + 1) cstring h hempty
      exact .inl ⟨hsafe, "", frames, buf, hname, hexec, h⟩
    · have hpos : 0 < buf.remaining := by
        rw [h.remaining]
        exact List.length_pos_iff.mpr hempty
      cases frames with
      | nil => exact absurd rfl hempty
      | cons frame frames =>
        cases hindex : frame.findIdx? (· = 0) with
        | some index => exact nameRead_last fuel cstring h hpos hindex
        | none =>
          have hreadable : NameReadable (frame :: frames) ↔
              frame ≠ [] ∧ (decodeUtf8 frame).isSome ∧ NameReadable frames := by
            simp only [NameReadable, hindex, hempty, false_or]
          by_cases hframe : frame = []
          · subst hframe
            exact .inr ⟨fun hsafe => (hreadable.mp hsafe).1 rfl,
              not_answers_stuck (fuel + 1) cstring h (by simpa using hempty)⟩
          · rw [NameRead, hreadable, nameAt, if_neg hempty, Answers, readCstringLoop, exec_get_bind,
              if_pos hpos, exec_bind_ok (exec_chunk h rfl)]
            simp only [hindex]
            cases hpiece : decodeUtf8 frame with
            | none =>
              refine .inr ⟨fun hsafe => ?_, not_answers_bind (not_answers_utf8Unwrap hpiece)⟩
              cases hsafe.2.1
            | some piece =>
              have hlen := List.length_pos_iff.mpr hframe
              rw [List.flatten_cons, List.length_append] at hfuel
              obtain ⟨buf', hexec, hrep⟩ := exec_advance h
                (show frame.length ≤ (frame :: frames).flatten.length by simp)
              rw [dropBytes_frame frame frames hframe] at hrep
              rw [exec_bind_ok (exec_utf8Unwrap hpiece), exec_bind_ok hexec]
              rcases ih (cstring ++ piece) (hrep.mono (Nat.sub_le _ _)) (by omega) with
                ⟨hsafe, name, rest, buf'', hname, hexec', hrep'⟩ | ⟨hsafe, hstop⟩
              · refine .inl ⟨⟨hframe, rfl, hsafe⟩, piece ++ name, rest, buf'', ?_, ?_, hrep'⟩
                · rw [hname]
                  rfl
                · rw [← String.append_assoc]
                  exact hexec'
              · exact .inr ⟨fun hall => hsafe hall.2.2, hstop⟩

theorem nameRead_readCstring {bound : Nat} {buf : FrameBuf} {frames : List (List UInt8)}
    (h : Represents bound buf frames) : NameRead bound frames buf "" readCstring := by
  rw [NameRead, readCstring, exec_get_bind, Answers, exec_get_bind, h.remaining]
  exact nameRead_readCstringLoop _ "" h (Nat.le_refl _)

end Names

end Dandelion
