import Dandelion.FrameReaders

/-!
# When a request cannot stop the frontend

The readers follow the grammar field by field. So `from_bytes_vec` answers a request
exactly when every field that is reached is safe to read.
-/

namespace Dandelion

open Outcome Stateful FrameBuf

section Fields

variable (alloc : Allocator) (bound : Nat)

/-- The reader of a field at a position. -/
inductive FieldRead {α : Type} (m : FrameM α) (field : Field) (buf : FrameBuf)
    (frames : List (List UInt8)) : Prop where
  | accepted {a : α} {buf' : FrameBuf} {rest : List (List UInt8)} (hsafe : field.Safe alloc frames)
      (hexec : exec m buf = (.ok a, buf')) (hrep : Represents bound buf' rest)
      (hnext : ∀ todo, field.next todo frames = some (todo, rest))
  | rejected {e : DandelionError} {buf' : FrameBuf} (hsafe : field.Safe alloc frames)
      (hexec : exec m buf = (fail e, buf')) (hnext : ∀ todo, field.next todo frames = none)
  | stopped (hsafe : ¬ field.Safe alloc frames) (hstop : ¬ Answers m buf)

/-- Behind the reader a continuation answers for the fields that are left; so the reader with
its continuation answers for its own fields and those. -/
def Follows {α : Type} (m : FrameM α) (fields : List Field) : Prop :=
  ∀ (β : Type) (k : α → FrameM β) (todo : List Field),
    (∀ a buf frames, Represents bound buf frames →
      (Answers (k a) buf ↔ MessageSafe alloc (todo, frames))) →
    ∀ buf frames, Represents bound buf frames →
      (Answers (m >>= k) buf ↔ MessageSafe alloc (fields ++ todo, frames))

variable {alloc bound} {α β : Type}

theorem follows_pure (a : α) : Follows alloc bound (pure a) [] := by
  intro γ k todo hk buf frames h
  rw [pure_bind]
  exact hk a buf frames h

theorem Follows.bind {m : FrameM α} {f : α → FrameM β} {fields fields' : List Field}
    (hm : Follows alloc bound m fields) (hf : ∀ a, Follows alloc bound (f a) fields') :
    Follows alloc bound (m >>= f) (fields ++ fields') := by
  intro γ k todo hk buf frames h
  rw [bind_assoc, List.append_assoc]
  exact hm γ _ _ (fun a => hf a γ k todo hk) buf frames h

theorem Follows.map {m : FrameM α} {fields : List Field} (hm : Follows alloc bound m fields)
    (f : α → β) : Follows alloc bound (f <$> m) fields := by
  have hpure := hm.bind fun a => follows_pure (f a)
  rw [List.append_nil] at hpure
  rwa [map_eq_pure_bind]

theorem follows_field {m : FrameM α} {field : Field}
    (h : ∀ buf frames, Represents bound buf frames → FieldRead alloc bound m field buf frames) :
    Follows alloc bound m [field] := by
  intro γ k todo hk buf frames hrep
  rw [List.singleton_append]
  cases h buf frames hrep with
  | accepted hsafe hexec hrep' hnext =>
    rw [answers_bind_ok hexec, messageSafe_of_next hsafe (hnext todo)]
    exact hk _ _ _ hrep'
  | rejected hsafe hexec hnext =>
    exact iff_of_true (answers_bind_fail hexec) (messageSafe_of_rejected hsafe (hnext todo))
  | stopped hsafe hstop =>
    exact iff_of_false (not_answers_bind hstop) fun hmsg => hsafe (messageSafe_cons.mp hmsg).1

theorem follows_type (expected : Int8) :
    Follows alloc bound (readAndCheckType expected) [.type expected] := by
  apply follows_field
  intro buf frames h
  rcases exec_readTypeByte h with ⟨hnone, hsafe, hexec⟩ | ⟨b, buf', hb, hsafe, hexec, hrep⟩ |
    ⟨hsafe, hstop⟩
  · refine .rejected hsafe (exec_bind_error hexec _) fun todo => ?_
    rw [Field.next, hnone, if_neg (by simp)]
  · have hcheck : exec (readAndCheckType expected) buf =
        exec (if b ≠ expected then requestFail .malformedMessage else pure ⟨⟩) buf' :=
      exec_bind_ok hexec _
    by_cases heq : b = expected
    · rw [if_neg (not_not.mpr heq)] at hcheck
      refine .accepted hsafe hcheck (hrep.mono (Nat.sub_le _ _)) fun todo => ?_
      rw [Field.next, hb, heq, if_pos rfl]
    · rw [if_pos heq] at hcheck
      refine .rejected hsafe hcheck fun todo => ?_
      rw [Field.next, hb, if_neg (by simpa using heq)]
  · exact .stopped hsafe (not_answers_bind hstop)

theorem exec_readAndCheckTermination {buf : FrameBuf} {frames : List (List UInt8)}
    (h : Represents bound buf frames) :
    (byteAt frames = some 0 ∧ Takeable frames 1 ∧ ∃ buf',
      exec readAndCheckTermination buf = (.ok ⟨⟩, buf') ∧
      Represents (bound - 1) buf' (dropBytes frames 1)) ∨
    (byteAt frames ≠ some 0 ∧ Takeable frames 1 ∧ ∃ e buf',
      exec readAndCheckTermination buf = (fail e, buf')) ∨
    (¬ Takeable frames 1 ∧ ¬ Answers readAndCheckTermination buf) := by
  rcases exec_getByte h with ⟨hnone, hread, hcheck⟩ | ⟨b, buf', hb, hread, hcheck, hexec, hrep⟩ |
    ⟨hread, hcheck, hstop⟩
  · exact .inr (.inl ⟨by simp [hnone], hread, _, buf, exec_bind_error hcheck _⟩)
  · have hend : exec readAndCheckTermination buf =
        exec (if b = 0 then pure ⟨⟩ else requestFail .violatedSpec) buf' := by
      rw [readAndCheckTermination, exec_bind_ok hcheck, exec_bind_ok hexec]
    by_cases hzero : b = 0
    · rw [if_pos hzero] at hend
      exact .inl ⟨by rw [hb, hzero], hread, buf', hend, hrep⟩
    · rw [if_neg hzero] at hend
      exact .inr (.inl ⟨by simpa [hb] using hzero, hread, _, buf', hend⟩)
  · refine .inr (.inr ⟨hread, ?_⟩)
    rw [readAndCheckTermination, answers_bind_ok hcheck]
    exact not_answers_bind hstop

theorem follows_terminator : Follows alloc bound readAndCheckTermination [.terminator] := by
  apply follows_field
  intro buf frames h
  rcases exec_readAndCheckTermination h with ⟨hzero, hsafe, buf', hexec, hrep⟩ |
    ⟨hzero, hsafe, e, buf', hexec⟩ | ⟨hsafe, hstop⟩
  · exact .accepted hsafe hexec (hrep.mono (Nat.sub_le _ _)) fun todo => if_pos hzero
  · exact .rejected hsafe hexec fun todo => if_neg hzero
  · exact .stopped hsafe hstop

theorem follows_anyName : Follows alloc bound readCstring [.anyName] := by
  apply follows_field
  intro buf frames h
  rcases nameRead_readCstring h with ⟨hsafe, name, rest, buf', hname, hexec, hrep⟩ | ⟨hsafe, hstop⟩
  · refine .accepted hsafe hexec hrep fun todo => ?_
    rw [Field.next, hname]
    rfl
  · exact .stopped hsafe hstop

theorem follows_name (expected : String) :
    Follows alloc bound (readAndCheckCstring expected) [.name expected] := by
  apply follows_field
  intro buf frames h
  rcases nameRead_readCstring h with ⟨hsafe, name, rest, buf', hname, hexec, hrep⟩ | ⟨hsafe, hstop⟩
  · rw [String.empty_append] at hexec
    have hcheck : exec (readAndCheckCstring expected) buf =
        exec (if name ≠ expected then requestFail .malformedMessage else pure ⟨⟩) buf' :=
      exec_bind_ok hexec _
    by_cases heq : name = expected
    · rw [if_neg (not_not.mpr heq)] at hcheck
      refine .accepted hsafe hcheck hrep fun todo => ?_
      simp only [Field.next, hname, heq, if_true]
    · rw [if_pos heq] at hcheck
      refine .rejected hsafe hcheck fun todo => ?_
      simp only [Field.next, hname, heq, if_false]
  · exact .stopped hsafe (not_answers_bind hstop)

theorem follows_length : Follows alloc bound readLength [.length] := by
  apply follows_field
  intro buf frames h
  rcases exec_readLength h with ⟨n, buf', hn, -, hsafe, hexec, hrep⟩ | ⟨e, buf', hn, hsafe, hexec, -⟩ |
    ⟨hsafe, hstop⟩
  · refine .accepted hsafe hexec (hrep.mono (Nat.sub_le _ _)) fun todo => ?_
    rw [Field.next, hn]
    rfl
  · refine .rejected hsafe hexec fun todo => ?_
    rw [Field.next, hn]
    rfl
  · exact .stopped hsafe hstop

theorem follows_skippedLength : Follows alloc bound (ignoreError readLength) [.skippedLength] := by
  apply follows_field
  intro buf frames h
  rcases exec_readLength h with ⟨n, buf', -, hle, hsafe, hexec, hrep⟩ |
    ⟨e, buf', -, hsafe, hexec, hrep⟩ | ⟨hsafe, hstop⟩
  · refine .accepted hsafe (exec_ignoreError_ok hexec) (hrep.mono (Nat.sub_le _ _)) fun todo => ?_
    rw [Field.next, if_pos hle]
  · exact .accepted hsafe (exec_ignoreError_fail hexec) hrep fun todo => rfl
  · exact .stopped hsafe (not_answers_ignoreError hstop)

theorem exec_readDocumentLength {buf : FrameBuf} {frames : List (List UInt8)}
    (h : Represents bound buf frames) :
    (lengthAt frames = some frames.flatten.length ∧ Takeable frames 4 ∧ ∃ buf',
      exec readDocumentLength buf = (.ok frames.flatten.length, buf') ∧
      Represents (bound - 4) buf' (dropBytes frames 4)) ∨
    (lengthAt frames ≠ some frames.flatten.length ∧ Takeable frames 4 ∧ ∃ e buf',
      exec readDocumentLength buf = (fail e, buf')) ∨
    (¬ Takeable frames 4 ∧ ¬ Answers readDocumentLength buf) := by
  rcases exec_readLength h with ⟨n, buf', hn, hle, hread, hexec, hrep⟩ |
    ⟨e, buf', hn, hread, hexec, -⟩ | ⟨hread, hstop⟩
  · have hremaining : buf'.remaining + 4 = frames.flatten.length := by
      rw [hrep.remaining, length_dropBytes]
      omega
    have hcheck : exec readDocumentLength buf =
        exec (if frames.flatten.length ≠ n then requestFail .violatedSpec else pure n) buf' := by
      rw [readDocumentLength, exec_bind_ok hexec, exec_get_bind, hremaining]
    by_cases heq : frames.flatten.length = n
    · rw [if_neg (not_not.mpr heq)] at hcheck
      exact .inl ⟨heq ▸ hn, hread, buf', heq ▸ hcheck, hrep⟩
    · rw [if_pos heq] at hcheck
      exact .inr (.inl ⟨by simpa [hn, eq_comm] using heq, hread, _, buf', hcheck⟩)
  · exact .inr (.inl ⟨by simp [hn], hread, e, buf', exec_bind_error hexec _⟩)
  · exact .inr (.inr ⟨hread, not_answers_bind hstop⟩)

theorem follows_key : Follows alloc bound readKey [.key] := by
  apply follows_field
  intro buf frames h
  by_cases hle : 8 ≤ frames.flatten.length
  · rcases exec_getNumber h (by omega) hle with ⟨hread, buf', hexec, hrep⟩ | ⟨hread, hstop⟩
    · have hnumber : exec getI64Le buf =
          (.ok (BitVec.ofNat 64 (leWord (frames.flatten.take 8))).toInt, buf') := by
        rw [getI64Le, exec_bind_ok hexec]
        rfl
      have hkey := exec_bind_ok hnumber fun key =>
        if 0 ≤ key ∧ key < 2 ^ 32 then pure key.toNat else requestFail .malformedMessage
      by_cases hrange : 0 ≤ (BitVec.ofNat 64 (leWord (frames.flatten.take 8))).toInt ∧
          (BitVec.ofNat 64 (leWord (frames.flatten.take 8))).toInt < 2 ^ 32
      · rw [if_pos hrange] at hkey
        refine .accepted ⟨hle, hread⟩ hkey (hrep.mono (Nat.sub_le _ _)) fun todo => ?_
        rw [Field.next, itemKeyAt, if_pos ⟨hle, hrange⟩]
        rfl
      · rw [if_neg hrange] at hkey
        refine .rejected ⟨hle, hread⟩ hkey fun todo => ?_
        rw [Field.next, itemKeyAt, if_neg (fun hall => hrange hall.2)]
        rfl
    · exact .stopped (fun hsafe => hread hsafe.2) (not_answers_bind (not_answers_bind hstop))
  · refine .stopped (fun hsafe => hle hsafe.1) (not_answers_bind (not_answers_bind ?_))
    exact not_answers_getNumber h (Nat.lt_of_not_le hle)

theorem follows_binary {totalLength : Nat} (htotal : bound ≤ totalLength) :
    Follows alloc bound (readBinary totalLength) [.binary] := by
  apply follows_field
  intro buf frames h
  rcases exec_readLength h with ⟨n, buf₁, hn, hle, hread, hexec, hrep⟩ |
    ⟨e, buf₁, hn, hread, hexec, -⟩ | ⟨hread, hstop⟩
  · have hlen : (dropBytes frames 4).flatten.length = frames.flatten.length - 4 := length_dropBytes _ _
    have hsafe_iff : Field.binary.Safe alloc frames ↔ Takeable (dropBytes frames 4) 1 ∧
        (5 ≤ frames.flatten.length → 5 + n ≤ frames.flatten.length) := by
      constructor
      · exact fun hsafe => hsafe.2 n hn
      · refine fun hall => ⟨hread, fun n' hn' => ?_⟩
        rw [hn] at hn'
        cases hn'
        exact hall
    rcases exec_readTypeByte hrep with ⟨hnone, hread₂, hexec₂⟩ | ⟨b, buf₂, hb, hread₂, hexec₂, hrep₂⟩ |
      ⟨hread₂, hstop⟩
    · -- no byte for the subtype
      have hempty : (dropBytes frames 4).flatten = [] := by
        rw [byteAt, Option.map_eq_none_iff, List.head?_eq_none_iff] at hnone
        exact hnone
      rw [hempty, List.length_nil] at hlen
      have hend : exec (readBinary totalLength) buf = (fail (.requestError .streamEnd), buf₁) := by
        rw [readBinary, exec_bind_ok hexec, exec_bind_error hexec₂]
        rfl
      refine .rejected (hsafe_iff.mpr ⟨hread₂, fun hfive => ?_⟩) hend fun todo => ?_
      · omega
      · simp only [Field.next, hn]
        rw [if_neg (by omega)]
    · have hfive : 5 ≤ frames.flatten.length := by
        have hpos : 0 < (dropBytes frames 4).flatten.length := by
          rw [List.length_pos_iff]
          rintro hempty
          rw [byteAt, hempty] at hb
          cases hb
        omega
      have hrest : (dropBytes (dropBytes frames 4) 1).flatten.length = frames.flatten.length - 5 := by
        rw [length_dropBytes, hlen]
        omega
      have hbound := h.bounded
      have hsub : (Usize.sub .checked totalLength buf₂.remaining : DandelionResult Nat) =
          .ok (totalLength - buf₂.remaining) := by
        apply Usize.sub_eq_ok
        rw [hrep₂.remaining, hrest]
        omega
      have hskip : exec (readBinary totalLength) buf = exec (do
          advance n
          pure (⟨totalLength - buf₂.remaining, n⟩ : Position)) buf₂ := by
        rw [readBinary, exec_bind_ok hexec, exec_bind_ok hexec₂, exec_get_bind, hsub, exec_lift_ok_bind]
      by_cases hfits : 5 + n ≤ frames.flatten.length
      · obtain ⟨buf₃, hexec₃, hrep₃⟩ := exec_advance hrep₂ (show n ≤ _ by rw [hrest]; omega)
        rw [exec_bind_ok hexec₃] at hskip
        refine .accepted (hsafe_iff.mpr ⟨hread₂, fun _ => hfits⟩) hskip (hrep₃.mono (by omega))
          fun todo => ?_
        simp only [Field.next, hn]
        rw [if_pos hfive]
      · refine .stopped (fun hsafe => hfits ((hsafe_iff.mp hsafe).2 hfive)) ?_
        rw [Answers, hskip]
        exact not_answers_bind (not_answers_advance hrep₂ (by rw [hrest]; omega))
    · refine .stopped (fun hsafe => hread₂ (hsafe_iff.mp hsafe).1) ?_
      rw [readBinary, answers_bind_ok hexec]
      exact not_answers_bind hstop
  · refine .rejected ⟨hread, fun n hn' => ?_⟩ (exec_bind_error hexec _) fun todo => ?_
    · rw [hn] at hn'
      cases hn'
    · simp only [Field.next, hn]
  · exact .stopped (fun hsafe => hread hsafe.1) (not_answers_bind hstop)

/-- What `read_string` relies on behind the allocation of its buffer. -/
def StringReadable (frames : List (List UInt8)) (n : Nat) : Prop :=
  Takeable frames (n - 1) ∧ (n - 1 ≤ frames.flatten.length → Takeable (dropBytes frames (n - 1)) 1)

theorem exec_readStringBytes {buf : FrameBuf} {frames : List (List UInt8)}
    (h : Represents bound buf frames) (n : Nat) :
    (∃ string rest buf', stringAt frames n = some rest ∧ StringReadable frames n ∧
      exec (readStringBytes (n - 1)) buf = (.ok string, buf') ∧ Represents bound buf' rest) ∨
    (stringAt frames n = none ∧ StringReadable frames n ∧
      ∃ e buf', exec (readStringBytes (n - 1)) buf = (fail e, buf')) ∨
    (¬ StringReadable frames n ∧ ¬ Answers (readStringBytes (n - 1)) buf) := by
  rw [readStringBytes, Answers, exec_get_bind, h.remaining, stringAt]
  by_cases hle : n - 1 ≤ frames.flatten.length
  · rw [if_neg (Nat.not_lt.mpr hle)]
    rcases exec_copyToSlice h hle with ⟨hread, buf₁, hexec, hrep⟩ | ⟨hread, hstop⟩
    · rw [exec_bind_ok hexec]
      rcases exec_readAndCheckTermination hrep with ⟨hzero, hread₂, buf₂, hexec₂, hrep₂⟩ |
          ⟨hzero, hread₂, e, buf₂, hexec₂⟩ | ⟨hread₂, hstop⟩
      · have hreadable : StringReadable frames n := ⟨fun _ => hread, fun _ => hread₂⟩
        rw [exec_bind_ok hexec₂]
        cases hstring : decodeUtf8 (frames.flatten.take (n - 1)) with
        | some string =>
          rw [if_pos ⟨hle, hzero, rfl⟩]
          exact .inl ⟨string, _, buf₂, rfl, hreadable, rfl, hrep₂.mono (by omega)⟩
        | none =>
          rw [if_neg (fun hall => by cases hall.2.2)]
          exact .inr (.inl ⟨rfl, hreadable, _, buf₂, rfl⟩)
      · rw [exec_bind_error hexec₂, if_neg (fun hall => hzero hall.2.1)]
        exact .inr (.inl ⟨rfl, ⟨fun _ => hread, fun _ => hread₂⟩, e, buf₂, rfl⟩)
      · exact .inr (.inr ⟨fun hall => hread₂ (hall.2 hle), not_answers_bind hstop⟩)
    · exact .inr (.inr ⟨fun hall => hread (hall.1 hle), not_answers_bind hstop⟩)
  · rw [if_pos (Nat.lt_of_not_le hle), if_neg (fun hall => hle hall.1)]
    exact .inr (.inl ⟨rfl, ⟨fun h => absurd h hle, fun h => absurd h hle⟩, _, buf, rfl⟩)

theorem follows_string : Follows alloc bound (readString alloc) [.string] := by
  apply follows_field
  intro buf frames h
  rcases exec_readLength h with ⟨n, buf₁, hn, -, hread, hexec, hrep⟩ |
    ⟨e, buf₁, hn, hread, hexec, -⟩ | ⟨hread, hstop⟩
  · have hstring : exec (readString alloc) buf = exec (do
        let stringLength ← lift (Usize.sub .checked n 1)
        lift (vecZeroed alloc stringLength)
        readStringBytes stringLength) buf₁ :=
      exec_bind_ok hexec _
    have hsafe_iff : Field.string.Safe alloc frames ↔
        0 < n ∧ alloc.fits (n - 1) = true ∧ StringReadable (dropBytes frames 4) n := by
      constructor
      · exact fun hsafe => hsafe.2 n hn
      · refine fun hall => ⟨hread, fun n' hn' => ?_⟩
        rw [hn] at hn'
        cases hn'
        exact hall
    by_cases hsafe : 0 < n ∧ alloc.fits (n - 1) = true
    · rw [Usize.sub_eq_ok hsafe.1, exec_lift_ok_bind, vecZeroed, if_pos hsafe.2] at hstring
      have hbytes : exec (readString alloc) buf = exec (readStringBytes (n - 1)) buf₁ :=
        hstring.trans (exec_lift_ok_bind _ _)
      rcases exec_readStringBytes hrep n with ⟨string, rest, buf₂, hrest, hreadable, hexec₂, hrep₂⟩ |
          ⟨hrest, hreadable, e, buf₂, hexec₂⟩ | ⟨hreadable, hstop⟩
      · refine .accepted (hsafe_iff.mpr ⟨hsafe.1, hsafe.2, hreadable⟩) (hbytes.trans hexec₂)
          (hrep₂.mono (Nat.sub_le _ _)) fun todo => ?_
        simp only [Field.next, hn, hrest]
        rfl
      · refine .rejected (hsafe_iff.mpr ⟨hsafe.1, hsafe.2, hreadable⟩) (hbytes.trans hexec₂)
          fun todo => ?_
        simp only [Field.next, hn, hrest]
        rfl
      · refine .stopped (fun hfield => hreadable (hsafe_iff.mp hfield).2.2) ?_
        rw [Answers, hbytes]
        exact hstop
    · refine .stopped (fun hfield => hsafe ⟨(hsafe_iff.mp hfield).1, (hsafe_iff.mp hfield).2.1⟩) ?_
      rw [Answers, hstring]
      by_cases hpos : 0 < n
      · rw [Usize.sub_eq_ok hpos, exec_lift_ok_bind, vecZeroed,
          if_neg (fun hfits => hsafe ⟨hpos, hfits⟩)]
        exact not_answers_bind not_returns_crash
      · have hsub : (Usize.sub .checked n 1 : DandelionResult Nat) = crash := if_neg (by omega)
        rw [hsub]
        exact not_answers_bind not_returns_crash
  · refine .rejected ⟨hread, fun n hn' => ?_⟩ (exec_bind_error hexec _) fun todo => ?_
    · rw [hn] at hn'
      cases hn'
    · simp only [Field.next, hn]
  · exact .stopped (fun hsafe => hread hsafe.1) (not_answers_bind hstop)

theorem follows_stringElem (ident : String) :
    Follows alloc bound (readStringElem alloc ident) (stringElemFields ident) := by
  unfold readStringElem
  exact (follows_type 2).bind fun _ => (follows_name ident).bind fun _ => follows_string

theorem follows_itemFields {totalLength : Nat} (htotal : bound ≤ totalLength) :
    Follows alloc bound (readItemFields alloc totalLength) itemFields := by
  unfold readItemFields
  exact follows_anyName.bind fun _ => follows_length.bind fun _ =>
    (follows_stringElem "identifier\x00").bind fun _ => (follows_type 18).bind fun _ =>
    (follows_name "key\x00").bind fun _ => follows_key.bind fun _ => (follows_type 5).bind fun _ =>
    (follows_name "data\x00").bind fun _ => (follows_binary htotal).bind fun _ =>
    follows_terminator.bind fun _ => follows_pure _

section Elements

variable {m : FrameM α} {fields : List Field} {again : Field} {arrayEnd : Nat}
  (hsafe : ∀ frames, again.Safe alloc frames ↔
    (arrayEnd < frames.flatten.length → Takeable frames 1))
  (hnext : ∀ todo frames, again.next todo frames =
    if arrayEnd < frames.flatten.length then nextElement fields again todo frames
    else some (todo, frames))
include hsafe hnext

theorem answers_element (hm : Follows alloc (bound - 1) m fields) {k : Option α → FrameM β}
    {todo : List Field}
    (hnone : ∀ buf frames, Represents bound buf frames →
      (Answers (k none) buf ↔ MessageSafe alloc (todo, frames)))
    (hsome : ∀ a buf frames, Represents (bound - 1) buf frames →
      (Answers (k (some a)) buf ↔ MessageSafe alloc (again :: todo, frames)))
    {buf : FrameBuf} {frames : List (List UInt8)} (h : Represents bound buf frames)
    (hmore : arrayEnd < frames.flatten.length) :
    Answers (readElement m >>= k) buf ↔ MessageSafe alloc (again :: todo, frames) := by
  have hstep : again.next todo frames = nextElement fields again todo frames := by
    rw [hnext, if_pos hmore]
  rw [readElement, bind_assoc]
  rcases exec_readTypeByte h with ⟨hb, hread, hexec⟩ | ⟨b, buf', hb, hread, hexec, hrep⟩ |
    ⟨hread, hstop⟩
  · have hfield : again.Safe alloc frames := (hsafe frames).mpr fun _ => hread
    refine iff_of_true (answers_bind_fail hexec) (messageSafe_of_rejected hfield ?_)
    rw [hstep, nextElement, hb]
  · have hfield : again.Safe alloc frames := (hsafe frames).mpr fun _ => hread
    rw [answers_bind_ok hexec]
    by_cases hzero : b = 0
    · rw [if_pos hzero, pure_bind, messageSafe_of_next hfield
        (hstep.trans (nextElement_end (hzero ▸ hb)))]
      exact hnone buf' _ (hrep.mono (Nat.sub_le _ _))
    · rw [if_neg hzero]
      by_cases hthree : b = 3
      · rw [if_neg (not_not.mpr hthree), bind_map_left, messageSafe_of_next hfield
          (hstep.trans (nextElement_document (hthree ▸ hb)))]
        exact hm β _ _ hsome buf' _ hrep
      · rw [if_pos hthree]
        refine iff_of_true (answers_bind_fail rfl) (messageSafe_of_rejected hfield ?_)
        rw [hstep, nextElement, hb]
        simp only [hzero, hthree, if_false]
  · exact iff_of_false (not_answers_bind hstop) fun hmsg =>
      hread ((hsafe frames).mp (messageSafe_cons.mp hmsg).1 hmore)

theorem follows_elements {total : Nat} (hm : ∀ b ≤ total, Follows alloc b m fields) (fuel : Nat)
    {bound : Nat} (htotal : bound ≤ total) (hfuel : bound ≤ fuel) (elements : List α) :
    Follows alloc bound (readElements (readElement m) arrayEnd fuel elements) [again] := by
  induction fuel generalizing bound elements with
  | zero =>
    intro β k todo hk buf frames h
    have hmore : ¬ arrayEnd < frames.flatten.length := by
      have := h.bounded
      omega
    have hstep : again.next todo frames = some (todo, frames) := by rw [hnext, if_neg hmore]
    rw [readElements, bind_assoc, answers_get_bind, h.remaining, if_neg hmore, pure_bind,
      List.singleton_append, messageSafe_of_next ((hsafe frames).mpr fun h => absurd h hmore) hstep]
    exact hk elements buf frames h
  | succ fuel ih =>
    intro β k todo hk buf frames h
    rw [readElements, bind_assoc, answers_get_bind, h.remaining, List.singleton_append]
    by_cases hmore : arrayEnd < frames.flatten.length
    · rw [if_pos hmore, bind_assoc]
      refine answers_element hsafe hnext (hm (bound - 1) (by omega)) ?_ ?_ h hmore
      · intro buf frames h
        rw [pure_bind]
        exact hk elements buf frames h
      · intro e buf frames h
        exact ih (by omega) (by omega) (elements ++ [e]) β k todo
          (fun a buf frames h => hk a buf frames (h.mono (Nat.sub_le _ _))) buf frames h
    · have hstep : again.next todo frames = some (todo, frames) := by rw [hnext, if_neg hmore]
      rw [if_neg hmore, pure_bind, messageSafe_of_next ((hsafe frames).mpr fun h => absurd h hmore) hstep]
      exact hk elements buf frames h

end Elements

/-- The array of the items is read up to the end that its length gives. -/
theorem follows_array {total : Nat} (htotal : bound ≤ total) :
    Follows alloc bound (readItemArray alloc total) [.array] := by
  intro β k todo hk buf frames h
  rw [readItemArray, bind_assoc, answers_get_bind, bind_assoc, List.singleton_append]
  rcases exec_readLength h with ⟨n, buf', hn, -, hread, hexec, hrep⟩ | ⟨e, buf', hn, hread, hexec, -⟩ |
    ⟨hread, hstop⟩
  · rw [answers_bind_ok hexec, h.remaining]
    by_cases hle : n ≤ frames.flatten.length
    · have hsafe : Field.array.Safe alloc frames := by
        refine ⟨hread, fun n' hn' => ?_⟩
        rw [hn] at hn'
        cases hn'
        exact hle
      have hstep : Field.array.next todo frames =
          some (.items (frames.flatten.length - n) :: todo, dropBytes frames 4) := by
        rw [Field.next, hn]
        rfl
      rw [messageSafe_of_next hsafe hstep, Usize.sub_eq_ok hle, bind_assoc, answers_lift_ok_bind]
      have hlen : (dropBytes frames 4).flatten.length ≤ frames.flatten.length := by
        rw [length_dropBytes]
        exact Nat.sub_le _ _
      have hbound := h.bounded
      have hitems : Follows alloc (dropBytes frames 4).flatten.length
          (readElements (readDataItem alloc total) (frames.flatten.length - n) frames.flatten.length [])
          [.items (frames.flatten.length - n)] := by
        refine follows_elements (fun _ => ?_) (fun _ _ => ?_) (fun b hb => follows_itemFields hb)
          _ (hlen.trans (hbound.trans htotal)) hlen []
        · rfl
        · rfl
      exact hitems β k todo (fun a buf frames h => hk a buf frames (h.mono (by omega))) buf' _ hrep.tight
    · have hsub : (Usize.sub .checked frames.flatten.length n : DandelionResult Nat) = crash :=
        if_neg hle
      refine iff_of_false ?_ fun hmsg => hle ((messageSafe_cons.mp hmsg).1.2 n hn)
      rw [hsub, bind_assoc]
      exact not_answers_bind not_returns_crash
  · refine iff_of_true (answers_bind_fail hexec) (messageSafe_of_rejected ⟨hread, fun n hn' => ?_⟩ ?_)
    · rw [hn] at hn'
      cases hn'
    · rw [Field.next, hn]
      rfl
  · exact iff_of_false (not_answers_bind hstop) fun hmsg => hread (messageSafe_cons.mp hmsg).1.1

theorem follows_setFields {total : Nat} (htotal : bound ≤ total) :
    Follows alloc bound (readSetFields alloc total) setFields := by
  unfold readSetFields
  exact follows_anyName.bind fun _ => follows_length.bind fun _ =>
    (follows_stringElem "identifier\x00").bind fun _ => (follows_type 4).bind fun _ =>
    (follows_name "items\x00").bind fun _ => (follows_array htotal).bind fun _ =>
    follows_terminator.bind fun _ => follows_pure _

theorem follows_sets {total : Nat} (htotal : bound ≤ total) :
    Follows alloc bound (readDataSets alloc total) [.sets] := by
  intro β k todo hk buf frames h
  rw [readDataSets, bind_assoc, answers_get_bind, h.remaining, bind_assoc]
  have hbound := h.bounded
  have hsets : Follows alloc frames.flatten.length
      (readElements (readDataSet alloc total) 0 frames.flatten.length []) [.sets] := by
    refine follows_elements (fun _ => ?_) (fun _ _ => ?_) (fun b hb => follows_setFields hb)
      _ (hbound.trans htotal) (Nat.le_refl _) []
    · rfl
    · rfl
  refine hsets β _ todo (fun sets buf frames h => ?_) buf frames h.tight
  rw [pure_bind]
  exact hk _ buf frames (h.mono hbound)

theorem follows_messageEnd : Follows alloc bound readMessageEnd [.messageEnd] := by
  apply follows_field
  intro buf frames h
  rcases exec_getByte h with ⟨hnone, hsafe, hcheck⟩ | ⟨b, buf', hb, hsafe, hcheck, hexec, hrep⟩ |
    ⟨hsafe, hcheck, hstop⟩
  · refine .rejected hsafe (exec_bind_error hcheck _) fun todo => ?_
    rw [Field.next, hnone, if_neg (by simp)]
  · have hend : exec readMessageEnd buf =
        exec (if b ≠ 0 ∨ 0 < buf'.remaining then requestFail .violatedSpec else pure ⟨⟩) buf' := by
      rw [readMessageEnd, exec_bind_ok hcheck, exec_bind_ok hexec, exec_get_bind]
    have hpos : 0 < frames.flatten.length := by
      rw [List.length_pos_iff]
      intro hempty
      rw [byteAt, hempty] at hb
      cases hb
    have hremaining : buf'.remaining = frames.flatten.length - 1 := by
      rw [hrep.remaining, length_dropBytes]
    by_cases hlast : b = 0 ∧ frames.flatten.length = 1
    · rw [if_neg (by rw [hremaining]; simp [hlast])] at hend
      refine .accepted hsafe hend (hrep.mono (Nat.sub_le _ _)) fun todo => ?_
      rw [Field.next, hb, hlast.1, if_pos ⟨rfl, hlast.2⟩]
    · have hbad : b ≠ 0 ∨ 0 < buf'.remaining := by
        rw [not_and_or] at hlast
        refine hlast.imp_right fun hne => ?_
        rw [hremaining]
        omega
      rw [if_pos hbad] at hend
      refine .rejected hsafe hend fun todo => ?_
      rw [Field.next, hb, if_neg fun hall => hlast ⟨Option.some.inj hall.1, hall.2⟩]
  · refine .stopped hsafe ?_
    rw [readMessageEnd, answers_bind_ok hcheck]
    exact not_answers_bind hstop

end Fields

section Message

variable (alloc : Allocator)

theorem answers_readMessage {bound : Nat} {buf : FrameBuf} {frames : List (List UInt8)}
    (h : Represents bound buf frames) :
    Answers (readMessage alloc) buf ↔ MessageSafe alloc (messageFields, frames) := by
  have hfields : messageFields = .document :: (stringElemFields "name\x00" ++ ([.type 4] ++
    ([.name "sets\x00"] ++ ([.skippedLength] ++ ([.sets] ++ ([.messageEnd] ++ [])))))) := rfl
  rw [readMessage, hfields]
  rcases exec_readDocumentLength h with ⟨hlength, hread, buf', hexec, hrep⟩ |
    ⟨hlength, hread, e, buf', hexec⟩ | ⟨hread, hstop⟩
  · have hle : (dropBytes frames 4).flatten.length ≤ frames.flatten.length := by
      rw [length_dropBytes]
      exact Nat.sub_le _ _
    have hsafe : Field.document.Safe alloc frames := hread
    rw [answers_bind_ok hexec, messageSafe_of_next hsafe (if_pos hlength)]
    refine follows_stringElem "name\x00" _ _ _ (fun name => ?_) buf' _ hrep.tight
    refine follows_type 4 _ _ _ (fun _ => ?_)
    refine follows_name "sets\x00" _ _ _ (fun _ => ?_)
    refine follows_skippedLength _ _ _ (fun _ => ?_)
    refine follows_sets hle _ _ _ (fun sets => ?_)
    refine follows_messageEnd _ _ _ (fun _ buf frames h => ?_)
    exact iff_of_true (answers_pure _) (messageSafe_nil alloc frames)
  · have hsafe : Field.document.Safe alloc frames := hread
    exact iff_of_true (answers_bind_fail hexec) (messageSafe_of_rejected hsafe (if_neg hlength))
  · exact iff_of_false (not_answers_bind hstop) fun hmsg => hread (messageSafe_cons.mp hmsg).1

theorem lengthAt_lt {frames : List (List UInt8)} {n : Nat} (h : lengthAt frames = some n) :
    n < Usize.limit := by
  simp only [lengthAt] at h
  split at h
  · cases h
    have hlt := BitVec.toInt_lt (x := BitVec.ofNat 32 (leWord (frames.flatten.take 4)))
    unfold Usize.limit
    omega
  · cases h

/-- The length that a message ends with is the one that it starts with. -/
theorem readMessage_length {bound : Nat} {buf buf' : FrameBuf} {frames : List (List UInt8)}
    (h : Represents bound buf frames) {name : String} {length : Nat} {sets : List (Option DataSet)}
    (hexec : exec (readMessage alloc) buf = (.ok (name, length, sets), buf')) :
    length < Usize.limit := by
  rw [readMessage] at hexec
  obtain ⟨n, buf₁, hlength, hexec⟩ := (exec_bind_eq_ok_iff _ _ _ _).mp hexec
  obtain ⟨_, buf₂, -, hexec⟩ := (exec_bind_eq_ok_iff _ _ _ _).mp hexec
  obtain ⟨_, buf₃, -, hexec⟩ := (exec_bind_eq_ok_iff _ _ _ _).mp hexec
  obtain ⟨_, buf₄, -, hexec⟩ := (exec_bind_eq_ok_iff _ _ _ _).mp hexec
  obtain ⟨_, buf₅, -, hexec⟩ := (exec_bind_eq_ok_iff _ _ _ _).mp hexec
  obtain ⟨_, buf₆, -, hexec⟩ := (exec_bind_eq_ok_iff _ _ _ _).mp hexec
  obtain ⟨_, buf₇, -, hexec⟩ := (exec_bind_eq_ok_iff _ _ _ _).mp hexec
  cases hexec
  rcases exec_readDocumentLength h with ⟨hn, -, _, hexec', -⟩ | ⟨-, -, e, _, hexec'⟩ | ⟨-, hstop⟩
  · rw [hlength] at hexec'
    cases hexec'
    exact lengthAt_lt hn
  · rw [hlength] at hexec'
    cases hexec'
  · rw [Answers, hlength] at hstop
    exact absurd (returns_ok _) hstop

theorem returns_iff_answers (frames : List (List UInt8)) :
    Returns (fromBytesVec alloc frames frames.flatten.length) ↔
      Answers (readMessage alloc) ⟨frames, frames.flatten.length, 0, 0⟩ := by
  rw [fromBytesVec, returns_bind]
  refine ⟨fun h => h.1, fun h => ⟨h, fun r hr => ?_⟩⟩
  obtain ⟨name, length, sets⟩ := r
  have hlength := readMessage_length alloc (represents_start frames) (Prod.ext hr rfl)
  obtain ⟨merged, hok, -⟩ := occupySpace_inside hlength (inContext_cleared length)
    (show 0 + length ≤ length by omega)
  rw [returns_bind]
  exact ⟨hok ▸ returns_ok merged, fun _ _ => returns_pure _⟩

/-- A request is answered exactly when every field of it that is reached is safe to read. -/
theorem fromBytesVec_returns_iff (frames : List (List UInt8)) :
    Returns (fromBytesVec alloc frames frames.flatten.length) ↔
      MessageSafe alloc (messageFields, frames) :=
  (returns_iff_answers alloc frames).trans (answers_readMessage alloc (represents_start frames))

/-- The name of the first element is not valid text. -/
theorem fromBytesVec_invalid_name :
    fromBytesVec (fun _ => true) [[7, 0, 0, 0, 2, 255, 0]] 7 = crash ∧
      ¬ Returns (fromBytesVec (fun _ => true) [[7, 0, 0, 0, 2, 255, 0]] 7) := by
  have hcrash : fromBytesVec (fun _ => true) [[7, 0, 0, 0, 2, 255, 0]] 7 = crash := by decide +kernel
  rw [hcrash]
  exact ⟨rfl, not_returns_crash⟩

end Message

end Dandelion
