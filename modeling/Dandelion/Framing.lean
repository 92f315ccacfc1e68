import Dandelion.Bson
import Dandelion.RequestSafety

/-!
# Requests do not depend on their framing

Two runs of a reader, over the same bytes in different frames, end alike if both of them end:
with the same value or the same error, and at the same bytes. Together with what a request has to
meet for its readers to answer, this says exactly which framings of a request are decoded alike.
-/

namespace Dandelion

open Bson Outcome Stateful FrameBuf

section Text

theorem decodeUtf8_eq_some_iff {bytes : List UInt8} {s : String} :
    decodeUtf8 bytes = some s ↔ utf8Bytes s = bytes := fromUTF8?_eq_some_iff

/-- How many bytes a name takes: up to its null, or all that are left. -/
def nameLength (bytes : List UInt8) : Nat :=
  match bytes.findIdx? (· = 0) with
  | some index => index + 1
  | none => bytes.length

theorem nameLength_append_of_some {bytes rest : List UInt8} {index : Nat}
    (h : bytes.findIdx? (· = 0) = some index) : nameLength (bytes ++ rest) = index + 1 := by
  rw [nameLength, List.findIdx?_append, h]
  rfl

theorem nameLength_append_of_none {bytes rest : List UInt8} (h : bytes.findIdx? (· = 0) = none) :
    nameLength (bytes ++ rest) = bytes.length + nameLength rest := by
  rw [nameLength, List.findIdx?_append, h, nameLength]
  cases rest.findIdx? (· = 0) with
  | none => exact List.length_append
  | some index => exact (Nat.add_right_comm _ _ _).trans (Nat.add_comm _ _)

/-- A name that is read is the text of its bytes, whatever the frames. -/
theorem nameAt_bytes {frames : List (List UInt8)} {name : String} {rest : List (List UInt8)}
    (h : nameAt frames = some (name, rest)) :
    utf8Bytes name = frames.flatten.take (nameLength frames.flatten) ∧
      rest.flatten = frames.flatten.drop (nameLength frames.flatten) := by
  induction frames generalizing name rest with
  | nil =>
    cases h
    exact ⟨rfl, rfl⟩
  | cons frame frames ih =>
    rw [nameAt] at h
    split at h
    · next hempty =>
      cases h
      rw [hempty]
      exact ⟨rfl, rfl⟩
    · cases hindex : frame.findIdx? (· = 0) with
      | some index =>
        simp only [hindex] at h
        obtain ⟨piece, hpiece, heq⟩ := Option.map_eq_some_iff.mp h
        cases heq
        have hlt := (List.findIdx?_eq_some_iff_findIdx_eq.mp hindex).1
        rw [flatten_dropBytes, List.flatten_cons, nameLength_append_of_some hindex,
          List.take_append_of_le_length hlt]
        exact ⟨decodeUtf8_eq_some_iff.mp hpiece, rfl⟩
      | none =>
        simp only [hindex] at h
        obtain ⟨piece, hpiece, h⟩ := Option.bind_eq_some_iff.mp h
        obtain ⟨⟨name', rest'⟩, hname, h⟩ := Option.bind_eq_some_iff.mp h
        cases h
        obtain ⟨hbytes, hrest⟩ := ih hname
        rw [List.flatten_cons, nameLength_append_of_none hindex, List.take_length_add_append,
          List.drop_length_add_append, utf8Bytes_append, decodeUtf8_eq_some_iff.mp hpiece, hbytes]
        exact ⟨rfl, hrest⟩

end Text

section Ends

variable {α β : Type}

/-- The buffer stands before these bytes. -/
def AtBytes (buf : FrameBuf) (bytes : List UInt8) : Prop :=
  ∃ frames, Represents bytes.length buf frames ∧ frames.flatten = bytes

theorem AtBytes.remaining {buf : FrameBuf} {bytes : List UInt8} (h : AtBytes buf bytes) :
    buf.remaining = bytes.length := by
  obtain ⟨frames, hrep, rfl⟩ := h
  exact hrep.remaining

theorem atBytes_of_represents {bound : Nat} {buf : FrameBuf} {frames : List (List UInt8)}
    {bytes : List UInt8} (h : Represents bound buf frames) (hbytes : frames.flatten = bytes) :
    AtBytes buf bytes := by
  subst hbytes
  exact ⟨frames, h.tight, rfl⟩

/-- Two runs end alike: with the same value or error, before the same bytes. -/
inductive SameEnd : DandelionResult α × FrameBuf → DandelionResult α × FrameBuf → Prop
  | ok {buf buf' : FrameBuf} {bytes : List UInt8} (a : α) (h : AtBytes buf bytes)
      (h' : AtBytes buf' bytes) : SameEnd (.ok a, buf) (.ok a, buf')
  | fail {buf buf' : FrameBuf} {bytes : List UInt8} (e : DandelionError) (h : AtBytes buf bytes)
      (h' : AtBytes buf' bytes) : SameEnd (fail e, buf) (fail e, buf')

/-- Before these bytes two runs end alike, if both of them end. -/
def UnframedAt (bytes : List UInt8) (m : FrameM α) : Prop :=
  ∀ buf buf', AtBytes buf bytes → AtBytes buf' bytes → Answers m buf → Answers m buf' →
    SameEnd (exec m buf) (exec m buf')

/-- The computation does not depend on the frames. -/
def Unframed (m : FrameM α) : Prop := ∀ bytes, UnframedAt bytes m

theorem unframed_lift (x : DandelionResult α) : Unframed (lift x : FrameM α) := by
  intro bytes buf buf' h h' hanswers _
  cases x with
  | ok a => exact .ok a h h'
  | error stop =>
    obtain ⟨e, rfl⟩ := hanswers stop rfl
    exact .fail e h h'

theorem unframed_pure (a : α) : Unframed (pure a : FrameM α) := unframed_lift (.ok a)

theorem unframed_requestFail (e : FrontendError) : Unframed (requestFail e : FrameM α) :=
  unframed_lift (fail (.requestError e))

theorem UnframedAt.bind {bytes : List UInt8} {m : FrameM α} {f : α → FrameM β}
    (hm : UnframedAt bytes m) (hf : ∀ a, Unframed (f a)) : UnframedAt bytes (m >>= f) := by
  intro buf buf' h h' hanswers hanswers'
  have hfirst : Answers m buf := by_contra fun hstop => not_answers_bind hstop hanswers
  have hfirst' : Answers m buf' := by_contra fun hstop => not_answers_bind hstop hanswers'
  have hsame := hm buf buf' h h' hfirst hfirst'
  cases hexec : exec m buf with
  | mk outcome next =>
    cases hexec' : exec m buf' with
    | mk outcome' next' =>
      rw [hexec, hexec'] at hsame
      cases hsame with
      | ok a hnext hnext' =>
        rw [answers_bind_ok hexec] at hanswers
        rw [answers_bind_ok hexec'] at hanswers'
        rw [exec_bind_ok hexec, exec_bind_ok hexec']
        exact hf a _ next next' hnext hnext' hanswers hanswers'
      | fail e hnext hnext' =>
        rw [exec_bind_error hexec, exec_bind_error hexec']
        exact .fail e hnext hnext'

theorem Unframed.bind {m : FrameM α} {f : α → FrameM β} (hm : Unframed m)
    (hf : ∀ a, Unframed (f a)) : Unframed (m >>= f) := fun bytes => (hm bytes).bind hf

theorem Unframed.map {m : FrameM α} (hm : Unframed m) (f : α → β) : Unframed (f <$> m) := by
  rw [map_eq_pure_bind]
  exact hm.bind fun a => unframed_pure (f a)

theorem Unframed.ite {p : Prop} [Decidable p] {m m' : FrameM α} (h : Unframed m)
    (h' : Unframed m') : Unframed (if p then m else m') := by
  split
  · exact h
  · exact h'

theorem unframed_get {f : FrameBuf → FrameM β} (g : Nat → FrameM β)
    (hf : ∀ buf, f buf = g buf.remaining) (hg : ∀ remaining, Unframed (g remaining)) :
    Unframed (get >>= f) := by
  intro bytes buf buf' h h' hanswers hanswers'
  rw [answers_get_bind, hf, h.remaining] at hanswers
  rw [answers_get_bind, hf, h'.remaining] at hanswers'
  rw [exec_get_bind, exec_get_bind, hf, hf, h.remaining, h'.remaining]
  exact hg bytes.length bytes buf buf' h h' hanswers hanswers'

theorem unframed_branch (p : Nat → Prop) [DecidablePred p] {m m' : FrameM β} (hm : Unframed m)
    (hm' : Unframed m') : Unframed (get >>= fun buf => if p buf.remaining then m else m') :=
  unframed_get (fun remaining => if p remaining then m else m') (fun _ => rfl) fun _ => hm.ite hm'

theorem Unframed.ignoreError {m : FrameM α} (hm : Unframed m) : Unframed (ignoreError m) := by
  intro bytes buf buf' h h' hanswers hanswers'
  have hfirst : Answers m buf := by_contra fun hstop => not_answers_ignoreError hstop hanswers
  have hfirst' : Answers m buf' := by_contra fun hstop => not_answers_ignoreError hstop hanswers'
  have hsame := hm bytes buf buf' h h' hfirst hfirst'
  cases hexec : exec m buf with
  | mk outcome next =>
    cases hexec' : exec m buf' with
    | mk outcome' next' =>
      rw [hexec, hexec'] at hsame
      cases hsame with
      | ok a hnext hnext' =>
        rw [exec_ignoreError_ok hexec, exec_ignoreError_ok hexec']
        exact .ok _ hnext hnext'
      | fail e hnext hnext' =>
        rw [exec_ignoreError_fail hexec, exec_ignoreError_fail hexec']
        exact .ok _ hnext hnext'

end Ends

section Readers

theorem unframed_advance (cnt : Nat) : Unframed (advance cnt) := by
  rintro bytes buf buf' ⟨frames, hrep, rfl⟩ ⟨frames', hrep', hbytes⟩ hanswers _
  by_cases hle : cnt ≤ frames.flatten.length
  · obtain ⟨next, hexec, hnext⟩ := exec_advance hrep hle
    obtain ⟨next', hexec', hnext'⟩ := exec_advance hrep' (hbytes.symm ▸ hle)
    rw [hexec, hexec']
    refine .ok _ (atBytes_of_represents hnext rfl) (atBytes_of_represents hnext' ?_)
    rw [flatten_dropBytes, flatten_dropBytes, hbytes]
  · exact absurd hanswers (not_answers_advance hrep (Nat.lt_of_not_le hle))

theorem unframed_copyToSlice (count : Nat) : Unframed (copyToSlice count) := by
  rintro bytes buf buf' ⟨frames, hrep, rfl⟩ ⟨frames', hrep', hbytes⟩ hanswers hanswers'
  by_cases hle : count ≤ frames.flatten.length
  · rcases exec_copyToSlice hrep hle with ⟨-, next, hexec, hnext⟩ | ⟨-, hstop⟩
    · rcases exec_copyToSlice hrep' (hbytes.symm ▸ hle) with ⟨-, next', hexec', hnext'⟩ | ⟨-, hstop⟩
      · rw [hexec, hexec', hbytes]
        refine .ok _ (atBytes_of_represents hnext rfl) (atBytes_of_represents hnext' ?_)
        rw [flatten_dropBytes, flatten_dropBytes, hbytes]
      · exact absurd hanswers' hstop
    · exact absurd hanswers hstop
  · exact absurd hanswers (not_answers_copyToSlice hrep (Nat.lt_of_not_le hle))

theorem unframed_getNumber {size : Nat} (hpos : 0 < size) : Unframed (getNumber size) := by
  rintro bytes buf buf' ⟨frames, hrep, rfl⟩ ⟨frames', hrep', hbytes⟩ hanswers hanswers'
  by_cases hle : size ≤ frames.flatten.length
  · rcases exec_getNumber hrep hpos hle with ⟨-, next, hexec, hnext⟩ | ⟨-, hstop⟩
    · rcases exec_getNumber hrep' hpos (hbytes.symm ▸ hle) with ⟨-, next', hexec', hnext'⟩ | ⟨-, hstop⟩
      · rw [hexec, hexec', hbytes]
        refine .ok _ (atBytes_of_represents hnext rfl) (atBytes_of_represents hnext' ?_)
        rw [flatten_dropBytes, flatten_dropBytes, hbytes]
      · exact absurd hanswers' hstop
    · exact absurd hanswers hstop
  · exact absurd hanswers (not_answers_getNumber hrep (Nat.lt_of_not_le hle))

theorem unframed_checkRemaining (size : Nat) : Unframed (checkRemaining size) :=
  unframed_branch (· < size) (unframed_requestFail _) (unframed_pure _)

theorem unframed_getByte : Unframed (checkRemaining 1 >>= fun _ => getI8) := by
  rintro bytes buf buf' ⟨frames, hrep, rfl⟩ ⟨frames', hrep', hbytes⟩ hanswers hanswers'
  rcases exec_getByte hrep with ⟨hnone, -, hcheck⟩ | ⟨b, next, hb, -, hcheck, hexec, hnext⟩ |
    ⟨-, hcheck, hstop⟩
  · rcases exec_getByte hrep' with ⟨-, -, hcheck'⟩ | ⟨b', next', hb', -⟩ | ⟨-, hcheck', hstop'⟩
    · rw [exec_bind_error hcheck, exec_bind_error hcheck']
      exact .fail _ ⟨frames, hrep, rfl⟩ ⟨frames', hrep', hbytes⟩
    · rw [byteAt, hbytes, ← byteAt, hnone] at hb'
      cases hb'
    · rw [answers_bind_ok hcheck'] at hanswers'
      exact absurd hanswers' hstop'
  · rcases exec_getByte hrep' with ⟨hnone', -⟩ | ⟨b', next', hb', -, hcheck', hexec', hnext'⟩ |
      ⟨-, hcheck', hstop'⟩
    · rw [byteAt, hbytes, ← byteAt, hb] at hnone'
      cases hnone'
    · rw [byteAt, hbytes, ← byteAt, hb] at hb'
      cases hb'
      rw [exec_bind_ok hcheck, exec_bind_ok hcheck', hexec, hexec']
      refine .ok _ (atBytes_of_represents hnext rfl) (atBytes_of_represents hnext' ?_)
      rw [flatten_dropBytes, flatten_dropBytes, hbytes]
    · rw [answers_bind_ok hcheck'] at hanswers'
      exact absurd hanswers' hstop'
  · rw [answers_bind_ok hcheck] at hanswers
    exact absurd hanswers hstop

theorem unframed_readCstring : Unframed readCstring := by
  rintro bytes buf buf' ⟨frames, hrep, rfl⟩ ⟨frames', hrep', hbytes⟩ hanswers hanswers'
  rcases nameRead_readCstring hrep with ⟨-, name, rest, next, hname, hexec, hnext⟩ | ⟨-, hstop⟩
  · rcases nameRead_readCstring hrep' with ⟨-, name', rest', next', hname', hexec', hnext'⟩ | ⟨-, hstop⟩
    · obtain ⟨htext, hrest⟩ := nameAt_bytes hname
      obtain ⟨htext', hrest'⟩ := nameAt_bytes hname'
      have heq : name = name' := utf8Bytes_inj (by rw [htext, htext', hbytes])
      rw [hexec, hexec', heq]
      refine .ok _ (atBytes_of_represents hnext hrest) (atBytes_of_represents hnext' ?_)
      rw [hrest', hbytes]
    · exact absurd hanswers' hstop
  · exact absurd hanswers hstop

theorem unframed_readTypeByte : Unframed readTypeByte := unframed_getByte

theorem unframed_readAndCheckType (expected : Int8) : Unframed (readAndCheckType expected) :=
  unframed_readTypeByte.bind fun _ => (unframed_requestFail _).ite (unframed_pure _)

theorem unframed_readAndCheckTermination : Unframed readAndCheckTermination := by
  have hread := unframed_getByte.bind fun byte =>
    (unframed_pure (⟨⟩ : PUnit)).ite (p := byte = 0) (unframed_requestFail .violatedSpec)
  rw [bind_assoc] at hread
  exact hread

theorem unframed_readLength : Unframed readLength :=
  (unframed_checkRemaining 4).bind fun _ =>
    ((unframed_getNumber (by omega)).bind fun _ => unframed_pure _).bind fun _ =>
      (unframed_pure _).ite (unframed_requestFail _)

theorem unframed_readAndCheckCstring (expected : String) : Unframed (readAndCheckCstring expected) :=
  unframed_readCstring.bind fun _ => (unframed_requestFail _).ite (unframed_pure _)

theorem unframed_readStringBytes (length : Nat) : Unframed (readStringBytes length) := by
  refine unframed_branch (· < length) (unframed_requestFail _) ?_
  refine (unframed_copyToSlice length).bind fun byteBuffer => ?_
  refine unframed_readAndCheckTermination.bind fun _ => ?_
  cases decodeUtf8 byteBuffer with
  | some string => exact unframed_pure string
  | none => exact unframed_requestFail _

variable (alloc : Allocator)

theorem unframed_readString : Unframed (readString alloc) :=
  unframed_readLength.bind fun _ => (unframed_lift _).bind fun stringLength =>
    (unframed_lift _).bind fun _ => unframed_readStringBytes stringLength

theorem unframed_readStringElem (ident : String) : Unframed (readStringElem alloc ident) :=
  (unframed_readAndCheckType 2).bind fun _ => (unframed_readAndCheckCstring ident).bind fun _ =>
    unframed_readString alloc

theorem unframed_readKey : Unframed readKey :=
  ((unframed_getNumber (by omega)).bind fun _ => unframed_pure _).bind fun _ =>
    (unframed_pure _).ite (unframed_requestFail _)

theorem unframed_readBinary (totalLength : Nat) : Unframed (readBinary totalLength) :=
  unframed_readLength.bind fun size => unframed_readTypeByte.bind fun _ =>
    unframed_get (fun remaining => do
      let offset ← lift (Usize.sub .checked totalLength remaining)
      advance size
      pure ⟨offset, size⟩) (fun _ => rfl) fun _ =>
      (unframed_lift _).bind fun _ => (unframed_advance size).bind fun _ => unframed_pure _

theorem unframed_readElement {α : Type} {fields : FrameM α} (h : Unframed fields) :
    Unframed (readElement fields) :=
  unframed_readTypeByte.bind fun _ =>
    (unframed_pure _).ite ((unframed_requestFail _).ite (h.map some))

theorem unframed_readElements {α : Type} {element : FrameM (Option α)} (h : Unframed element)
    (arrayEnd fuel : Nat) (elements : List α) :
    Unframed (readElements element arrayEnd fuel elements) := by
  induction fuel generalizing elements with
  | zero =>
    exact unframed_branch (arrayEnd < ·) (unframed_lift _) (unframed_pure _)
  | succ fuel ih =>
    refine unframed_branch (arrayEnd < ·) (h.bind fun next => ?_) (unframed_pure _)
    cases next with
    | some e => exact ih (elements ++ [e])
    | none => exact unframed_pure elements

theorem unframed_readDataItem (totalLength : Nat) : Unframed (readDataItem alloc totalLength) :=
  unframed_readElement (unframed_readCstring.bind fun _ => unframed_readLength.bind fun _ =>
    (unframed_readStringElem alloc _).bind fun _ => (unframed_readAndCheckType 18).bind fun _ =>
    (unframed_readAndCheckCstring _).bind fun _ => unframed_readKey.bind fun _ =>
    (unframed_readAndCheckType 5).bind fun _ => (unframed_readAndCheckCstring _).bind fun _ =>
    (unframed_readBinary totalLength).bind fun _ => unframed_readAndCheckTermination.bind fun _ =>
    unframed_pure _)

theorem unframed_readItemArray (totalLength : Nat) : Unframed (readItemArray alloc totalLength) :=
  unframed_get (fun remaining => do
      let length ← readLength
      let arrayEnd ← lift (Usize.sub .checked remaining length)
      readElements (readDataItem alloc totalLength) arrayEnd remaining []) (fun _ => rfl) fun _ =>
    unframed_readLength.bind fun _ => (unframed_lift _).bind fun _ =>
      unframed_readElements (unframed_readDataItem alloc totalLength) _ _ _

theorem unframed_readDataSet (totalLength : Nat) : Unframed (readDataSet alloc totalLength) :=
  unframed_readElement (unframed_readCstring.bind fun _ => unframed_readLength.bind fun _ =>
    (unframed_readStringElem alloc _).bind fun _ => (unframed_readAndCheckType 4).bind fun _ =>
    (unframed_readAndCheckCstring _).bind fun _ =>
    (unframed_readItemArray alloc totalLength).bind fun _ =>
    unframed_readAndCheckTermination.bind fun _ => unframed_pure _)

theorem unframed_readDataSets (totalLength : Nat) : Unframed (readDataSets alloc totalLength) :=
  unframed_get (fun remaining => do
      let sets ← readElements (readDataSet alloc totalLength) 0 remaining []
      pure (sets.map some)) (fun _ => rfl) fun _ =>
    (unframed_readElements (unframed_readDataSet alloc totalLength) _ _ _).bind fun _ =>
      unframed_pure _

theorem unframed_readMessageEnd : Unframed readMessageEnd := by
  have hread := unframed_getByte.bind fun lastByte =>
    unframed_branch (fun remaining => lastByte ≠ 0 ∨ 0 < remaining) (unframed_requestFail .violatedSpec)
      (unframed_pure PUnit.unit)
  rw [bind_assoc] at hread
  exact hread

theorem unframed_readDocumentLength : Unframed readDocumentLength :=
  unframed_readLength.bind fun length =>
    unframed_branch (· + 4 ≠ length) (unframed_requestFail _) (unframed_pure _)

theorem unframed_readMessage : Unframed (readMessage alloc) :=
  unframed_readDocumentLength.bind fun length => (unframed_readStringElem alloc _).bind fun _ =>
    (unframed_readAndCheckType 4).bind fun _ => (unframed_readAndCheckCstring _).bind fun _ =>
    unframed_readLength.ignoreError.bind fun _ => (unframed_readDataSets alloc length).bind fun _ =>
    unframed_readMessageEnd.bind fun _ => unframed_pure _

end Readers

section Requests

/-- The same name and content, or an error of both. -/
inductive SameOutcome : DandelionResult (String × BytesContext) →
    DandelionResult (String × BytesContext) → Prop
  | ok {name : String} {context context' : BytesContext} (hsize : context.size = context'.size)
      (hcontent : context.content = context'.content) :
      SameOutcome (.ok (name, context)) (.ok (name, context'))
  | fail (e e' : DandelionError) : SameOutcome (fail e) (fail e')

variable (alloc : Allocator)

/-- Requests with the same bytes that are both answered are answered alike. -/
theorem sameOutcome_of_answers {frames frames' : List (List UInt8)}
    (hbytes : frames.flatten = frames'.flatten)
    (h : Answers (readMessage alloc) ⟨frames, frames.flatten.length, 0, 0⟩)
    (h' : Answers (readMessage alloc) ⟨frames', frames'.flatten.length, 0, 0⟩) :
    SameOutcome (fromBytesVec alloc frames frames.flatten.length)
      (fromBytesVec alloc frames' frames'.flatten.length) := by
  have hsame := unframed_readMessage alloc frames.flatten _ _
    (atBytes_of_represents (represents_start frames) rfl)
    (atBytes_of_represents (represents_start frames') hbytes.symm) h h'
  rw [fromBytesVec, fromBytesVec]
  cases hexec : exec (readMessage alloc) ⟨frames, frames.flatten.length, 0, 0⟩ with
  | mk outcome next =>
    cases hexec' : exec (readMessage alloc) ⟨frames', frames'.flatten.length, 0, 0⟩ with
    | mk outcome' next' =>
      rw [hexec, hexec'] at hsame
      cases hsame with
      | fail e => exact .fail e e
      | ok r =>
        obtain ⟨name, length, sets⟩ := r
        have hlength := readMessage_length alloc (represents_start frames) hexec
        obtain ⟨merged, hok, -⟩ := occupySpace_inside hlength (inContext_cleared length)
          (show 0 + length ≤ length by omega)
        change SameOutcome (occupySpace _ _ _ _ _ >>= _) (occupySpace _ _ _ _ _ >>= _)
        rw [hok]
        exact .ok rfl rfl

/-- Two framings of the same bytes are both answered, and alike, exactly when every field that is
reached in either of them is safe to read. -/
theorem framings_decode_alike_iff {frames frames' : List (List UInt8)}
    (hbytes : frames.flatten = frames'.flatten) :
    (Returns (fromBytesVec alloc frames frames.flatten.length) ∧
        Returns (fromBytesVec alloc frames' frames'.flatten.length) ∧
        SameOutcome (fromBytesVec alloc frames frames.flatten.length)
          (fromBytesVec alloc frames' frames'.flatten.length)) ↔
      MessageSafe alloc (messageFields, frames) ∧ MessageSafe alloc (messageFields, frames') := by
  rw [returns_iff_answers, returns_iff_answers, ← answers_readMessage alloc (represents_start frames),
    ← answers_readMessage alloc (represents_start frames')]
  constructor
  · exact fun h => ⟨h.1, h.2.1⟩
  · exact fun h => ⟨h.1, h.2, sameOutcome_of_answers alloc hbytes h.1 h.2⟩

end Requests

/-- The request for a function with an empty name and no sets, cut behind its length. -/
def emptyRequest : List (List UInt8) :=
  [[27, 0, 0, 0], [2, 110, 97, 109, 101, 0, 1, 0, 0, 0, 0, 4, 115, 101, 116, 115, 0, 5, 0, 0, 0, 0, 0]]

theorem emptyRequest_framings :
    emptyRequest.flatten = [emptyRequest.flatten].flatten ∧
    MessageSafe (fun _ => true) (messageFields, emptyRequest) ∧
      MessageSafe (fun _ => true) (messageFields, [emptyRequest.flatten]) := by
  have hbytes : emptyRequest.flatten = [emptyRequest.flatten].flatten := rfl
  have hcut : fromBytesVec (fun _ => true) emptyRequest emptyRequest.flatten.length = .ok ("",
      ⟨emptyRequest, 27, [], .inPreparation, [⟨0, 27⟩]⟩) := by decide +kernel
  have hwhole : fromBytesVec (fun _ => true) [emptyRequest.flatten] [emptyRequest.flatten].flatten.length =
      .ok ("", ⟨[emptyRequest.flatten], 27, [], .inPreparation, [⟨0, 27⟩]⟩) := by
    decide +kernel
  refine ⟨hbytes, (framings_decode_alike_iff (fun _ => true) hbytes).mp ?_⟩
  rw [hcut, hwhole]
  exact ⟨returns_ok _, returns_ok _, .ok rfl rfl⟩

/-- An empty frame in front of a type byte: the first byte of an empty chunk is taken. -/
theorem empty_frame_panics :
    [[27, 0, 0, 0], [], [2, 110, 97, 109, 101, 0, 1, 0, 0, 0, 0, 4, 115, 101, 116, 115, 0, 5, 0, 0, 0,
      0, 0]].flatten = emptyRequest.flatten ∧
    (∃ context, fromBytesVec (fun _ => true) emptyRequest 27 = .ok ("", context)) ∧
    fromBytesVec (fun _ => true) [[27, 0, 0, 0], [], [2, 110, 97, 109, 101, 0, 1, 0, 0, 0, 0, 4, 115,
      101, 116, 115, 0, 5, 0, 0, 0, 0, 0]] 27 = crash := by
  refine ⟨rfl, ⟨⟨emptyRequest, 27, [], .inPreparation, [⟨0, 27⟩]⟩, ?_⟩, ?_⟩
  · decide +kernel
  · decide +kernel

end Dandelion
