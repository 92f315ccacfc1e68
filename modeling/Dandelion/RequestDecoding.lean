import Dandelion.Contexts
import Dandelion.Framing
import Dandelion.Messages

/-!
# Decoding undoes encoding

A request in non-empty frames. Wherever the frames cut it, each reader takes the bytes of its field
and leaves the ones behind them: `Reads` is the judgement, with the unread bytes always a suffix of
the document. The position of an item is recovered from how many bytes remain, so the suffix is
what ties it to the data.
-/

namespace Dandelion

open Bson Outcome Stateful FrameBuf

section Positions

/-- The buffer stands before these bytes of the document, and no frame of theirs is empty. -/
structure Stands (document : List UInt8) (buf : FrameBuf) (bytes : List UInt8) : Prop where
  suffix : bytes <:+ document
  frames : ∃ frames, Represents bytes.length buf frames ∧ frames.flatten = bytes ∧ [] ∉ frames

theorem Stands.remaining {document bytes : List UInt8} {buf : FrameBuf}
    (h : Stands document buf bytes) : buf.remaining = bytes.length := by
  obtain ⟨frames, hrep, rfl, -⟩ := h.frames
  exact hrep.remaining

theorem nil_notMem_dropBytes {frames : List (List UInt8)} (h : [] ∉ frames) (count : Nat) :
    [] ∉ dropBytes frames count := by
  induction frames generalizing count with
  | nil =>
    cases count with
    | zero => exact h
    | succ count => exact h
  | cons frame frames ih =>
    obtain ⟨hframe, hframes⟩ := List.ne_and_not_mem_of_not_mem_cons h
    cases count with
    | zero => exact h
    | succ count =>
      rw [dropBytes]
      split
      · next hlt =>
        refine List.not_mem_cons_of_ne_of_not_mem (fun hnil => ?_) hframes
        exact absurd (List.drop_eq_nil_iff.mp hnil.symm) (Nat.not_le.mpr hlt)
      · exact ih hframes _

theorem bytesReadable_of_nonempty {frames : List (List UInt8)} (h : [] ∉ frames) {count : Nat}
    (hle : count ≤ frames.flatten.length) : BytesReadable frames count := by
  induction frames generalizing count with
  | nil =>
    obtain rfl := Nat.le_zero.mp hle
    trivial
  | cons frame frames ih =>
    obtain ⟨hframe, hframes⟩ := List.ne_and_not_mem_of_not_mem_cons h
    cases count with
    | zero => trivial
    | succ count =>
      rw [List.flatten_cons, List.length_append] at hle
      exact ⟨fun hnil => hframe hnil.symm, ih hframes (by omega)⟩

theorem Stands.advanced {document input rest : List UInt8} {bound count : Nat} {buf buf' : FrameBuf}
    {frames : List (List UInt8)} (h : Stands document buf (input ++ rest))
    (hframes : frames.flatten = input ++ rest) (hnonempty : [] ∉ frames) (hcount : input.length = count)
    (hrep : Represents bound buf' (dropBytes frames count)) : Stands document buf' rest where
  suffix := (List.suffix_append input rest).trans h.suffix
  frames := by
    have hflatten : (dropBytes frames count).flatten = rest := by
      rw [flatten_dropBytes, hframes, List.drop_left' hcount]
    refine ⟨_, ?_, hflatten, nil_notMem_dropBytes hnonempty _⟩
    rw [← hflatten]
    exact hrep.tight

end Positions

section Judgement

variable {α β : Type} {document : List UInt8}

/-- Before these bytes the computation takes the first part of them, with a value that has the
property. -/
def Reads (document : List UInt8) (m : FrameM α) (input rest : List UInt8) (Q : α → Prop) : Prop :=
  ∀ buf, Stands document buf (input ++ rest) →
    ∃ a buf', exec m buf = (.ok a, buf') ∧ Q a ∧ Stands document buf' rest

theorem reads_pure {rest : List UInt8} {Q : α → Prop} {a : α} (h : Q a) :
    Reads document (pure a) [] rest Q := fun buf hbuf => ⟨a, buf, rfl, h, hbuf⟩

theorem Reads.mono {m : FrameM α} {input rest : List UInt8} {Q Q' : α → Prop}
    (h : Reads document m input rest Q) (hQ : ∀ a, Q a → Q' a) : Reads document m input rest Q' := by
  intro buf hbuf
  obtain ⟨a, buf', hexec, ha, hbuf'⟩ := h buf hbuf
  exact ⟨a, buf', hexec, hQ a ha, hbuf'⟩

theorem Reads.bind {m : FrameM α} {f : α → FrameM β} {input input' rest : List UInt8}
    {Q : α → Prop} {R : β → Prop} (hm : Reads document m input (input' ++ rest) Q)
    (hf : ∀ a, Q a → Reads document (f a) input' rest R) :
    Reads document (m >>= f) (input ++ input') rest R := by
  intro buf hbuf
  rw [List.append_assoc] at hbuf
  obtain ⟨a, buf', hexec, ha, hbuf'⟩ := hm buf hbuf
  obtain ⟨b, buf'', hexec', hb, hbuf''⟩ := hf a ha buf' hbuf'
  exact ⟨b, buf'', (exec_bind_ok hexec f).trans hexec', hb, hbuf''⟩

theorem Reads.last {m : FrameM α} {f : α → FrameM β} {input rest : List UInt8} {Q : α → Prop}
    {R : β → Prop} (hm : Reads document m input rest Q)
    (hf : ∀ a, Q a → Reads document (f a) [] rest R) : Reads document (m >>= f) input rest R := by
  have hbind := Reads.bind (show Reads document m input ([] ++ rest) Q from hm) hf
  rwa [List.append_nil] at hbind

end Judgement

section Fields

variable {document : List UInt8}

theorem reads_readTypeByte (b : UInt8) (rest : List UInt8) :
    Reads document readTypeByte [b] rest (· = b.toInt8) := by
  intro buf hbuf
  obtain ⟨frames, hrep, hflatten, hnonempty⟩ := hbuf.frames
  have hbyte : byteAt frames = some b.toInt8 := by
    rw [byteAt, hflatten]
    rfl
  rcases exec_readTypeByte hrep with ⟨hnone, -⟩ | ⟨b', buf', hb', -, hexec, hrep'⟩ | ⟨hread, -⟩
  · rw [hbyte] at hnone
    cases hnone
  · rw [hbyte] at hb'
    cases hb'
    exact ⟨_, buf', hexec, rfl, hbuf.advanced hflatten hnonempty rfl hrep'⟩
  · exact absurd (fun hle => bytesReadable_of_nonempty hnonempty hle) hread

theorem reads_readAndCheckType (b : UInt8) (rest : List UInt8) :
    Reads document (readAndCheckType b.toInt8) [b] rest fun _ => True := by
  refine (reads_readTypeByte b rest).last fun typeByte htype => ?_
  rw [if_neg (not_not_intro htype)]
  exact reads_pure trivial

theorem reads_readAndCheckTermination (rest : List UInt8) :
    Reads document readAndCheckTermination [0] rest fun _ => True := by
  have heq : readAndCheckTermination = readTypeByte >>= fun byte =>
      if byte = 0 then pure ⟨⟩ else requestFail .violatedSpec := (bind_assoc ..).symm
  rw [heq]
  refine (reads_readTypeByte 0 rest).last fun byte hbyte => ?_
  rw [if_pos (show byte = 0 from hbyte)]
  exact reads_pure trivial

theorem toInt_ofNat_of_lt {n : Nat} (h : n < 2 ^ 31) : (BitVec.ofNat 32 n).toInt = n := by
  rw [BitVec.toInt_eq_toNat_of_lt, BitVec.toNat_ofNat, Nat.mod_eq_of_lt (by omega)]
  rw [BitVec.toNat_ofNat, Nat.mod_eq_of_lt (by omega)]
  omega

theorem reads_readLength {length : Nat} (h : length < 2 ^ 31) (rest : List UInt8) :
    Reads document readLength (leBytes 4 length) rest (· = length) := by
  intro buf hbuf
  obtain ⟨frames, hrep, hflatten, hnonempty⟩ := hbuf.frames
  have htake : frames.flatten.take 4 = leBytes 4 length := by
    rw [hflatten]
    exact List.take_left' (length_leBytes ..)
  have hlength : lengthAt frames = some length := by
    have hword : leWord (leBytes 4 length) = length := ofLeBytes_leBytes_of_lt (by omega)
    rw [lengthAt, htake, hword, toInt_ofNat_of_lt h, hflatten]
    simp
  rcases exec_readLength hrep with ⟨n, buf', hn, -, -, hexec, hrep'⟩ | ⟨e, buf', hn, -⟩ | ⟨hread, -⟩
  · rw [hlength] at hn
    cases hn
    exact ⟨_, buf', hexec, rfl, hbuf.advanced hflatten hnonempty (length_leBytes ..) hrep'⟩
  · rw [hlength] at hn
    cases hn
  · exact absurd (fun hle => bytesReadable_of_nonempty hnonempty hle) hread

theorem reads_readKey {key : Nat} (h : key < 2 ^ 32) (rest : List UInt8) :
    Reads document readKey (leBytes 8 key) rest (· = key) := by
  intro buf hbuf
  obtain ⟨frames, hrep, hflatten, hnonempty⟩ := hbuf.frames
  have htake : frames.flatten.take 8 = leBytes 8 key := by
    rw [hflatten]
    exact List.take_left' (length_leBytes ..)
  have hle : 8 ≤ frames.flatten.length := by
    rw [hflatten]
    simp
  rcases exec_getNumber hrep (by omega) hle with ⟨-, buf', hexec, hrep'⟩ | ⟨hread, -⟩
  · have hword : leWord (leBytes 8 key) = key := ofLeBytes_leBytes_of_lt (by omega)
    have hint : (BitVec.ofNat 64 key).toInt = key := by
      rw [BitVec.toInt_eq_toNat_of_lt, BitVec.toNat_ofNat, Nat.mod_eq_of_lt (by omega)]
      rw [BitVec.toNat_ofNat, Nat.mod_eq_of_lt (by omega)]
      omega
    have hkey : exec getI64Le buf = (.ok (key : Int), buf') := by
      rw [getI64Le, exec_bind_ok hexec, htake, hword, hint]
      rfl
    refine ⟨key, buf', ?_, rfl, hbuf.advanced hflatten hnonempty (length_leBytes ..) hrep'⟩
    rw [readKey, exec_bind_ok hkey, if_pos (by omega)]
    rfl
  · exact absurd (bytesReadable_of_nonempty hnonempty hle) hread

theorem utf8EncodeChar_ascii {b : UInt8} (h : b < 128) :
    String.utf8EncodeChar (Char.ofUInt8 b) = [b] := by
  have hsize : (Char.ofUInt8 b).utf8Size = 1 := by
    have hlt : b.toNat < 128 := UInt8.lt_iff_toNat_lt.mp h
    unfold Char.ofUInt8
    simp only [Char.utf8Size, UInt32.le_iff_toNat_le, UInt8.toNat_toUInt32]
    exact if_pos (Nat.le_of_lt_succ hlt)
  rw [String.utf8EncodeChar_eq_singleton hsize]
  unfold Char.ofUInt8
  simp

theorem decodeUtf8_of_ascii {bytes : List UInt8} (h : ∀ b ∈ bytes, b < 128) :
    (decodeUtf8 bytes).isSome := by
  have hchars : utf8Bytes (String.ofList (bytes.map Char.ofUInt8)) = bytes := by
    rw [utf8Bytes_ofList, List.flatMap_map, List.flatMap_congr fun b hb => utf8EncodeChar_ascii (h b hb)]
    exact List.flatMap_singleton' bytes
  rw [decodeUtf8_eq_some_iff.mpr hchars]
  rfl

/-- A name of bytes below 128 can be read in any frames that are not empty. -/
theorem nameReadable_of_ascii {frames : List (List UInt8)} (hnonempty : [] ∉ frames)
    (h : ∀ b ∈ frames.flatten.take (nameLength frames.flatten), b < 128) : NameReadable frames := by
  induction frames with
  | nil => trivial
  | cons frame frames ih =>
    obtain ⟨hframe, hframes⟩ := List.ne_and_not_mem_of_not_mem_cons hnonempty
    rw [NameReadable]
    right
    rw [List.flatten_cons] at h
    cases hindex : frame.findIdx? (· = 0) with
    | some index =>
      have hlt := (List.findIdx?_eq_some_iff_findIdx_eq.mp hindex).1
      rw [nameLength_append_of_some hindex, List.take_append_of_le_length hlt] at h
      exact decodeUtf8_of_ascii h
    | none =>
      rw [nameLength_append_of_none hindex, List.take_length_add_append] at h
      refine ⟨fun hnil => hframe hnil.symm, decodeUtf8_of_ascii fun b hb => ?_, ih hframes fun b hb => ?_⟩
      · exact h b (List.mem_append_left _ hb)
      · exact h b (List.mem_append_right _ hb)

theorem nil_notMem_nameAt {frames rest : List (List UInt8)} {name : String} (hnonempty : [] ∉ frames)
    (h : nameAt frames = some (name, rest)) : [] ∉ rest := by
  induction frames generalizing name with
  | nil =>
    cases h
    exact hnonempty
  | cons frame frames ih =>
    rw [nameAt] at h
    split at h
    · cases h
      exact hnonempty
    · cases hindex : frame.findIdx? (· = 0) with
      | some index =>
        simp only [hindex] at h
        obtain ⟨piece, -, heq⟩ := Option.map_eq_some_iff.mp h
        cases heq
        exact nil_notMem_dropBytes hnonempty _
      | none =>
        simp only [hindex] at h
        obtain ⟨piece, -, h⟩ := Option.bind_eq_some_iff.mp h
        obtain ⟨⟨name', rest'⟩, hname, h⟩ := Option.bind_eq_some_iff.mp h
        cases h
        exact ih (List.not_mem_of_not_mem_cons hnonempty) hname

theorem reads_readCstring {name : String} (hnull : 0 ∉ utf8Bytes name)
    (hascii : ∀ b ∈ utf8Bytes name, b < 128) (rest : List UInt8) :
    Reads document readCstring (utf8Bytes name ++ [0]) rest (· = name ++ "\x00") := by
  intro buf hbuf
  obtain ⟨frames, hrep, hflatten, hnonempty⟩ := hbuf.frames
  have hlength : nameLength frames.flatten = (utf8Bytes name ++ [0]).length := by
    rw [hflatten, List.append_assoc, nameLength, List.singleton_append, findIdx?_terminated hnull]
    simp
  have htake : frames.flatten.take (nameLength frames.flatten) = utf8Bytes name ++ [0] := by
    rw [hlength, hflatten, List.take_left]
  have hreadable : NameReadable frames := by
    refine nameReadable_of_ascii hnonempty ?_
    rw [htake]
    intro b hb
    rcases List.mem_append.mp hb with hb | hb
    · exact hascii b hb
    · rw [List.mem_singleton.mp hb]
      decide
  rcases nameRead_readCstring hrep with ⟨-, name', rest', buf', hname, hexec, hrep'⟩ | ⟨hread, -⟩
  · obtain ⟨htext, hrest⟩ := nameAt_bytes hname
    have heq : name' = name ++ "\x00" := utf8Bytes_inj (by rw [htext, htake, utf8Bytes_append]; rfl)
    rw [String.empty_append, heq] at hexec
    have hrest' : rest'.flatten = rest := by rw [hrest, hlength, hflatten, List.drop_left]
    refine ⟨_, buf', hexec, rfl, (List.suffix_append _ rest).trans hbuf.suffix, rest', ?_, hrest',
      nil_notMem_nameAt hnonempty hname⟩
    rw [← hrest']
    exact hrep'.tight
  · exact absurd hreadable hread

theorem reads_get {α : Type} {f : FrameBuf → FrameM α} {input rest : List UInt8} {Q : α → Prop}
    (h : ∀ buf : FrameBuf, buf.remaining = (input ++ rest).length → Reads document (f buf) input rest Q) :
    Reads document (get >>= f) input rest Q := by
  intro buf hbuf
  rw [exec_get_bind]
  exact h buf hbuf.remaining buf hbuf

theorem reads_lift {α β : Type} {x : DandelionResult α} {a : α} (hx : x = .ok a) {f : α → FrameM β}
    {input rest : List UInt8} {Q : β → Prop} (h : Reads document (f a) input rest Q) :
    Reads document (lift x >>= f) input rest Q := by
  subst hx
  exact h

theorem reads_copyToSlice (input rest : List UInt8) :
    Reads document (copyToSlice input.length) input rest (· = input) := by
  intro buf hbuf
  obtain ⟨frames, hrep, hflatten, hnonempty⟩ := hbuf.frames
  have hle : input.length ≤ frames.flatten.length := by
    rw [hflatten, List.length_append]
    omega
  rcases exec_copyToSlice hrep hle with ⟨-, buf', hexec, hrep'⟩ | ⟨hread, -⟩
  · rw [hflatten, List.take_left] at hexec
    exact ⟨_, buf', hexec, rfl, hbuf.advanced hflatten hnonempty rfl hrep'⟩
  · exact absurd (bytesReadable_of_nonempty hnonempty hle) hread

theorem reads_advance (input rest : List UInt8) :
    Reads document (advance input.length) input rest fun _ => True := by
  intro buf hbuf
  obtain ⟨frames, hrep, hflatten, hnonempty⟩ := hbuf.frames
  have hle : input.length ≤ frames.flatten.length := by
    rw [hflatten, List.length_append]
    omega
  obtain ⟨buf', hexec, hrep'⟩ := exec_advance hrep hle
  exact ⟨_, buf', hexec, trivial, hbuf.advanced hflatten hnonempty rfl hrep'⟩

theorem reads_readStringBytes (text : String) (rest : List UInt8) :
    Reads document (readStringBytes (utf8Bytes text).length) (utf8Bytes text ++ [0]) rest (· = text) := by
  refine reads_get fun buf hremaining => ?_
  rw [if_neg (by rw [hremaining]; simp)]
  refine (reads_copyToSlice _ _).bind fun byteBuffer hbuffer => ?_
  refine (reads_readAndCheckTermination rest).last fun _ _ => ?_
  rw [hbuffer, decodeUtf8_eq_some_iff.mpr rfl]
  exact reads_pure rfl

theorem reads_of_le {α : Type} {m : FrameM α} {input rest : List UInt8} {Q : α → Prop}
    (h : input.length ≤ document.length → Reads document m input rest Q) :
    Reads document m input rest Q := by
  intro buf hbuf
  have hle := hbuf.suffix.length_le
  rw [List.length_append] at hle
  exact h (by omega) buf hbuf

theorem reads_readAndCheckCstring {name : Name}
    (hascii : ((utf8Bytes name.text).all fun b => b < 128) = true)
    {expected : String} (hexpected : expected = name.text ++ "\x00") (rest : List UInt8) :
    Reads document (readAndCheckCstring expected) name.bytes rest fun _ => True := by
  have hbytes : ∀ b ∈ utf8Bytes name.text, b < 128 := fun b hb =>
    of_decide_eq_true (List.all_eq_true.mp hascii b hb)
  refine (reads_readCstring name.nullFree hbytes rest).last fun cstring hcstring => ?_
  rw [if_neg (not_not_intro (hcstring.trans hexpected.symm))]
  exact reads_pure trivial

theorem reads_readBinary (hdocument : document.length < 2 ^ 31) (subtype : UInt8)
    (data rest : List UInt8) :
    Reads document (readBinary document.length) (Value.binary subtype data).bytes rest fun position =>
      position.size = data.length ∧ document.drop position.offset = data ++ rest := by
  refine reads_of_le fun hle => ?_
  rw [Value.bytes, List.length_append, List.length_cons] at hle
  rw [Value.bytes, ← List.singleton_append]
  refine (reads_readLength (by omega) _).bind fun size hsize => ?_
  subst hsize
  refine (reads_readTypeByte subtype _).bind fun _ _ => ?_
  intro buf hbuf
  have hsuffix := hbuf.suffix
  have hoffset : (data ++ rest).length ≤ document.length := hsuffix.length_le
  have hdrop : document.drop (document.length - (data ++ rest).length) = data ++ rest :=
    (List.suffix_iff_eq_drop.mp hsuffix).symm
  refine reads_get (fun buf' hremaining => ?_) buf hbuf
  rw [hremaining]
  refine reads_lift (Usize.sub_eq_ok hoffset) ?_
  refine (reads_advance data rest).last fun _ _ => ?_
  exact reads_pure ⟨rfl, hdrop⟩

variable {alloc : Allocator} (hfits : ∀ n < document.length, alloc.fits n = true)
  (hdocument : document.length < 2 ^ 31)
include hfits hdocument

theorem reads_readString (text : String) (rest : List UInt8) :
    Reads document (readString alloc) (Value.string text).bytes rest (· = text) := by
  refine reads_of_le fun hle => ?_
  simp only [Value.bytes, List.length_append, length_leBytes, List.length_singleton] at hle
  rw [Value.bytes]
  refine (reads_readLength (by omega) _).bind fun length hlength => ?_
  subst hlength
  refine reads_lift (Usize.sub_eq_ok (Nat.le_add_left 1 _)) ?_
  rw [Nat.add_sub_cancel]
  refine reads_lift (if_pos (hfits _ (by omega))) ?_
  exact reads_readStringBytes text rest

theorem reads_readStringElem {name : Name}
    (hascii : ((utf8Bytes name.text).all fun b => b < 128) = true)
    {expected : String} (hexpected : expected = name.text ++ "\x00") (text : String)
    (rest : List UInt8) :
    Reads document (readStringElem alloc expected)
      (2 :: (name.bytes ++ (Value.string text).bytes)) rest (· = text) := by
  refine (reads_readAndCheckType 2 _).bind fun _ _ => ?_
  refine (reads_readAndCheckCstring hascii hexpected _).bind fun _ _ => ?_
  exact reads_readString hfits hdocument text rest

end Fields

section Arrays

variable {document : List UInt8} {α β : Type} {fields : FrameM α}

theorem reads_readElement_null (rest : List UInt8) :
    Reads document (readElement fields) [0] rest (· = none) := by
  refine (reads_readTypeByte 0 rest).last fun docType htype => ?_
  rw [if_pos (show docType = 0 from htype)]
  exact reads_pure rfl

theorem reads_readElement {input rest : List UInt8} {Q : α → Prop}
    (h : Reads document fields input rest Q) :
    Reads document (readElement fields) (3 :: input) rest fun next => ∃ a, next = some a ∧ Q a := by
  refine (reads_readTypeByte 3 _).bind fun docType htype => ?_
  rw [htype, if_neg (by decide), if_neg (by decide), map_eq_pure_bind]
  exact h.last fun a ha => reads_pure ⟨a, rfl, ha⟩

theorem reads_index (index : Nat) (rest : List UInt8) :
    Reads document readCstring (Name.ofIndex index).bytes rest fun _ => True := by
  refine (reads_readCstring (Name.ofIndex index).nullFree (fun b hb => ?_) rest).mono fun _ _ => trivial
  rw [UInt8.lt_iff_toNat_lt]
  exact (digit_of_mem_toString hb).2.trans_lt (by decide)

/-- The elements of an array and the null behind them, which the reader of the next element takes.
There are rounds as long as more remains than what is behind the array. -/
theorem reads_readElements {elements : β → Elements} {P : α → β → Prop}
    (hfields : ∀ index b rest, Reads document fields
      ((Name.ofIndex index).bytes ++ (Value.document (elements b)).bytes) rest (P · b))
    (values : List β) (index fuel : Nat) (read : List α) {arrayEnd : Nat} {rest : List UInt8}
    (hend : arrayEnd ≤ rest.length) (hfuel : values.length < fuel) :
    Reads document (readElements (readElement fields) arrayEnd fuel read)
      ((Elements.ofValues index (values.map fun b => .document (elements b))).bytes ++ [0]) rest
      fun result => ∃ decoded, result = read ++ decoded ∧ List.Forall₂ P decoded values := by
  induction values generalizing index fuel read with
  | nil =>
    obtain ⟨fuel, rfl⟩ := Nat.exists_eq_add_one.mpr hfuel
    refine reads_get fun buf hremaining => ?_
    rw [if_pos (by rw [hremaining]; simp; omega)]
    refine (reads_readElement_null rest).last fun next hnext => ?_
    rw [hnext]
    exact reads_pure ⟨[], (List.append_nil _).symm, .nil⟩
  | cons b values ih =>
    obtain ⟨fuel, rfl⟩ := Nat.exists_eq_add_one.mpr (Nat.zero_lt_of_lt hfuel)
    refine reads_get fun buf hremaining => ?_
    rw [if_pos (by rw [hremaining]; simp; omega)]
    have hbytes : (Elements.ofValues index ((b :: values).map fun b => .document (elements b))).bytes ++ [0] =
        3 :: ((Name.ofIndex index).bytes ++ (Value.document (elements b)).bytes) ++
        ((Elements.ofValues (index + 1) (values.map fun b => .document (elements b))).bytes ++ [0]) := by
      simp only [List.map_cons, Elements.ofValues, Elements.bytes, Value.type, List.cons_append,
        List.append_assoc]
    rw [hbytes]
    refine (reads_readElement (hfields index b _)).bind fun next hnext => ?_
    obtain ⟨a, rfl, ha⟩ := hnext
    refine (ih (index + 1) fuel (read ++ [a]) (Nat.lt_of_succ_lt_succ hfuel)).mono fun result hresult => ?_
    obtain ⟨decoded, rfl, hall⟩ := hresult
    exact ⟨a :: decoded, by rw [List.append_assoc]; rfl, .cons ha hall⟩

theorem length_le_ofValues (index : Nat) (values : List Value) :
    values.length ≤ (Elements.ofValues index values).bytes.length := by
  induction values generalizing index with
  | nil => exact Nat.zero_le _
  | cons value values ih =>
    have hrest := ih (index + 1)
    rw [Elements.ofValues, Elements.bytes]
    simp only [List.length_cons, List.length_append]
    omega

end Arrays

section Items

variable {document : List UInt8}

/-- The decoded item is at the place of the data. -/
structure HoldsItem (document : List UInt8) (decoded : DataItem) (item : InputItem) : Prop where
  ident : decoded.ident = item.identifier
  key : decoded.key = item.key.toNat
  size : decoded.data.size = item.data.length
  data : ∃ rest, rest ≠ [] ∧ document.drop decoded.data.offset = item.data ++ rest

structure HoldsSet (document : List UInt8) (decoded : DataSet) (set : InputSet) : Prop where
  ident : decoded.ident = set.identifier
  buffers : List.Forall₂ (HoldsItem document) decoded.buffers set.items

variable {alloc : Allocator} (hfits : ∀ n < document.length, alloc.fits n = true)
  (hdocument : document.length < 2 ^ 31)

include hfits hdocument

theorem reads_readItemFields (index : Nat) (item : InputItem) (rest : List UInt8) :
    Reads document (readItemFields alloc document.length)
      ((Name.ofIndex index).bytes ++ (Value.document item.elements).bytes) rest
      (HoldsItem document · item) := by
  refine reads_of_le fun hle => ?_
  rw [List.length_append, Value.bytes, length_enclose] at hle
  refine (reads_index index _).bind fun _ _ => ?_
  refine (reads_readLength (by omega) _).bind fun _ _ => ?_
  have hbytes : item.elements.bytes ++ [0] =
      (2 :: (Layout.identifier.bytes ++ (Value.string item.identifier).bytes)) ++
      ([18] ++ (Layout.key.bytes ++ (leBytes 8 item.key.toNat ++
      ([5] ++ (Layout.data.bytes ++ ((Value.binary 0 item.data).bytes ++ [0])))))) := by
    simp only [InputItem.elements, Elements.bytes, Value.type, bytes_key, List.cons_append,
      List.append_assoc, List.nil_append]
  rw [hbytes]
  refine (reads_readStringElem hfits hdocument (by decide) (by decide) item.identifier _).bind
    fun ident hident => ?_
  refine (reads_readAndCheckType 18 _).bind fun _ _ => ?_
  refine (reads_readAndCheckCstring (by decide) (by decide) _).bind fun _ _ => ?_
  refine (reads_readKey item.key.toNat_lt _).bind fun key hkey => ?_
  refine (reads_readAndCheckType 5 _).bind fun _ _ => ?_
  refine (reads_readAndCheckCstring (by decide) (by decide) _).bind fun _ _ => ?_
  refine (reads_readBinary hdocument 0 item.data _).bind fun data hdata => ?_
  refine (reads_readAndCheckTermination rest).last fun _ _ => ?_
  exact reads_pure ⟨hident, hkey, hdata.1, _, List.cons_ne_nil _ _, hdata.2⟩

theorem reads_readItemArray (items : List InputItem) (rest : List UInt8) :
    Reads document (readItemArray alloc document.length)
      (Value.array (.ofValues 0 (items.map fun item => .document item.elements))).bytes rest
      (List.Forall₂ (HoldsItem document) · items) := by
  refine reads_of_le fun hle => ?_
  rw [Value.bytes, length_enclose] at hle
  rw [Value.bytes]
  refine reads_get fun buf hremaining => ?_
  rw [List.length_append, length_enclose] at hremaining
  refine (reads_readLength (by omega) _).bind fun length hlength => ?_
  have hitems := length_le_ofValues 0 (items.map fun item => .document item.elements)
  rw [List.length_map] at hitems
  refine reads_lift (Usize.sub_eq_ok (by omega)) ?_
  refine (reads_readElements (fun index item rest => reads_readItemFields hfits hdocument index item rest)
    items 0 buf.remaining [] (by omega) (by omega)).mono fun result hresult => ?_
  obtain ⟨decoded, rfl, hall⟩ := hresult
  exact hall

theorem reads_readSetFields (index : Nat) (set : InputSet) (rest : List UInt8) :
    Reads document (readSetFields alloc document.length)
      ((Name.ofIndex index).bytes ++ (Value.document set.elements).bytes) rest
      (HoldsSet document · set) := by
  refine reads_of_le fun hle => ?_
  rw [List.length_append, Value.bytes, length_enclose] at hle
  refine (reads_index index _).bind fun _ _ => ?_
  refine (reads_readLength (by omega) _).bind fun _ _ => ?_
  have hbytes : set.elements.bytes ++ [0] =
      (2 :: (Layout.identifier.bytes ++ (Value.string set.identifier).bytes)) ++
      ([4] ++ (Layout.items.bytes ++
      ((Value.array (.ofValues 0 (set.items.map fun item => .document item.elements))).bytes ++ [0]))) := by
    simp only [InputSet.elements, Elements.bytes, Value.type, List.cons_append, List.append_assoc,
      List.nil_append]
  rw [hbytes]
  refine (reads_readStringElem hfits hdocument (by decide) (by decide) set.identifier _).bind
    fun ident hident => ?_
  refine (reads_readAndCheckType 4 _).bind fun _ _ => ?_
  refine (reads_readAndCheckCstring (by decide) (by decide) _).bind fun _ _ => ?_
  refine (reads_readItemArray hfits hdocument set.items _).bind fun items hitems => ?_
  refine (reads_readAndCheckTermination rest).last fun _ _ => ?_
  exact reads_pure ⟨hident, hitems⟩

end Items

section Requests

variable {document : List UInt8}

theorem reads_readDocumentLength (hdocument : document.length < 2 ^ 31) {rest : List UInt8}
    (hrest : rest.length + 4 = document.length) :
    Reads document readDocumentLength (leBytes 4 document.length) rest (· = document.length) := by
  refine (reads_readLength hdocument rest).last fun length hlength => ?_
  refine reads_get fun buf hremaining => ?_
  rw [if_neg (not_not_intro (by rw [hremaining, hlength]; exact hrest))]
  exact reads_pure hlength

theorem reads_ignoreError {α : Type} {m : FrameM α} {input rest : List UInt8} {Q : α → Prop}
    (h : Reads document m input rest Q) : Reads document (ignoreError m) input rest fun _ => True := by
  intro buf hbuf
  obtain ⟨a, buf', hexec, -, hbuf'⟩ := h buf hbuf
  exact ⟨⟨⟩, buf', exec_ignoreError_ok hexec, trivial, hbuf'⟩

theorem reads_readMessageEnd : Reads document readMessageEnd [0] [] fun _ => True := by
  have heq : readMessageEnd = readTypeByte >>= fun lastByte => get >>= fun buf =>
      if lastByte ≠ 0 ∨ 0 < buf.remaining then requestFail .violatedSpec else pure ⟨⟩ :=
    (bind_assoc ..).symm
  rw [heq]
  refine (reads_readTypeByte 0 []).last fun lastByte hlast => ?_
  refine reads_get fun buf hremaining => ?_
  rw [if_neg (by rw [hremaining, hlast]; decide)]
  exact reads_pure trivial

variable {alloc : Allocator}

theorem reads_readDataSets (hfits : ∀ n < document.length, alloc.fits n = true)
    (hdocument : document.length < 2 ^ 31) (sets : List InputSet) (rest : List UInt8) :
    Reads document (readDataSets alloc document.length)
      ((Elements.ofValues 0 (sets.map fun set => .document set.elements)).bytes ++ [0]) rest
      (List.Forall₂ (fun decoded set => ∃ dataSet, decoded = some dataSet ∧ HoldsSet document dataSet set) ·
        sets) := by
  refine reads_get fun buf hremaining => ?_
  have hsets := length_le_ofValues 0 (sets.map fun set => .document set.elements)
  rw [List.length_map] at hsets
  simp only [List.length_append, List.length_singleton] at hremaining
  refine (reads_readElements (fun index set rest => reads_readSetFields hfits hdocument index set rest)
    sets 0 buf.remaining [] (Nat.zero_le _) (by omega)).last fun result hresult => ?_
  obtain ⟨decoded, rfl, hall⟩ := hresult
  refine reads_pure (List.forall₂_map_left_iff.mpr (hall.imp fun dataSet set hset => ?_))
  exact ⟨dataSet, rfl, hset⟩

/-- The message behind its length. -/
def messageBody (request : DandelionRequest) : List UInt8 :=
  (2 :: (Layout.name.bytes ++ (Value.string request.name).bytes)) ++
    ([4] ++ (Layout.sets.bytes ++
      (leBytes 4
        ((Elements.ofValues 0 (request.sets.map fun set => .document set.elements)).bytes.length + 5) ++
      (((Elements.ofValues 0 (request.sets.map fun set => .document set.elements)).bytes ++ [0]) ++ [0]))))

theorem bytes_eq_messageBody (request : DandelionRequest) :
    request.bytes = leBytes 4 request.bytes.length ++ messageBody request := by
  rw [DandelionRequest.bytes, encode, length_enclose, enclose]
  simp only [messageBody, DandelionRequest.elements, setsValue, Elements.bytes, Value.type, Value.bytes,
    enclose, List.cons_append, List.append_assoc, List.nil_append]

theorem reads_readMessage (request : DandelionRequest)
    (hfits : ∀ n < request.bytes.length, alloc.fits n = true)
    (hdocument : request.bytes.length < 2 ^ 31) :
    Reads request.bytes (readMessage alloc) (leBytes 4 request.bytes.length ++ messageBody request) []
      fun result => result.1 = request.name ∧ result.2.1 = request.bytes.length ∧
        List.Forall₂ (fun decoded set => ∃ dataSet, decoded = some dataSet ∧
          HoldsSet request.bytes dataSet set) result.2.2 request.sets := by
  have hbody := congrArg List.length (bytes_eq_messageBody request)
  rw [List.length_append, length_leBytes] at hbody
  have hsets := hbody
  simp only [messageBody, List.length_append, length_leBytes] at hsets
  refine (reads_readDocumentLength hdocument (by rw [List.append_nil]; omega)).bind fun length hlength => ?_
  subst hlength
  refine (reads_readStringElem hfits hdocument (by decide) (by decide) request.name _).bind
    fun name hname => ?_
  refine (reads_readAndCheckType 4 _).bind fun _ _ => ?_
  refine (reads_readAndCheckCstring (by decide) (by decide) _).bind fun _ _ => ?_
  refine (reads_ignoreError (reads_readLength (by omega) _)).bind fun _ _ => ?_
  refine (reads_readDataSets hfits hdocument request.sets _).bind fun sets hall => ?_
  refine reads_readMessageEnd.last fun _ _ => ?_
  exact reads_pure ⟨hname, rfl, hall⟩

end Requests

section Frames

/-- `BytesContext::read` fills the buffer with the bytes at the offset. -/
theorem readFrames_eq {frames : List (List UInt8)} {offset : Nat} {buffer : List UInt8}
    (hoffset : offset < frames.flatten.length) (hle : offset + buffer.length ≤ frames.flatten.length) :
    readFrames frames offset buffer = ((frames.flatten.drop offset).take buffer.length, pure ()) := by
  induction frames generalizing offset buffer with
  | nil => exact absurd hoffset (Nat.not_lt_zero _)
  | cons frame frames ih =>
    rw [List.flatten_cons, List.length_append] at hoffset hle
    rw [readFrames, List.flatten_cons]
    by_cases hbehind : frame.length ≤ offset
    · rw [if_pos hbehind, ih (by omega) (by omega), List.drop_append, List.drop_of_length_le hbehind,
        List.nil_append]
    · rw [if_neg hbehind]
      by_cases hwithin : offset + buffer.length ≤ frame.length
      · rw [if_pos hwithin, List.drop_append_of_le_length (by omega), List.take_append_of_le_length]
        rw [List.length_drop]
        omega
      · have hlength : (frame.drop offset).length = frame.length - offset := List.length_drop
        have hrest := ih (show 0 < frames.flatten.length by omega)
          (show 0 + (buffer.drop (frame.drop offset).length).length ≤ frames.flatten.length by
            rw [List.length_drop]
            omega)
        rw [if_neg hwithin]
        simp only [hrest]
        rw [List.drop_zero, List.length_drop, List.drop_append_of_le_length (by omega), List.take_append,
          List.take_of_length_le (show (frame.drop offset).length ≤ buffer.length by omega)]

/-- A chunk is a first part of the range, and not empty if the range is not. -/
theorem chunkFrames_eq {frames : List (List UInt8)} (offset length : Nat)
    (hoffset : offset < frames.flatten.length) (hlimit : frames.flatten.length + length < Usize.limit) :
    ∃ chunk, chunkFrames frames offset length = .ok chunk ∧
      chunk <+: (frames.flatten.drop offset).take length ∧ (0 < length → chunk ≠ []) := by
  induction frames generalizing offset with
  | nil => exact absurd hoffset (Nat.not_lt_zero _)
  | cons frame frames ih =>
    rw [List.flatten_cons, List.length_append] at hoffset hlimit
    rw [chunkFrames, List.flatten_cons]
    by_cases hbehind : frame.length ≤ offset
    · rw [if_pos hbehind, List.drop_append, List.drop_of_length_le hbehind, List.nil_append]
      exact ih _ (by omega) (by omega)
    · rw [if_neg hbehind, Usize.add_eq_ok (by omega)]
      have hlength : (frame.drop offset).length = frame.length - offset := List.length_drop
      rw [List.drop_append_of_le_length (by omega)]
      have hpos : frame.drop offset ≠ [] := by
        rw [← List.length_pos_iff]
        omega
      by_cases hwithin : offset + length ≤ frame.length
      · refine ⟨(frame.drop offset).take length, if_pos hwithin, ?_, fun hlength => ?_⟩
        · have htake : (frame.drop offset ++ frames.flatten).take length = (frame.drop offset).take length :=
            List.take_append_of_le_length (by omega)
          exact htake ▸ List.prefix_rfl
        · exact List.ne_nil_of_length_pos (by rw [List.length_take]; omega)
      · refine ⟨frame.drop offset, if_neg hwithin, ?_, fun _ => hpos⟩
        rw [List.take_append, List.take_of_length_le (show (frame.drop offset).length ≤ length by omega)]
        exact List.prefix_append _ _

/-- Chunk after chunk from an offset on, until the length is reached. -/
def readChunks (context : DataContext) : Nat → Nat → Nat → DandelionResult (List UInt8)
  | _, _, 0 => pure []
  | 0, _, _ + 1 => .error .diverge
  | fuel + 1, offset, length + 1 => do
    let chunk ← context.getChunkRef offset (length + 1)
    let rest ← readChunks context fuel (offset + chunk.length) (length + 1 - chunk.length)
    pure (chunk ++ rest)

/-- Every chunk is a byte at least, so that the length is fuel enough. -/
theorem readChunks_bytes {frames : List (List UInt8)} (fuel : Nat) {offset length : Nat}
    (hle : offset + length ≤ frames.flatten.length) (hlimit : 2 * frames.flatten.length < Usize.limit)
    (hfuel : length ≤ fuel) :
    readChunks (.bytes frames) fuel offset length = .ok ((frames.flatten.drop offset).take length) := by
  induction fuel generalizing offset length with
  | zero =>
    obtain rfl := Nat.le_zero.mp hfuel
    rfl
  | succ fuel ih =>
    cases length with
    | zero => rfl
    | succ length =>
      obtain ⟨chunk, hok, hprefix, hnonempty⟩ := chunkFrames_eq offset (length + 1)
        (show offset < frames.flatten.length by omega) (by omega)
      have hpos := List.length_pos_iff.mpr (hnonempty (Nat.succ_pos length))
      have hlength := hprefix.length_le
      rw [List.length_take, List.length_drop] at hlength
      have hrest := ih (show offset + chunk.length + (length + 1 - chunk.length) ≤ frames.flatten.length by
        omega) (by omega)
      change (chunkFrames frames offset (length + 1) >>= _) = _
      rw [hok]
      change (readChunks _ _ _ _ >>= _) = _
      rw [hrest, ← List.drop_drop, ← List.drop_take]
      exact congrArg Except.ok (List.prefix_iff_eq_append.mp hprefix)

end Frames

/-- The item is decoded: both ways to read at its position give its data. -/
structure DecodedItem (frames : List (List UInt8)) (decoded : DataItem) (item : InputItem) : Prop where
  ident : decoded.ident = item.identifier
  key : decoded.key = item.key.toNat
  size : decoded.data.size = item.data.length
  read : ∀ buffer : List UInt8, buffer.length = decoded.data.size →
    (DataContext.bytes frames).read decoded.data.offset buffer = (item.data, pure ())
  chunks : readChunks (.bytes frames) decoded.data.size decoded.data.offset decoded.data.size =
    .ok item.data

structure DecodedSet (frames : List (List UInt8)) (decoded : Option DataSet) (set : InputSet) : Prop where
  set : ∃ dataSet, decoded = some dataSet ∧ dataSet.ident = set.identifier ∧
    List.Forall₂ (DecodedItem frames) dataSet.buffers set.items

theorem HoldsItem.decoded {frames : List (List UInt8)} {decoded : DataItem} {item : InputItem}
    (h : HoldsItem frames.flatten decoded item) (hlength : frames.flatten.length < 2 ^ 31) :
    DecodedItem frames decoded item := by
  obtain ⟨rest, hrest, hdata⟩ := h.data
  have hpos := List.length_pos_iff.mpr hrest
  have hsize := h.size
  have hextent := congrArg List.length hdata
  rw [List.length_drop, List.length_append] at hextent
  have hlimit : 2 * frames.flatten.length < Usize.limit := by
    rw [Usize.limit]
    omega
  refine ⟨h.ident, h.key, hsize, fun buffer hbuffer => ?_, ?_⟩
  · change readFrames frames decoded.data.offset buffer = _
    rw [readFrames_eq (by omega) (by omega), hdata, hbuffer, hsize, List.take_left]
  · rw [readChunks_bytes decoded.data.size (by omega) hlimit (Nat.le_refl _), hdata, hsize, List.take_left]

/-- A request is decoded from every split into frames that are not empty, if there is memory for its
strings. -/
theorem fromBytesVec_bytes (alloc : Allocator) (request : DandelionRequest)
    (halloc : ∀ n < request.bytes.length, alloc n = true) (hlength : request.bytes.length < 2 ^ 31)
    {frames : List (List UInt8)} (hframes : frames.flatten = request.bytes) (hnonempty : [] ∉ frames) :
    ∃ context, fromBytesVec alloc frames request.bytes.length = .ok (request.name, context) ∧
      context.frames = frames ∧ List.Forall₂ (DecodedSet frames) context.content request.sets := by
  have hfits : ∀ n < request.bytes.length, alloc.fits n = true := by
    intro n hn
    have hmax : n ≤ Usize.isizeMax := by
      rw [Usize.isizeMax]
      omega
    rw [Allocator.fits, halloc n hn, decide_eq_true hmax, Bool.and_true, Bool.or_true]
  have hstart : Stands request.bytes ⟨frames, request.bytes.length, 0, 0⟩
      (leBytes 4 request.bytes.length ++ messageBody request ++ []) := by
    rw [List.append_nil, ← bytes_eq_messageBody]
    refine ⟨List.suffix_rfl, frames, ?_, hframes, hnonempty⟩
    rw [← hframes]
    exact represents_start frames
  obtain ⟨⟨name, length, sets⟩, buf', hexec, ⟨rfl, rfl, hsets⟩, -⟩ :=
    reads_readMessage request hfits hlength _ hstart
  obtain ⟨merged, hok, -⟩ := occupySpace_inside (show request.bytes.length < Usize.limit by
    rw [Usize.limit]; omega) (inContext_cleared request.bytes.length)
    (show 0 + request.bytes.length ≤ request.bytes.length by omega)
  refine ⟨⟨frames, request.bytes.length, sets, .inPreparation, merged⟩, ?_, rfl, ?_⟩
  · rw [fromBytesVec, hexec]
    change (occupySpace _ _ _ _ _ >>= _) = _
    rw [hok]
    rfl
  · rw [← hframes] at hsets hlength
    refine hsets.imp fun decoded set hset => ?_
    obtain ⟨dataSet, rfl, hholds⟩ := hset
    exact ⟨dataSet, rfl, hholds.ident, hholds.buffers.imp fun _ _ hitem => hitem.decoded hlength⟩

/-- One set with an item of two bytes, in frames that cut a name, a length and the data. -/
def splitRequest : DandelionRequest := ⟨"f", [⟨"s", [⟨"i", 7, [1, 2]⟩]⟩]⟩

def splitFrames : List (List UInt8) :=
  [splitRequest.bytes.take 7, (splitRequest.bytes.drop 7).take 11, splitRequest.bytes.drop 18]

theorem splitRequest_decoded :
    ∃ context, fromBytesVec (fun _ => true) splitFrames splitRequest.bytes.length = .ok ("f", context) ∧
      context.frames = splitFrames ∧
      List.Forall₂ (DecodedSet splitFrames) context.content splitRequest.sets :=
  fromBytesVec_bytes (fun _ => true) splitRequest (fun _ _ => rfl) (by decide +kernel)
    (by decide +kernel) (by decide +kernel)

end Dandelion
