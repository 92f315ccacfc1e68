import Mathlib.Algebra.GroupWithZero.Nat
import Mathlib.Data.List.Basic
import Mathlib.Tactic.Cases

/-!
# BSON documents

A document is a list of named elements between its length, which counts all its bytes, and a null.
The decoder takes a length for what it says: the part of the input it spans has to be exactly one
document, so a decoded document has the extent its length gives, and so has every document in it.
Of the element types there are strings, documents, arrays, binaries and 64-bit integers. Encoding
and decoding again gives back every document whose length fits the four bytes of a signed integer.
-/

namespace Bson

section Bytes

def utf8Bytes (s : String) : List UInt8 := s.toByteArray.data.toList

theorem utf8Bytes_append (s t : String) : utf8Bytes (s ++ t) = utf8Bytes s ++ utf8Bytes t := by
  simp [utf8Bytes, String.toByteArray_append]

theorem utf8Bytes_ofList (chars : List Char) :
    utf8Bytes (String.ofList chars) = chars.flatMap String.utf8EncodeChar := by
  rw [utf8Bytes, String.toByteArray_ofList, List.utf8Encode, List.data_toByteArray]

theorem utf8Bytes_inj {s t : String} (h : utf8Bytes s = utf8Bytes t) : s = t := by
  rw [← String.toByteArray_inj]
  apply ByteArray.ext
  exact Array.toList_inj.mp h

theorem fromUTF8?_eq_some_iff {bytes : List UInt8} {s : String} :
    String.fromUTF8? ⟨bytes.toArray⟩ = some s ↔ utf8Bytes s = bytes := by
  rw [String.fromUTF8?]
  split
  · rw [Option.some.injEq]
    constructor
    · rintro rfl
      rfl
    · intro hs
      apply utf8Bytes_inj
      rw [hs]
      rfl
  · next h =>
    refine iff_of_false nofun fun hs => h ?_
    subst hs
    exact s.isValidUTF8

/-- The low bytes of a number, the lowest one first. -/
def leBytes : Nat → Nat → List UInt8
  | 0, _ => []
  | size + 1, n => UInt8.ofNat n :: leBytes size (n / 256)

/-- The number in bytes, the lowest one first. -/
def ofLeBytes (bytes : List UInt8) : Nat := bytes.foldr (fun b acc => b.toNat + 256 * acc) 0

@[simp] theorem length_leBytes (size n : Nat) : (leBytes size n).length = size := by
  induction size generalizing n with
  | zero => rfl
  | succ size ih => rw [leBytes, List.length_cons, ih]

theorem ofLeBytes_leBytes (size n : Nat) : ofLeBytes (leBytes size n) = n % 256 ^ size := by
  induction size generalizing n with
  | zero => rw [Nat.pow_zero, Nat.mod_one]; rfl
  | succ size ih =>
    rw [leBytes, ofLeBytes, List.foldr_cons, ← ofLeBytes, ih, Nat.pow_succ, Nat.mul_comm (256 ^ size),
      Nat.mod_mul]
    rfl

theorem ofLeBytes_leBytes_of_lt {size n : Nat} (h : n < 256 ^ size) :
    ofLeBytes (leBytes size n) = n := by
  rw [ofLeBytes_leBytes, Nat.mod_eq_of_lt h]

end Bytes

section Documents

/-- The name of an element ends at the first null, so it has none. -/
structure Name where
  text : String
  nullFree : 0 ∉ utf8Bytes text
deriving DecidableEq

theorem digit_of_mem_toString {n : Nat} {b : UInt8} (h : b ∈ utf8Bytes (toString n)) :
    48 ≤ b.toNat ∧ b.toNat ≤ 57 := by
  change b ∈ utf8Bytes (String.ofList (Nat.toDigits 10 n)) at h
  rw [utf8Bytes_ofList, List.mem_flatMap] at h
  obtain ⟨c, hc, hb⟩ := h
  have hdigit := Nat.isDigit_of_mem_toDigits (by omega) (by omega) hc
  simp only [Char.isDigit, Bool.and_eq_true, decide_eq_true_eq, UInt32.le_iff_toNat_le, ge_iff_le] at hdigit
  have hsize : c.utf8Size = 1 := by
    simp only [Char.utf8Size, UInt32.le_iff_toNat_le]
    exact if_pos (Nat.le_trans hdigit.2 (by decide))
  rw [String.utf8EncodeChar_eq_singleton hsize, List.mem_singleton] at hb
  subst hb
  have hlow : 48 ≤ c.val.toNat := hdigit.1
  have hhigh : c.val.toNat ≤ 57 := hdigit.2
  rw [UInt32.toNat_toUInt8]
  omega

/-- The name of an array element is its index. -/
def Name.ofIndex (index : Nat) : Name where
  text := toString index
  nullFree := fun h => absurd (digit_of_mem_toString h).1 (by decide)

mutual

inductive Value where
  | string (text : String)
  | document (elements : Elements)
  | array (elements : Elements)
  | binary (subtype : UInt8) (data : List UInt8)
  | int64 (n : Int64)

inductive Elements where
  | nil
  | cons (name : Name) (value : Value) (rest : Elements)

end

/-- The elements of an array, from an index on. -/
def Elements.ofValues : Nat → List Value → Elements
  | _, [] => .nil
  | index, value :: values => .cons (.ofIndex index) value (ofValues (index + 1) values)

end Documents

section Encoding

def Value.type : Value → UInt8
  | .string _ => 2
  | .document _ => 3
  | .array _ => 4
  | .binary _ _ => 5
  | .int64 _ => 18

def Name.bytes (name : Name) : List UInt8 := utf8Bytes name.text ++ [0]

/-- Elements between their length and a null. -/
def enclose (elements : List UInt8) : List UInt8 :=
  leBytes 4 (elements.length + 5) ++ (elements ++ [0])

mutual

def Value.bytes : Value → List UInt8
  | .string text => leBytes 4 ((utf8Bytes text).length + 1) ++ (utf8Bytes text ++ [0])
  | .document elements => enclose elements.bytes
  | .array elements => enclose elements.bytes
  | .binary subtype data => leBytes 4 data.length ++ subtype :: data
  | .int64 n => leBytes 8 n.toBitVec.toNat

def Elements.bytes : Elements → List UInt8
  | .nil => []
  | .cons name value rest => value.type :: (name.bytes ++ (value.bytes ++ rest.bytes))

end

def encode (elements : Elements) : List UInt8 := enclose elements.bytes

@[simp] theorem length_enclose (elements : List UInt8) :
    (enclose elements).length = elements.length + 5 := by
  simp only [enclose, List.length_append, length_leBytes, List.length_singleton]
  omega

end Encoding

section Decoding

/-- A length, which is a signed integer. -/
def splitLength (bytes : List UInt8) : Option (Nat × List UInt8) :=
  let length := ofLeBytes (bytes.take 4)
  if 4 ≤ bytes.length ∧ length < 2 ^ 31 then some (length, bytes.drop 4) else none

/-- A number of bytes and a null. -/
def splitTerminated (count : Nat) (bytes : List UInt8) : Option (List UInt8 × List UInt8) :=
  match bytes.drop count with
  | last :: rest => if last = 0 then some (bytes.take count, rest) else none
  | [] => none

def splitName (bytes : List UInt8) : Option (Name × List UInt8) := do
  let index ← bytes.findIdx? (· = 0)
  let text ← String.fromUTF8? ⟨(bytes.take index).toArray⟩
  if nullFree : 0 ∉ utf8Bytes text then some (⟨text, nullFree⟩, bytes.drop (index + 1)) else none

def splitString (bytes : List UInt8) : Option (String × List UInt8) := do
  let (length, bytes) ← splitLength bytes
  if 0 < length then do
    let (text, rest) ← splitTerminated (length - 1) bytes
    let text ← String.fromUTF8? ⟨text.toArray⟩
    some (text, rest)
  else none

/-- The elements of a document, which end where its length says and with a null. -/
def splitDocument (bytes : List UInt8) : Option (List UInt8 × List UInt8) := do
  let (length, bytes) ← splitLength bytes
  if 5 ≤ length then splitTerminated (length - 5) bytes else none

def splitBinary (bytes : List UInt8) : Option ((UInt8 × List UInt8) × List UInt8) := do
  let (length, bytes) ← splitLength bytes
  match bytes with
  | subtype :: bytes =>
    if length ≤ bytes.length then some ((subtype, bytes.take length), bytes.drop length) else none
  | [] => none

def splitInt64 (bytes : List UInt8) : Option (Int64 × List UInt8) :=
  if 8 ≤ bytes.length then
    some (.ofBitVec (.ofNat 64 (ofLeBytes (bytes.take 8))), bytes.drop 8)
  else none

/-- The value of an element of this type, given how the elements of a document are decoded. -/
def splitValue (decodeInner : List UInt8 → Option Elements) (type : UInt8) (bytes : List UInt8) :
    Option (Value × List UInt8) :=
  match type with
  | 2 => do
    let (text, rest) ← splitString bytes
    some (.string text, rest)
  | 3 => do
    let (inner, rest) ← splitDocument bytes
    let elements ← decodeInner inner
    some (.document elements, rest)
  | 4 => do
    let (inner, rest) ← splitDocument bytes
    let elements ← decodeInner inner
    some (.array elements, rest)
  | 5 => do
    let ((subtype, data), rest) ← splitBinary bytes
    some (.binary subtype data, rest)
  | 18 => do
    let (n, rest) ← splitInt64 bytes
    some (.int64 n, rest)
  | _ => none

/-- The elements that these bytes are. Documents and the rest are shorter than the bytes, so their
number is fuel enough. -/
def decodeElements : Nat → List UInt8 → Option Elements
  | _, [] => some .nil
  | 0, _ :: _ => none
  | fuel + 1, type :: bytes => do
    let (name, bytes) ← splitName bytes
    let (value, bytes) ← splitValue (decodeElements fuel) type bytes
    let rest ← decodeElements fuel bytes
    some (.cons name value rest)

/-- The one document that these bytes are. -/
def decode (bytes : List UInt8) : Option Elements :=
  match splitDocument bytes with
  | some (inner, []) => decodeElements inner.length inner
  | _ => none

end Decoding

section RoundTrip

theorem splitLength_append {length : Nat} (h : length < 2 ^ 31) (rest : List UInt8) :
    splitLength (leBytes 4 length ++ rest) = some (length, rest) := by
  have htake : (leBytes 4 length ++ rest).take 4 = leBytes 4 length := List.take_left' (length_leBytes ..)
  have hdrop : (leBytes 4 length ++ rest).drop 4 = rest := List.drop_left' (length_leBytes ..)
  have hlength : ofLeBytes (leBytes 4 length) = length := ofLeBytes_leBytes_of_lt (Nat.lt_trans h (by decide))
  rw [splitLength, htake, hdrop, hlength]
  exact if_pos ⟨by simp, h⟩

theorem splitTerminated_append {inner : List UInt8} {count : Nat} (h : inner.length = count)
    (rest : List UInt8) : splitTerminated count (inner ++ 0 :: rest) = some (inner, rest) := by
  rw [splitTerminated, List.drop_left' h, List.take_left' h]
  exact if_pos rfl

theorem findIdx?_terminated {bytes : List UInt8} (h : 0 ∉ bytes) (rest : List UInt8) :
    (bytes ++ 0 :: rest).findIdx? (· = 0) = some bytes.length := by
  rw [List.findIdx?_append, List.findIdx?_cons, if_pos (decide_eq_true rfl),
    List.findIdx?_eq_none_iff.mpr]
  · exact congrArg some (Nat.zero_add _)
  · intro b hb
    exact decide_eq_false fun hzero => h (hzero ▸ hb)

theorem splitName_append (name : Name) (rest : List UInt8) :
    splitName (name.bytes ++ rest) = some (name, rest) := by
  have htext : String.fromUTF8? ⟨(utf8Bytes name.text).toArray⟩ = some name.text :=
    fromUTF8?_eq_some_iff.mpr rfl
  have hdrop : (utf8Bytes name.text ++ 0 :: rest).drop ((utf8Bytes name.text).length + 1) = rest := by
    rw [← List.drop_drop, List.drop_left]
    rfl
  rw [Name.bytes, List.append_assoc, List.singleton_append]
  simp only [splitName, findIdx?_terminated name.nullFree, Option.bind_eq_bind, Option.bind_some,
    List.take_left, htext, hdrop, dif_pos name.nullFree]

theorem splitString_append {text : String} (h : (utf8Bytes text).length + 1 < 2 ^ 31)
    (rest : List UInt8) :
    splitString ((Value.string text).bytes ++ rest) = some (text, rest) := by
  have htext : String.fromUTF8? ⟨(utf8Bytes text).toArray⟩ = some text :=
    fromUTF8?_eq_some_iff.mpr rfl
  have hinner := splitTerminated_append (Nat.add_sub_cancel (utf8Bytes text).length 1).symm rest
  simp only [splitString, Value.bytes, List.append_assoc, splitLength_append h, Option.bind_eq_bind,
    Option.bind_some, Nat.succ_pos, if_true, List.singleton_append, hinner, htext]

theorem splitDocument_append {elements : List UInt8} (h : elements.length + 5 < 2 ^ 31)
    (rest : List UInt8) : splitDocument (enclose elements ++ rest) = some (elements, rest) := by
  have hinner := splitTerminated_append (Nat.add_sub_cancel elements.length 5).symm rest
  simp only [splitDocument, enclose, List.append_assoc, splitLength_append h, Option.bind_eq_bind,
    Option.bind_some, Nat.le_add_left, if_true, List.singleton_append, hinner]

theorem splitBinary_append {data : List UInt8} (h : data.length < 2 ^ 31) (subtype : UInt8)
    (rest : List UInt8) :
    splitBinary ((Value.binary subtype data).bytes ++ rest) = some ((subtype, data), rest) := by
  simp only [splitBinary, Value.bytes, List.append_assoc, splitLength_append h, Option.bind_eq_bind,
    Option.bind_some, List.cons_append, List.take_left, List.drop_left]
  exact if_pos (by simp)

theorem splitInt64_append (n : Int64) (rest : List UInt8) :
    splitInt64 ((Value.int64 n).bytes ++ rest) = some (n, rest) := by
  have hn : ofLeBytes (leBytes 8 n.toBitVec.toNat) = n.toBitVec.toNat :=
    ofLeBytes_leBytes_of_lt (Nat.lt_of_lt_of_le n.toBitVec.isLt (by decide))
  rw [splitInt64, Value.bytes, if_pos (by simp), List.take_left' (length_leBytes ..),
    List.drop_left' (length_leBytes ..), hn, BitVec.ofNat_toNat, BitVec.setWidth_eq, Int64.ofBitVec_toBitVec]

mutual

theorem splitValue_append (value : Value) (fuel : Nat) (hfuel : value.bytes.length ≤ fuel)
    (h : value.bytes.length < 2 ^ 31) (rest : List UInt8) :
    splitValue (decodeElements fuel) value.type (value.bytes ++ rest) = some (value, rest) := by
  cases value with
  | string text =>
    have hlength : (utf8Bytes text).length + 1 < 2 ^ 31 := by
      simp only [Value.bytes, List.length_append, length_leBytes, List.length_singleton] at h
      omega
    rw [Value.type, splitValue]
    simp only [splitString_append hlength, Option.bind_eq_bind, Option.bind_some]
  | document elements =>
    rw [Value.bytes, length_enclose] at h hfuel
    have helements := decodeElements_bytes elements fuel (by omega) (by omega)
    rw [Value.type, splitValue]
    simp only [Value.bytes, splitDocument_append h, Option.bind_eq_bind, Option.bind_some, helements]
  | array elements =>
    rw [Value.bytes, length_enclose] at h hfuel
    have helements := decodeElements_bytes elements fuel (by omega) (by omega)
    rw [Value.type, splitValue]
    simp only [Value.bytes, splitDocument_append h, Option.bind_eq_bind, Option.bind_some, helements]
  | binary subtype data =>
    have hlength : data.length < 2 ^ 31 := by
      simp only [Value.bytes, List.length_append, List.length_cons] at h
      omega
    rw [Value.type, splitValue]
    simp only [splitBinary_append hlength, Option.bind_eq_bind, Option.bind_some]
  | int64 n =>
    rw [Value.type, splitValue]
    simp only [splitInt64_append, Option.bind_eq_bind, Option.bind_some]

theorem decodeElements_bytes (elements : Elements) (fuel : Nat)
    (hfuel : elements.bytes.length ≤ fuel) (h : elements.bytes.length < 2 ^ 31) :
    decodeElements fuel elements.bytes = some elements := by
  cases elements with
  | nil =>
    cases fuel with
    | zero => rfl
    | succ fuel => rfl
  | cons name value rest =>
    rw [Elements.bytes] at hfuel h ⊢
    rw [List.length_cons, List.length_append, List.length_append] at hfuel h
    cases fuel with
    | zero => omega
    | succ fuel =>
      have hvalue := splitValue_append value fuel (by omega) (by omega) rest.bytes
      have hrest := decodeElements_bytes rest fuel (by omega) (by omega)
      simp only [decodeElements, splitName_append, Option.bind_eq_bind, Option.bind_some, hvalue, hrest]

end

theorem decode_encode (elements : Elements) (h : (encode elements).length < 2 ^ 31) :
    decode (encode elements) = some elements := by
  rw [encode, length_enclose] at h
  have hsplit := splitDocument_append h []
  rw [List.append_nil] at hsplit
  rw [decode, encode, hsplit]
  exact decodeElements_bytes elements _ (Nat.le_refl _) (by omega)

end RoundTrip

end Bson
