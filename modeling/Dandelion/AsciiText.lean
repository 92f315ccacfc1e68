import Dandelion.Bson

/-!
# ASCII in UTF-8 text

The bytes of a text below 128 are its ASCII characters, so a text can be cut at one of them by its
bytes or by its characters alike. A text of words with single white space between them is split
into the words.
-/

namespace AsciiText

open Bson

/-- `char::is_ascii_whitespace` -/
def isAsciiWhitespace (c : Char) : Bool :=
  c == ' ' || c == '\t' || c == '\n' || c == '\x0c' || c == '\r'

/-- `str::split_ascii_whitespace`, all the items of the iterator. -/
def splitAsciiWhitespace (text : String) : List String :=
  ((text.toList.splitOnP isAsciiWhitespace).filter fun piece => !piece.isEmpty).map String.ofList

/-- A word has characters, and no white space. -/
structure IsWord (word : String) : Prop where
  ne_nil : word.toList ≠ []
  black : ∀ c ∈ word.toList, isAsciiWhitespace c = false

theorem isWord_of_any {word : String} (hne : word.toList.isEmpty = false)
    (h : word.toList.any isAsciiWhitespace = false) : IsWord word :=
  ⟨fun hnil => by simp [hnil] at hne, fun c hc => by simpa using List.any_eq_false.mp h c hc⟩

theorem IsWord.newline_not_mem {word : String} (h : IsWord word) : '\n' ∉ word.toList :=
  fun hmem => absurd (h.black _ hmem) (by decide)

theorem splitAsciiWhitespace_word {word : String} (h : IsWord word) :
    splitAsciiWhitespace word = [word] := by
  rw [splitAsciiWhitespace, List.splitOnP_eq_singleton h.black,
    List.filter_cons_of_pos (by simpa using h.ne_nil)]
  simp

theorem splitAsciiWhitespace_append {word text : String} (h : IsWord word) :
    splitAsciiWhitespace (word ++ " " ++ text) = word :: splitAsciiWhitespace text := by
  have hchars : (word ++ " " ++ text).toList = word.toList ++ ' ' :: text.toList := by
    simp
  rw [splitAsciiWhitespace, hchars, List.splitOnP_append_cons_of_forall_mem h.black ' ' rfl,
    List.filter_cons_of_pos (by simp [h.ne_nil]), List.map_cons, String.ofList_toList]
  rfl

/-- A byte below 128 in the encoding of a character is the character. -/
theorem eq_of_mem_utf8EncodeChar {c : Char} {b : UInt8} (hb : b ∈ String.utf8EncodeChar c)
    (hascii : b.toNat < 128) : c.toNat = b.toNat := by
  have hhigh : ∀ x y : UInt8, 128 ≤ y.toNat → b ≠ x ||| y := by
    intro x y hy heq
    have hle := Nat.right_le_or (n := x.toNat) (m := y.toNat)
    rw [← UInt8.toNat_or, ← heq] at hle
    omega
  rcases c.utf8Size_eq with hsize | hsize | hsize | hsize
  · rw [String.utf8EncodeChar_eq_singleton hsize, List.mem_singleton] at hb
    have hle : c.toNat ≤ 127 := Char.utf8Size_eq_one_iff.mp hsize
    rw [hb, UInt32.toNat_toUInt8]
    exact (Nat.mod_eq_of_lt (show c.toNat < 256 by omega)).symm
  -- every byte of a longer encoding has its highest bit set
  · rw [String.utf8EncodeChar_eq_cons_cons hsize] at hb
    simp only [List.mem_cons, List.not_mem_nil, or_false] at hb
    rcases hb with hb | hb <;> exact absurd hb (hhigh _ _ (by decide))
  · rw [String.utf8EncodeChar_eq_cons_cons_cons hsize] at hb
    simp only [List.mem_cons, List.not_mem_nil, or_false] at hb
    rcases hb with hb | hb | hb <;> exact absurd hb (hhigh _ _ (by decide))
  · rw [String.utf8EncodeChar_eq_cons_cons_cons_cons hsize] at hb
    simp only [List.mem_cons, List.not_mem_nil, or_false] at hb
    rcases hb with hb | hb | hb | hb <;> exact absurd hb (hhigh _ _ (by decide))

theorem exists_of_mem_utf8Bytes {text : String} {b : UInt8} (hb : b ∈ utf8Bytes text)
    (hascii : b.toNat < 128) : ∃ c ∈ text.toList, c.toNat = b.toNat := by
  rw [← String.ofList_toList (s := text), utf8Bytes_ofList, List.mem_flatMap] at hb
  obtain ⟨c, hc, hmem⟩ := hb
  exact ⟨c, hc, eq_of_mem_utf8EncodeChar hmem hascii⟩

end AsciiText
