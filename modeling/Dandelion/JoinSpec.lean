import Dandelion.KeyedInnerJoin
import Mathlib.Order.Bounds.Basic

/-!
# Keyed joins against their description

A join over a set of keys has one entry for each of them, with all items of the
key on either side and nothing where a side has none. Inner, left, right and
outer joins differ in the keys they range over. For each strategy the inputs on
which `get_sharding` returns that join are described exactly.
-/

namespace Dandelion

open Outcome JoinIterator CompositionSet

variable {Ctx : Type}

namespace CompositionSet

/-- The items of `s` with key `k`, or nothing if there are none. -/
def group (s : CompositionSet Ctx) (k : Nat) : Option (CompositionSet Ctx) :=
  if k ∈ s.keys then some (s.withKey k) else none

def keySet (s : CompositionSet Ctx) : Finset Nat := s.keys.toFinset

@[simp] theorem mem_keySet (s : CompositionSet Ctx) (k : Nat) : k ∈ s.keySet ↔ k ∈ s.keys :=
  List.mem_toFinset

theorem keySet_val (s : CompositionSet Ctx) : s.keySet.val = (s.keysDesc : Multiset Nat) :=
  (Finset.sort_eq _ _).symm

end CompositionSet

/-- The entry a join has for key `k`. -/
def joinEntry (setNum i : Nat) (A : CompositionSet Ctx) (j : Nat) (B : CompositionSet Ctx)
    (k : Nat) : Entry Ctx :=
  pairEntry setNum i (A.group k) j (B.group k)

/-- `es` has exactly one entry for every key of `K`, and no other. -/
def JoinsOver (setNum i : Nat) (A : CompositionSet Ctx) (j : Nat) (B : CompositionSet Ctx)
    (K : Finset Nat) (es : List (Entry Ctx)) : Prop :=
  (es : Multiset (Entry Ctx)) = K.val.map (joinEntry setNum i A j B)

section Keys

variable (A B : CompositionSet Ctx) {setNum i j : Nat}

/-- The sides of a join on which key `k` has items. -/
def keyPair (k : Nat) : Option Nat × Option Nat :=
  (if k ∈ A.keys then some k else none, if k ∈ B.keys then some k else none)

/-- Both keys of the pair occur on their side. -/
def Occurs (keys : Option Nat × Option Nat) : Prop :=
  (∀ k ∈ keys.1, k ∈ A.keys) ∧ ∀ k ∈ keys.2, k ∈ B.keys

/-- Read the pair of keys back from an entry. -/
def readKeys (i j : Nat) (entry : Entry Ctx) : Option Nat × Option Nat :=
  (entry[i]?.join.map firstKey, entry[j]?.join.map firstKey)

theorem occurs_keyPair (k : Nat) : Occurs A B (keyPair A B k) := by
  constructor
  · intro k' hk'
    simp only [keyPair] at hk'
    split at hk' <;> simp_all
  · intro k' hk'
    simp only [keyPair] at hk'
    split at hk' <;> simp_all

theorem keyEntry_keyPair (k : Nat) :
    keyEntry setNum i A j B (keyPair A B k) = joinEntry setNum i A j B k := by
  simp only [keyEntry, keyPair, joinEntry, group, apply_ite (Option.map _), Option.map_some,
    Option.map_none]

variable {A B}

theorem readKeys_keyEntry (hi : i < setNum) (hj : j < setNum) (hij : i ≠ j)
    {keys : Option Nat × Option Nat} (h : Occurs A B keys) :
    readKeys i j (keyEntry setNum i A j B keys) = keys := by
  have hleft : (keyEntry setNum i A j B keys)[i]? = some (keys.1.map A.withKey) := by
    rw [keyEntry, pairEntry, List.getElem?_set_ne (Ne.symm hij)]
    simp [hi]
  have hright : (keyEntry setNum i A j B keys)[j]? = some (keys.2.map B.withKey) := by
    rw [keyEntry, pairEntry]
    simp [hj]
  obtain ⟨x, y⟩ := keys
  rw [readKeys, hleft, hright]
  apply Prod.ext
  · cases x with
    | none => rfl
    | some k => exact congrArg some (A.firstKey_withKey (h.1 k rfl))
  · cases y with
    | none => rfl
    | some k => exact congrArg some (B.firstKey_withKey (h.2 k rfl))

theorem joinsOver_iff (hi : i < setNum) (hj : j < setNum) (hij : i ≠ j)
    {pairs : List (Option Nat × Option Nat)} (h : ∀ p ∈ pairs, Occurs A B p) (K : Finset Nat) :
    JoinsOver setNum i A j B K (pairs.map (keyEntry setNum i A j B)) ↔
      (pairs : Multiset (Option Nat × Option Nat)) = K.val.map (keyPair A B) := by
  have hentries : K.val.map (joinEntry setNum i A j B) =
      (K.val.map (keyPair A B)).map (keyEntry setNum i A j B) := by
    rw [Multiset.map_map]
    exact Multiset.map_congr rfl (fun k _ => (keyEntry_keyPair A B k).symm)
  rw [JoinsOver, hentries, ← Multiset.map_coe]
  constructor
  · intro he
    have hread := congrArg (Multiset.map (readKeys i j)) he
    rw [Multiset.map_map, Multiset.map_map, Multiset.map_congr rfl, Multiset.map_id] at hread
    · rw [hread]
      conv_rhs => rw [← Multiset.map_id (K.val.map (keyPair A B))]
      apply Multiset.map_congr rfl
      intro p hp
      obtain ⟨k, -, rfl⟩ := Multiset.mem_map.mp hp
      exact readKeys_keyEntry hi hj hij (occurs_keyPair A B k)
    · intro p hp
      exact readKeys_keyEntry hi hj hij (h p hp)
  · intro he
    rw [he]

end Keys
end Dandelion
