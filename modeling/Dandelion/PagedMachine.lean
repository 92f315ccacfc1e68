import Dandelion.Paging
import Dandelion.Stateful

/-!
# A processor behind page tables

Loads and stores whose addresses are translated by the page tables in the memory itself, for
code that may use every page but writes only where the tables allow it. The machine keeps the
words it has stored to. `FilledTo` follows the loops that write a page from its start on.
-/

open Outcome Stateful Paging

namespace PagedMachine

/-- The memory by its words, and the words that have been stored to, the latest first. -/
structure Machine where
  memory : Nat → Nat
  stores : List Nat

/-- The sign of an address is that of its 48th bit. -/
def Canonical (address : Nat) : Prop :=
  address < 2 ^ 47 ∨ (2 ^ 64 - 2 ^ 47 ≤ address ∧ address < 2 ^ 64)

instance (address : Nat) : Decidable (Canonical address) := inferInstanceAs (Decidable (_ ∨ _))

def translate (memory : Nat → Nat) (root address : Nat) : Option Translation :=
  if Canonical address then walk memory root (address / 4096) else none

/-- The words from the word `start` on. -/
def wordsAt (memory : Nat → Nat) (start n : Nat) : List Nat :=
  (List.range n).map fun i => memory (start + i)

/-- The memory with the given words from the word `start` on. -/
def writeWords (memory : Nat → Nat) (start : Nat) (values : List Nat) : Nat → Nat := fun w =>
  if start ≤ w ∧ w < start + values.length then values.getD (w - start) 0 else memory w

section Access

variable {ε : Type} (fault : ε) (root : Nat)

def loadWords (address n : Nat) : Stateful ε Machine (List Nat) := do
  let machine ← get
  match translate machine.memory root address with
  | some t => pure (wordsAt machine.memory (512 * t.frame + address % 4096 / 8) n)
  | none => lift (fail fault)

def load (address : Nat) : Stateful ε Machine Nat := do
  let words ← loadWords fault root address 1
  return words.getD 0 0

def storeWords (address : Nat) (values : List Nat) : Stateful ε Machine PUnit := do
  let machine ← get
  match translate machine.memory root address with
  | some t =>
    if t.writable then
      let start := 512 * t.frame + address % 4096 / 8
      set (Machine.mk (writeWords machine.memory start values)
        ((List.range values.length).map (start + ·) ++ machine.stores))
    else lift (fail fault)
  | none => lift (fail fault)

/-- Load vectors of four words one after the other. -/
def loadVectors (address : Nat) : Nat → Stateful ε Machine (List (List Nat))
  | 0 => pure []
  | n + 1 => do
    let vectors ← loadVectors address n
    let vector ← loadWords fault root (address + 32 * n) 4
    return vectors ++ [vector]

/-- Store vectors of four words one after the other. -/
def storeVectors (address : Nat) (vectors : List (List Nat)) (n : Nat) : Stateful ε Machine PUnit :=
  times (fun i => storeWords fault root (address + 32 * i) (vectors.getD i [])) n

end Access

/-! ## Effects -/

/-- The tables translate a page in the same way whatever the words of the frame `f` are. -/
def Stable (root : Nat) (memory : Nat → Nat) (f page : Nat) (t : Translation) : Prop :=
  ∀ memory', (∀ w, w / 512 ≠ f → memory' w = memory w) → walk memory' root page = some t

/-- What has been stored since lies in the given frames. -/
def StoredIn (frames : Nat → Prop) (machine machine' : Machine) : Prop :=
  ∀ w ∈ machine'.stores, w ∈ machine.stores ∨ frames (w / 512)

theorem StoredIn.refl (frames : Nat → Prop) (machine : Machine) : StoredIn frames machine machine :=
  fun _ hw => Or.inl hw

theorem StoredIn.trans {frames : Nat → Prop} {machine machine' machine'' : Machine}
    (h : StoredIn frames machine machine') (h' : StoredIn frames machine' machine'') :
    StoredIn frames machine machine'' := by
  intro w hw
  rcases h' w hw with hold | hnew
  · exact h w hold
  · exact Or.inr hnew

theorem StoredIn.mono {frames frames' : Nat → Prop} {machine machine' : Machine}
    (h : StoredIn frames machine machine') (hsub : ∀ f, frames f → frames' f) :
    StoredIn frames' machine machine' := by
  intro w hw
  rcases h w hw with hold | hnew
  · exact Or.inl hold
  · exact Or.inr (hsub _ hnew)

/-- The first `n` words of a frame have been written. -/
def fillTo (memory : Nat → Nat) (f : Nat) (g : Nat → Nat) (n : Nat) : Nat → Nat := fun w =>
  if w / 512 = f ∧ w % 512 < n then g (w % 512) else memory w

/-- All words of a frame have been written. -/
def fillFrame (memory : Nat → Nat) (f : Nat) (g : Nat → Nat) : Nat → Nat := fun w =>
  if w / 512 = f then g (w % 512) else memory w

theorem fillTo_zero (memory : Nat → Nat) (f : Nat) (g : Nat → Nat) : fillTo memory f g 0 = memory := by
  funext w
  exact if_neg (by omega)

theorem fillTo_full (memory : Nat → Nat) (f : Nat) (g : Nat → Nat) :
    fillTo memory f g 512 = fillFrame memory f g := by
  funext w
  have hlt : w % 512 < 512 := Nat.mod_lt _ (by decide)
  simp only [fillTo, fillFrame, hlt, and_true]

theorem fillTo_of_ne {memory : Nat → Nat} {f : Nat} {g : Nat → Nat} {n w : Nat} (h : w / 512 ≠ f) :
    fillTo memory f g n w = memory w :=
  if_neg fun hin => h hin.1

theorem writeWords_singleton (memory : Nat → Nat) (start value : Nat) :
    writeWords memory start [value] = Function.update memory start value := by
  funext w
  rw [Function.update_apply]
  unfold writeWords
  by_cases h : w = start
  · rw [if_pos h, if_pos (by simp [h]), h, Nat.sub_self]
    rfl
  · rw [if_neg h, if_neg (by simp only [List.length_singleton]; omega)]

theorem length_wordsAt (memory : Nat → Nat) (start n : Nat) : (wordsAt memory start n).length = n := by
  rw [wordsAt, List.length_map, List.length_range]

theorem writeWords_fillTo {memory : Nat → Nat} {f n c : Nat} {g : Nat → Nat} (h : n + c ≤ 512) :
    writeWords (fillTo memory f g n) (512 * f + n) (wordsAt g n c) = fillTo memory f g (n + c) := by
  funext w
  unfold writeWords
  rw [length_wordsAt]
  by_cases hin : 512 * f + n ≤ w ∧ w < 512 * f + n + c
  · have hindex : w - (512 * f + n) < c := by omega
    have hword : n + (w - (512 * f + n)) = w % 512 := by omega
    rw [if_pos hin, fillTo, if_pos (by omega), wordsAt, List.getD_eq_getElem?_getD,
      List.getElem?_map, List.getElem?_range hindex, Option.map_some, Option.getD_some, hword]
  · rw [if_neg hin]
    unfold fillTo
    by_cases hbefore : w / 512 = f ∧ w % 512 < n
    · rw [if_pos hbefore, if_pos (by omega)]
    · rw [if_neg hbefore, if_neg (by omega)]

/-- The first `n` words of the frame `f` have been written, and nothing else. -/
def FilledTo (start : Machine) (f : Nat) (g : Nat → Nat) (n : Nat) (machine : Machine) : Prop :=
  machine.memory = fillTo start.memory f g n ∧ StoredIn (· = f) start machine

theorem filledTo_zero (start : Machine) (f : Nat) (g : Nat → Nat) : FilledTo start f g 0 start :=
  ⟨(fillTo_zero _ _ _).symm, StoredIn.refl _ _⟩

/-- A whole frame has been written, and nothing else. -/
def Filled (start : Machine) (f : Nat) (g : Nat → Nat) (machine : Machine) : Prop :=
  machine.memory = fillFrame start.memory f g ∧ StoredIn (· = f) start machine

theorem FilledTo.filled {start machine : Machine} {f : Nat} {g : Nat → Nat}
    (h : FilledTo start f g 512 machine) : Filled start f g machine :=
  ⟨h.1.trans (fillTo_full _ _ _), h.2⟩

section Rules

variable {ε : Type} {fault : ε} {root : Nat} {machine start : Machine} {E : Machine → Prop}
  {page f n : Nat} {g : Nat → Nat} {t : Translation}

theorem translate_eq (memory : Nat → Nat) (hpage : page < 2 ^ 35) (hn : n < 512) :
    translate memory root (4096 * page + 8 * n) = walk memory root page := by
  have hdiv : (4096 * page + 8 * n) / 4096 = page := by omega
  rw [translate, if_pos (show Canonical _ from Or.inl (by omega)), hdiv]

theorem word_of_address (hn : n < 512) : (4096 * page + 8 * n) % 4096 / 8 = n := by omega

theorem exec_loadWords (k : Nat) (hpage : page < 2 ^ 35) (hn : n < 512)
    (h : walk machine.memory root page = some t) :
    exec (loadWords fault root (4096 * page + 8 * n) k) machine
      = (.ok (wordsAt machine.memory (512 * t.frame + n) k), machine) := by
  rw [loadWords, exec_get_bind, translate_eq _ hpage hn, h, word_of_address hn]
  rfl

theorem exec_load (hpage : page < 2 ^ 35) (hn : n < 512)
    (h : walk machine.memory root page = some t) :
    exec (load fault root (4096 * page + 8 * n)) machine
      = (.ok (machine.memory (512 * t.frame + n)), machine) := by
  rw [load, exec_bind_ok (exec_loadWords 1 hpage hn h)]
  rfl

theorem exec_load_absent (hpage : page < 2 ^ 35) (hn : n < 512)
    (h : walk machine.memory root page = none) :
    exec (load fault root (4096 * page + 8 * n)) machine = (fail fault, machine) := by
  have hwords : exec (loadWords fault root (4096 * page + 8 * n) 1) machine = (fail fault, machine) := by
    rw [loadWords, exec_get_bind, translate_eq _ hpage hn, h]
    rfl
  rw [load, exec_bind_error hwords]
  rfl

theorem exec_storeWords {values : List Nat} (hpage : page < 2 ^ 35) (hn : n < 512) {user : Bool}
    (h : walk machine.memory root page = some ⟨f, true, user⟩) :
    exec (storeWords fault root (4096 * page + 8 * n) values) machine
      = (.ok ⟨⟩, ⟨writeWords machine.memory (512 * f + n) values,
          (List.range values.length).map (512 * f + n + ·) ++ machine.stores⟩) := by
  rw [storeWords, exec_get_bind, translate_eq _ hpage hn, h, word_of_address hn]
  rfl

theorem exec_storeWords_absent {values : List Nat} (hpage : page < 2 ^ 35) (hn : n < 512)
    (h : walk machine.memory root page = none) :
    exec (storeWords fault root (4096 * page + 8 * n) values) machine = (fail fault, machine) := by
  rw [storeWords, exec_get_bind, translate_eq _ hpage hn, h]
  rfl

theorem runs_storeWords {values : List Nat} (hpage : page < 2 ^ 35) (hn : n + values.length ≤ 512)
    (hpos : n < 512) {user : Bool} (h : walk machine.memory root page = some ⟨f, true, user⟩) :
    Runs (storeWords fault root (4096 * page + 8 * n) values) machine
      (fun _ machine' => machine'.memory = writeWords machine.memory (512 * f + n) values
        ∧ StoredIn (· = f) machine machine') E := by
  rw [Runs, exec_storeWords hpage hpos h]
  refine ⟨rfl, fun w hw => ?_⟩
  rcases List.mem_append.mp hw with hnew | hold
  · obtain ⟨i, hi, rfl⟩ := List.mem_map.mp hnew
    have := List.mem_range.mp hi
    right
    dsimp only
    omega
  · exact Or.inl hold

theorem runs_storeWords_filling {user : Bool} {c : Nat} (hpage : page < 2 ^ 35)
    (hstable : Stable root start.memory f page ⟨f, true, user⟩) (hn : n + c ≤ 512) (hpos : n < 512)
    (h : FilledTo start f g n machine) :
    Runs (storeWords fault root (4096 * page + 8 * n) (wordsAt g n c)) machine
      (fun _ => FilledTo start f g (n + c)) E := by
  have hwalk : walk machine.memory root page = some ⟨f, true, user⟩ := by
    apply hstable
    intro w hw
    rw [h.1, fillTo_of_ne hw]
  apply (runs_storeWords hpage (by rw [length_wordsAt]; exact hn) hpos hwalk).imp
  rintro _ machine' ⟨hmemory, hstored⟩
  rw [h.1, writeWords_fillTo hn] at hmemory
  exact ⟨hmemory, h.2.trans hstored⟩

theorem runs_storeVectors {user : Bool} {vectors : List (List Nat)} {k : Nat} (hpage : page < 2 ^ 35)
    (hstable : Stable root start.memory f page ⟨f, true, user⟩) (hk : n + 4 * k ≤ 512)
    (hvectors : ∀ i < k, vectors.getD i [] = wordsAt g (n + 4 * i) 4)
    (h : FilledTo start f g n machine) :
    Runs (storeVectors fault root (4096 * page + 8 * n) vectors k) machine
      (fun _ => FilledTo start f g (n + 4 * k)) E := by
  apply runs_times (fun i => FilledTo start f g (n + 4 * i)) h
  intro i hi machine' h'
  have haddress : 4096 * page + 8 * n + 32 * i = 4096 * page + 8 * (n + 4 * i) := by omega
  rw [hvectors i hi, haddress]
  exact runs_storeWords_filling hpage hstable (by omega) (by omega) h'

theorem runs_loadVectors {k : Nat} (hpage : page < 2 ^ 35)
    (h : walk machine.memory root page = some t) (hk : n + 4 * k ≤ 512) :
    Runs (loadVectors fault root (4096 * page + 8 * n) k) machine
      (fun vectors machine' => machine' = machine ∧ vectors.length = k
        ∧ ∀ i < k, vectors.getD i [] = wordsAt machine.memory (512 * t.frame + (n + 4 * i)) 4) E := by
  induction k with
  | zero => exact ⟨rfl, rfl, fun i hi => by omega⟩
  | succ k ih =>
    rw [loadVectors]
    apply (ih (by omega)).bind
    rintro vectors machine' ⟨rfl, hlength, hvectors⟩
    have haddress : 4096 * page + 8 * n + 32 * k = 4096 * page + 8 * (n + 4 * k) := by omega
    rw [haddress, runs_bind_ok (exec_loadWords 4 hpage (by omega) h)]
    refine ⟨rfl, ?_, fun i hi => ?_⟩
    · rw [List.length_append, hlength, List.length_singleton]
    · by_cases hlast : i = k
      · rw [hlast, ← hlength, List.getD_append_right _ _ _ _ (le_refl _), Nat.sub_self]
        rfl
      · rw [List.getD_append _ _ _ _ (by omega)]
        exact hvectors i (by omega)

end Rules

end PagedMachine
