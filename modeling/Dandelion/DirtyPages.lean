import Dandelion.BitRuns
import Dandelion.ContextValidity
import Mathlib.Data.List.GetD

/-!
# The dirty log

After a function has run, the loop at the end of `run` goes through the dirty log of its
memory, one bit for each page, and gives the pages that were written to the storage. It
takes a word at a time, with separate branches for empty and full words, and carries the
pages it has counted over to the next word. It is defined over any `insert`, so that its
calls can be told apart from what they do.
-/

namespace Dandelion

open Outcome BitRuns

abbrev DirtyWord := BitVec 64

namespace DirtyWord

/-- `trailing_zeros` -/
def trailingZeros (word : DirtyWord) : Nat := word.ctz.toNat

/-- `trailing_ones` -/
def trailingOnes (word : DirtyWord) : Nat := (~~~word).ctz.toNat

theorem trailingZeros_zero : 64 ≤ trailingZeros 0 := by
  by_contra hlt
  have hctz : (0 : DirtyWord).ctz < ((64 : Nat) : BitVec 64) := by
    rw [BitVec.lt_def, show ((64 : Nat) : BitVec 64).toNat = 64 from rfl]
    exact Nat.lt_of_not_le hlt
  exact BitVec.ctz_lt_iff_ne_zero.mp hctz rfl

/-- `word >> n` -/
def shiftRight (word : DirtyWord) (n : Nat) : DandelionResult DirtyWord :=
  if n < 64 then pure (word >>> n) else crash

theorem shiftRight_eq_ok (word : DirtyWord) {n : Nat} (h : n < 64) :
    word.shiftRight n = .ok (word >>> n) :=
  if_pos h

end DirtyWord

section Log

variable {σ : Type} (insert : σ → Nat → Nat → DandelionResult σ)

/-- Insert the counted pages before `endPage`. -/
def insertRun (endPage contiguousPages : Nat) (s : σ) : DandelionResult σ := do
  let stop ← Usize.mul .checked endPage pageSize
  let bytes ← Usize.mul .checked contiguousPages pageSize
  let start ← Usize.sub .checked stop bytes
  insert s start stop

/-- Insert the pages counted before a word. -/
def insertBefore (dirtyIndex contiguousPages : Nat) (s : σ) : DandelionResult σ := do
  let endPage ← Usize.mul .checked dirtyIndex 64
  insertRun insert endPage contiguousPages s

/-- The variables of the loop over the bits of a word. -/
structure WordState (σ : Type) where
  s : σ
  localDirty : DirtyWord
  bitsProcessed : Nat
  contiguousPages : Nat
  trailingZeros : Nat

/-- One round of the loop over the bits of a word. -/
def wordRound (dirtyIndex : Nat) (state : WordState σ) :
    DandelionResult (WordState σ ⊕ σ × Nat) :=
  if 64 ≤ state.trailingZeros then pure (.inr (state.s, state.contiguousPages))
  else do
    let localDirty ← state.localDirty.shiftRight state.trailingZeros
    let bitsProcessed := state.bitsProcessed + state.trailingZeros
    let trailingOnes := localDirty.trailingOnes
    let contiguousPages ← Usize.add .checked state.contiguousPages trailingOnes
    let localDirty ← localDirty.shiftRight trailingOnes
    let bitsProcessed := bitsProcessed + trailingOnes
    -- the ones reach the end of the word: the next word goes on with them
    if 64 ≤ bitsProcessed then pure (.inr (state.s, contiguousPages))
    else do
      let bits ← Usize.mul .checked dirtyIndex 64
      let endPage ← Usize.add .checked bits bitsProcessed
      let s ← insertRun insert endPage contiguousPages state.s
      pure (.inl { s, localDirty, bitsProcessed, contiguousPages := 0,
                   trailingZeros := localDirty.trailingZeros })

/-- One word of the log; the pages counted at its end are returned. A round of the loop over
its bits takes at least one of them. -/
def dirtyWord (dirtyIndex : Nat) (word : DirtyWord) (s : σ) (contiguousPages : Nat) :
    DandelionResult (σ × Nat) :=
  if word = 0 then
    if 0 < contiguousPages then do
      let s ← insertBefore insert dirtyIndex contiguousPages s
      pure (s, 0)
    else pure (s, contiguousPages)
  else if word = BitVec.allOnes 64 then do
    let contiguousPages ← Usize.add .checked contiguousPages 64
    pure (s, contiguousPages)
  else do
    let trailingZeros := word.trailingZeros
    let (s, contiguousPages) ←
      if trailingZeros ≠ 0 ∧ contiguousPages ≠ 0 then do
        let s ← insertBefore insert dirtyIndex contiguousPages s
        pure (s, 0)
      else pure (s, contiguousPages)
    loop (wordRound insert dirtyIndex) 65
      { s, localDirty := word, bitsProcessed := 0, contiguousPages, trailingZeros }

/-- The words of the log from `dirtyIndex` on, and what is left over behind them. -/
def dirtyWords : List DirtyWord → Nat → σ → Nat → DandelionResult σ
  | [], dirtyIndex, s, contiguousPages =>
    if 0 < contiguousPages then insertBefore insert dirtyIndex contiguousPages s else pure s
  | word :: words, dirtyIndex, s, contiguousPages => do
    let (s, contiguousPages) ← dirtyWord insert dirtyIndex word s contiguousPages
    dirtyWords words (dirtyIndex + 1) s contiguousPages

def applyDirtyLog (dirtyLog : List DirtyWord) (s : σ) : DandelionResult σ :=
  dirtyWords insert dirtyLog 0 s 0

/-- Insert runs of pages, in order. -/
def insertRuns (runs : List (Nat × Nat)) (s : σ) : DandelionResult σ :=
  runs.foldlM (fun s r => insert s (r.1 * pageSize) (r.2 * pageSize)) s

/-- The byte bounds of the runs are addresses. -/
def InReach (runs : List (Nat × Nat)) : Prop := ∀ r ∈ runs, r.2 * pageSize < Usize.limit

omit insert in
theorem InReach.append_left {runs runs' : List (Nat × Nat)} (h : InReach (runs ++ runs')) :
    InReach runs :=
  fun r hr => h r (List.mem_append_left _ hr)

omit insert in
theorem InReach.append_right {runs runs' : List (Nat × Nat)} (h : InReach (runs ++ runs')) :
    InReach runs' :=
  fun r hr => h r (List.mem_append_right _ hr)

omit insert in
theorem InReach.lt_limit {bits : List Bool} {p c : Nat} (h : InReach (runsFrom bits p c))
    (hle : c ≤ p) : c < Usize.limit := by
  by_cases hpos : 0 < c
  · obtain ⟨r, hr, hstop⟩ := exists_stop_ge bits p c hpos
    have := Nat.le_mul_of_pos_right r.2 pageSize_pos
    have := h r hr
    omega
  · unfold Usize.limit
    omega

@[simp] theorem insertRuns_nil (s : σ) : insertRuns insert [] s = .ok s := rfl

theorem insertRuns_append (runs runs' : List (Nat × Nat)) (s : σ) :
    insertRuns insert (runs ++ runs') s =
      insertRuns insert runs s >>= fun s => insertRuns insert runs' s :=
  List.foldlM_append

variable {insert}

theorem insertRun_eq {p c : Nat} (hle : c ≤ p) (hp : p * pageSize < Usize.limit) (s : σ) :
    insertRun insert p c s = insert s ((p - c) * pageSize) (p * pageSize) := by
  have hmul : c * pageSize ≤ p * pageSize := Nat.mul_le_mul_right _ hle
  rw [insertRun, Usize.mul_eq_ok hp, ok_bind, Usize.mul_eq_ok (by omega), ok_bind,
    Usize.sub_eq_ok hmul, ok_bind, ← Nat.sub_mul]

theorem insertRun_flushed {p c : Nat} (hle : c ≤ p) (hreach : InReach (flushed p c))
    (hpos : 0 < c) (s : σ) : insertRun insert p c s = insertRuns insert (flushed p c) s := by
  rw [flushed_pos p hpos] at hreach ⊢
  have hlt : p * pageSize < Usize.limit := hreach (p - c, p) (List.mem_singleton_self _)
  rw [insertRun_eq hle hlt, insertRuns, List.foldlM_cons]
  simp only [List.foldlM_nil, bind_pure]

omit insert in
theorem InReach.page_lt {p c : Nat} (h : InReach (flushed p c)) (hpos : 0 < c) :
    p < Usize.limit := by
  have hlt : p * pageSize < Usize.limit := h (p - c, p) ((mem_flushed _ _ _).mpr ⟨hpos, rfl⟩)
  exact Nat.lt_of_le_of_lt (Nat.le_mul_of_pos_right p pageSize_pos) hlt

theorem insertBefore_eq {i c : Nat} (hle : c ≤ i * 64) (hreach : InReach (flushed (i * 64) c))
    (hpos : 0 < c) (s : σ) :
    insertBefore insert i c s = insertRuns insert (flushed (i * 64) c) s := by
  have hlt : i * 64 * pageSize < Usize.limit := 
    hreach (i * 64 - c, i * 64) ((mem_flushed _ _ _).mpr ⟨hpos, rfl⟩)
  have := Nat.le_mul_of_pos_right (i * 64) pageSize_pos
  rw [insertBefore, Usize.mul_eq_ok (by omega), ok_bind, insertRun_flushed hle hreach hpos]

/-- A word between two rounds: below `n` are the bits that are left. -/
structure Unfinished (word : DirtyWord) (n : Nat) : Prop where
  not_full : word ≠ BitVec.allOnes 64
  high : ∀ {i}, n ≤ i → word.getLsbD i = false

omit insert in
/-- What a round takes off a word: zeros, ones, and a zero behind them or the end. -/
theorem Unfinished.round {word : DirtyWord} {n : Nat} (h : Unfinished word n) (hne : word ≠ 0) :
    let shifted : DirtyWord := word >>> word.trailingZeros
    word.trailingZeros < 64 ∧ 0 < shifted.trailingOnes ∧ shifted.trailingOnes < 64 ∧
      word.trailingZeros + shifted.trailingOnes ≤ n ∧ shifted.getLsbD shifted.trailingOnes = false ∧
      wordBits word n = List.replicate word.trailingZeros false ++
        (List.replicate shifted.trailingOnes true ++
          wordBits (shifted >>> shifted.trailingOnes)
            (n - (word.trailingZeros + shifted.trailingOnes))) := by
  intro shifted
  have hbit : word.getLsbD word.trailingZeros = true := BitVec.getLsbD_true_ctz_of_ne_zero hne
  have hlt : word.trailingZeros < 64 := BitVec.lt_of_getLsbD hbit
  have hn : word.trailingZeros < n := by
    by_contra hle
    rw [h.high (Nat.le_of_not_lt hle)] at hbit
    cases hbit
  obtain ⟨hones, hzero⟩ : shifted.trailingOnes < 64 ∧ shifted.getLsbD shifted.trailingOnes = false :=
    getLsbD_trailing_ones shifted (ushiftRight_ctz_ne_allOnes word h.not_full)
  have hbits := wordBits_ones shifted (Nat.le_refl shifted.trailingOnes) (Nat.le_of_lt hones)
  have hget : ∀ i, shifted.getLsbD i = word.getLsbD (word.trailingZeros + i) :=
    fun i => BitVec.getLsbD_ushiftRight ..
  have hpos : 0 < shifted.trailingOnes := by
    by_contra hz
    rw [Nat.eq_zero_of_not_pos hz, hget, Nat.add_zero, hbit] at hzero
    cases hzero
  have hle : word.trailingZeros + shifted.trailingOnes ≤ n := by
    by_contra hlt'
    have hone := (List.map_eq_replicate_iff.mp (hbits.trans (by rw [List.length_range])))
      (n - word.trailingZeros) (List.mem_range.mpr (by omega))
    rw [hget, h.high (by omega)] at hone
    cases hone
  refine ⟨hlt, hpos, hones, hle, hzero, ?_⟩
  rw [← wordBits_zeros word (Nat.le_refl word.trailingZeros), ← hbits, ← wordBits_add,
    ← wordBits_add]
  congr 1
  omega

omit insert in
theorem Unfinished.next {word : DirtyWord} {n k m : Nat} (h : Unfinished word n) (hkm : 0 < k + m) :
    Unfinished ((word >>> k) >>> m) (n - (k + m)) := by
  have hget : ∀ i, ((word >>> k) >>> m).getLsbD i = word.getLsbD (k + (m + i)) := by
    intro i
    rw [BitVec.getLsbD_ushiftRight, BitVec.getLsbD_ushiftRight]
  constructor
  · intro heq
    have hlast := hget 63
    rw [heq, BitVec.getLsbD_of_ge word _ (by omega)] at hlast
    cases hlast
  · intro i hi
    rw [hget]
    exact h.high (by omega)

/-- The loop over the bits of a word inserts the runs that end in it, and returns the pages
counted at its end. -/
theorem loop_wordRound {i : Nat} (rest : List Bool) (fuel : Nat) {n : Nat} {word : DirtyWord}
    (h : Unfinished word n) {bitsProcessed c : Nat} (hn : bitsProcessed + n = 64)
    (hle : c ≤ i * 64 + bitsProcessed) (hzeros : 0 < word.trailingZeros → c = 0)
    (hreach : InReach (runsFrom (wordBits word n ++ rest) (i * 64 + bitsProcessed) c))
    (hfuel : n < fuel) (s : σ) :
    loop (wordRound insert i) fuel ⟨s, word, bitsProcessed, c, word.trailingZeros⟩ =
      insertRuns insert (closed (wordBits word n) (i * 64 + bitsProcessed) c) s >>=
        fun s => pure (s, pending (wordBits word n) c) := by
  induction fuel generalizing n word bitsProcessed c s with
  | zero => omega
  | succ fuel ih =>
    rw [loop_succ, wordRound]
    by_cases hne : word = 0
    · -- no bit is left
      subst hne
      have hdone := DirtyWord.trailingZeros_zero
      obtain rfl := hzeros (by omega)
      have hbits : wordBits (0 : DirtyWord) n = List.replicate n false :=
        wordBits_congr _ fun _ _ => BitVec.getLsbD_zero
      rw [if_pos hdone, hbits, closed_zeros, pending_zeros]
      rfl
    · obtain ⟨hlt, hpos, hones, hsum, hzero, hbits⟩ := h.round hne
      set shifted : DirtyWord := word >>> word.trailingZeros with hshifted
      have hnext := h.next (k := word.trailingZeros) (Nat.lt_add_left _ hpos)
      rw [← hshifted] at hnext
      rw [hbits, List.append_assoc, List.append_assoc, runsFrom_zeros_ones _ _ _ hzeros] at hreach
      have hcount : c + shifted.trailingOnes < Usize.limit := hreach.lt_limit (by omega)
      rw [hbits, closed_zeros_ones _ _ _ hzeros, pending_zeros_ones _ _ hzeros,
        if_neg (Nat.not_le_of_lt hlt), DirtyWord.shiftRight_eq_ok _ hlt, ok_bind, ← hshifted]
      dsimp only
      rw [Usize.add_eq_ok hcount, ok_bind, DirtyWord.shiftRight_eq_ok _ hones, ok_bind]
      by_cases hend : 64 ≤ bitsProcessed + word.trailingZeros + shifted.trailingOnes
      · obtain hzero : n - (word.trailingZeros + shifted.trailingOnes) = 0 := by omega
        rw [if_pos hend, hzero]
        rfl
      · have hleft : 0 < n - (word.trailingZeros + shifted.trailingOnes) := by omega
        have hhead := head?_wordBits (shifted >>> shifted.trailingOnes) hleft
        rw [BitVec.getLsbD_ushiftRight, Nat.add_zero, hzero] at hhead
        rw [runsFrom_head _ _ (by rw [List.head?_append, hhead]; rfl)] at hreach
        have hlast := hreach.append_left.page_lt (by omega)
        rw [if_neg hend, Usize.mul_eq_ok (by omega), ok_bind, Nat.add_assoc bitsProcessed,
          Usize.add_eq_ok (by omega), ok_bind, ← Nat.add_assoc (i * 64),
          insertRun_flushed (by omega) hreach.append_left (by omega), closed_head _ _ hhead,
          pending_head _ hhead, insertRuns_append, bind_assoc, bind_assoc]
        congr 1
        funext s
        have htotal : bitsProcessed + (word.trailingZeros + shifted.trailingOnes) +
            (n - (word.trailingZeros + shifted.trailingOnes)) = 64 := by omega
        rw [Nat.add_assoc (i * 64)] at hreach ⊢
        exact ih hnext htotal (Nat.zero_le _) (fun _ => rfl) hreach.append_right (by omega) s

theorem loop_fullWord {i : Nat} (rest : List Bool) {word : DirtyWord}
    (h : word ≠ BitVec.allOnes 64) {c : Nat} (hle : c ≤ i * 64)
    (hzeros : 0 < word.trailingZeros → c = 0)
    (hreach : InReach (runsFrom (wordBits word 64 ++ rest) (i * 64) c)) (s : σ) :
    loop (wordRound insert i) 65 ⟨s, word, 0, c, word.trailingZeros⟩ =
      insertRuns insert (closed (wordBits word 64) (i * 64) c) s >>=
        fun s => pure (s, pending (wordBits word 64) c) := by
  have hword : Unfinished word 64 := ⟨h, fun hi => BitVec.getLsbD_of_ge word _ hi⟩
  rw [← Nat.add_zero (i * 64)] at hle hreach ⊢
  exact loop_wordRound rest 65 hword (Nat.zero_add 64) hle hzeros hreach (Nat.lt_succ_self 64) s

/-- One word of the log: the runs that end in it, and the pages counted at its end. -/
theorem dirtyWord_eq {i : Nat} (word : DirtyWord) (rest : List Bool) {c : Nat} (hle : c ≤ i * 64)
    (hreach : InReach (runsFrom (wordBits word 64 ++ rest) (i * 64) c)) (s : σ) :
    dirtyWord insert i word s c = insertRuns insert (closed (wordBits word 64) (i * 64) c) s >>=
      fun s => pure (s, pending (wordBits word 64) c) := by
  have hflush : (wordBits word 64).head? = some false → 0 < c →
      insertBefore insert i c s = insertRuns insert (flushed (i * 64) c) s := by
    intro hhead hpos
    rw [runsFrom_head _ _ (by rw [List.head?_append, hhead]; rfl)] at hreach
    exact insertBefore_eq hle hreach.append_left hpos s
  rw [dirtyWord]
  by_cases hzero : word = 0
  · subst hzero
    have hbits : wordBits (0 : DirtyWord) 64 = List.replicate 64 false :=
      wordBits_congr _ fun _ _ => BitVec.getLsbD_zero
    have hhead : (wordBits (0 : DirtyWord) 64).head? = some false := by rw [hbits]; rfl
    rw [if_pos rfl]
    by_cases hpos : 0 < c
    · rw [if_pos hpos, hflush hhead hpos, closed_head _ _ hhead, pending_head _ hhead, hbits,
        closed_zeros, pending_zeros, List.append_nil]
    · obtain rfl := Nat.eq_zero_of_not_pos hpos
      rw [if_neg hpos, hbits, closed_zeros, pending_zeros]
      rfl
  · rw [if_neg hzero]
    by_cases hfull : word = BitVec.allOnes 64
    · have hbits : wordBits word 64 = List.replicate 64 true := by
        apply wordBits_congr
        intro j hj
        rw [hfull, BitVec.getLsbD_allOnes, decide_eq_true hj]
      rw [hbits, runsFrom_append, closed_ones, pending_ones, List.nil_append] at hreach
      have hcount : c + 64 < Usize.limit := hreach.lt_limit (by rw [List.length_replicate]; omega)
      rw [if_pos hfull, Usize.add_eq_ok hcount, ok_bind, hbits, closed_ones, pending_ones]
      rfl
    · rw [if_neg hfull]
      by_cases hcut : word.trailingZeros ≠ 0 ∧ c ≠ 0
      · obtain ⟨hz, hc⟩ := hcut
        have hhead : (wordBits word 64).head? = some false := by
          rw [head?_wordBits word (by decide),
            BitVec.getLsbD_false_of_lt_ctz (Nat.pos_of_ne_zero hz)]
        rw [runsFrom_head _ _ (by rw [List.head?_append, hhead]; rfl)] at hreach
        rw [if_pos ⟨hz, hc⟩, hflush hhead (Nat.pos_of_ne_zero hc), closed_head _ _ hhead,
          pending_head _ hhead, insertRuns_append, bind_assoc]
        congr 1
        funext s
        exact loop_fullWord rest hfull (Nat.zero_le _) (fun _ => rfl) hreach.append_right s
      · rw [if_neg hcut]
        exact loop_fullWord rest hfull hle (by omega) hreach s

/-- The bits of the log, the lowest page first. -/
def logBits (words : List DirtyWord) : List Bool := words.flatMap (wordBits · 64)

/-- The words of the log from one on: the runs in them are inserted in order. -/
theorem dirtyWords_eq (words : List DirtyWord) {i c : Nat} (hle : c ≤ i * 64)
    (hreach : InReach (runsFrom (logBits words) (i * 64) c)) (s : σ) :
    dirtyWords insert words i s c = insertRuns insert (runsFrom (logBits words) (i * 64) c) s := by
  induction words generalizing i c s with
  | nil =>
    rw [logBits, List.flatMap_nil, runsFrom_nil] at hreach ⊢
    rw [dirtyWords]
    by_cases hpos : 0 < c
    · rw [if_pos hpos, insertBefore_eq hle hreach hpos]
    · obtain rfl := Nat.eq_zero_of_not_pos hpos
      rw [if_neg hpos]
      rfl
  | cons word words ih =>
    have hnext : i * 64 + (wordBits word 64).length = (i + 1) * 64 := by
      rw [length_wordBits]
      omega
    have hcount := pending_le (wordBits word 64) (i * 64) c hle
    rw [logBits, List.flatMap_cons, ← logBits] at hreach ⊢
    rw [dirtyWords, dirtyWord_eq word _ hle hreach]
    rw [runsFrom_append, hnext] at hreach ⊢
    rw [hnext] at hcount
    rw [insertRuns_append, bind_assoc]
    congr 1
    funext s
    exact ih hcount hreach.append_right s

/-- The loop over the dirty log inserts the runs of set bits, in order. -/
theorem applyDirtyLog_eq {dirtyLog : List DirtyWord}
    (hreach : InReach (runsFrom (logBits dirtyLog) 0 0)) (s : σ) :
    applyDirtyLog insert dirtyLog s = insertRuns insert (runsFrom (logBits dirtyLog) 0 0) s := by
  have hstart : runsFrom (logBits dirtyLog) (0 * 64) 0 = runsFrom (logBits dirtyLog) 0 0 := by
    rw [Nat.zero_mul]
  rw [applyDirtyLog, dirtyWords_eq dirtyLog (Nat.le_refl _) (by rwa [hstart]), hstart]

end Log

/-- The bit of a page in the log. -/
def dirtyBit (dirtyLog : List DirtyWord) (page : Nat) : Bool :=
  (dirtyLog.getD (page / 64) 0).getLsbD (page % 64)

theorem getD_logBits (dirtyLog : List DirtyWord) (page : Nat) :
    (logBits dirtyLog).getD page false = dirtyBit dirtyLog page := by
  induction dirtyLog generalizing page with
  | nil => exact BitVec.getLsbD_zero.symm
  | cons word words ih =>
    rw [logBits, List.flatMap_cons, ← logBits, dirtyBit]
    by_cases hlt : page < 64
    · rw [List.getD_append _ _ _ _ (by rwa [length_wordBits]), Nat.div_eq_of_lt hlt,
        Nat.mod_eq_of_lt hlt, wordBits, List.getD_eq_getElem?_getD, List.getElem?_map,
        List.getElem?_range hlt]
      rfl
    · obtain ⟨rest, rfl⟩ := Nat.exists_eq_add_of_le (Nat.le_of_not_lt hlt)
      rw [List.getD_append_right _ _ _ _ (by rw [length_wordBits]; omega), length_wordBits,
        Nat.add_sub_cancel_left, ih, dirtyBit, Nat.add_mod_left, Nat.add_div_left _ (by decide)]
      rfl

theorem dirtyRun_le {dirtyLog : List DirtyWord} {start stop : Nat}
    (h : IsRun (dirtyBit dirtyLog) start stop) : stop ≤ dirtyLog.length * 64 := by
  have hlt := h.lt
  have hone := h.ones (i := stop - 1) (by omega) (by omega)
  by_contra hgt
  have hzero : (0 : DirtyWord).getLsbD ((stop - 1) % 64) = false := BitVec.getLsbD_zero
  rw [dirtyBit, List.getD_eq_default _ _ (by omega), hzero] at hone
  cases hone

namespace KvmContext

open Segments

/-- What the loop does with a run: the range is in the storage. -/
def takeIntoStorage (context : KvmContext) (start stop : Nat) : DandelionResult KvmContext :=
  insertIntoOverlay context start stop none

theorem takeIntoStorage_spec {context : KvmContext} (h : PagedOverlay context.overlay) {a b : Nat}
    (hab : a < b) :
    ∃ overlay, takeIntoStorage context (a * pageSize) (b * pageSize) =
        .ok ⟨overlay, context.storage⟩ ∧ PagedOverlay overlay ∧ ∀ o, locate overlay o =
          if a ≤ o / pageSize ∧ o / pageSize < b then some none else locate context.overlay o := by
  have hbytes : a * pageSize < b * pageSize := Nat.mul_lt_mul_of_pos_right hab pageSize_pos
  refine ⟨_, insertIntoOverlay_eq h.separate h.addressable hbytes none context.storage,
    h.planEdit hbytes (Dvd.intro_left _ rfl) (Dvd.intro_left _ rfl) (fun _ heq => by cases heq),
    fun o => ?_⟩
  have hiff : a * pageSize ≤ o ∧ o < b * pageSize ↔ a ≤ o / pageSize ∧ o / pageSize < b := by
    rw [Nat.le_div_iff_mul_le pageSize_pos, Nat.div_lt_iff_lt_mul pageSize_pos]
  rw [locate_planEdit h.separate hbytes none, vadd_none, if_congr hiff rfl rfl]

/-- Inserting runs of pages moves these pages into the storage and no others. -/
theorem insertRuns_takeIntoStorage (runs : List (Nat × Nat)) (hruns : ∀ r ∈ runs, r.1 < r.2)
    {context : KvmContext} (h : PagedOverlay context.overlay) :
    ∃ overlay, insertRuns takeIntoStorage runs context = .ok ⟨overlay, context.storage⟩ ∧
      PagedOverlay overlay ∧ ∀ o, locate overlay o =
        if ∃ r ∈ runs, r.1 ≤ o / pageSize ∧ o / pageSize < r.2 then some none
        else locate context.overlay o := by
  induction runs generalizing context with
  | nil => exact ⟨_, rfl, h, fun o => by simp⟩
  | cons r runs ih =>
    obtain ⟨first, hinsert, hpaged, hfirst⟩ :=
      takeIntoStorage_spec h (hruns r List.mem_cons_self)
    obtain ⟨overlay, hrest, hkept, hlocate⟩ :=
      ih (fun r' hr' => hruns r' (List.mem_cons_of_mem _ hr'))
        (show PagedOverlay (KvmContext.mk first context.storage).overlay from hpaged)
    refine ⟨overlay, ?_, hkept, fun o => ?_⟩
    · rw [insertRuns, List.foldlM_cons, hinsert, ok_bind]
      exact hrest
    · rw [hlocate, hfirst]
      by_cases hin : r.1 ≤ o / pageSize ∧ o / pageSize < r.2
      · rw [if_pos hin, ite_self, if_pos ⟨r, List.mem_cons_self, hin⟩]
      · have hiff : (∃ r' ∈ r :: runs, r'.1 ≤ o / pageSize ∧ o / pageSize < r'.2) ↔
            ∃ r' ∈ runs, r'.1 ≤ o / pageSize ∧ o / pageSize < r'.2 := by simp [hin]
        rw [if_neg hin, if_congr hiff rfl rfl]

/-- The loop over the dirty log inserts each maximal run of set bits once, in ascending order and
with its bounds in bytes. Afterwards the pages of the log are in the storage and the others are
where they were. -/
theorem applyDirtyLog_runs (dirtyLog : List DirtyWord)
    (hbytes : ∀ start stop, IsRun (dirtyBit dirtyLog) start stop → stop * pageSize < Usize.limit) :
    ∃ runs : List (Nat × Nat), (∀ r, r ∈ runs ↔ IsRun (dirtyBit dirtyLog) r.1 r.2) ∧
      (runs.Pairwise fun r r' => r.2 < r'.1) ∧
      (∀ {σ : Type} (insert : σ → Nat → Nat → DandelionResult σ) (s : σ),
        applyDirtyLog insert dirtyLog s =
          runs.foldlM (fun s r => insert s (r.1 * pageSize) (r.2 * pageSize)) s) ∧
      ∀ context : KvmContext, PagedOverlay context.overlay →
        ∃ overlay, applyDirtyLog takeIntoStorage dirtyLog context =
            .ok ⟨overlay, context.storage⟩ ∧ PagedOverlay overlay ∧
          ∀ o, locate overlay o =
            if dirtyBit dirtyLog (o / pageSize) then some none else locate context.overlay o := by
  have hbits : (fun page => (logBits dirtyLog).getD page false) = dirtyBit dirtyLog :=
    funext (getD_logBits dirtyLog)
  have hruns : ∀ r, r ∈ runsFrom (logBits dirtyLog) 0 0 ↔ IsRun (dirtyBit dirtyLog) r.1 r.2 := by
    intro r
    rw [mem_runs_iff, hbits]
  have hreach : InReach (runsFrom (logBits dirtyLog) 0 0) :=
    fun r hr => hbytes r.1 r.2 ((hruns r).mp hr)
  refine ⟨runsFrom (logBits dirtyLog) 0 0, hruns, pairwise_runsFrom _ 0 0 (Nat.le_refl 0),
    fun insert s => applyDirtyLog_eq hreach s, fun context h => ?_⟩
  obtain ⟨overlay, hinsert, hpaged, hlocate⟩ :=
    insertRuns_takeIntoStorage _ (fun r hr => ((hruns r).mp hr).lt) h
  refine ⟨overlay, (applyDirtyLog_eq hreach context).trans hinsert, hpaged, fun o => ?_⟩
  rw [hlocate, if_congr (exists_run _ _) rfl rfl, getD_logBits]

/-- The last page of the first word and the first page of the next are one run. -/
def crossingLog : List DirtyWord := [0x8000000000000001, 1]

theorem pagedOverlay_empty : PagedOverlay .empty := by
  refine ⟨⟨?_, ?_⟩, ?_, ?_⟩
  · intro last start v hget
    cases hget
  · intro last start v last' start' v' hget
    cases hget
  · intro last start item hget
    cases hget
  · intro last start item hget
    cases hget

theorem crossingLog_taken : ∃ overlay,
    applyDirtyLog takeIntoStorage crossingLog ⟨.empty, []⟩ = .ok ⟨overlay, []⟩ ∧
      PagedOverlay overlay ∧ ∀ o, locate overlay o =
        if dirtyBit crossingLog (o / pageSize) then some none else none := by
  have hbytes : ∀ start stop, IsRun (dirtyBit crossingLog) start stop →
      stop * pageSize < Usize.limit := by
    intro start stop hrun
    have hle : stop ≤ 2 * 64 := dirtyRun_le hrun
    unfold pageSize Usize.limit
    omega
  obtain ⟨runs, -, -, -, htaken⟩ := applyDirtyLog_runs crossingLog hbytes
  exact htaken ⟨.empty, []⟩ pagedOverlay_empty

end KvmContext

end Dandelion
