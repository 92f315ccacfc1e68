import Dandelion.JoinIterator
import Mathlib.Tactic.Ring

/-!
# Steps of a join chain

What every step of a chain of cursors keeps: the shards, the write position and
the strategy of each node. A step that reports success lowers `moves`, so every
loop of the join code ends, and a chain panics only where one of its nodes is
an inner join.
-/

namespace Dandelion

open Outcome JoinIterator

variable {Ctx : Type}

theorem keyAt_eq {right : List (CompositionSet Ctx)} {index : Nat} {set : CompositionSet Ctx}
    (h : right[index]? = some set) (hne : set.itemList ≠ []) :
    keyAt right index = pure set.firstKey := by
  cases hl : set.itemList with
  | nil => exact absurd hl hne
  | cons item rest => simp [keyAt, h, hl, CompositionSet.firstKey]

/-- A list of shards as a node holds it: not empty, and no shard is. -/
structure Shards (right : List (CompositionSet Ctx)) : Prop where
  ne_nil : right ≠ []
  shard_ne_nil : ∀ set ∈ right, set.itemList ≠ []

theorem Shards.length_pos {right : List (CompositionSet Ctx)} (h : Shards right) :
    0 < right.length := List.length_pos_iff.mpr h.ne_nil

theorem Shards.keyAt_lt {right : List (CompositionSet Ctx)} (h : Shards right) {index : Nat}
    (hi : index < right.length) : keyAt right index = pure (right[index]).firstKey :=
  keyAt_eq (List.getElem?_eq_getElem hi) (h.shard_ne_nil _ (List.getElem_mem hi))

theorem Shards.of_shard (s : CompositionSet Ctx) (mode : ShardingMode) (hs : s.itemList ≠ []) :
    Shards (s.shard mode) :=
  ⟨(s.shard_nonempty mode hs).1, (s.shard_nonempty mode hs).2⟩

/-- The part of a node no step changes. -/
def JoinNode.shape (node : JoinNode Ctx) : List (CompositionSet Ctx) × Nat × JoinStrategy :=
  (node.right, node.writeIndex, node.mode)

namespace JoinIterator

def shape (it : JoinIterator Ctx) : List (List (CompositionSet Ctx) × Nat × JoinStrategy) :=
  it.map JoinNode.shape

/-- A chain the join code builds: proper shards everywhere, and the innermost
node, which has no left side, is neither an inner nor a left join. -/
structure Live (it : JoinIterator Ctx) : Prop where
  shards : ∀ node ∈ it, Shards node.right
  root : ∀ node, it.getLast? = some node → node.mode ≠ .inner ∧ node.mode ≠ .left

theorem Live.of_shape {it it' : JoinIterator Ctx} (h : Live it) (hs : shape it' = shape it) :
    Live it' := by
  constructor
  · intro node hnode
    have hmem : node.shape ∈ shape it := hs ▸ List.mem_map_of_mem hnode
    obtain ⟨node', hnode', he⟩ := List.mem_map.mp hmem
    have hr : node'.right = node.right := congrArg Prod.fst he
    exact hr ▸ h.shards node' hnode'
  · intro node hnode
    have hlast : (shape it).getLast? = some node.shape := by
      rw [← hs, shape, List.getLast?_map, hnode]
      rfl
    rw [shape, List.getLast?_map] at hlast
    obtain ⟨node', hnode', he⟩ := Option.map_eq_some_iff.mp hlast
    have hm : node'.mode = node.mode := congrArg (fun p => p.2.2) he
    exact hm ▸ h.root node' hnode'

theorem Live.tail {node : JoinNode Ctx} {left : JoinIterator Ctx} (h : Live (node :: left))
    : Live left := by
  refine ⟨fun n hn => h.shards n (List.mem_cons_of_mem _ hn), fun n hn => h.root n ?_⟩
  rw [List.getLast?_cons, hn, Option.getD_some]

theorem Live.cons {node : JoinNode Ctx} {left : JoinIterator Ctx} (h : Live left)
    (hr : Shards node.right) (hroot : left = [] → node.mode ≠ .inner ∧ node.mode ≠ .left) :
    Live (node :: left) := by
  refine ⟨List.forall_mem_cons.mpr ⟨hr, h.shards⟩, fun last hlast => ?_⟩
  cases left with
  | nil =>
    rw [← Option.some.inj hlast]
    exact hroot rfl
  | cons l ls => exact h.root last hlast

theorem length_of_shape {it it' : JoinIterator Ctx} (hs : shape it' = shape it) :
    it'.length = it.length := by
  simpa [shape] using congrArg List.length hs

theorem ne_nil_of_shape {it it' : JoinIterator Ctx} (hs : shape it' = shape it) (hne : it ≠ []) :
    it' ≠ [] := by
  rw [← List.length_pos_iff, length_of_shape hs]
  exact List.length_pos_iff.mpr hne

theorem moves_cons (node : JoinNode Ctx) (left : JoinIterator Ctx) :
    moves (node :: left) =
      moves left * (node.right.length + 1) + (node.right.length - node.rightIndex) := rfl

theorem moves_le {node node' : JoinNode Ctx} {left left' : JoinIterator Ctx}
    (hr : node'.right = node.right)
    (hi : node.right.length - node'.rightIndex ≤ node.right.length - node.rightIndex)
    (hl : moves left' ≤ moves left) : moves (node' :: left') ≤ moves (node :: left) := by
  rw [moves_cons, moves_cons, hr]
  exact Nat.add_le_add (Nat.mul_le_mul_right _ hl) hi

theorem moves_lt_of_left {node node' : JoinNode Ctx} {left left' : JoinIterator Ctx}
    (hr : node'.right = node.right) (hl : moves left' < moves left) :
    moves (node' :: left') + 1 ≤ moves (node :: left) := by
  rw [moves_cons, moves_cons, hr]
  calc moves left' * (node.right.length + 1) + (node.right.length - node'.rightIndex) + 1
      ≤ moves left' * (node.right.length + 1) + (node.right.length + 1) := by omega
    _ = (moves left' + 1) * (node.right.length + 1) := by ring
    _ ≤ moves left * (node.right.length + 1) := Nat.mul_le_mul_right _ hl
    _ ≤ _ := Nat.le_add_right _ _

theorem moves_lt_of_right {node node' : JoinNode Ctx} {left left' : JoinIterator Ctx}
    (hr : node'.right = node.right) (hi : node.rightIndex < node'.rightIndex)
    (hn : node.rightIndex < node.right.length) (hl : moves left' ≤ moves left) :
    moves (node' :: left') + 1 ≤ moves (node :: left) := by
  rw [moves_cons, moves_cons, hr]
  have := Nat.mul_le_mul_right (node.right.length + 1) hl
  omega

/-- The result of a step: the chain is the same but for its cursors, and a step
that reports success has used up a move. -/
def Stepped (it : JoinIterator Ctx) (r : Bool × JoinIterator Ctx) : Prop :=
  shape r.2 = shape it ∧ moves r.2 + r.1.toNat ≤ moves it

theorem Stepped.moves_le {it it' : JoinIterator Ctx} {moved : Bool} (h : Stepped it (moved, it')) :
    moves it' ≤ moves it := (Nat.le_add_right _ _).trans h.2

theorem Stepped.moves_lt {it it' : JoinIterator Ctx} (h : Stepped it (true, it')) :
    moves it' < moves it := h.2

theorem shape_cons {node node' : JoinNode Ctx} {left left' : JoinIterator Ctx}
    (hn : node'.shape = node.shape) (hl : shape left' = shape left) :
    shape (node' :: left') = shape (node :: left) := by
  simp only [shape, List.map_cons, hn]
  exact congrArg _ hl

end JoinIterator

theorem skipBelow_meets {right : List (CompositionSet Ctx)} (h : Shards right) (bound index : Nat) :
    Meets (skipBelow right bound index)
      (fun j => index ≤ j ∧ (index ≤ right.length → j ≤ right.length) ∧
        (∀ (i : Nat) (_ : index ≤ i) (hi : i < right.length), i < j → right[i].firstKey < bound) ∧
        ∀ hj : j < right.length, bound ≤ right[j].firstKey) (fun _ => False) := by
  apply loop_meets (fun j => index ≤ j ∧ (index ≤ right.length → j ≤ right.length) ∧
    ∀ (i : Nat) (_ : index ≤ i) (hi : i < right.length), i < j → right[i].firstKey < bound)
    (fun j => right.length - j)
  · rintro j ⟨hij, hj, hbelow⟩
    by_cases hlt : j < right.length
    · simp only [hlt, if_true, h.keyAt_lt hlt, pure_bind]
      by_cases hk : right[j].firstKey < bound
      · simp only [hk, if_true, meets_pure, Sum.elim_inl]
        refine ⟨⟨by omega, fun _ => hlt, ?_⟩, by omega⟩
        intro i hii hi hlast
        by_cases hji : i = j
        · subst hji
          exact hk
        · exact hbelow i hii hi (by omega)
      · simp only [hk, if_false, meets_pure, Sum.elim_inr]
        exact ⟨hij, hj, hbelow, fun _ => by omega⟩
    · simp only [hlt, if_false, meets_pure, Sum.elim_inr]
      exact ⟨hij, hj, hbelow, fun hj => hj.elim⟩
  · exact ⟨Nat.le_refl _, id, fun i hii _ hlt => by omega⟩
  · omega

section Steps

variable {step : JoinIterator Ctx → Join (Bool × JoinIterator Ctx)} {left : JoinIterator Ctx}
  {E : Stop Empty → Prop}
  (hstep : ∀ left', shape left' = shape left → Meets (step left') (Stepped left') E)

theorem advanceRoot_steps (node : JoinNode Ctx) (h : Shards node.right)
    (hmode : node.mode ≠ .inner ∧ node.mode ≠ .left) :
    Meets (advanceRoot node) (Stepped [node]) E := by
  have hm : node.mode = .right ∨ node.mode = .outer ∨ node.mode = .cross := by
    cases hmode' : node.mode <;> simp_all
  unfold advanceRoot
  by_cases hlt : node.rightIndex < node.right.length
  · rw [if_pos hlt, if_pos hm]
    by_cases hnext : node.rightIndex + 1 < node.right.length
    · rw [if_pos hnext, h.keyAt_lt hnext]
      exact ⟨rfl, moves_lt_of_right rfl (Nat.lt_succ_self _) hlt (Nat.le_refl _)⟩
    · rw [if_neg hnext]
      exact ⟨rfl, moves_le rfl (Nat.sub_le_sub_left (Nat.le_succ _) _) (Nat.le_refl _)⟩
  · rw [if_neg hlt]
    exact ⟨rfl, Nat.le_refl _⟩

include hstep

theorem advanceLeft_steps (node : JoinNode Ctx) (h : Shards node.right) :
    Meets (advanceLeft step node left) (Stepped (node :: left)) E := by
  apply (hstep left rfl).bind
  rintro ⟨moved, left'⟩ hr
  cases moved with
  | true =>
    apply ((skipBelow_meets h (key left') node.rightIndex).mono (fun _ hj => hj)
      (fun _ hf => hf.elim)).bind
    rintro j ⟨hij, -, -, -⟩
    exact ⟨shape_cons rfl hr.1, moves_lt_of_left rfl hr.moves_lt⟩
  | false => exact ⟨shape_cons rfl hr.1, moves_le rfl (by simp) hr.moves_le⟩

theorem catchUp_steps (k : Nat) (left' : JoinIterator Ctx) (hs : shape left' = shape left) :
    Meets (catchUp step k left') (fun r => shape r = shape left ∧ moves r ≤ moves left') E := by
  apply loop_meets (fun r => shape r = shape left ∧ moves r ≤ moves left')
    moves
  · rintro r ⟨hr, hm⟩
    by_cases hk : key r < k
    · simp only [hk, if_true]
      apply (hstep r hr).bind
      rintro ⟨moved, r'⟩ hr'
      cases moved with
      | true => exact ⟨⟨hr'.1.trans hr, hr'.moves_le.trans hm⟩, hr'.moves_lt⟩
      | false => exact ⟨hr'.1.trans hr, hr'.moves_le.trans hm⟩
    · simp only [hk, if_false, meets_pure, Sum.elim_inr]
      exact ⟨hr, hm⟩
  · exact ⟨hs, Nat.le_refl _⟩
  · exact Nat.lt_succ_self _

theorem advanceRight_steps (node : JoinNode Ctx) (h : Shards node.right) :
    Meets (advanceRight step node left) (Stepped (node :: left)) E := by
  unfold advanceRight
  by_cases hlt : node.rightIndex < node.right.length
  · rw [if_pos hlt]
    by_cases hnext : node.rightIndex + 1 < node.right.length
    · simp only [hnext, if_true, h.keyAt_lt hnext, pure_bind]
      apply (catchUp_steps hstep _ left rfl).bind
      rintro left' ⟨hs, hm⟩
      exact ⟨shape_cons rfl hs, moves_lt_of_right rfl (Nat.lt_succ_self _) hlt hm⟩
    · simp only [hnext, if_false, meets_pure]
      exact ⟨rfl, moves_le rfl (Nat.sub_le_sub_left (Nat.le_succ _) _) (Nat.le_refl _)⟩
  · rw [if_neg hlt]
    exact ⟨rfl, Nat.le_refl _⟩

theorem advanceOuter_steps (node : JoinNode Ctx) (h : Shards node.right) :
    Meets (advanceOuter step node left) (Stepped (node :: left)) E := by
  unfold advanceOuter
  by_cases hlt : node.rightIndex < node.right.length
  · rw [if_pos hlt, h.keyAt_lt hlt, pure_bind]
    by_cases hk : key left = node.right[node.rightIndex].firstKey
    · rw [if_pos hk]
      apply (hstep left rfl).bind
      rintro ⟨moved, left'⟩ hr
      have hright : ∀ key : Nat,
          Stepped (node :: left) (true, { node with rightIndex := node.rightIndex + 1, key } :: left') :=
        fun _ => ⟨shape_cons rfl hr.1, moves_lt_of_right rfl (Nat.lt_succ_self _) hlt hr.moves_le⟩
      by_cases hnext : node.rightIndex + 1 < node.right.length
      · cases moved with
        | true =>
          simp only [hnext, decide_true, h.keyAt_lt hnext, pure_bind, meets_pure]
          exact hright _
        | false =>
          simp only [hnext, decide_true, h.keyAt_lt hnext, pure_bind, meets_pure]
          exact hright _
      · cases moved with
        | true =>
          simp only [hnext, decide_false, meets_pure]
          exact hright _
        | false =>
          simp only [hnext, decide_false, meets_pure]
          exact ⟨shape_cons rfl hr.1, moves_le rfl (Nat.sub_le_sub_left (Nat.le_succ _) _) hr.moves_le⟩
    · rw [if_neg hk]
      exact ⟨rfl, Nat.le_refl _⟩
  · rw [if_neg hlt]
    apply (hstep left rfl).bind
    rintro ⟨moved, left'⟩ hr
    cases moved with
    | true => exact ⟨shape_cons rfl hr.1, moves_lt_of_left rfl hr.moves_lt⟩
    | false => exact ⟨shape_cons rfl hr.1, moves_le rfl (Nat.le_refl _) hr.moves_le⟩

theorem advanceCross_steps (node : JoinNode Ctx) (h : Shards node.right) :
    Meets (advanceCross step node left) (Stepped (node :: left)) E := by
  unfold advanceCross
  by_cases hnext : node.rightIndex + 1 < node.right.length
  · rw [if_pos hnext, h.keyAt_lt hnext]
    exact ⟨rfl, moves_lt_of_right rfl (Nat.lt_succ_self _) (by omega) (Nat.le_refl _)⟩
  · rw [if_neg hnext]
    apply (hstep left rfl).bind
    rintro ⟨moved, left'⟩ hr
    cases moved with
    | true =>
      simp only [if_true, h.keyAt_lt h.length_pos, pure_bind, meets_pure]
      exact ⟨shape_cons rfl hr.1, moves_lt_of_left rfl hr.moves_lt⟩
    | false => exact ⟨shape_cons rfl hr.1, moves_le rfl (by simp) hr.moves_le⟩

theorem innerRound_steps (node : JoinNode Ctx) (l : JoinIterator Ctx) (h : Shards node.right)
    (hl : shape l = shape left) :
    Meets (innerRound step (node, l))
      (Sum.elim (fun p => p.1.shape = node.shape ∧ shape p.2 = shape left ∧
          moves (p.1 :: p.2) < moves (node :: l))
        (fun r => shape r.2 = shape (node :: l) ∧ moves r.2 ≤ moves (node :: l))) E := by
  unfold innerRound
  by_cases hgt : key l < node.key
  · simp only [hgt, if_true]
    apply (hstep l hl).bind
    rintro ⟨moved, l'⟩ hr
    cases moved with
    | true => exact ⟨rfl, hr.1.trans hl, moves_lt_of_left rfl hr.moves_lt⟩
    | false => exact ⟨shape_cons rfl hr.1, moves_le rfl (Nat.le_refl _) hr.moves_le⟩
  · simp only [hgt, if_false]
    by_cases hlt : node.key < key l
    · simp only [hlt, if_true]
      by_cases hnext : node.rightIndex + 1 < node.right.length
      · simp only [hnext, if_true, h.keyAt_lt hnext, pure_bind, meets_pure, Sum.elim_inl]
        exact ⟨rfl, hl, moves_lt_of_right rfl (Nat.lt_succ_self _) (by omega) (Nat.le_refl _)⟩
      · simp only [hnext, if_false, meets_pure, Sum.elim_inr]
        exact ⟨rfl, moves_le rfl (Nat.sub_le_sub_left (Nat.le_succ _) _) (Nat.le_refl _)⟩
    · simp only [hlt, if_false]
      exact ⟨rfl, Nat.le_refl _⟩

/-- The one slice access that can fail: an inner node moves its right cursor
before it checks that a shard is left. -/
theorem advanceInner_steps (node : JoinNode Ctx) (h : Shards node.right) (hE : E .panic) :
    Meets (advanceInner step node left) (Stepped (node :: left)) E := by
  unfold advanceInner
  by_cases hend : node.right.length ≤ node.rightIndex
  · rw [if_pos hend]
    exact ⟨rfl, Nat.le_refl _⟩
  · rw [if_neg hend]
    apply (hstep left rfl).bind
    rintro ⟨moved, left'⟩ hr
    cases moved with
    | true => exact ⟨shape_cons rfl hr.1, moves_le rfl (Nat.le_refl _) hr.moves_le⟩
    | false =>
      by_cases hnext : node.rightIndex + 1 < node.right.length
      · simp only [Bool.false_eq_true, if_false, h.keyAt_lt hnext, pure_bind]
        apply loop_meets (fun p : JoinNode Ctx × JoinIterator Ctx =>
            p.1.shape = node.shape ∧ shape p.2 = shape left ∧
            moves (p.1 :: p.2) + 1 ≤ moves (node :: left)) (fun p => moves (p.1 :: p.2))
        · rintro ⟨node', l⟩ ⟨hn, hl, hml⟩
          have hright : node'.right = node.right := congrArg Prod.fst hn
          apply (innerRound_steps hstep node' l (hright ▸ h) hl).imp
          rintro (⟨node'', l'⟩ | ⟨moved, it⟩) hround
          · obtain ⟨hn', hl', hm'⟩ := hround
            exact ⟨⟨hn'.trans hn, hl', (Nat.add_le_add_right hm'.le 1).trans hml⟩, hm'⟩
          · obtain ⟨hs', hm'⟩ := hround
            have hone := Bool.toNat_le moved
            exact ⟨hs'.trans (shape_cons hn hl), (Nat.add_le_add hm' hone).trans hml⟩
        · exact ⟨rfl, hr.1, moves_lt_of_right rfl (Nat.lt_succ_self _) (by omega) hr.moves_le⟩
        · exact Nat.lt_succ_self _
      · have hnone : keyAt node.right (node.rightIndex + 1) = crash := by
          simp [keyAt, List.getElem?_eq_none (Nat.le_of_not_lt hnext)]
        simp only [Bool.false_eq_true, if_false, hnone]
        exact hE

end Steps

namespace JoinIterator

/-- How a step of `it` can stop: an inner node ran past its shards. -/
def InnerPanic (it : JoinIterator Ctx) (stop : Stop Empty) : Prop :=
  stop = .panic ∧ ∃ node ∈ it, node.mode = .inner

theorem InnerPanic.of_left {node : JoinNode Ctx} {left left' : JoinIterator Ctx} {stop : Stop Empty}
    (h : InnerPanic left' stop) (hs : shape left' = shape left) :
    InnerPanic (node :: left) stop := by
  obtain ⟨rfl, n, hn, hm⟩ := h
  have hmem : n.shape ∈ shape left := hs ▸ List.mem_map_of_mem hn
  obtain ⟨n', hn', he⟩ := List.mem_map.mp hmem
  exact ⟨rfl, n', List.mem_cons_of_mem _ hn', (congrArg (fun p => p.2.2) he).trans hm⟩

theorem advanceAt_steps (depth : Nat) (it : JoinIterator Ctx) (hlive : Live it)
    (hd : it.length ≤ depth) (hne : it ≠ []) :
    Meets (advanceAt depth it) (Stepped it) (InnerPanic it) := by
  induction depth generalizing it with
  | zero => exact absurd (List.length_eq_zero_iff.mp (by omega)) hne
  | succ depth ih =>
    match it with
    | [] => exact absurd rfl hne
    | [node] =>
      exact advanceRoot_steps node (hlive.shards node (List.mem_singleton.mpr rfl))
        (hlive.root node rfl)
    | node :: l :: ls =>
      have hn : Shards node.right := hlive.shards node List.mem_cons_self
      have hstep : ∀ left', shape left' = shape (l :: ls) →
          Meets (advanceAt depth left') (Stepped left') (InnerPanic (node :: l :: ls)) := by
        intro left' hs
        have hlen := length_of_shape hs
        apply (ih left' (hlive.tail.of_shape hs) (by simp only [List.length_cons] at hlen hd; omega)
          (List.ne_nil_of_length_pos (by rw [hlen]; simp))).mono (fun _ h => h)
        exact fun _ h => h.of_left hs
      cases hmode : node.mode with
      | inner =>
        simp only [advanceAt, hmode]
        exact advanceInner_steps hstep node hn ⟨rfl, node, List.mem_cons_self, hmode⟩
      | left =>
        simp only [advanceAt, hmode]
        exact advanceLeft_steps hstep node hn
      | right =>
        simp only [advanceAt, hmode]
        exact advanceRight_steps hstep node hn
      | outer =>
        simp only [advanceAt, hmode]
        exact advanceOuter_steps hstep node hn
      | cross =>
        simp only [advanceAt, hmode]
        exact advanceCross_steps hstep node hn

/-- Every advance of a chain ends: it keeps the chain and uses up a move when it
reports success, or an inner node panics. -/
theorem advance_steps {it : JoinIterator Ctx} (hlive : Live it) (hne : it ≠ []) :
    Meets (advance it) (Stepped it) (InnerPanic it) :=
  advanceAt_steps _ it hlive (Nat.le_refl _) hne

theorem stepped_of_advance {it it' : JoinIterator Ctx} {moved : Bool} (hlive : Live it) (hne : it ≠ [])
    (h : advance it = .ok (moved, it')) : Stepped it (moved, it') := by
  have hsteps := advance_steps hlive hne
  rwa [h] at hsteps

end JoinIterator
end Dandelion
