import Dandelion.KeyedJoin

/-!
# What the four keyed joins return

For two keyed sets, `A` at position `i` on the left and `B` at position `j` on
the right, the keys that meet in each entry of a left, right and outer join are
computed here from the two decreasing key lists.
-/

namespace Dandelion

open Outcome JoinIterator CompositionSet

variable {Ctx : Type} {A B : CompositionSet Ctx} {setNum i j : Nat}

/-- The entry of a pair of keys; `none` leaves the position of the set empty. -/
def keyEntry (setNum i : Nat) (A : CompositionSet Ctx) (j : Nat) (B : CompositionSet Ctx)
    (keys : Option Nat × Option Nat) : Entry Ctx :=
  pairEntry setNum i (keys.1.map A.withKey) j (keys.2.map B.withKey)

theorem drop_eq_nil {l : List Nat} {p : Nat} (h : l.drop p = []) : l[p]? = none := by
  rw [← List.head?_drop, h, List.head?_nil]

theorem shown_eq {s : CompositionSet Ctx} {p k : Nat} (h : s.keysDesc[p]? = some k) :
    shown s p k = some (s.withKey k) := if_pos h

theorem shown_ne {s : CompositionSet Ctx} {p k k' : Nat} (h : s.keysDesc[p]? = some k')
    (hne : k' ≠ k) : shown s p k = none :=
  if_neg (by rw [h]; exact fun he => hne (Option.some.inj he))

theorem shown_done {s : CompositionSet Ctx} {p k : Nat} (h : s.keysDesc[p]? = none) :
    shown s p k = none := if_neg (by rw [h]; simp)

section Left

theorem skipBelow_stay {right : List (CompositionSet Ctx)} {bound p k : Nat} (hp : p < right.length)
    (hk : keyAt right p = .ok k) (hb : bound ≤ k) : skipBelow right bound p = .ok p := by
  rw [skipBelow, loop_succ]
  simp only [hp, if_true, hk]
  change (if k < bound then _ else _) >>= _ = _
  rw [if_neg (by omega)]
  rfl

theorem advanceLeft_false {step : JoinIterator Ctx → Join (Bool × JoinIterator Ctx)}
    {node : JoinNode Ctx} {left left' : JoinIterator Ctx} (h : step left = .ok (false, left')) :
    advanceLeft step node left = .ok (false, { node with rightIndex := node.right.length } :: left') := by
  rw [advanceLeft, h]
  rfl

theorem advanceLeft_true {step : JoinIterator Ctx → Join (Bool × JoinIterator Ctx)}
    {node : JoinNode Ctx} {left left' : JoinIterator Ctx} {q : Nat}
    (h : step left = .ok (true, left')) (hq : skipBelow node.right left'.key node.rightIndex = .ok q) :
    advanceLeft step node left =
      .ok (true, { node with rightIndex := q, key := left'.key } :: left') := by
  rw [advanceLeft, h]
  change (skipBelow node.right left'.key node.rightIndex >>= _) = _
  rw [hq]
  rfl

/-- A left join keeps its right cursor at the largest key, so no later entry has
a right side. -/
theorem visits_left {b : Nat} (hi : i < setNum) (hj : j < setNum) (hij : i ≠ j)
    (hb : B.keysDesc[0]? = some b) (rest : List Nat) (p a : Nat) (ha : A.keysDesc[p]? = some a)
    (hrest : A.keysDesc.drop (p + 1) = rest) (hlt : ∀ k ∈ rest, k < b) :
    Visits setNum [cursor B .left j 0 a, cursor A .outer i p a]
      (rest.map (fun k => keyEntry setNum i A j B (some k, none))) := by
  induction rest generalizing p a with
  | nil =>
    apply Visits.stop
    rw [advance_pair]
    exact advanceLeft_false (advance_cursor_last ha (drop_eq_nil hrest))
  | cons k rest ih =>
    obtain ⟨hk, hrest⟩ := drop_eq_cons hrest
    have hkb : k < b := hlt k List.mem_cons_self
    have hadv : advance [cursor B .left j 0 a, cursor A .outer i p a] =
        .ok (true, [cursor B .left j 0 k, cursor A .outer i (p + 1) k]) := by
      rw [advance_pair]
      exact advanceLeft_true (advance_cursor hk)
        (skipBelow_stay (lt_of_getElem? hb) (keyAt_shard_key B hb) hkb.le)
    obtain ⟨filled, hfill⟩ := fillIn_pair (A := A) (B := B) hi hj hij .left (p + 1) k 0 k
    rw [shown_eq hk, shown_ne hb (by omega)] at hfill
    exact Visits.step hadv hfill
      (ih (p + 1) k hk hrest (fun k' hk' => hlt k' (List.mem_cons_of_mem _ hk')))

end Left

section Right

theorem catchUp_stay {step : JoinIterator Ctx → Join (Bool × JoinIterator Ctx)}
    {left : JoinIterator Ctx} {k : Nat} (h : k ≤ left.key) : catchUp step k left = .ok left := by
  rw [catchUp, loop_succ]
  simp only [Nat.not_lt.mpr h, if_false]
  rfl

/-- The catch-up loop of a right join runs its left cursor to the end when the
right key is larger than every key that is left. -/
theorem catchUp_exhaust {k : Nat} (rest : List Nat) (p a : Nat) (ha : A.keysDesc[p]? = some a)
    (hrest : A.keysDesc.drop (p + 1) = rest) (hk : a < k) (hlt : ∀ k' ∈ rest, k' < k) (fuel : Nat)
    (hf : rest.length + 1 ≤ fuel) :
    ∃ last, loop (fun left =>
        if left.key < k then do
          let (moved, left) ← advanceAt 1 left
          if moved then pure (.inl left) else pure (.inr left)
        else pure (.inr left)) fuel [cursor A .outer i p a] =
      .ok [cursor A .outer i A.keysDesc.length last] := by
  induction rest generalizing p a fuel with
  | nil =>
    obtain ⟨fuel, rfl⟩ := Nat.exists_eq_add_of_le' hf
    have hend := drop_eq_nil hrest
    have hlen : p + 1 = A.keysDesc.length := by
      have h1 := (List.getElem?_eq_some_iff.mp ha).1
      have h2 := List.getElem?_eq_none_iff.mp hend
      omega
    refine ⟨a, ?_⟩
    rw [List.length_nil, Nat.zero_add, loop_succ]
    change (if a < k then _ else _) >>= _ = _
    rw [if_pos hk, advance_cursor_last ha hend, ← hlen]
    rfl
  | cons k' rest ih =>
    obtain ⟨hk', hrest⟩ := drop_eq_cons hrest
    cases fuel with
    | zero => omega
    | succ fuel =>
      obtain ⟨last, hrun⟩ := ih (p + 1) k' hk' hrest (hlt k' List.mem_cons_self)
        (fun k'' h => hlt k'' (List.mem_cons_of_mem _ h)) fuel
        (by simp only [List.length_cons] at hf; omega)
      refine ⟨last, ?_⟩
      rw [loop_succ]
      change (if a < k then _ else _) >>= _ = _
      rw [if_pos hk, advance_cursor hk']
      exact hrun

theorem catchUp_done {k p a : Nat} (hend : A.keysDesc[p]? = none) :
    catchUp (advanceAt 1) k [cursor A .outer i p a] = .ok [cursor A .outer i p a] := by
  rw [catchUp, loop_succ]
  change (if a < k then _ else _) >>= _ = _
  by_cases hk : a < k
  · rw [if_pos hk, advance_cursor_done hend]
    rfl
  · rw [if_neg hk]
    rfl

theorem advanceRight_next {step : JoinIterator Ctx → Join (Bool × JoinIterator Ctx)}
    {node : JoinNode Ctx} {left left' : JoinIterator Ctx} {k : Nat}
    (hlt : node.rightIndex + 1 < node.right.length)
    (hk : keyAt node.right (node.rightIndex + 1) = .ok k) (h : catchUp step k left = .ok left') :
    advanceRight step node left =
      .ok (true, { node with rightIndex := node.rightIndex + 1, key := k } :: left') := by
  rw [advanceRight, if_pos (Nat.lt_of_succ_lt hlt)]
  simp only [hlt, if_true, hk]
  change (catchUp step k left >>= _) = _
  rw [h]
  rfl

theorem advanceRight_last {step : JoinIterator Ctx → Join (Bool × JoinIterator Ctx)}
    {node : JoinNode Ctx} {left : JoinIterator Ctx} (hlt : node.rightIndex < node.right.length)
    (hend : ¬ node.rightIndex + 1 < node.right.length) :
    advanceRight step node left =
      .ok (false, { node with rightIndex := node.rightIndex + 1 } :: left) := by
  rw [advanceRight, if_pos hlt]
  simp only [hend, if_false]
  rfl

/-- While the left cursor does not move, every entry of a right join repeats it. -/
theorem visits_right {p a : Nat} (hi : i < setNum) (hj : j < setNum) (hij : i ≠ j)
    (rest : List Nat)
    (hstay : ∀ k ∈ rest, catchUp (advanceAt 1) k [cursor A .outer i p a] =
      .ok [cursor A .outer i p a]) (q b : Nat) (hb : B.keysDesc[q]? = some b)
    (hrest : B.keysDesc.drop (q + 1) = rest) :
    Visits setNum [cursor B .right j q b, cursor A .outer i p a]
      (rest.map (fun k => pairEntry setNum i (shown A p a) j (some (B.withKey k)))) := by
  induction rest generalizing q b with
  | nil =>
    apply Visits.stop
    rw [advance_pair]
    exact advanceRight_last (lt_of_getElem? hb) (not_lt_of_getElem? (drop_eq_nil hrest))
  | cons k rest ih =>
    obtain ⟨hk, hrest⟩ := drop_eq_cons hrest
    have hadv : advance [cursor B .right j q b, cursor A .outer i p a] =
        .ok (true, [cursor B .right j (q + 1) k, cursor A .outer i p a]) := by
      rw [advance_pair]
      exact advanceRight_next (lt_of_getElem? hk) (keyAt_shard_key B hk)
        (hstay k List.mem_cons_self)
    obtain ⟨filled, hfill⟩ := fillIn_pair (A := A) (B := B) hi hj hij .right p a (q + 1) k
    rw [shown_eq hk] at hfill
    exact Visits.step hadv hfill
      (ih (fun k' hk' => hstay k' (List.mem_cons_of_mem _ hk')) (q + 1) k hk hrest)

end Right

section Outer

variable {step : JoinIterator Ctx → Join (Bool × JoinIterator Ctx)} {node : JoinNode Ctx}
  {left left' : JoinIterator Ctx}

theorem advanceOuter_past {moved : Bool} (hend : ¬ node.rightIndex < node.right.length)
    (h : step left = .ok (moved, left')) :
    advanceOuter step node left =
      .ok (if moved then (true, { node with key := left'.key } :: left') else (false, node :: left')) := by
  rw [advanceOuter, if_neg hend, h]
  cases moved <;> rfl

theorem advanceOuter_differ {k : Nat} (hlt : node.rightIndex < node.right.length)
    (hk : keyAt node.right node.rightIndex = .ok k) (hne : left.key ≠ k) :
    advanceOuter step node left = .ok (false, node :: left) := by
  rw [advanceOuter, if_pos hlt, hk]
  change (if left.key = k then _ else _) = _
  rw [if_neg hne]
  rfl

theorem advanceOuter_last {moved : Bool} (hlt : node.rightIndex < node.right.length)
    (hk : keyAt node.right node.rightIndex = .ok left.key)
    (hend : ¬ node.rightIndex + 1 < node.right.length) (h : step left = .ok (moved, left')) :
    advanceOuter step node left = .ok (if moved
      then (true, { node with rightIndex := node.rightIndex + 1, key := left'.key } :: left')
      else (false, { node with rightIndex := node.rightIndex + 1 } :: left')) := by
  rw [advanceOuter, if_pos hlt, hk]
  change (if left.key = left.key then _ else _) = _
  rw [if_pos rfl, h]
  cases moved with
  | true =>
    change (match decide (node.rightIndex + 1 < node.right.length), true with | _, _ => _) = _
    simp only [hend, decide_false]
    rfl
  | false =>
    change (match decide (node.rightIndex + 1 < node.right.length), false with | _, _ => _) = _
    simp only [hend, decide_false]
    rfl

theorem advanceOuter_next {moved : Bool} {k : Nat} (hlt : node.rightIndex + 1 < node.right.length)
    (hk : keyAt node.right node.rightIndex = .ok left.key)
    (hk' : keyAt node.right (node.rightIndex + 1) = .ok k) (h : step left = .ok (moved, left')) :
    advanceOuter step node left = .ok (true, { node with
      rightIndex := node.rightIndex + 1
      key := if moved then (if k < left'.key then k else left'.key) else k } :: left') := by
  rw [advanceOuter, if_pos (Nat.lt_of_succ_lt hlt), hk]
  change (if left.key = left.key then _ else _) = _
  rw [if_pos rfl, h]
  cases moved with
  | true =>
    change (match decide (node.rightIndex + 1 < node.right.length), true with | _, _ => _) = _
    simp only [hlt, decide_true, hk']
    rfl
  | false =>
    change (match decide (node.rightIndex + 1 < node.right.length), false with | _, _ => _) = _
    simp only [hlt, decide_true, hk']
    rfl

/-- The keys an outer join pairs: it walks both lists while they agree, and stops
one entry after they differ. -/
def outerKeys : List Nat → List Nat → List (Option Nat × Option Nat)
  | a :: as, b :: bs =>
    (some a, if a < b then none else some b) :: if a = b then outerKeys as bs else []
  | as, [] => as.map (fun a => (some a, none))
  | [], b :: _ => [(none, some b)]

theorem outerKeys_nil_right (as : List Nat) :
    outerKeys as [] = as.map (fun a => (some a, none)) := by
  cases as <;> rfl

/-- Once the right cursor is past its shards, the left keys follow alone. -/
theorem visits_outer_tail {q : Nat} (hi : i < setNum) (hj : j < setNum) (hij : i ≠ j)
    (hq : B.keysDesc[q]? = none) (rest : List Nat) (p a k : Nat) (ha : A.keysDesc[p]? = some a)
    (hrest : A.keysDesc.drop (p + 1) = rest) :
    Visits setNum [cursor B .outer j q k, cursor A .outer i p a]
      (rest.map (fun a => keyEntry setNum i A j B (some a, none))) := by
  induction rest generalizing p a k with
  | nil =>
    apply Visits.stop
    rw [advance_pair]
    exact advanceOuter_past (not_lt_of_getElem? hq) (advance_cursor_last ha (drop_eq_nil hrest))
  | cons a' rest ih =>
    obtain ⟨ha', hrest⟩ := drop_eq_cons hrest
    have hadv : advance [cursor B .outer j q k, cursor A .outer i p a] =
        .ok (true, [cursor B .outer j q a', cursor A .outer i (p + 1) a']) := by
      rw [advance_pair]
      exact advanceOuter_past (not_lt_of_getElem? hq) (advance_cursor ha')
    obtain ⟨filled, hfill⟩ := fillIn_pair (A := A) (B := B) hi hj hij .outer (p + 1) a' q a'
    rw [shown_eq ha', shown_done hq] at hfill
    exact Visits.step hadv hfill (ih (p + 1) a' a' ha' hrest)

theorem visits_outer (hi : i < setNum) (hj : j < setNum) (hij : i ≠ j) (as bs : List Nat)
    (p a b k : Nat) (ha : A.keysDesc[p]? = some a) (hb : B.keysDesc[p]? = some b)
    (has : A.keysDesc.drop (p + 1) = as) (hbs : B.keysDesc.drop (p + 1) = bs)
    (hlt : ∀ b' ∈ bs, b' < b) :
    Visits setNum [cursor B .outer j p k, cursor A .outer i p a]
      ((if a = b then outerKeys as bs else []).map (keyEntry setNum i A j B)) := by
  induction as generalizing bs p a b k with
  | nil =>
    by_cases hab : a = b
    · subst hab
      rw [if_pos rfl]
      cases bs with
      | nil =>
        apply Visits.stop
        rw [advance_pair]
        exact advanceOuter_last (lt_of_getElem? hb) (keyAt_shard_key B hb)
          (not_lt_of_getElem? (drop_eq_nil hbs)) (advance_cursor_last ha (drop_eq_nil has))
      | cons b' bs =>
        obtain ⟨hb', -⟩ := drop_eq_cons hbs
        have hadv : advance [cursor B .outer j p k, cursor A .outer i p a] =
            .ok (true, [cursor B .outer j (p + 1) b', cursor A .outer i (p + 1) a]) := by
          rw [advance_pair]
          exact advanceOuter_next (lt_of_getElem? hb') (keyAt_shard_key B hb)
            (keyAt_shard_key B hb') (advance_cursor_last ha (drop_eq_nil has))
        obtain ⟨filled, hfill⟩ := fillIn_pair (A := A) (B := B) hi hj hij .outer (p + 1) a (p + 1) b'
        rw [shown_eq hb', shown_done (drop_eq_nil has)] at hfill
        apply Visits.step hadv hfill
        -- the left cursor still shows its last key, which is not the next right key
        apply Visits.stop
        rw [advance_pair]
        have hne : a ≠ b' := (hlt b' List.mem_cons_self).ne'
        exact advanceOuter_differ (lt_of_getElem? hb') (keyAt_shard_key B hb') hne
    · rw [if_neg hab]
      apply Visits.stop
      rw [advance_pair]
      exact advanceOuter_differ (lt_of_getElem? hb) (keyAt_shard_key B hb) hab
  | cons a' as ih =>
    by_cases hab : a = b
    · subst hab
      rw [if_pos rfl]
      obtain ⟨ha', has⟩ := drop_eq_cons has
      cases bs with
      | nil =>
        have hadv : advance [cursor B .outer j p k, cursor A .outer i p a] =
            .ok (true, [cursor B .outer j (p + 1) a', cursor A .outer i (p + 1) a']) := by
          rw [advance_pair]
          exact advanceOuter_last (lt_of_getElem? hb) (keyAt_shard_key B hb)
            (not_lt_of_getElem? (drop_eq_nil hbs)) (advance_cursor ha')
        obtain ⟨filled, hfill⟩ := fillIn_pair (A := A) (B := B) hi hj hij .outer (p + 1) a' (p + 1) a'
        rw [shown_eq ha', shown_done (drop_eq_nil hbs)] at hfill
        have hrest := visits_outer_tail (A := A) (B := B) hi hj hij (drop_eq_nil hbs) as (p + 1) a'
          a' ha' has
        rw [outerKeys_nil_right, List.map_cons, List.map_cons, List.map_map]
        exact Visits.step hadv hfill hrest
      | cons b' bs =>
        have hdesc : ∀ b'' ∈ bs, b'' < b' := by
          have hsorted := B.keysDesc_sorted.sublist (List.drop_sublist (p + 1) B.keysDesc)
          rw [hbs] at hsorted
          exact fun b'' hb'' => List.rel_of_pairwise_cons hsorted hb''
        obtain ⟨hb', hbs⟩ := drop_eq_cons hbs
        have hadv : advance [cursor B .outer j p k, cursor A .outer i p a] =
            .ok (true, [cursor B .outer j (p + 1) (if b' < a' then b' else a'),
              cursor A .outer i (p + 1) a']) := by
          rw [advance_pair]
          exact advanceOuter_next (lt_of_getElem? hb') (keyAt_shard_key B hb)
            (keyAt_shard_key B hb') (advance_cursor ha')
        obtain ⟨filled, hfill⟩ := fillIn_pair (A := A) (B := B) hi hj hij .outer (p + 1) a' (p + 1)
          (if b' < a' then b' else a')
        have hshown : shown B (p + 1) (if b' < a' then b' else a') =
            (if a' < b' then none else some b').map B.withKey := by
          rcases Nat.lt_trichotomy a' b' with h | h | h
          · rw [if_neg (by omega), if_pos h, shown_ne hb' (by omega)]
            rfl
          · rw [if_neg (by omega), if_neg (by omega), h, shown_eq hb']
            rfl
          · rw [if_pos h, if_neg (by omega), shown_eq hb']
            rfl
        rw [shown_eq ha', hshown] at hfill
        exact Visits.step hadv hfill (ih bs (p + 1) a' b' _ ha' hb' has hbs hdesc)
    · rw [if_neg hab]
      apply Visits.stop
      rw [advance_pair]
      exact advanceOuter_differ (lt_of_getElem? hb) (keyAt_shard_key B hb) hab

end Outer
end Dandelion
