import Dandelion.ChainRuns
import Dandelion.Choices

/-!
# Cross joins enumerate the cartesian product

A chain of cross joins works like an odometer: the outermost cursor runs through
its shards, and when it is past the last one the left side takes one step and the
cursor starts over. The entries of the chain are therefore the entries of its left
side, each filled in with every shard of the outermost node.
-/

namespace Dandelion

open Outcome JoinIterator Choices

variable {Ctx : Type}

/-- The cursor of a list of shards at position `p`, showing the shard there. -/
def nodeAt (mode : JoinStrategy) (right : List (CompositionSet Ctx)) (w p : Nat) : JoinNode Ctx :=
  { right, rightIndex := p, writeIndex := w, mode, key := (right[p]?.map CompositionSet.firstKey).getD 0 }

section Odometer

variable {right : List (CompositionSet Ctx)} {w n : Nat}

theorem keyAt_nodeAt (hr : Shards right) (mode : JoinStrategy) {p : Nat} (hp : p < right.length) :
    keyAt right p = .ok (nodeAt mode right w p).key := by
  rw [hr.keyAt_lt hp, nodeAt, List.getElem?_eq_getElem hp]
  rfl

theorem fillIn_nodeAt (hr : Shards right) (mode : JoinStrategy) {left : JoinIterator Ctx}
    {toFill entry : Entry Ctx} {filled : Bool} {p : Nat} {shard : CompositionSet Ctx}
    (hl : fillIn left toFill = .ok (filled, entry)) (hp : right[p]? = some shard)
    (hw : w < toFill.length) :
    fillIn (nodeAt mode right w p :: left) toFill = .ok (true, entry.set w (some shard)) := by
  have hlt : p < right.length := (List.getElem?_eq_some_iff.mp hp).1
  have hw' : w < entry.length := by rwa [length_fillIn hl]
  have hnode : (nodeAt mode right w p).right[(nodeAt mode right w p).rightIndex]? = some shard := hp
  have hkey : keyAt (nodeAt mode right w p).right (nodeAt mode right w p).rightIndex =
      .ok (nodeAt mode right w p).key := keyAt_nodeAt hr mode hlt
  rw [fillIn_cons hl]
  simp only [hnode, hkey]
  change (if (nodeAt mode right w p).key = (nodeAt mode right w p).key then
    if w < entry.length then _ else _ else _) = _
  rw [if_pos rfl, if_pos hw']
  rfl

theorem advance_cons {node : JoinNode Ctx} {left : JoinIterator Ctx} (hm : node.mode = .cross)
    (hne : left ≠ []) : advance (node :: left) = advanceCross advance node left := by
  cases left with
  | nil => exact absurd rfl hne
  | cons l ls =>
    rw [advance, List.length_cons, advanceAt, hm]
    simp only [advanceCross]
    rfl

theorem advance_cross_next (hr : Shards right) {left : JoinIterator Ctx} (hne : left ≠ []) {p : Nat}
    (hp : p + 1 < right.length) :
    advance (nodeAt .cross right w p :: left) = .ok (true, nodeAt .cross right w (p + 1) :: left) := by
  have hnext : (nodeAt .cross right w p).rightIndex + 1 < (nodeAt .cross right w p).right.length := hp
  rw [advance_cons rfl hne, advanceCross, if_pos hnext]
  change (keyAt right (p + 1) >>= _) = _
  rw [keyAt_nodeAt (w := w) hr .cross hp]
  rfl

/-- Past its last shard the cursor starts over after one step of the left side. -/
theorem advance_cross_carry (hr : Shards right) {left left' : JoinIterator Ctx} (hne : left ≠ [])
    {p : Nat} (hp : ¬ p + 1 < right.length) (h : advance left = .ok (true, left')) :
    advance (nodeAt .cross right w p :: left) = .ok (true, nodeAt .cross right w 0 :: left') := by
  have hend : ¬ (nodeAt .cross right w p).rightIndex + 1 < (nodeAt .cross right w p).right.length := hp
  rw [advance_cons rfl hne, advanceCross, if_neg hend, h]
  change (keyAt right 0 >>= _) = _
  rw [keyAt_nodeAt (w := w) hr .cross hr.length_pos]
  rfl

theorem advance_cross_end {left left' : JoinIterator Ctx} (hne : left ≠ []) {p : Nat}
    (hp : ¬ p + 1 < right.length) (h : advance left = .ok (false, left')) :
    ∃ it, advance (nodeAt .cross right w p :: left) = .ok (false, it) := by
  have hend : ¬ (nodeAt .cross right w p).rightIndex + 1 < (nodeAt .cross right w p).right.length := hp
  rw [advance_cons rfl hne, advanceCross, if_neg hend, h]
  exact ⟨_, rfl⟩

/-- From position `p` the cursor shows its remaining shards. -/
theorem visits_rest {mode : JoinStrategy} (hr : Shards right) {left : JoinIterator Ctx}
    {cur : Entry Ctx} {es : List (Entry Ctx)} {filled : Bool}
    (hcur : fillIn left (List.replicate n none) = .ok (filled, cur)) (hw : w < n)
    (hnext : ∀ p, p + 1 < right.length → advance (nodeAt mode right w p :: left) =
      .ok (true, nodeAt mode right w (p + 1) :: left))
    (hlast : ∀ p, p < right.length → ¬ p + 1 < right.length →
      Visits n (nodeAt mode right w p :: left) es)
    (p : Nat) (hp : p < right.length) :
    Visits n (nodeAt mode right w p :: left)
      ((right.drop (p + 1)).map (fun shard => cur.set w (some shard)) ++ es) := by
  induction hd : right.length - p generalizing p with
  | zero => omega
  | succ d ih =>
    by_cases hlt : p + 1 < right.length
    · rw [List.drop_eq_getElem_cons hlt, List.map_cons, List.cons_append]
      exact Visits.step (hnext p hlt)
        (fillIn_nodeAt hr mode hcur (List.getElem?_eq_getElem hlt) (by simpa using hw))
        (ih (p + 1) hlt (by omega))
    · rw [List.drop_eq_nil_of_le (Nat.le_of_not_lt hlt)]
      exact hlast p hp hlt

theorem visits_cross (hr : Shards right) {left : JoinIterator Ctx} {cur : Entry Ctx}
    {es : List (Entry Ctx)} {filled : Bool} (hlive : Live left) (hne : left ≠ [])
    (hcur : fillIn left (List.replicate n none) = .ok (filled, cur)) (hw : w < n)
    (hv : Visits n left es) (p : Nat) (hp : p < right.length) :
    Visits n (nodeAt .cross right w p :: left)
      ((right.drop (p + 1)).map (fun shard => cur.set w (some shard)) ++
        es.flatMap (fun e => right.map (fun shard => e.set w (some shard)))) := by
  induction hv generalizing cur filled p with
  | stop h =>
    apply visits_rest hr hcur hw (fun p hp => advance_cross_next hr hne hp) _ p hp
    intro p _ hend
    obtain ⟨it, hit⟩ : ∃ it, advance (nodeAt .cross right w p :: _) = .ok (false, it) :=
      advance_cross_end hne hend h
    exact Visits.stop hit
  | @step it it' filled' entry es h hfill hrest ih =>
    apply visits_rest hr hcur hw (fun p hp => advance_cross_next hr hne hp) _ p hp
    intro p _ hend
    have hstep := stepped_of_advance hlive hne h
    have hrun := ih (hlive.of_shape hstep.1) (ne_nil_of_shape hstep.1 hne) hfill 0 hr.length_pos
    have hpos := hr.length_pos
    have hhead : right = right[0] :: right.drop 1 := by
      rw [← List.drop_eq_getElem_cons hpos, List.drop_zero]
    rw [List.flatMap_cons]
    nth_rewrite 2 [hhead]
    rw [List.map_cons, List.cons_append]
    exact Visits.step (advance_cross_carry hr hne hend h)
      (fillIn_nodeAt hr .cross hfill (List.getElem?_eq_getElem hr.length_pos) (by simpa using hw))
      hrun

end Odometer

/-- `it` stands at its first position and `es` are the entries of all of them. -/
structure Enumerates (n : Nat) (it : JoinIterator Ctx) (es : List (Entry Ctx)) : Prop where
  live : Live it
  ne_nil : it ≠ []
  entries : ∃ filled entry rest, es = entry :: rest ∧
    fillIn it (List.replicate n none) = .ok (filled, entry) ∧ Visits n it rest

theorem Enumerates.enumerate_eq {n : Nat} {it : JoinIterator Ctx} {es : List (Entry Ctx)}
    (h : Enumerates n it es) : enumerate n it = .ok es := by
  obtain ⟨filled, entry, rest, rfl, hfill, hv⟩ := h.entries
  exact Dandelion.enumerate_eq h.live h.ne_nil hfill hv

/-- The options an input set has in an entry: its shards, or nothing. -/
def shardOptions : Option (ShardingMode × CompositionSet Ctx) → List (Option (CompositionSet Ctx))
  | none => [none]
  | some (mode, set) => if set.isEmpty then [none] else (set.shard mode).map some

theorem fill_cons (options : List (Option (CompositionSet Ctx))) (w : Nat) (e : Entry Ctx)
    (es : List (Entry Ctx)) :
    fill options w (e :: es) = options.map (e.set w) ++ fill options w es := List.flatMap_cons

section New

variable {n w : Nat} {setMode : ShardingMode} {set : CompositionSet Ctx}

theorem enumerates_root {mode : JoinStrategy} (hm : mode = .outer ∨ mode = .cross)
    (hs : set.itemList ≠ []) (hw : w < n) :
    Enumerates n [nodeAt mode (set.shard setMode) w 0]
      (fill ((set.shard setMode).map some) w [List.replicate n none]) := by
  have hr := Shards.of_shard set setMode hs
  have hpos := hr.length_pos
  have hmode : mode = .right ∨ mode = .outer ∨ mode = .cross := Or.inr hm
  have hnil : fillIn ([] : JoinIterator Ctx) (List.replicate n none) =
      .ok (false, List.replicate n none) := rfl
  constructor
  · constructor
    · intro node hnode
      rw [List.mem_singleton.mp hnode]
      exact hr
    · intro node hnode
      rw [← Option.some.inj hnode]
      rcases hm with rfl | rfl <;> exact ⟨nofun, nofun⟩
  · exact List.cons_ne_nil _ _
  · refine ⟨true, _, ((set.shard setMode).drop 1).map
      (fun shard => (List.replicate n none).set w (some shard)) ++ [], ?_,
      fillIn_nodeAt hr mode hnil (List.getElem?_eq_getElem hpos) (by simpa using hw), ?_⟩
    · have hhead : set.shard setMode = (set.shard setMode)[0] :: (set.shard setMode).drop 1 := by
        rw [← List.drop_eq_getElem_cons hpos, List.drop_zero]
      rw [fill_cons]
      nth_rewrite 1 [hhead]
      rw [List.map_cons, List.map_cons, List.map_map]
      rfl
    · apply visits_rest hr hnil hw _ _ 0 hpos
      · intro p hp
        exact advanceRoot_next hmode hp (keyAt_nodeAt (w := w) hr mode hp)
      · intro p hp hend
        exact Visits.stop (advanceRoot_last hmode hp hend)

theorem enumerates_cons {left : JoinIterator Ctx} {es : List (Entry Ctx)}
    (h : Enumerates n left es) (hs : set.itemList ≠ []) (hw : w < n) :
    Enumerates n (nodeAt .cross (set.shard setMode) w 0 :: left)
      (fill ((set.shard setMode).map some) w es) := by
  have hr := Shards.of_shard set setMode hs
  have hpos := hr.length_pos
  obtain ⟨filled, entry, rest, rfl, hfill, hv⟩ := h.entries
  constructor
  · constructor
    · intro node hnode
      rcases List.mem_cons.mp hnode with rfl | hnode
      · exact hr
      · exact h.live.shards node hnode
    · intro node hnode
      apply h.live.root node
      obtain ⟨last, hlast⟩ := Option.isSome_iff_exists.mp (List.getLast?_isSome.mpr h.ne_nil)
      rw [List.getLast?_cons, hlast] at hnode
      rw [hlast, ← hnode]
      rfl
  · exact List.cons_ne_nil _ _
  · refine ⟨true, _, _, ?_, fillIn_nodeAt hr .cross hfill (List.getElem?_eq_getElem hpos)
      (by simpa using hw), visits_cross hr h.live h.ne_nil hfill hw hv 0 hpos⟩
    have hhead : set.shard setMode = (set.shard setMode)[0] :: (set.shard setMode).drop 1 := by
      rw [← List.drop_eq_getElem_cons hpos, List.drop_zero]
    rw [fill_cons]
    nth_rewrite 1 [hhead]
    rw [List.map_cons, List.map_cons, List.map_map, List.cons_append, fill]
    simp only [List.map_map]
    rfl

end New

section Order

variable (sets : ShardedInputs Ctx)

def optionsAt (i : Nat) : List (Option (CompositionSet Ctx)) := shardOptions (sets[i]?.getD none)

/-- The input set at position `i` has items. -/
def hasItems (i : Nat) : Bool :=
  match sets[i]?.getD none with
  | none => false
  | some (_, set) => !set.isEmpty

variable {sets}

theorem hasItems_iff (i : Nat) : hasItems sets i = true ↔
    ∃ mode set, sets[i]?.getD none = some (mode, set) ∧ set.itemList ≠ [] := by
  unfold hasItems
  rcases sets[i]?.getD none with _ | ⟨mode, set⟩
  · simp
  · simp [CompositionSet.isEmpty]

theorem optionsAt_of_not_hasItems {i : Nat} (h : hasItems sets i = false) :
    optionsAt sets i = [none] := by
  revert h
  unfold hasItems optionsAt
  rcases sets[i]?.getD none with _ | ⟨mode, set⟩
  · exact fun _ => rfl
  · intro h
    have he : set.isEmpty = true := by simpa using h
    rw [shardOptions, he, if_pos rfl]

theorem new_of_not_hasItems {i : Nat} (h : hasItems sets i = false) (mode : JoinStrategy)
    (it : JoinIterator Ctx) : JoinIterator.new mode it (sets[i]?.getD none) i = .ok it := by
  revert h
  unfold hasItems
  rcases sets[i]?.getD none with _ | ⟨setMode, set⟩
  · exact fun _ => rfl
  · intro h
    apply new_empty
    simpa [CompositionSet.isEmpty] using h

theorem fillAll_cons (f : Nat → List (Option (CompositionSet Ctx))) (i : Nat) (order : List Nat)
    (es : List (Entry Ctx)) :
    fillAll f (i :: order) es = fillAll f order (fill (f i) i es) := rfl

theorem joinFrom_cross {n : Nat} (order : List (Nat × JoinStrategy)) {it : JoinIterator Ctx}
    {es : List (Entry Ctx)} (h : Enumerates n it es) (hlt : ∀ p ∈ order, p.1 < n)
    (hm : ∀ p ∈ order, p.2 = .cross) :
    ∃ it', joinFrom sets it order = .ok it' ∧
      Enumerates n it' (fillAll (optionsAt sets) ((order.map Prod.fst).filter (hasItems sets)) es) := by
  induction order generalizing it es with
  | nil => exact ⟨it, rfl, h⟩
  | cons p order ih =>
    obtain ⟨i, strategy⟩ := p
    have hcross : strategy = .cross := hm (i, strategy) List.mem_cons_self
    have hi : i < n := hlt (i, strategy) List.mem_cons_self
    have hlt' : ∀ p ∈ order, p.1 < n := fun p hp => hlt p (List.mem_cons_of_mem _ hp)
    have hm' : ∀ p ∈ order, p.2 = .cross := fun p hp => hm p (List.mem_cons_of_mem _ hp)
    rw [joinFrom, List.map_cons, List.filter_cons]
    cases hhas : hasItems sets i with
    | false =>
      rw [new_of_not_hasItems hhas]
      exact ih h hlt' hm'
    | true =>
      obtain ⟨mode, set, hset, hne⟩ := (hasItems_iff i).mp hhas
      have hr := Shards.of_shard set mode hne
      have hkey := keyAt_nodeAt (w := i) hr .cross hr.length_pos
      have hnew : JoinIterator.new strategy it (some (mode, set)) i =
          .ok (nodeAt .cross (set.shard mode) i 0 :: it) := by
        rw [new_shards strategy it hne hkey, hcross]
        cases it with
        | nil => exact absurd rfl h.ne_nil
        | cons l ls => rfl
      have hopts : optionsAt sets i = (set.shard mode).map some := by
        rw [optionsAt, hset, shardOptions, isEmpty_eq_false hne, if_neg Bool.false_ne_true]
      rw [hset, hnew, if_pos rfl, fillAll_cons, hopts]
      exact ih (enumerates_cons h hne hi) hlt' hm'

variable (sets) in
theorem joinFrom_start {n : Nat} (order : List (Nat × JoinStrategy)) (hlt : ∀ p ∈ order, p.1 < n)
    (hm : ∀ p ∈ order, p.2 = .outer ∨ p.2 = .cross) (htail : ∀ p ∈ order.tail, p.2 = .cross)
    (hex : ∃ p ∈ order, hasItems sets p.1 = true) :
    ∃ it, joinFrom sets [] order = .ok it ∧
      Enumerates n it (fillAll (optionsAt sets) ((order.map Prod.fst).filter (hasItems sets))
        [List.replicate n none]) := by
  induction order with
  | nil =>
    obtain ⟨p, hp, -⟩ := hex
    exact absurd hp List.not_mem_nil
  | cons p order ih =>
    obtain ⟨i, strategy⟩ := p
    have hi : i < n := hlt (i, strategy) List.mem_cons_self
    have hlt' : ∀ p ∈ order, p.1 < n := fun p hp => hlt p (List.mem_cons_of_mem _ hp)
    rw [joinFrom, List.map_cons, List.filter_cons]
    cases hhas : hasItems sets i with
    | false =>
      rw [new_of_not_hasItems hhas]
      apply ih hlt' (fun p hp => Or.inr (htail p hp))
        (fun p hp => htail p (List.mem_of_mem_tail hp))
      obtain ⟨p, hp, hitems⟩ := hex
      rcases List.mem_cons.mp hp with rfl | hp
      · rw [hhas] at hitems
        cases hitems
      · exact ⟨p, hp, hitems⟩
    | true =>
      obtain ⟨mode, set, hset, hne⟩ := (hasItems_iff i).mp hhas
      have hr := Shards.of_shard set mode hne
      have hstrategy : strategy = .outer ∨ strategy = .cross := hm (i, strategy) List.mem_cons_self
      have hkey := keyAt_nodeAt (w := i) hr strategy hr.length_pos
      have hnew : JoinIterator.new strategy [] (some (mode, set)) i =
          .ok [nodeAt strategy (set.shard mode) i 0] := by
        rw [new_shards strategy [] hne hkey]
        rcases hstrategy with rfl | rfl <;> rfl
      have hopts : optionsAt sets i = (set.shard mode).map some := by
        rw [optionsAt, hset, shardOptions, isEmpty_eq_false hne, if_neg Bool.false_ne_true]
      rw [hset, hnew, if_pos rfl, fillAll_cons, hopts]
      exact joinFrom_cross order (enumerates_root hstrategy hne hi) hlt' htail

end Order

/-- The cartesian product of the shards of the sets, with nothing at the
positions of absent and empty sets. -/
def shardProduct (sets : ShardedInputs Ctx) : List (Entry Ctx) := (sets.map shardOptions).sections

theorem fillAll_present (sets : ShardedInputs Ctx) {order : List Nat}
    (h : order.Perm (List.range sets.length)) :
    (fillAll (optionsAt sets) (order.filter (hasItems sets))
      [List.replicate sets.length none]).Perm (shardProduct sets) := by
  have hopts : ∀ i < (sets.map shardOptions).length,
      (sets.map shardOptions)[i]? = some (optionsAt sets i) := by
    intro i hi
    rw [List.length_map] at hi
    rw [List.getElem?_map, optionsAt, List.getElem?_eq_getElem hi]
    rfl
  have habsent : fillAll (optionsAt sets) (order.filter (fun i => !hasItems sets i))
      [List.replicate sets.length none] = [List.replicate sets.length none] := by
    apply fillAll_default
    intro i hi
    apply optionsAt_of_not_hasItems
    simpa using (List.mem_filter.mp hi).2
  have hsplit : (order.filter (fun i => !hasItems sets i) ++ order.filter (hasItems sets)).Perm
      (List.range (sets.map shardOptions).length) := by
    rw [List.length_map]
    exact (List.perm_append_comm.trans (List.filter_append_perm _ _)).trans h
  have hall := fillAll_sections none (sets.map shardOptions) (optionsAt sets) hopts hsplit
  rw [fillAll_append, List.length_map, habsent] at hall
  exact hall

/-- With cross joins only, `get_sharding` returns the elements of the cartesian
product, each of them once. -/
theorem cross_join_product (sets : ShardedInputs Ctx) (joinOrder : List Nat)
    (joinStrategies : List JoinStrategy) (hn : joinOrder.Nodup)
    (hlt : ∀ i ∈ joinOrder, i < sets.length) (hcross : ∀ s ∈ joinStrategies, s = .cross)
    (hitems : ∃ mode set, some (mode, set) ∈ sets ∧ set.itemList ≠ []) :
    ∃ es, getSharding sets joinOrder joinStrategies = .ok es ∧ es.Perm (shardProduct sets) := by
  obtain ⟨mode, set, hmem, hne⟩ := hitems
  obtain ⟨i, hi, hget⟩ := List.getElem_of_mem hmem
  have hfull := length_fullOrder hn hlt
  have hlen : (fullStrategies sets.length joinStrategies).length = sets.length := by
    rw [fullStrategies, List.length_cons, length_resize]
    omega
  have hcross' : ∀ s ∈ resize joinStrategies (sets.length - 1) .cross, s = .cross := by
    intro s hs
    rcases List.mem_append.mp hs with hs | hs
    · exact hcross s (List.mem_of_mem_take hs)
    · exact List.eq_of_mem_replicate hs
  have hfst : ((fullOrder sets.length joinOrder).zip
      (fullStrategies sets.length joinStrategies)).map Prod.fst = fullOrder sets.length joinOrder :=
    List.map_fst_zip (by omega)
  obtain ⟨it, hjoin, hent⟩ := joinFrom_start sets (n := sets.length)
    ((fullOrder sets.length joinOrder).zip (fullStrategies sets.length joinStrategies))
    (fun p hp => (mem_fullOrder hlt p.1).mp (List.of_mem_zip hp).1)
    (by
      intro p hp
      rcases List.mem_cons.mp (List.of_mem_zip hp).2 with he | hp
      · exact Or.inl he
      · exact Or.inr (hcross' _ hp))
    (by
      intro p hp
      rw [List.tail_zip] at hp
      exact hcross' _ (List.of_mem_zip hp).2)
    (by
      have hi' : i ∈ fullOrder sets.length joinOrder := (mem_fullOrder hlt i).mpr hi
      rw [← hfst] at hi'
      obtain ⟨p, hp, rfl⟩ := List.mem_map.mp hi'
      refine ⟨p, hp, (hasItems_iff p.1).mpr ⟨mode, set, ?_, hne⟩⟩
      rw [List.getElem?_eq_getElem hi, hget]
      rfl)
  refine ⟨_, ?_, fillAll_present sets (fullOrder_perm hn hlt)⟩
  rw [getSharding_eq sets joinOrder joinStrategies (by omega) hn hlt, hjoin, ← hfst]
  exact hent.enumerate_eq

theorem cross_join_product_with_absent :
    ∃ es, getSharding [some (.each, CompositionSet.ofKeys [1, 2] (by decide)), none,
        some (.key, CompositionSet.ofKeys [3, 3, 4] (by decide))] [2] [.cross] = .ok es ∧
      es.Perm (shardProduct [some (.each, CompositionSet.ofKeys [1, 2] (by decide)), none,
        some (.key, CompositionSet.ofKeys [3, 3, 4] (by decide))]) :=
  cross_join_product _ _ _ (by decide) (by decide) (by decide)
    ⟨.each, CompositionSet.ofKeys [1, 2] (by decide), List.mem_cons_self, by decide⟩

end Dandelion
