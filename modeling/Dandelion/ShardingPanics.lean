import Dandelion.ShardingSafety

/-!
# The panics of `get_sharding`

A join order that repeats an index makes `zip_eq` fail on every input. An inner
join panics when all sets up to its own hold one item of the same key and the
others are empty. Together with the safe cases this describes the join orders and
strategies that never panic.
-/

namespace Dandelion

open Outcome JoinIterator

variable {Ctx : Type}

theorem joinAll_length {it : JoinIterator Ctx} {sets : ShardedInputs Ctx} {order : List Nat}
    {strategies : List JoinStrategy} {r : JoinIterator Ctx}
    (h : joinAll it sets order strategies = .ok r) : order.length = strategies.length := by
  induction order generalizing it sets strategies with
  | nil =>
    cases strategies with
    | nil => rfl
    | cons strategy strategies => cases h
  | cons index order ih =>
    cases strategies with
    | nil => cases h
    | cons strategy strategies =>
      rw [joinAll] at h
      cases htake : takeSet sets index with
      | error stop =>
        rw [htake] at h
        cases h
      | ok r =>
        rw [htake] at h
        change (JoinIterator.new strategy it r.1 index >>= _) = _ at h
        cases hnew : JoinIterator.new strategy it r.1 index with
        | error stop =>
          rw [hnew] at h
          cases h
        | ok it' =>
          rw [hnew] at h
          simp only [List.length_cons, ih h]

/-- `zip_eq` fails for every join order that repeats an index. -/
theorem getSharding_not_nodup (sets : ShardedInputs Ctx) (joinOrder : List Nat)
    (joinStrategies : List JoinStrategy) (hn : ¬ joinOrder.Nodup)
    (hlt : ∀ i ∈ joinOrder, i < sets.length) :
    ¬ ∃ es, getSharding sets joinOrder joinStrategies = .ok es := by
  rintro ⟨es, h⟩
  have hpos : 0 < sets.length := by
    cases joinOrder with
    | nil => exact absurd List.nodup_nil hn
    | cons i order => exact Nat.zero_lt_of_lt (hlt i List.mem_cons_self)
  have hlen := length_fullOrder_of_not_nodup hn hlt
  have hmark : markJoined ((List.range sets.length).map some) joinOrder = _ :=
    markJoined_eq _ joinOrder (by simpa using hlt)
  rw [getSharding, if_neg (by omega), hmark, pure_bind, filterMap_missing] at h
  dsimp only at h
  rw [← fullOrder] at h
  cases hfull : fullOrder sets.length joinOrder with
  | nil =>
    rw [hfull] at h
    cases h
  | cons first rest =>
    rw [hfull] at h hlen
    cases htake : takeSet sets first with
    | error stop =>
      simp only [htake] at h
      cases h
    | ok r =>
      simp only [htake] at h
      change (JoinIterator.new .outer [] r.1 first >>= _) = _ at h
      cases hnew : JoinIterator.new .outer [] r.1 first with
      | error stop =>
        rw [hnew] at h
        cases h
      | ok it =>
        rw [hnew] at h
        change (joinAll it r.2 rest (resize joinStrategies (sets.length - 1) .cross) >>= _) = _ at h
        cases hjoin : joinAll it r.2 rest (resize joinStrategies (sets.length - 1) .cross) with
        | error stop =>
          rw [hjoin] at h
          cases h
        | ok it' =>
          have hrest := joinAll_length hjoin
          rw [length_resize] at hrest
          rw [List.length_cons] at hlen
          omega

theorem joinFrom_append (sets : ShardedInputs Ctx) (it : JoinIterator Ctx)
    (order order' : List (Nat × JoinStrategy)) :
    joinFrom sets it (order ++ order') = joinFrom sets it order >>= fun it => joinFrom sets it order' := by
  induction order generalizing it with
  | nil => rfl
  | cons p order ih =>
    obtain ⟨index, strategy⟩ := p
    simp only [List.cons_append, joinFrom, bind_assoc, ih]

variable [Inhabited Ctx]

def oneItem : CompositionSet Ctx := ⟨[(0, 0, default)], 0, List.pairwise_singleton _ _⟩

def oneNode (p : Nat × JoinStrategy) : JoinNode Ctx := ⟨[oneItem], 0, p.1, p.2, 0⟩

theorem keyAt_one : keyAt [(oneItem : CompositionSet Ctx)] 0 = .ok 0 := rfl

theorem new_one {it : JoinIterator Ctx} (hne : it ≠ []) (hk : it.key = 0) (p : Nat × JoinStrategy) :
    JoinIterator.new p.2 it (some (.all, oneItem)) p.1 = .ok (oneNode p :: it) := by
  obtain ⟨w, mode⟩ := p
  have hnew := new_shards mode it (s := oneItem) (List.cons_ne_nil _ _)
    (show keyAt (oneItem.shard .all) 0 = .ok 0 from keyAt_one) w
  cases it with
  | nil => exact absurd rfl hne
  | cons l ls =>
    have hl : l.key = 0 := hk
    rw [hnew]
    cases mode with
    | inner =>
      have hround : matchRound (oneItem.shard .all) (0, 0, l :: ls) = .ok (.inr (0, 0, l :: ls)) := by
        rw [matchRound, if_neg (fun h => h.2 hk.symm)]
        rfl
      simp only [loop_succ, hround]
      rfl
    | left =>
      have hskip : skipBelow ((oneItem : CompositionSet Ctx).shard .all) l.key 0 = .ok 0 := by
        rw [hl]
        rfl
      simp only [hskip]
      rw [hl]
      rfl
    | right => rfl
    | outer =>
      simp only [hl]
      rfl
    | cross => rfl

theorem joinFrom_one (sets : ShardedInputs Ctx) (order done : List (Nat × JoinStrategy))
    (hne : done ≠ []) (h : ∀ p ∈ order, sets[p.1]? = some (some (.all, oneItem))) :
    joinFrom sets (done.map oneNode) order = .ok ((order.reverse ++ done).map oneNode) := by
  induction order generalizing done with
  | nil => rfl
  | cons p order ih =>
    have hdone : done.map oneNode ≠ ([] : JoinIterator Ctx) := by simpa using hne
    have hkey : JoinIterator.key (done.map oneNode : JoinIterator Ctx) = 0 := by
      cases done with
      | nil => exact absurd rfl hne
      | cons q done => rfl
    rw [joinFrom, h p List.mem_cons_self, Option.getD_some, new_one hdone hkey]
    change joinFrom sets ((p :: done).map oneNode) order = _
    rw [ih (p :: done) (List.cons_ne_nil _ _) (fun q hq => h q (List.mem_cons_of_mem _ hq)),
      List.reverse_cons, List.append_assoc]
    rfl

theorem advanceAt_one (depth : Nat) (order : List (Nat × JoinStrategy)) (hne : order ≠ [])
    (hd : order.length ≤ depth) (hm : ∀ p ∈ order, p.2 ≠ .inner)
    (hroot : ∀ p, order.getLast? = some p → p.2 = .outer) :
    ∃ it, advanceAt depth (order.map oneNode : JoinIterator Ctx) = .ok (false, it) := by
  induction depth generalizing order with
  | zero => exact absurd (List.length_eq_zero_iff.mp (by omega)) hne
  | succ depth ih =>
    match order with
    | [] => exact absurd rfl hne
    | [p] =>
      have hp : p.2 = .outer := hroot p rfl
      have hmode : (oneNode p : JoinNode Ctx).mode = .outer := hp
      exact ⟨_, advanceRoot_last (Or.inr (Or.inl hmode)) Nat.zero_lt_one (Nat.lt_irrefl 1)⟩
    | p :: q :: order =>
      obtain ⟨it, hleft⟩ := ih (q :: order) (List.cons_ne_nil _ _)
        (by simp only [List.length_cons] at hd ⊢; omega)
        (fun r hr => hm r (List.mem_cons_of_mem _ hr)) (fun r hr => hroot r hr)
      have hinner := hm p List.mem_cons_self
      obtain ⟨w, mode⟩ := p
      change ∃ it, advanceAt (depth + 1) (oneNode (w, mode) :: oneNode q :: order.map oneNode) = _
      cases mode with
      | inner => exact absurd rfl hinner
      | left =>
        change ∃ it, advanceLeft (advanceAt depth) _ ((q :: order).map oneNode) = _
        rw [advanceLeft, hleft]
        exact ⟨_, rfl⟩
      | right => exact ⟨_, rfl⟩
      | outer =>
        change ∃ it, advanceOuter (advanceAt depth) _ ((q :: order).map oneNode) = _
        rw [advanceOuter, hleft]
        exact ⟨_, rfl⟩
      | cross =>
        change ∃ it, advanceCross (advanceAt depth) _ ((q :: order).map oneNode) = _
        rw [advanceCross, hleft]
        exact ⟨_, rfl⟩

theorem advance_one_inner (w : Nat) (order : List (Nat × JoinStrategy)) (hne : order ≠ [])
    (hm : ∀ p ∈ order, p.2 ≠ .inner) (hroot : ∀ p, order.getLast? = some p → p.2 = .outer) :
    advance (((w, .inner) :: order).map oneNode : JoinIterator Ctx) = crash := by
  obtain ⟨it, hleft⟩ : ∃ it, advanceAt order.length (order.map oneNode : JoinIterator Ctx) =
      .ok (false, it) := advanceAt_one order.length order hne (Nat.le_refl _) hm hroot
  rw [advance, List.length_map, List.length_cons]
  cases order with
  | nil => exact absurd rfl hne
  | cons q order =>
    change advanceInner (advanceAt (order.length + 1)) _ ((q :: order).map oneNode) = _
    rw [advanceInner, show advanceAt (order.length + 1) ((q :: order).map oneNode) = _ from hleft]
    rfl

/-- The inputs that have one item in each set of `present`, and nothing elsewhere. -/
def oneItemInputs (n : Nat) (present : List Nat) : ShardedInputs Ctx :=
  (List.range n).map (fun i => if i ∈ present then some (.all, oneItem) else none)

theorem oneItemInputs_mem {n i : Nat} {present : List Nat} (hi : i < n) (h : i ∈ present) :
    (oneItemInputs n present : ShardedInputs Ctx)[i]? = some (some (.all, oneItem)) := by
  rw [oneItemInputs, List.getElem?_map, List.getElem?_range hi, Option.map_some, if_pos h]

theorem oneItemInputs_not_mem {n i : Nat} {present : List Nat} (h : i ∉ present)
    (mode : ShardingMode) (set : CompositionSet Ctx) :
    (oneItemInputs n present : ShardedInputs Ctx)[i]? ≠ some (some (mode, set)) := by
  intro he
  rw [oneItemInputs, List.getElem?_map] at he
  obtain ⟨j, hj, he⟩ := Option.map_eq_some_iff.mp he
  have hij : i = j := by
    obtain ⟨hi, hget⟩ := List.getElem?_eq_some_iff.mp hj
    rwa [List.getElem_range] at hget
  rw [← hij, if_neg h] at he
  cases he

theorem exists_first_inner (order : List (Nat × JoinStrategy)) (h : .inner ∈ order.map Prod.snd) :
    ∃ before w after, order = before ++ (w, .inner) :: after ∧ ∀ r ∈ before, r.2 ≠ .inner := by
  induction order with
  | nil => exact absurd h List.not_mem_nil
  | cons p order ih =>
    by_cases hp : p.2 = .inner
    · obtain ⟨w, mode⟩ := p
      cases hp
      exact ⟨[], w, order, rfl, fun _ hr => absurd hr List.not_mem_nil⟩
    · rcases List.mem_cons.mp h with he | hrest
      · exact absurd he.symm hp
      · obtain ⟨before, w, after, rfl, hbefore⟩ := ih hrest
        exact ⟨p :: before, w, after, rfl, List.forall_mem_cons.mpr ⟨hp, hbefore⟩⟩

/-- Single items up to an inner join and nothing after it leave one node for each item. -/
theorem joinFrom_until_inner (sets : ShardedInputs Ctx) (r : Nat × JoinStrategy) (w : Nat)
    (before after : List (Nat × JoinStrategy)) (hr : r.2 = .outer)
    (hpresent : ∀ x ∈ r :: (before ++ [(w, .inner)]), sets[x.1]? = some (some (.all, oneItem)))
    (habsent : ∀ x ∈ after, ∀ mode set, sets[x.1]? ≠ some (some (mode, set))) :
    joinFrom sets [] (r :: (before ++ (w, .inner) :: after)) =
      .ok (((w, .inner) :: (before.reverse ++ [r])).map oneNode) := by
  have hroot : JoinIterator.new r.2 [] (some (.all, (oneItem : CompositionSet Ctx))) r.1 =
      .ok ([r].map oneNode) := by
    rw [new_shards r.2 [] (List.cons_ne_nil _ _)
      (show keyAt ((oneItem : CompositionSet Ctx).shard .all) 0 = .ok 0 from keyAt_one), hr]
    obtain ⟨i, s⟩ := r
    cases hr
    rfl
  have hsnoc : r :: (before ++ (w, .inner) :: after) = (r :: (before ++ [(w, .inner)])) ++ after := by
    simp
  rw [hsnoc, joinFrom_append, joinFrom, hpresent r List.mem_cons_self, Option.getD_some, hroot]
  change joinFrom _ ([r].map oneNode) (before ++ [(w, .inner)]) >>= _ = _
  rw [joinFrom_one _ _ _ (List.cons_ne_nil _ _) (fun x hx => hpresent x (List.mem_cons_of_mem _ hx)),
    List.reverse_append]
  exact joinFrom_empty _ _ _ (fun x hx mode set he => absurd he (habsent x hx mode set))

theorem enumerate_one_inner {n : Nat} (w : Nat) (order : List (Nat × JoinStrategy)) (hne : order ≠ [])
    (hlt : ∀ p ∈ (w, .inner) :: order, p.1 < n) (hm : ∀ p ∈ order, p.2 ≠ .inner)
    (hroot : ∀ p, order.getLast? = some p → p.2 = .outer) :
    enumerate n (((w, .inner) :: order).map oneNode : JoinIterator Ctx) = crash := by
  have hshards : ∀ node ∈ (((w, .inner) :: order).map oneNode : JoinIterator Ctx),
      Shards node.right := by
    intro node hnode
    obtain ⟨x, -, rfl⟩ := List.mem_map.mp hnode
    exact Shards.of_shard oneItem .all (List.cons_ne_nil _ _)
  have hwrite : ∀ node ∈ (((w, .inner) :: order).map oneNode : JoinIterator Ctx),
      node.writeIndex < (List.replicate n none : Entry Ctx).length := by
    intro node hnode
    obtain ⟨x, hx, rfl⟩ := List.mem_map.mp hnode
    rw [List.length_replicate]
    exact hlt x hx
  obtain ⟨⟨filled, entry⟩, hfill⟩ := fillIn_total hshards hwrite
  exact enumerate_crash (List.cons_ne_nil _ _) hfill (advance_one_inner w order hne hm hroot)

theorem getSharding_inner_panics (n : Nat) (joinOrder : List Nat)
    (joinStrategies : List JoinStrategy) (hn : joinOrder.Nodup) (hlt : ∀ i ∈ joinOrder, i < n)
    (hm : .inner ∈ joinStrategies.take (n - 1)) :
    ∃ sets : ShardedInputs Ctx, sets.length = n ∧
      getSharding sets joinOrder joinStrategies = crash := by
  have hfull := length_fullOrder hn hlt
  have hnodup := fullOrder_nodup n hn
  have hpos : 0 < n := by
    by_contra h
    simp [show n - 1 = 0 by omega] at hm
  have hlen : (fullStrategies n joinStrategies).length = n := by
    rw [fullStrategies, List.length_cons, length_resize]
    omega
  have hfst : ((fullOrder n joinOrder).zip (fullStrategies n joinStrategies)).map Prod.fst =
      fullOrder n joinOrder := List.map_fst_zip (by omega)
  have hsnd : ((fullOrder n joinOrder).zip (fullStrategies n joinStrategies)).map Prod.snd =
      fullStrategies n joinStrategies := List.map_snd_zip (by omega)
  obtain ⟨before, w, after, hsplit, hno⟩ := exists_first_inner
    ((fullOrder n joinOrder).zip (fullStrategies n joinStrategies))
    (by rw [hsnd]; exact List.mem_cons_of_mem _ (List.mem_append_left _ hm))
  rw [hsplit] at hfst hsnd
  -- the order starts with an outer join, so something comes before the inner one
  obtain ⟨r, before, rfl⟩ : ∃ r rest, before = r :: rest := by
    cases before with
    | nil => cases (List.cons.inj hsnd).1
    | cons r rest => exact ⟨r, rest, rfl⟩
  have hr : r.2 = .outer := (List.cons.inj hsnd).1
  have hindex : ∀ x ∈ (r :: before) ++ (w, .inner) :: after, x.1 < n := by
    intro x hx
    apply (mem_fullOrder hlt x.1).mp
    rw [← hfst]
    exact List.mem_map_of_mem hx
  have hsets : (oneItemInputs n (w :: (r :: before).map Prod.fst) : ShardedInputs Ctx).length = n := by
    simp [oneItemInputs]
  refine ⟨oneItemInputs n (w :: (r :: before).map Prod.fst), hsets, ?_⟩
  rw [getSharding_eq _ joinOrder joinStrategies (by omega) hn (by rwa [hsets]), hsets, hsplit,
    List.cons_append, joinFrom_until_inner _ r w before after hr]
  · apply enumerate_one_inner w _ (by simp)
    · intro x hx
      apply hindex x
      simp only [List.mem_cons, List.mem_append, List.mem_reverse, List.not_mem_nil, or_false] at hx ⊢
      tauto
    · intro x hx
      apply hno x
      simp only [List.mem_cons, List.mem_append, List.mem_reverse, List.not_mem_nil, or_false] at hx ⊢
      tauto
    · intro x hx
      rw [List.getLast?_concat] at hx
      rw [← Option.some.inj hx, hr]
  · intro x hx
    apply oneItemInputs_mem
    · apply hindex
      simp only [List.mem_cons, List.mem_append, List.not_mem_nil, or_false] at hx ⊢
      tauto
    · rw [← List.cons_append, List.mem_append, List.mem_singleton] at hx
      rcases hx with hx | rfl
      · exact List.mem_cons_of_mem _ (List.mem_map_of_mem hx)
      · exact List.mem_cons_self
  · intro x hx
    apply oneItemInputs_not_mem
    rw [← hfst, List.map_append, List.map_cons] at hnodup
    obtain ⟨-, hafter, hdisj⟩ := List.nodup_append.mp hnodup
    intro hmem
    have hxa : x.1 ∈ after.map Prod.fst := List.mem_map_of_mem hx
    rcases List.mem_cons.mp hmem with he | hmem
    · rw [he] at hxa
      exact (List.nodup_cons.mp hafter).1 hxa
    · exact hdisj _ hmem _ (List.mem_cons_of_mem _ hxa) rfl

/-- `get_sharding` returns on all inputs of a function with `n` sets exactly when
the join order repeats no index and the strategies it uses have no inner join. -/
theorem getSharding_total_iff (n : Nat) (joinOrder : List Nat) (joinStrategies : List JoinStrategy)
    (hlt : ∀ i ∈ joinOrder, i < n) :
    (∀ sets : ShardedInputs Ctx, sets.length = n →
      ∃ es, getSharding sets joinOrder joinStrategies = .ok es) ↔
    joinOrder.Nodup ∧ .inner ∉ joinStrategies.take (n - 1) := by
  constructor
  · intro h
    have hn : joinOrder.Nodup := by
      by_contra hn
      have hlen : (List.replicate n none : ShardedInputs Ctx).length = n := List.length_replicate
      exact getSharding_not_nodup _ joinOrder joinStrategies hn (by rwa [hlen]) (h _ hlen)
    refine ⟨hn, fun hm => ?_⟩
    obtain ⟨sets, hlen, hcrash⟩ : ∃ sets : ShardedInputs Ctx, sets.length = n ∧
        getSharding sets joinOrder joinStrategies = crash :=
      getSharding_inner_panics n joinOrder joinStrategies hn hlt hm
    obtain ⟨es, hes⟩ := h sets hlen
    rw [hcrash] at hes
    cases hes
  · rintro ⟨hn, hm⟩ sets rfl
    exact getSharding_total sets joinOrder joinStrategies hn hlt hm

end Dandelion
