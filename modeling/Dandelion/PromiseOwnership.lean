import Dandelion.PromiseBuffer

/-!
# Who owns a slot

A slot of the buffer is free, or held by one client that takes it or gives it back, or in use
by one promise and one debt. This holds along every run in which the exchange of
`get_promise_data` succeeds only while the pointer it has read is still the one behind the
head: the head alone, which is all that the exchange compares, does not tell.
-/

namespace Dandelion.PromiseBuffer

open LinkedLists PromiseSlot Transitions

variable {n : Nat}

/-- The slots that only the client may touch. -/
def Pc.Holds : Pc n → Fin n → Prop
  | .taken held, slot => held = slot
  | .reclaiming held, slot => held = slot
  | .linking held _, slot => held = slot
  | .linked held _, slot => held = slot
  | _, _ => False

theorem Pc.Holds.eq {pc : Pc n} {slot other : Fin n} (h : pc.Holds slot) (hother : pc.Holds other) :
    other = slot := by
  cases pc with
  | taken held => exact hother.symm.trans h
  | reclaiming held => exact hother.symm.trans h
  | linking held head => exact hother.symm.trans h
  | linked held head => exact hother.symm.trans h
  | _ => exact h.elim

/-- The pointer in a slot, if it holds one. -/
def Buffer.nextPointer (s : Buffer n) (slot : Fin n) : Option (Option (Fin n)) :=
  match s.cells slot with
  | .next pointer => some pointer
  | .data _ => none

/-- No promise, no debt and no client has the slot. -/
def Buffer.Free (s : Buffer n) (slot : Fin n) : Prop :=
  (∀ origin, s.handles slot origin = 0) ∧ ∀ client, ¬ (s.clients client).Holds slot

def Buffer.FreeList (s : Buffer n) (list : List (Fin n)) : Prop :=
  Linked s.nextPointer s.head list ∧ list.Nodup ∧ ∀ slot, slot ∈ list ↔ s.Free slot

/-- Every slot has one owner pair at most, and the free list is the list of the free slots. -/
structure OneOwnerPair (s : Buffer n) : Prop where
  freeList : ∃ list, s.FreeList list
  /-- a slot that is returned has no other owner -/
  returned : ∀ client slot, s.clients client = .taken slot →
    (∀ origin, s.handles slot origin = 0) ∧
      ∀ other, (s.clients other).Holds slot → other = client
  pair : ∀ slot origin, s.handles slot origin ≤ 1

/-- What every step keeps of a slot. -/
structure Owned (s : Buffer n) (slot : Fin n) : Prop where
  alone : ∀ client, (s.clients client).Holds slot →
    (∀ origin, s.handles slot origin = 0) ∧
      ∀ other, (s.clients other).Holds slot → other = client
  pair : ∀ origin, s.handles slot origin ≤ 1
  flags : ∀ origin, s.handles slot origin ≠ 0 → ∃ flags, s.cells slot = .data flags ∧
    ∀ side : Origin, flags.has side.flag = true ↔ s.handles slot side ≠ 0
  linked : ∀ client head, s.clients client = .linked slot head → s.cells slot = .next head

structure Inv (s : Buffer n) : Prop where
  freeList : ∃ list, s.FreeList list
  owned : ∀ slot, Owned s slot

theorem Inv.oneOwnerPair {s : Buffer n} (h : Inv s) : OneOwnerPair s where
  freeList := h.freeList
  returned := fun client slot htaken => (h.owned slot).alone client (by rw [htaken]; exact rfl)
  pair := fun slot => (h.owned slot).pair

/-- The exchange of `get_promise_data` succeeds only while `new_head` is behind the head. -/
def Fresh (s : Buffer n) : Action n → Prop
  | .advance client _ =>
    ∀ current newHead, s.clients client = .gotNext current newHead → s.head = some current →
      s.cells current = .next newHead
  | _ => True

theorem owned_of_held {s : Buffer n} {slot : Fin n} (client : Nat)
    (hhandles : ∀ origin, s.handles slot origin = 0)
    (hholds : ∀ other, (s.clients other).Holds slot → other = client)
    (hlinked : ∀ head, s.clients client = .linked slot head → s.cells slot = .next head) :
    Owned s slot where
  alone := fun other hother => ⟨hhandles, fun third hthird =>
    (hholds third hthird).trans (hholds other hother).symm⟩
  pair := fun origin => by simp [hhandles]
  flags := fun origin h => absurd (hhandles origin) h
  linked := fun other head hother => by
    obtain rfl : other = client := hholds other (by rw [hother]; exact rfl)
    exact hlinked head hother

theorem owned_of_not_held {s : Buffer n} {slot : Fin n}
    (hholds : ∀ client, ¬ (s.clients client).Holds slot)
    (hpair : ∀ origin, s.handles slot origin ≤ 1)
    (hflags : ∀ origin, s.handles slot origin ≠ 0 → ∃ flags, s.cells slot = .data flags ∧
      ∀ side : Origin, flags.has side.flag = true ↔ s.handles slot side ≠ 0) : Owned s slot where
  alone := fun client hclient => absurd hclient (hholds client)
  pair := hpair
  flags := hflags
  linked := fun client head hclient => absurd (by rw [hclient]; exact rfl) (hholds client)

section Flags

variable (flags : FlagByte)

theorem has_and_not_flag (origin side : Origin) :
    FlagByte.has (flags &&& ~~~origin.flag) side.flag = true ↔
      side ≠ origin ∧ flags.has side.flag = true := by
  revert flags
  cases origin <;> cases side <;> decide +kernel

theorem and_alive_eq_zero_iff :
    flags &&& alive = 0 ↔ ∀ side : Origin, flags.has side.flag = false := by
  have hsides : flags &&& alive = 0 ↔
      flags.has promiseAlive = false ∧ flags.has debtAlive = false := by
    revert flags
    decide +kernel
  rw [hsides]
  constructor
  · rintro ⟨hpromise, hdebt⟩ (_ | _)
    · exact hpromise
    · exact hdebt
  · intro h
    exact ⟨h .promise, h .debt⟩

theorem has_flag (side : Origin) :
    flags.has side.flag = FlagByte.has (flags &&& alive) side.flag := by
  revert flags
  cases side <;> decide +kernel

end Flags

/-- A step does not change a slot and its owners. -/
structure Untouched (s t : Buffer n) (slot : Fin n) : Prop where
  cells : t.cells slot = s.cells slot
  handles : t.handles slot = s.handles slot
  holds : ∀ client, (t.clients client).Holds slot ↔ (s.clients client).Holds slot
  linked : ∀ client head, t.clients client = .linked slot head → s.cells slot = .next head

section Untouched

variable {s t : Buffer n} {slot : Fin n}

theorem Untouched.free_iff (h : Untouched s t slot) : t.Free slot ↔ s.Free slot := by
  simp only [Buffer.Free, h.handles, h.holds]

theorem Untouched.owned (h : Untouched s t slot) (howned : Owned s slot) : Owned t slot where
  alone := fun client hclient => by
    simp only [h.holds, h.handles] at hclient ⊢
    exact howned.alone client hclient
  pair := by
    rw [h.handles]
    exact howned.pair
  flags := by
    rw [h.handles, h.cells]
    exact howned.flags
  linked := fun client head hclient => by
    rw [h.cells]
    exact h.linked client head hclient

theorem untouched_of_client {client : Nat} {other : Fin n} (h : Inv s) (hne : other ≠ slot)
    (hcells : t.cells other = s.cells other) (hhandles : t.handles other = s.handles other)
    (hclients : ∀ third, third ≠ client → t.clients third = s.clients third)
    (hbefore : ∀ x, (s.clients client).Holds x → x = slot)
    (hafter : ∀ x, (t.clients client).Holds x → x = slot) : Untouched s t other where
  cells := hcells
  handles := hhandles
  holds := fun third => by
    by_cases hthird : third = client
    · subst hthird
      exact iff_of_false (fun hholds => hne (hafter other hholds))
        (fun hholds => hne (hbefore other hholds))
    · rw [hclients third hthird]
  linked := fun third head hthird => by
    by_cases heq : third = client
    · subst heq
      exact absurd (hafter other (by rw [hthird]; exact rfl)) hne
    · rw [hclients third heq] at hthird
      exact (h.owned other).linked third head hthird

theorem Inv.of_untouched (h : Inv s) (huntouched : ∀ other, other ≠ slot → Untouched s t other)
    (howned : Owned t slot) (hlist : ∃ list, t.FreeList list) : Inv t where
  freeList := hlist
  owned := fun other => by
    by_cases heq : other = slot
    · exact heq ▸ howned
    · exact (huntouched other heq).owned (h.owned other)

/-- A slot that is not free before nor after a step leaves the list of the free slots alone. -/
theorem Buffer.FreeList.of_untouched {list : List (Fin n)} (hlist : s.FreeList list)
    (huntouched : ∀ other, other ≠ slot → Untouched s t other) (hhead : t.head = s.head)
    (hbefore : ¬ s.Free slot) (hafter : ¬ t.Free slot) : t.FreeList list := by
  obtain ⟨hlinked, hnodup, hmem⟩ := hlist
  have hne : ∀ other ∈ list, other ≠ slot := fun other hother heq =>
    hbefore (heq ▸ (hmem other).mp hother)
  refine ⟨?_, hnodup, fun other => ?_⟩
  · rw [hhead]
    refine hlinked.congr fun other hother => ?_
    simp only [Buffer.nextPointer, (huntouched other (hne other hother)).cells]
  · by_cases heq : other = slot
    · subst heq
      exact iff_of_false (fun hother => hne other hother rfl) hafter
    · rw [hmem, (huntouched other heq).free_iff]

end Untouched

section Moves

variable {s : Buffer n} {client : Nat} {slot : Fin n}

theorem clients_setClient (s : Buffer n) (client : Nat) (pc : Pc n) (other : Nat) :
    (s.setClient client pc).clients other = if other = client then pc else s.clients other :=
  Function.update_apply ..

@[simp] theorem clients_setClient_self (s : Buffer n) (client : Nat) (pc : Pc n) :
    (s.setClient client pc).clients client = pc := Function.update_self ..

theorem clients_setClient_of_ne (s : Buffer n) (pc : Pc n) {other : Nat} (h : other ≠ client) :
    (s.setClient client pc).clients other = s.clients other := Function.update_of_ne h ..

theorem Inv.setClient (h : Inv s) {pc : Pc n}
    (hholds : ∀ slot, pc.Holds slot ↔ (s.clients client).Holds slot)
    (hlinked : ∀ slot head, pc = .linked slot head → s.cells slot = .next head) :
    Inv (s.setClient client pc) := by
  have huntouched : ∀ slot, Untouched s (s.setClient client pc) slot := fun slot => {
    cells := rfl
    handles := rfl
    holds := fun other => by
      rw [clients_setClient]
      split
      · next heq => rw [heq, hholds]
      · rfl
    linked := fun other head hother => by
      rw [clients_setClient] at hother
      split at hother
      · exact hlinked slot head hother
      · exact (h.owned slot).linked other head hother }
  obtain ⟨list, hlist, hnodup, hmem⟩ := h.freeList
  exact {
    freeList := ⟨list, hlist, hnodup, fun slot => by rw [hmem, (huntouched slot).free_iff]⟩
    owned := fun slot => (huntouched slot).owned (h.owned slot) }

theorem Inv.withHead (h : Inv s) (hholds : ∀ slot, ¬ (s.clients client).Holds slot) :
    Inv (s.withHead client) := by
  apply h.setClient
  · intro slot
    refine iff_of_false ?_ (hholds slot)
    cases s.head <;> exact id
  · intro slot head hpc
    cases hhead : s.head <;> simp [hhead] at hpc

/-- `get_promise_data` takes the head off the list. -/
theorem Inv.take (h : Inv s) {current : Fin n} {newHead : Option (Fin n)}
    (hclient : ∀ slot, ¬ (s.clients client).Holds slot) (hhead : s.head = some current)
    (hnext : s.cells current = .next newHead) :
    Inv { s.setClient client (.taken current) with head := newHead } := by
  obtain ⟨list, hlist, hnodup, hmem⟩ := h.freeList
  rw [hhead] at hlist
  obtain ⟨rest, tail, rfl, hrest, htail⟩ := hlist.exists_cons
  obtain rfl : newHead = rest := by simpa [Buffer.nextPointer, hnext] using hrest
  have hfree : s.Free current := (hmem current).mp List.mem_cons_self
  have hcurrent : current ∉ tail := (List.nodup_cons.mp hnodup).1
  have huntouched : ∀ other, other ≠ current →
      Untouched s { s.setClient client (.taken current) with head := newHead } other := by
    intro other hne
    refine untouched_of_client h hne rfl rfl (fun third => clients_setClient_of_ne s _)
      (fun x hx => absurd hx (hclient x)) fun x hx => ?_
    simpa [Pc.Holds, eq_comm] using hx
  refine h.of_untouched huntouched ?_ ⟨tail, htail, hnodup.of_cons, fun slot => ?_⟩
  · refine owned_of_held client hfree.1 (fun other hother => ?_) (by simp)
    by_contra hne
    simp only [clients_setClient_of_ne s _ hne] at hother
    exact hfree.2 other hother
  · by_cases heq : slot = current
    · subst heq
      exact iff_of_false hcurrent fun hslot => hslot.2 client (by simp [Pc.Holds])
    · rw [(huntouched slot heq).free_iff, ← hmem, List.mem_cons, or_iff_right heq]

/-- `get_promise` writes the data and hands out a promise and a debt. -/
theorem Inv.handOut (h : Inv s) (hclient : s.clients client = .taken slot) :
    Inv { (s.setCell slot (.data (debtAlive ||| promiseAlive))).setClient client .idle with
      handles := Function.update s.handles slot fun origin => s.handles slot origin + 1 } := by
  have hholds : (s.clients client).Holds slot := by
    rw [hclient]
    exact rfl
  obtain ⟨hhandles, hunique⟩ := (h.owned slot).alone client hholds
  have huntouched : ∀ other, other ≠ slot → Untouched s
      { (s.setCell slot (.data (debtAlive ||| promiseAlive))).setClient client .idle with
        handles := Function.update s.handles slot fun origin => s.handles slot origin + 1 } other := by
    intro other hne
    exact untouched_of_client h hne (Function.update_of_ne hne ..) (Function.update_of_ne hne ..)
      (fun third => clients_setClient_of_ne _ _) (fun _ => hholds.eq) (by simp [Pc.Holds])
  obtain ⟨list, hlist⟩ := h.freeList
  refine h.of_untouched huntouched (owned_of_not_held ?_ ?_ ?_)
    ⟨list, hlist.of_untouched huntouched rfl (fun hfree => hfree.2 client hholds) ?_⟩
  · intro other hother
    by_cases heq : other = client
    · simp [heq, Pc.Holds] at hother
    · simp only [clients_setClient_of_ne _ _ heq] at hother
      exact heq (hunique other hother)
  · simp [hhandles]
  · intro origin _
    refine ⟨_, Function.update_self .., fun side => ?_⟩
    cases side <;> simp [FlagByte.has, Origin.flag, debtAlive, promiseAlive]
  · intro hfree
    simpa using hfree.1 .promise

/-- `drop_promise_data` writes the head it knows behind the slot. -/
theorem Inv.writeNext (h : Inv s) {head : Option (Fin n)}
    (hclient : s.clients client = .linking slot head) :
    Inv ((s.setCell slot (.next head)).setClient client (.linked slot head)) := by
  have hholds : (s.clients client).Holds slot := by
    rw [hclient]
    exact rfl
  obtain ⟨hhandles, hunique⟩ := (h.owned slot).alone client hholds
  have huntouched : ∀ other, other ≠ slot →
      Untouched s ((s.setCell slot (.next head)).setClient client (.linked slot head)) other := by
    intro other hne
    exact untouched_of_client h hne (Function.update_of_ne hne ..) rfl
      (fun third => clients_setClient_of_ne _ _) (fun _ => hholds.eq) (by simp [Pc.Holds, eq_comm])
  obtain ⟨list, hlist⟩ := h.freeList
  refine h.of_untouched huntouched (owned_of_held client hhandles ?_ ?_)
    ⟨list, hlist.of_untouched huntouched rfl (fun hfree => hfree.2 client hholds) ?_⟩
  · intro other hother
    by_contra hne
    simp only [clients_setClient_of_ne _ _ hne] at hother
    exact hne (hunique other hother)
  · intro head' hlinked
    simp only [clients_setClient_self, Pc.linked.injEq, true_and] at hlinked
    subst hlinked
    exact Function.update_self ..
  · intro hfree
    exact hfree.2 client (by simp [Pc.Holds])

/-- `drop_promise_data` puts the slot in front of the list. -/
theorem Inv.push (h : Inv s) (hclient : s.clients client = .linked slot s.head) :
    Inv { s.setClient client .idle with head := some slot } := by
  have hholds : (s.clients client).Holds slot := by
    rw [hclient]
    exact rfl
  obtain ⟨hhandles, hunique⟩ := (h.owned slot).alone client hholds
  have huntouched : ∀ other, other ≠ slot →
      Untouched s { s.setClient client .idle with head := some slot } other := by
    intro other hne
    exact untouched_of_client h hne rfl rfl (fun third => clients_setClient_of_ne _ _)
      (fun _ => hholds.eq) (by simp [Pc.Holds])
  have hnot : ∀ other, ¬ ((s.setClient client .idle).clients other).Holds slot := by
    intro other hother
    by_cases heq : other = client
    · simp [heq, Pc.Holds] at hother
    · rw [clients_setClient_of_ne _ _ heq] at hother
      exact heq (hunique other hother)
  obtain ⟨list, hlist, hnodup, hmem⟩ := h.freeList
  have hslot : slot ∉ list := fun hlist => ((hmem slot).mp hlist).2 client hholds
  have hnext : s.nextPointer slot = some s.head := by
    simp [Buffer.nextPointer, (h.owned slot).linked client s.head hclient]
  refine h.of_untouched huntouched
    (owned_of_not_held hnot (h.owned slot).pair fun origin horigin => absurd (hhandles origin) horigin)
    ⟨slot :: list, .cons hnext hlist, List.nodup_cons.mpr ⟨hslot, hnodup⟩, fun other => ?_⟩
  rw [List.mem_cons]
  by_cases heq : other = slot
  · subst heq
    exact iff_of_true (.inl rfl) ⟨hhandles, hnot⟩
  · rw [or_iff_right heq, hmem, (huntouched other heq).free_iff]

theorem Owned.dropHandle (h : Owned s slot) {origin : Origin} {flags : FlagByte}
    (horigin : s.handles slot origin ≠ 0) (hcell : s.cells slot = .data flags) (side : Origin) :
    s.dropHandle slot origin slot side ≤ 1 ∧
      (FlagByte.has (flags &&& ~~~origin.flag) side.flag = true ↔
        s.dropHandle slot origin slot side ≠ 0) := by
  obtain ⟨flags', hcell', hflags⟩ := h.flags origin horigin
  obtain rfl : flags = flags' := by simpa [hcell] using hcell'
  have hpair := h.pair origin
  have hhandles : s.dropHandle slot origin slot side =
      if side = origin then 0 else s.handles slot side := by
    have hone : s.handles slot origin = 1 := by omega
    simp [Buffer.dropHandle, Function.update_apply, hone]
  rw [has_and_not_flag, hhandles, hflags]
  split
  · simp [*]
  · next hne => exact ⟨h.pair side, by simp [hne]⟩

/-- A promise or a debt is dropped: the one that is last holds the slot then. -/
theorem Inv.dropHandle (h : Inv s) {origin : Origin} {flags : FlagByte}
    (hclient : s.clients client = .idle) (horigin : s.handles slot origin ≠ 0)
    (hcell : s.cells slot = .data flags) :
    Inv { (s.setCell slot (.data (flags &&& ~~~origin.flag))).setClient client
        (if (flags &&& ~~~origin.flag) &&& alive = 0 then .reclaiming slot else .idle) with
      handles := s.dropHandle slot origin } := by
  have hnot : ∀ other, ¬ (s.clients other).Holds slot := fun other hother =>
    horigin (((h.owned slot).alone other hother).1 origin)
  have hdropped := (h.owned slot).dropHandle horigin hcell
  have huntouched : ∀ other, other ≠ slot → Untouched s
      { (s.setCell slot (.data (flags &&& ~~~origin.flag))).setClient client
          (if (flags &&& ~~~origin.flag) &&& alive = 0 then .reclaiming slot else .idle) with
        handles := s.dropHandle slot origin } other := by
    intro other hne
    refine untouched_of_client h hne (Function.update_of_ne hne ..) (Function.update_of_ne hne ..)
      (fun third => clients_setClient_of_ne _ _) (by simp [hclient, Pc.Holds]) fun x hx => ?_
    simp only [clients_setClient_self] at hx
    split at hx
    · exact hx.symm
    · exact hx.elim
  obtain ⟨list, hlist⟩ := h.freeList
  have hbefore : ¬ s.Free slot := fun hfree => horigin (hfree.1 origin)
  by_cases hlast : (flags &&& ~~~origin.flag) &&& alive = 0
  · have hzero : ∀ side, s.dropHandle slot origin slot side = 0 := by
      intro side
      by_contra hside
      have hhas := (and_alive_eq_zero_iff _).mp hlast side
      simp [(hdropped side).2.mpr hside] at hhas
    refine h.of_untouched huntouched (owned_of_held client hzero ?_ ?_)
      ⟨list, hlist.of_untouched huntouched rfl hbefore fun hfree => hfree.2 client ?_⟩
    · intro other hother
      by_contra hne
      simp only [clients_setClient_of_ne _ _ hne] at hother
      exact hnot other hother
    · simp only [clients_setClient_self, if_pos hlast]
      nofun
    · simp only [clients_setClient_self, if_pos hlast]
      rfl
  · obtain ⟨side, hhas⟩ : ∃ side : Origin, FlagByte.has (flags &&& ~~~origin.flag) side.flag = true := by
      by_contra! hnone
      exact hlast ((and_alive_eq_zero_iff _).mpr fun side => by simpa using hnone side)
    refine h.of_untouched huntouched
      (owned_of_not_held ?_ (fun side => (hdropped side).1) fun side _ =>
        ⟨_, Function.update_self .., fun other => (hdropped other).2⟩)
      ⟨list, hlist.of_untouched huntouched rfl hbefore fun hfree =>
        (hdropped side).2.mp hhas (hfree.1 side)⟩
    intro other hother
    by_cases heq : other = client
    · simp only [heq, clients_setClient_self, if_neg hlast] at hother
      exact hother
    · simp only [clients_setClient_of_ne _ _ heq] at hother
      exact hnot other hother

/-- A poll or `fulfill` changes the flags that it may change. -/
theorem Inv.setFlags (h : Inv s) {origin : Origin} {flags previousFlags : FlagByte}
    (horigin : s.handles slot origin ≠ 0) (hcell : s.cells slot = .data previousFlags)
    (hflags : flags &&& alive = previousFlags &&& alive) : Inv (s.setCell slot (.data flags)) := by
  have howned := h.owned slot
  have hnot : ∀ other, ¬ (s.clients other).Holds slot := fun other hother =>
    horigin ((howned.alone other hother).1 origin)
  have huntouched : ∀ other, other ≠ slot → Untouched s (s.setCell slot (.data flags)) other :=
    fun other hne => {
      cells := Function.update_of_ne hne ..
      handles := rfl
      holds := fun _ => Iff.rfl
      linked := (h.owned other).linked }
  obtain ⟨list, hlist⟩ := h.freeList
  have hfree : ¬ s.Free slot := fun hfree => horigin (hfree.1 origin)
  refine h.of_untouched huntouched (owned_of_not_held hnot howned.pair fun side hside => ?_)
    ⟨list, hlist.of_untouched huntouched rfl hfree hfree⟩
  obtain ⟨flags', hcell', hflags'⟩ := howned.flags side hside
  rw [hcell] at hcell'
  cases hcell'
  refine ⟨flags, Function.update_self .., fun other => ?_⟩
  rw [has_flag, hflags, ← has_flag]
  exact hflags' other

end Moves

theorem inv_step (s : Buffer n) (action : Action n) (t : Buffer n) (h : Inv s)
    (hstep : step s action = some t) (hfresh : Fresh s action) : Inv t := by
  cases action with
  | getPromise client =>
    simp only [step] at hstep
    split at hstep
    · next hclient =>
      cases hstep
      exact h.withHead (by simp [hclient, Pc.Holds])
    · cases hstep
  | dropHandle client slot origin =>
    simp only [step] at hstep
    split at hstep
    · next hclient =>
      cases hcell : s.cells slot with
      | next pointer => simp [hcell] at hstep
      | data flags =>
        simp only [hcell, Option.some.injEq] at hstep
        subst hstep
        exact h.dropHandle hclient.1 hclient.2 hcell
    · cases hstep
  | setFlags slot origin flags =>
    simp only [step] at hstep
    cases hcell : s.cells slot with
    | next pointer => simp [hcell] at hstep
    | data previousFlags =>
      simp only [hcell] at hstep
      split at hstep
      · next hflags =>
        cases hstep
        exact h.setFlags hflags.1 hcell hflags.2
      · cases hstep
  | advance client found =>
    simp only [step, advance] at hstep
    cases hclient : s.clients client with
    | idle => simp [hclient] at hstep
    | gotHead current =>
      simp only [hclient, Option.some.injEq] at hstep
      subst hstep
      exact h.setClient (by simp [hclient, Pc.Holds]) (by simp)
    | gotNext current newHead =>
      simp only [hclient] at hstep
      split at hstep
      · next hhead =>
        cases hstep
        exact h.take (by simp [hclient, Pc.Holds]) hhead (hfresh current newHead hclient hhead)
      · cases hstep
        exact h.withHead (by simp [hclient, Pc.Holds])
    | taken slot =>
      simp only [hclient, Option.some.injEq] at hstep
      subst hstep
      exact h.handOut hclient
    | reclaiming slot =>
      simp only [hclient, Option.some.injEq] at hstep
      subst hstep
      exact h.setClient (by simp [hclient, Pc.Holds]) (by simp)
    | linking slot head =>
      simp only [hclient, Option.some.injEq] at hstep
      subst hstep
      exact h.writeNext hclient
    | linked slot head =>
      simp only [hclient] at hstep
      split at hstep
      · next hhead =>
        cases hstep
        exact h.push (hhead ▸ hclient)
      · cases hstep
        exact h.setClient (by simp [hclient, Pc.Holds]) (by simp)

theorem free_take_iff {s : Buffer n} {client : Nat} {current : Fin n} {newHead : Option (Fin n)}
    (hclient : ∀ slot, ¬ (s.clients client).Holds slot) (slot : Fin n) :
    Buffer.Free { s.setClient client (.taken current) with head := newHead } slot ↔
      s.Free slot ∧ slot ≠ current := by
  constructor
  · rintro ⟨hhandles, hholds⟩
    refine ⟨⟨hhandles, fun other hother => ?_⟩, fun heq => hholds client (by simp [Pc.Holds, heq])⟩
    by_cases heq : other = client
    · exact hclient slot (heq ▸ hother)
    · apply hholds other
      simp only [clients_setClient_of_ne _ _ heq]
      exact hother
  · rintro ⟨⟨hhandles, hholds⟩, hne⟩
    refine ⟨hhandles, fun other hother => ?_⟩
    by_cases heq : other = client
    · simp only [heq, clients_setClient_self] at hother
      exact hne hother.symm
    · simp only [clients_setClient_of_ne _ _ heq] at hother
      exact hholds other hother

/-- An exchange with another pointer than the one behind the head loses a free slot or leads to
one that is not free. -/
theorem fresh_of_oneOwnerPair (s : Buffer n) (action : Action n) (t : Buffer n)
    (hs : OneOwnerPair s) (hstep : step s action = some t) (ht : OneOwnerPair t) :
    Fresh s action := by
  cases action with
  | getPromise client => trivial
  | dropHandle client slot origin => trivial
  | setFlags slot origin flags => trivial
  | advance client found =>
    intro current newHead hclient hhead
    simp only [step, advance, hclient, if_pos hhead, Option.some.injEq] at hstep
    subst hstep
    obtain ⟨list, hlist, hnodup, hmem⟩ := hs.freeList
    rw [hhead] at hlist
    obtain ⟨rest, tail, rfl, hrest, htail⟩ := hlist.exists_cons
    obtain ⟨list', hlist', hnodup', hmem'⟩ := ht.freeList
    have hsame : ∀ slot, slot ∈ list' ↔ slot ∈ tail := by
      intro slot
      rw [hmem', free_take_iff (by simp [hclient, Pc.Holds]), ← hmem, List.mem_cons]
      have hcurrent : current ∉ tail := (List.nodup_cons.mp hnodup).1
      constructor
      · rintro ⟨hslot, hne⟩
        exact hslot.resolve_left hne
      · intro hslot
        exact ⟨.inr hslot, fun heq => hcurrent (heq ▸ hslot)⟩
    have hpointer : newHead = rest :=
      Linked.pointer_eq htail hlist' hnodup.of_cons hnodup' hsame
    unfold Buffer.nextPointer at hrest
    split at hrest
    · next pointer hcell =>
      rw [hcell, hpointer]
      simpa using hrest
    · cases hrest

theorem init_linked (n k : Nat) (hk : k < n + 1) :
    Linked (init n).nextPointer (some ⟨k, hk⟩) ((List.finRange (n + 1)).drop k) := by
  have hlength : k < (List.finRange (n + 1)).length := by simpa using hk
  -- the rest of the buffer, by the number of slots behind slot `k`
  induction hd : n - k generalizing k with
  | zero =>
    have hlast : (init n).nextPointer ⟨k, hk⟩ = some none := by
      simp only [Buffer.nextPointer, init]
      rw [dif_neg (by omega)]
    rw [List.drop_eq_getElem_cons hlength, List.getElem_finRange]
    refine .cons hlast ?_
    rw [List.drop_eq_nil_of_le (by simp; omega)]
    rfl
  | succ d ih =>
    have hlt : k + 1 < n + 1 := by omega
    have hnext : (init n).nextPointer ⟨k, hk⟩ = some (some ⟨k + 1, hlt⟩) := by
      simp only [Buffer.nextPointer, init]
      rw [dif_pos hlt]
    rw [List.drop_eq_getElem_cons hlength, List.getElem_finRange]
    exact .cons hnext (ih (k + 1) hlt (by simpa using hlt) (by omega))

theorem inv_init (n : Nat) : Inv (init n) where
  freeList := by
    refine ⟨List.finRange (n + 1), init_linked n 0 (Nat.succ_pos n), List.nodup_finRange _, ?_⟩
    intro slot
    exact iff_of_true (List.mem_finRange slot) ⟨fun _ => rfl, fun _ => id⟩
  owned := fun slot => owned_of_not_held (fun _ => id) (fun _ => Nat.zero_le 1)
    fun origin h => absurd rfl h

/-- The slots of a buffer have one owner pair along a run just if no exchange of
`get_promise_data` in it succeeds with a pointer that is not behind the head any more. -/
theorem oneOwnerPair_along_iff_fresh (n : Nat) (actions : List (Action (n + 1))) :
    SafeAlong step OneOwnerPair (init n) actions ↔ GuardedAlong step Fresh (init n) actions :=
  ⟨guarded_of_safeAlong (J := fun _ => True) (fun _ _ _ _ _ => trivial)
      (fun s action t _ => fresh_of_oneOwnerPair s action t) actions trivial,
    safeAlong_of_guarded inv_step (fun _ => Inv.oneOwnerPair) actions (inv_init n)⟩

/-- Client 0 reads that slot 1 is behind slot 0; before its exchange client 1 gets slots 0 and
1 and gives slot 0 back. Slot 1 becomes the head, and client 2 gets it a second time. -/
theorem slot_taken_twice :
    ∃ s : Buffer 3, run step (init 2)
        [.getPromise 0, .advance 0 none,
          .getPromise 1, .advance 1 none, .advance 1 none, .advance 1 none,
          .getPromise 1, .advance 1 none, .advance 1 none, .advance 1 none,
          .dropHandle 1 0 .promise, .dropHandle 1 0 .debt,
          .advance 1 none, .advance 1 none, .advance 1 none,
          .advance 0 none,
          .getPromise 2, .advance 2 none, .advance 2 none] = some s ∧
      s.clients 2 = .taken 1 ∧ s.handles 1 .promise = 1 ∧ s.handles 1 .debt = 1 ∧
      ¬ OneOwnerPair s := by
  refine ⟨_, rfl, rfl, rfl, rfl, fun h => ?_⟩
  have hfree := (h.returned 2 1 rfl).1 .promise
  cases hfree

end Dandelion.PromiseBuffer
