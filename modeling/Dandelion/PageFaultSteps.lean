import Dandelion.PageFaults
import Dandelion.SetUpSafety

/-!
# What the page fault handler does

`Inv` is what the address space of a function looks like at any time: the tables are linked,
reserved pages have the entries they were given, and every other page is absent, itself, or a
copy of a block. `Handled` is the effect of a fault that the handler resolves: the page is mapped
to itself, and the entries of all other pages are as before.
-/

open Outcome Stateful Paging PagedMachine

namespace Dandelion.Kvm

variable {L : Layout} {memory memory' : Nat → Nat}

namespace Layout

variable (L)

/-- The number of pages that the tables can map. -/
def pages : Nat := L.tables * 512 * 512

/-- The frames of the p2 and p1 tables. -/
def TableFrame (f : Nat) : Prop := L.base ≤ f ∧ f < L.p3

theorem pages_le : L.pages ≤ 2 ^ 27 := by
  have := L.tables_le
  unfold pages
  omega

variable {L}

theorem Reserved.lt {v : Nat} (h : L.Reserved v) : v < L.pages := by
  have := L.tables_fit
  have := L.interrupt_le
  have := L.interruptEnd_le
  have := L.last_le
  have : L.p4 = L.base + 513 * L.tables + 1 := rfl
  unfold Reserved at h
  unfold pages
  omega

end Layout

structure Inv (L : Layout) (memory : Nat → Nat) : Prop where
  linked : Linked L memory
  reserved : ∀ v, L.Reserved v → lookup (L.array memory) v = L.reservedEntry v
  free : ∀ v < L.pages, ¬ L.Reserved v → OpenEntry L v (lookup (L.array memory) v)

theorem Built.inv {ranges : List PresentRange} (h : Built L ranges memory memory')
    (hplaced : ∀ range ∈ ranges, Placed L range) : Inv L memory' where
  linked := h.linked
  reserved := by
    intro v hv
    rw [h.lookup v hv.lt, entryAt_reserved hv]
  free := by
    intro v hv hfree
    rw [h.lookup v hv]
    exact entryAt_open hplaced hfree

section Walks

theorem Linked.walk_of_lt (h : Linked L memory) {v : Nat} (hv : v < L.pages) :
    walk memory L.p4 v = resolve1 (lookup (L.array memory) v) := by
  have hle := L.pages_le
  unfold Layout.pages at *
  have hpage : v % 512 ^ 3 = v := by omega
  rw [h.walk_eq, if_pos (by omega), hpage]

theorem Inv.walk_reserved (h : Inv L memory) {v : Nat} (hv : L.Reserved v) :
    walk memory L.p4 v = some ⟨v, decide (v < L.interruptEnd), false⟩ := by
  have hlt := hv.lt
  have hle := L.pages_le
  rw [h.linked.walk_of_lt hlt, h.reserved v hv, resolve1_reserved (by omega)]

theorem Layout.reserved_table {f : Nat} (h : L.base ≤ f) (h' : f ≤ L.p4) :
    L.Reserved f ∧ f < L.interruptEnd := by
  have := L.tables_fit
  have := L.interrupt_le
  have : L.p4 = L.base + 513 * L.tables + 1 := rfl
  exact ⟨Or.inl ⟨h, by omega⟩, by omega⟩

theorem Inv.walk_table (h : Inv L memory) {f : Nat} (hmin : L.base ≤ f) (hmax : f ≤ L.p4) :
    walk memory L.p4 f = some ⟨f, true, false⟩ := by
  obtain ⟨hreserved, hlt⟩ := Layout.reserved_table hmin hmax
  rw [h.walk_reserved hreserved, decide_eq_true hlt]

end Walks

/-! ## Changes of the memory -/

/-- The tables have changed, but they give the same entries to all pages; nothing else has. -/
structure SameSpace (L : Layout) (memory memory' : Nat → Nat) : Prop where
  linked : Linked L memory'
  lookup : ∀ v < L.pages, lookup (L.array memory') v = lookup (L.array memory) v
  other : ∀ w, ¬ L.TableFrame (w / 512) → memory' w = memory w

theorem SameSpace.inv (h : SameSpace L memory memory') (hinv : Inv L memory) : Inv L memory' where
  linked := h.linked
  reserved := by
    intro v hv
    rw [h.lookup v hv.lt]
    exact hinv.reserved v hv
  free := by
    intro v hv hfree
    rw [h.lookup v hv]
    exact hinv.free v hv hfree

theorem SameSpace.trans {memory'' : Nat → Nat} (h : SameSpace L memory memory')
    (h' : SameSpace L memory' memory'') : SameSpace L memory memory'' where
  linked := h'.linked
  lookup := fun v hv => (h'.lookup v hv).trans (h.lookup v hv)
  other := fun w hw => (h'.other w hw).trans (h.other w hw)

/-- Tables that agree on the p4, p3 and p2 entries are linked alike. -/
theorem Linked.congr (h : Linked L memory) (hroot : ∀ w, w / 512 = L.p4 → memory' w = memory w)
    (hp3 : ∀ w, w / 512 = L.p3 → memory' w = memory w)
    (hshape : Shape L.base L.tables (L.array memory')) : Linked L memory' where
  root := by
    rw [hroot _ (by omega)]
    exact h.root
  root_rest := by
    intro i hpos hi
    rw [hroot _ (by omega)]
    exact h.root_rest i hpos hi
  p3 := by
    intro i hi
    have := L.tables_le
    rw [hp3 _ (by omega)]
    exact h.p3 i hi
  p3_rest := by
    intro i hle hi
    rw [hp3 _ (by omega)]
    exact h.p3_rest i hle hi
  shape := hshape

/-- A frame outside the tables may change. -/
theorem sameSpace_of_frame (h : Linked L memory) {f : Nat} (hf : ¬ (L.base ≤ f ∧ f ≤ L.p4))
    (hother : ∀ w, w / 512 ≠ f → memory' w = memory w) :
    Linked L memory' ∧ ∀ v < L.pages, lookup (L.array memory') v = lookup (L.array memory) v := by
  have hp3 : L.p3 = L.base + 513 * L.tables := rfl
  have hp4 : L.p4 = L.p3 + 1 := rfl
  have harray : ∀ i < L.tables * (513 * 512), L.array memory' i = L.array memory i := by
    intro i hi
    exact hother _ (by omega)
  refine ⟨h.congr (fun w hw => hother w (by omega)) (fun w hw => hother w (by omega)) ?_, ?_⟩
  · intro r hr
    rw [harray _ (p2Index_lt hr)]
    exact h.shape r hr
  · intro v hv
    unfold Layout.pages at hv
    rw [Kvm.lookup, Kvm.lookup, harray _ (p2Index_lt (by omega)), harray _ (p1Index_lt hv)]

/-! ## Changes of the tables -/

/-- The frame of the p1 table of a region. -/
def Layout.p1Frame (L : Layout) (r : Nat) : Nat := L.base + p1Page r

theorem Layout.p1Frame_lt {r : Nat} (hr : r < L.tables * 512) :
    L.base < L.p1Frame r ∧ L.p1Frame r < L.p3 := by
  unfold p1Frame p1Page Layout.p3
  omega

theorem array_update (i value : Nat) :
    L.array (Function.update memory (512 * L.base + i) value)
      = Function.update (L.array memory) i value := by
  funext j
  unfold Layout.array
  rw [Function.update_apply, Function.update_apply]
  simp only [Nat.add_left_cancel_iff]

theorem tableFrame_index {i : Nat} (hi : i < L.tables * (513 * 512)) :
    L.TableFrame ((512 * L.base + i) / 512) := by
  unfold Layout.TableFrame Layout.p3
  omega

/-- The p1 table of a region that does not use it may change. -/
theorem sameSpace_of_p1 (h : Linked L memory) {r : Nat} (hr : r < L.tables * 512)
    (hp2 : L.array memory (p2Index r) ≠ pointer L.base r)
    (hother : ∀ w, w / 512 ≠ L.p1Frame r → memory' w = memory w) : SameSpace L memory memory' := by
  obtain ⟨hmin, hmax⟩ := Layout.p1Frame_lt hr
  have hp4 : L.p4 = L.p3 + 1 := rfl
  have hp2Entry : ∀ r', L.array memory' (p2Index r') = L.array memory (p2Index r') := by
    intro r'
    apply hother
    unfold Layout.p1Frame p1Page p2Index
    omega
  have hshape : Shape L.base L.tables (L.array memory') := by
    intro r' hr'
    rw [hp2Entry]
    exact h.shape r' hr'
  refine ⟨h.congr (fun w hw => hother w (by omega)) (fun w hw => hother w (by omega)) hshape, ?_, ?_⟩
  · intro v hv
    unfold Layout.pages at hv
    have hentry := h.shape (v / 512) (by omega)
    rw [Kvm.lookup, Kvm.lookup, hp2Entry]
    by_cases hregion : v / 512 = r
    · rw [← hregion] at hp2
      generalize L.array memory (p2Index (v / 512)) = e at hentry hp2
      cases hentry with
      | absent => rfl
      | large hflags hlarge hf => rw [hflags.resolve_large, hflags.resolve_large]
      | table => exact absurd rfl hp2
    · have hp1 : L.array memory' (p1Index v) = L.array memory (p1Index v) := by
        apply hother
        unfold Layout.p1Frame p1Index p1Page
        omega
      rw [hp1]
  · intro w hw
    apply hother
    intro heq
    apply hw
    rw [heq]
    exact ⟨by omega, hmax⟩

/-- A region gets its p1 table, in which the entries of its pages are. -/
theorem sameSpace_of_p2 (h : Linked L memory) {r : Nat} (hr : r < L.tables * 512)
    (hp1 : ∀ v, v / 512 = r → L.array memory (p1Index v) = lookup (L.array memory) v) :
    SameSpace L memory
      (Function.update memory (512 * L.base + p2Index r) (pointer L.base r)) := by
  have hframe := tableFrame_index (L := L) (p2Index_lt hr)
  have hp4 : L.p4 = L.p3 + 1 := rfl
  have hother : ∀ w, ¬ L.TableFrame (w / 512) →
      Function.update memory (512 * L.base + p2Index r) (pointer L.base r) w = memory w := by
    intro w hw
    apply Function.update_of_ne
    intro heq
    rw [heq] at hw
    exact hw hframe
  refine ⟨h.congr ?_ ?_ ?_, ?_, hother⟩
  · intro w hw
    exact hother w (by unfold Layout.TableFrame; omega)
  · intro w hw
    exact hother w (by unfold Layout.TableFrame; omega)
  · rw [array_update]
    exact h.shape.update_p2 .table
  · intro v hv
    rw [array_update, lookup_update_p2]
    split_ifs with hregion
    · rw [resolve_pointer, hp1 v hregion]
    · rfl

theorem own_of_p1 (h : Linked L memory) {v : Nat} (hv : v < L.pages)
    (hp2 : L.array memory (p2Index (v / 512)) = pointer L.base (v / 512)) :
    Linked L (Function.update memory (512 * L.base + p1Index v) (entry 7 v))
      ∧ (∀ v', lookup (L.array (Function.update memory (512 * L.base + p1Index v) (entry 7 v))) v'
        = if v' = v then entry 7 v else lookup (L.array memory) v')
      ∧ ∀ w, ¬ L.TableFrame (w / 512) →
        Function.update memory (512 * L.base + p1Index v) (entry 7 v) w = memory w := by
  have hframe := tableFrame_index (L := L) (p1Index_lt hv)
  have hp4 : L.p4 = L.p3 + 1 := rfl
  have hother : ∀ w, ¬ L.TableFrame (w / 512) →
      Function.update memory (512 * L.base + p1Index v) (entry 7 v) w = memory w := by
    intro w hw
    apply Function.update_of_ne
    intro heq
    rw [heq] at hw
    exact hw hframe
  refine ⟨h.congr ?_ ?_ ?_, ?_, hother⟩
  · intro w hw
    exact hother w (by unfold Layout.TableFrame; omega)
  · intro w hw
    exact hother w (by unfold Layout.TableFrame; omega)
  · rw [array_update]
    exact h.shape.update_p1
  · intro v'
    rw [array_update, lookup_update_p1]
    split_ifs with heq
    · rw [heq, hp2, resolve_pointer]
    · rfl

/-! ## Pages -/

section Pages

variable {root page f : Nat} {machine : Machine} {E : Machine → Prop} {user : Bool}

theorem runs_zeroPage (hpage : page < 2 ^ 35)
    (hstable : Stable root machine.memory f page ⟨f, true, user⟩) :
    Runs (zeroPage root (4096 * page)) machine (fun _ => Filled machine f fun _ => 0) E := by
  unfold zeroPage
  apply Runs.imp (Q := fun _ => FilledTo machine f (fun _ => 0) (32 * 16))
  · apply runs_times (fun round => FilledTo machine f (fun _ => 0) (32 * round)) (filledTo_zero _ _ _)
    intro round hround machine' h
    have haddress : 4096 * page + 256 * round = 4096 * page + 8 * (32 * round) := by omega
    rw [haddress]
    apply runs_storeVectors hpage hstable (by omega) _ h
    intro i hi
    rw [List.getD_eq_getElem?_getD, List.getElem?_replicate, if_pos hi]
    rfl
  · exact fun _ _ h => h.filled

theorem runs_copyPage {source : Nat} {t : Translation} (hpage : page < 2 ^ 35) (hsource : source < 2 ^ 35)
    (hstable : Stable root machine.memory f page ⟨f, true, user⟩)
    (hread : Stable root machine.memory f source t) (hne : t.frame ≠ f) :
    Runs (copyPage root (4096 * source) (4096 * page)) machine
      (fun _ => Filled machine f fun i => machine.memory (512 * t.frame + i)) E := by
  unfold copyPage
  apply Runs.imp (Q := fun _ =>
    FilledTo machine f (fun i => machine.memory (512 * t.frame + i)) (32 * 16))
  · apply runs_times
      (fun round => FilledTo machine f (fun i => machine.memory (512 * t.frame + i)) (32 * round))
      (filledTo_zero _ _ _)
    intro round hround machine' h
    have haddress : 4096 * page + 256 * round = 4096 * page + 8 * (32 * round) := by omega
    have haddress' : 4096 * source + 256 * round = 4096 * source + 8 * (32 * round) := by omega
    have hwalk : walk machine'.memory root source = some t := by
      apply hread
      intro w hw
      rw [h.1, fillTo_of_ne hw]
    rw [haddress, haddress']
    apply (runs_loadVectors hsource hwalk (by omega)).bind
    rintro vectors machine'' ⟨rfl, -, hvectors⟩
    apply runs_storeVectors hpage hstable (by omega) _ h
    intro i hi
    -- the source is not the frame that is written
    rw [hvectors i hi, wordsAt, wordsAt]
    apply List.map_congr_left
    intro j hj
    have := List.mem_range.mp hj
    rw [h.1, fillTo_of_ne (by omega), Nat.add_assoc]
  · exact fun _ _ h => h.filled

end Pages

/-! ## Paths of the handler -/

/-- The page `v` is mapped to itself with the words `g`; all other pages have the entries they had. -/
structure Handled (L : Layout) (v : Nat) (g : Nat → Nat) (memory memory' : Nat → Nat) : Prop where
  linked : Linked L memory'
  lookup : ∀ v' < L.pages, lookup (L.array memory') v'
    = if v' = v then entry 7 v else lookup (L.array memory) v'
  page : ∀ i < 512, memory' (512 * v + i) = g i
  other : ∀ w, w / 512 ≠ v → ¬ L.TableFrame (w / 512) → memory' w = memory w

theorem SameSpace.handled {memory'' : Nat → Nat} {v : Nat} {g : Nat → Nat}
    (h : SameSpace L memory memory') (h' : Handled L v g memory' memory'') :
    Handled L v g memory memory'' where
  linked := h'.linked
  lookup := by
    intro v' hv'
    rw [h'.lookup v' hv', h.lookup v' hv']
  page := h'.page
  other := fun w hne hw => (h'.other w hne hw).trans (h.other w hw)

/-- The frames that the handler may store to. -/
def Layout.HandlerFrame (L : Layout) (v f : Nat) : Prop := f = v ∨ L.TableFrame f

/-- The outcome of a path: the page has been mapped to itself. -/
def Resolves (L : Layout) (v : Nat) (g : Nat → Nat) (machine machine' : Machine) : Prop :=
  Handled L v g machine.memory machine'.memory ∧ StoredIn (L.HandlerFrame v) machine machine'

section Paths

variable {machine : Machine} {E : Machine → Prop} {v : Nat}

theorem wrap_eq {value : Nat} (h : value < 2 ^ 64) : wrap value = value := Nat.mod_eq_of_lt h

theorem or_own (page : Nat) : 4096 * page ||| pde64AllAllowed = entry 7 page := by
  rw [Nat.or_comm]
  exact or_small (by decide) page

theorem Layout.p4_lt (L : Layout) : L.p4 < 2 ^ 27 := by
  have := (Layout.reserved_table (L := L) (show L.base ≤ L.p4 by unfold p4 p3; omega) (le_refl _)).1.lt
  have := L.pages_le
  omega

theorem runs_storeEntry (hinv : Inv L machine.memory) {f n value : Nat} (hmin : L.base ≤ f)
    (hmax : f < L.p3) (hn : n < 512) :
    Runs (storeWords HandlerStop.nestedFault L.p4 (wrap (4096 * f + 8 * n)) [value]) machine
      (fun _ machine' => machine'.memory = Function.update machine.memory (512 * f + n) value
        ∧ StoredIn L.TableFrame machine machine') E := by
  have hp4 : L.p4 = L.p3 + 1 := rfl
  have hlt := L.p4_lt
  have hwalk := hinv.walk_table hmin (show f ≤ L.p4 by omega)
  rw [wrap_eq (by omega)]
  apply (runs_storeWords (by omega) (by simp only [List.length_singleton]; omega) hn hwalk).imp
  rintro _ machine' ⟨hmemory, hstored⟩
  rw [writeWords_singleton] at hmemory
  refine ⟨hmemory, hstored.mono ?_⟩
  rintro _ rfl
  exact ⟨hmin, hmax⟩

variable (hv : v < L.pages)
include hv

theorem Layout.region_lt : v / 512 < L.tables * 512 := by
  unfold pages at hv
  omega

theorem runs_storeP1 (hinv : Inv L machine.memory) {value : Nat} :
    Runs (storeWords HandlerStop.nestedFault L.p4 (wrap (4096 * L.p1Frame (v / 512) + 8 * (v % 512))) [value])
      machine (fun _ machine' =>
        machine'.memory = Function.update machine.memory (512 * L.base + p1Index v) value
          ∧ StoredIn L.TableFrame machine machine') E := by
  obtain ⟨hmin, hmax⟩ := Layout.p1Frame_lt (Layout.region_lt hv)
  have hword : 512 * L.p1Frame (v / 512) + v % 512 = 512 * L.base + p1Index v := by
    unfold Layout.p1Frame p1Index
    omega
  rw [← hword]
  exact runs_storeEntry hinv (by omega) hmax (by omega)

theorem runs_storeP2 (hinv : Inv L machine.memory) {value : Nat} :
    Runs (storeWords HandlerStop.nestedFault L.p4
        (wrap (4096 * (L.base + v / 512 / 512 * 513) + 8 * (v / 512 % 512))) [value])
      machine (fun _ machine' =>
        machine'.memory = Function.update machine.memory (512 * L.base + p2Index (v / 512)) value
          ∧ StoredIn L.TableFrame machine machine') E := by
  have hregion := Layout.region_lt hv
  have hword : 512 * (L.base + v / 512 / 512 * 513) + v / 512 % 512
      = 512 * L.base + p2Index (v / 512) := by
    unfold p2Index
    omega
  rw [← hword]
  exact runs_storeEntry hinv (by omega) (by unfold Layout.p3; omega) (by omega)

/-- After the p1 entry of a page has been set, the page can be written through it. -/
theorem stable_own (hlinked : Linked L memory) (hfree : ¬ L.Reserved v)
    (hlookup : lookup (L.array memory) v = entry 7 v) : Stable L.p4 memory v v ⟨v, true, true⟩ := by
  intro memory' hother
  obtain ⟨hlinked', hsame⟩ := sameSpace_of_frame hlinked
    (fun hin => hfree (Layout.reserved_table hin.1 hin.2).1) hother
  have hle := L.pages_le
  rw [hlinked'.walk_of_lt hv, hsame v hv, hlookup, resolve1_own (by omega)]

omit hv in
/-- A reserved page is translated alike whatever is written to a page that is not. -/
theorem stable_reserved (hlinked : Linked L memory) (hfree : ¬ L.Reserved v) {b : Nat}
    (hb : L.Reserved b) (hlookup : lookup (L.array memory) b = L.reservedEntry b) :
    Stable L.p4 memory v b ⟨b, decide (b < L.interruptEnd), false⟩ := by
  intro memory' hother
  obtain ⟨hlinked', hsame⟩ := sameSpace_of_frame hlinked
    (fun hin => hfree (Layout.reserved_table hin.1 hin.2).1) hother
  have hle := L.pages_le
  have hlt := hb.lt
  rw [hlinked'.walk_of_lt hlt, hsame b hlt, hlookup, resolve1_reserved (by omega)]

theorem handled_of_filled {machine₁ machine₂ : Machine} {g : Nat → Nat}
    (hlinked : Linked L machine.memory) (hfree : ¬ L.Reserved v)
    (hp2 : L.array machine.memory (p2Index (v / 512)) = pointer L.base (v / 512))
    (hset : machine₁.memory = Function.update machine.memory (512 * L.base + p1Index v) (entry 7 v)
      ∧ StoredIn L.TableFrame machine machine₁)
    (hfill : Filled machine₁ v g machine₂) : Resolves L v g machine machine₂ := by
  obtain ⟨hlinked₁, hlookup₁, hother₁⟩ := own_of_p1 hlinked hv hp2
  rw [← hset.1] at hlinked₁ hlookup₁ hother₁
  have hother₂ : ∀ w, w / 512 ≠ v → machine₂.memory w = machine₁.memory w := by
    intro w hw
    rw [hfill.1]
    exact if_neg hw
  obtain ⟨hlinked₂, hlookup₂⟩ := sameSpace_of_frame hlinked₁
    (fun hin => hfree (Layout.reserved_table hin.1 hin.2).1) hother₂
  refine ⟨⟨hlinked₂, ?_, ?_, ?_⟩, ?_⟩
  · intro v' hv'
    rw [hlookup₂ v' hv', hlookup₁ v']
  · intro i hi
    have hframe : (512 * v + i) / 512 = v := by omega
    have hindex : (512 * v + i) % 512 = i := by omega
    rw [hfill.1, fillFrame, if_pos hframe, hindex]
  · intro w hne hw
    rw [hother₂ w hne, hother₁ w hw]
  · apply (hset.2.mono fun f hf => Or.inr hf).trans
    exact hfill.2.mono fun f hf => Or.inl hf

theorem stable_p1Frame (hinv : Inv L memory)
    (hp2 : L.array memory (p2Index (v / 512)) ≠ pointer L.base (v / 512)) :
    Stable L.p4 memory (L.p1Frame (v / 512)) (L.p1Frame (v / 512))
      ⟨L.p1Frame (v / 512), true, false⟩ := by
  intro memory' hother
  obtain ⟨hmin, hmax⟩ := Layout.p1Frame_lt (Layout.region_lt hv)
  have hp4 : L.p4 = L.p3 + 1 := rfl
  have hsame := sameSpace_of_p1 hinv.linked (Layout.region_lt hv) hp2 hother
  exact (hsame.inv hinv).walk_table (by omega) (by omega)

/-- A p1 table with the entries that the pages of its region have is put in place. -/
theorem sameSpace_of_installed {machine₁ : Machine} {g : Nat → Nat} (hlinked : Linked L machine.memory)
    (hp2 : L.array machine.memory (p2Index (v / 512)) ≠ pointer L.base (v / 512))
    (hfill : Filled machine (L.p1Frame (v / 512)) g machine₁)
    (hg : ∀ v', v' / 512 = v / 512 → g (v' % 512) = lookup (L.array machine.memory) v') :
    SameSpace L machine.memory machine₁.memory
      ∧ SameSpace L machine₁.memory (Function.update machine₁.memory
        (512 * L.base + p2Index (v / 512)) (pointer L.base (v / 512))) := by
  have hregion := Layout.region_lt hv
  have hsame : SameSpace L machine.memory machine₁.memory := by
    apply sameSpace_of_p1 hlinked hregion hp2
    intro w hw
    rw [hfill.1]
    exact if_neg hw
  refine ⟨hsame, sameSpace_of_p2 hsame.linked hregion fun v' hv' => ?_⟩
  have hframe : (512 * L.base + p1Index v') / 512 = L.p1Frame (v / 512) := by
    rw [p1Index, hv', Layout.p1Frame]
    omega
  have hindex : (512 * L.base + p1Index v') % 512 = v' % 512 := by
    unfold p1Index
    omega
  rw [hsame.lookup v' (by unfold Layout.pages; omega), ← hg v' hv', Layout.array, hfill.1, fillFrame,
    if_pos hframe, hindex]

variable {cr2 : Nat} (hcr2 : pageAddress cr2 = 4096 * v)
include hcr2

theorem runs_demandPage (hinv : Inv L machine.memory) (hfree : ¬ L.Reserved v)
    (hp2 : L.array machine.memory (p2Index (v / 512)) = pointer L.base (v / 512)) :
    Runs (demandPage L.p4 cr2 (8 * (v % 512)) (4096 * L.p1Frame (v / 512))) machine
      (fun _ => Resolves L v (fun _ => 0) machine) E := by
  have hle := L.pages_le
  unfold demandPage
  dsimp only
  rw [hcr2, or_own]
  apply (runs_storeP1 hv hinv).bind
  intro _ machine₁ hset
  obtain ⟨hlinked₁, hlookup₁, -⟩ := own_of_p1 hinv.linked hv hp2
  rw [← hset.1] at hlinked₁ hlookup₁
  have hstable := stable_own hv hlinked₁ hfree (by rw [hlookup₁, if_pos rfl])
  apply (runs_zeroPage (by omega) hstable).imp
  exact fun _ machine₂ hfill => handled_of_filled hv hinv.linked hfree hp2 hset hfill

/-- The page `b` of the blocks is copied; the p2 entry or the p1 entry led to it. -/
theorem runs_copyOnWrite (hinv : Inv L machine.memory) (hfree : ¬ L.Reserved v)
    (hp2 : L.array machine.memory (p2Index (v / 512)) = pointer L.base (v / 512)) {r8 r9 b : Nat}
    (hmin : L.interruptEnd ≤ b) (hmax : b < L.last) (hplace : b % 512 = v % 512)
    (hsource : (if isPage r8 then r8 else r9) / largePage = b / 512) :
    Runs (copyOnWrite L.p4 cr2 r8 r9 (8 * (v % 512)) (4096 * L.p1Frame (v / 512))) machine
      (fun _ => Resolves L v (fun i => machine.memory (512 * b + i)) machine) E := by
  have hle := L.pages_le
  have hb : L.Reserved b := Or.inr ⟨le_trans L.interrupt_le hmin, hmax⟩
  have hbLt := hb.lt
  have hne : b ≠ v := by
    rintro rfl
    exact hfree hb
  have htable : ¬ L.TableFrame b := by
    have := L.tables_fit
    have := L.interrupt_le
    unfold Layout.TableFrame Layout.p3
    omega
  unfold copyOnWrite
  dsimp only
  rw [hcr2, or_own]
  apply (runs_storeP1 hv hinv).bind
  intro _ machine₁ hset
  obtain ⟨hlinked₁, hlookup₁, hother₁⟩ := own_of_p1 hinv.linked hv hp2
  rw [← hset.1] at hlinked₁ hlookup₁ hother₁
  have hstable := stable_own hv hlinked₁ hfree (by rw [hlookup₁, if_pos rfl])
  have hread := stable_reserved hlinked₁ hfree hb (by rw [hlookup₁, if_neg hne, hinv.reserved b hb])
  -- the place of the page in its large page is that of its block
  have hrax : wrap (8 * (v % 512) * 512 + (if isPage r8 then r8 else r9) / largePage * largePage)
      = 4096 * b := by
    rw [hsource]
    unfold wrap largePage
    omega
  rw [hrax]
  apply (runs_copyPage (by omega) (by omega) hstable hread hne).imp
  intro _ machine₂ hfill
  obtain ⟨hhandled, hstored⟩ := handled_of_filled hv hinv.linked hfree hp2 hset hfill
  refine ⟨⟨hhandled.linked, hhandled.lookup, fun i hi => ?_, hhandled.other⟩, hstored⟩
  have hframe : (512 * b + i) / 512 = b := by omega
  rw [hhandled.page i hi]
  exact hother₁ _ (by rw [hframe]; exact htable)

omit hv hcr2 in
theorem Resolves.of_sameSpace {machine₁ machine₂ : Machine} {g : Nat → Nat}
    (hsame : SameSpace L machine.memory machine₁.memory)
    (hstored : StoredIn L.TableFrame machine machine₁) (h : Resolves L v g machine₁ machine₂) :
    Resolves L v g machine machine₂ :=
  ⟨hsame.handled h.1, (hstored.mono fun _ hf => Or.inr hf).trans h.2⟩

omit hv hcr2 in
theorem Resolves.congr {machine₁ : Machine} {g g' : Nat → Nat} (h : Resolves L v g machine machine₁)
    (hg : ∀ i < 512, g i = g' i) : Resolves L v g' machine machine₁ :=
  ⟨⟨h.1.linked, h.1.lookup, fun i hi => (h.1.page i hi).trans (hg i hi), h.1.other⟩, h.2⟩

omit hcr2 in
theorem runs_install {fill rest : Handler PUnit} {g g' : Nat → Nat} (hinv : Inv L machine.memory)
    (hp2 : L.array machine.memory (p2Index (v / 512)) ≠ pointer L.base (v / 512))
    (hg : ∀ v', v' / 512 = v / 512 → g (v' % 512) = lookup (L.array machine.memory) v')
    (hfill : Runs fill machine (fun _ => Filled machine (L.p1Frame (v / 512)) g) E)
    (hrest : ∀ machine', SameSpace L machine.memory machine'.memory →
      L.array machine'.memory (p2Index (v / 512)) = pointer L.base (v / 512) →
      Runs rest machine' (fun _ => Resolves L v g' machine') E) :
    Runs (do
        fill
        storeWords HandlerStop.nestedFault L.p4
          (wrap (4096 * (L.base + v / 512 / 512 * 513) + 8 * (v / 512 % 512)))
          [4096 * L.p1Frame (v / 512) ||| pde64AllAllowed]
        rest) machine (fun _ => Resolves L v g' machine) E := by
  obtain ⟨hmin, hmax⟩ := Layout.p1Frame_lt (Layout.region_lt hv)
  rw [or_own]
  apply hfill.bind
  intro _ machine₁ hfilled
  obtain ⟨hsame₁, hsame₂⟩ := sameSpace_of_installed hv hinv.linked hp2 hfilled hg
  apply (runs_storeP2 hv (hsame₁.inv hinv)).bind
  rintro _ machine₂ ⟨hset, hstored⟩
  rw [show entry 7 (L.p1Frame (v / 512)) = pointer L.base (v / 512) from rfl] at hset
  rw [← hset] at hsame₂
  have hpointer : L.array machine₂.memory (p2Index (v / 512)) = pointer L.base (v / 512) := by
    rw [hset, array_update, Function.update_self]
  have hstored₁ : StoredIn L.TableFrame machine machine₁ := by
    apply hfilled.2.mono
    rintro _ rfl
    exact ⟨by omega, hmax⟩
  apply (hrest machine₂ (hsame₁.trans hsame₂) hpointer).imp
  exact fun _ machine₃ hresolves =>
    hresolves.of_sameSpace (hsame₁.trans hsame₂) (hstored₁.trans hstored)

theorem runs_demandTable (hinv : Inv L machine.memory) (hfree : ¬ L.Reserved v)
    (hp2 : L.array machine.memory (p2Index (v / 512)) = 0) :
    Runs (demandTable L.p4 cr2 (8 * (v / 512 % 512)) (8 * (v % 512))
        (4096 * (L.base + v / 512 / 512 * 513)) (4096 * L.p1Frame (v / 512))) machine
      (fun _ => Resolves L v (fun _ => 0) machine) E := by
  have hne : L.array machine.memory (p2Index (v / 512)) ≠ pointer L.base (v / 512) := by
    rw [hp2]
    unfold pointer entry
    omega
  have hmax := (Layout.p1Frame_lt (Layout.region_lt hv)).2
  have hp4 : L.p4 = L.p3 + 1 := rfl
  have hlt := L.p4_lt
  unfold demandTable
  apply runs_install hv hinv hne _ (runs_zeroPage (by omega) (stable_p1Frame hv hinv hne))
  · intro machine' hsame hpointer
    exact runs_demandPage hv hcr2 (hsame.inv hinv) hfree hpointer
  · intro v' hv'
    rw [Kvm.lookup, hv', hp2, resolve_zero]

omit hv hcr2 in
theorem runs_fillTable {root frame f : Nat} (hframe : frame < 2 ^ 35) (hf : f + 512 ≤ 2 ^ 40)
    (hstable : Stable root machine.memory frame frame ⟨frame, true, false⟩) :
    Runs (fillTable root (4096 * frame) (entry 5 f)) machine
      (fun _ => Filled machine frame fun i => entry 5 (f + i)) E := by
  -- the bound is kept abstract: the loop is not to be unrolled
  have hloop : ∀ n, n = 512 → Runs (times (fun i => storeWords HandlerStop.nestedFault root
      (wrap (4096 * frame + 8 * i)) [wrap (entry 5 f + pageSize * i)]) n) machine
      (fun _ => Filled machine frame fun i => entry 5 (f + i)) E := by
    intro n hn
    apply Runs.imp (Q := fun _ => FilledTo machine frame (fun i => entry 5 (f + i)) n)
    · apply runs_times (FilledTo machine frame fun i => entry 5 (f + i)) (filledTo_zero _ _ _)
      intro i hi machine' h
      have hvalue : wrap (entry 5 f + pageSize * i) = entry 5 (f + i) := by
        unfold wrap entry pageSize
        omega
      have hwords : [entry 5 (f + i)] = wordsAt (fun i => entry 5 (f + i)) i 1 := rfl
      rw [hvalue, wrap_eq (by omega), hwords]
      exact runs_storeWords_filling hframe hstable (by omega) (by omega) h
    · intro _ _ h
      rw [hn] at h
      exact h.filled
  unfold fillTable
  generalize htable : tableSize = n
  exact hloop n htable.symm

theorem runs_splitPage (hinv : Inv L machine.memory) (hfree : ¬ L.Reserved v) {r8 r9 f : Nat}
    (hr8 : r8 = entry 133 f) (hp2 : L.array machine.memory (p2Index (v / 512)) = r8)
    (hlarge : f % 512 = 0) (hmin : L.interruptEnd ≤ f + v % 512) (hmax : f + v % 512 < L.last) :
    Runs (splitPage L.p4 cr2 r8 r9 (8 * (v / 512 % 512)) (8 * (v % 512))
        (4096 * (L.base + v / 512 / 512 * 513)) (4096 * L.p1Frame (v / 512))) machine
      (fun _ => Resolves L v (fun i => machine.memory (512 * (f + v % 512) + i)) machine) E := by
  have hflags : PageFlags 5 := ⟨by decide, rfl⟩
  have hne : L.array machine.memory (p2Index (v / 512)) ≠ pointer L.base (v / 512) := by
    rw [hp2, hr8]
    unfold pointer entry
    omega
  have hmaxFrame := (Layout.p1Frame_lt (Layout.region_lt hv)).2
  have hp4 : L.p4 = L.p3 + 1 := rfl
  have hlt := L.p4_lt
  have hlastLt := L.last_lt
  have hsource : (if isPage r8 then r8 else r9) / largePage = (f + v % 512) / 512 := by
    have hpage : isPage r8 = true := by
      rw [hr8, isPage_entry]
      rfl
    rw [if_pos hpage, hr8]
    unfold largePage entry
    omega
  have htable : ¬ L.TableFrame (f + v % 512) := by
    have := L.tables_fit
    have := L.interrupt_le
    unfold Layout.TableFrame Layout.p3
    omega
  unfold splitPage
  refine runs_install hv (g := fun i => entry 5 (f + i)) hinv hne ?_ ?_ ?_
  · intro v' hv'
    rw [Kvm.lookup, hv', hp2, hr8, hflags.resolve_large]
  · have hrax : pageAddress r8 + r8 % 2 + r8 / 4 % 2 * 4 = entry 5 f := by
      rw [hr8]
      unfold pageAddress entry
      omega
    rw [hrax]
    exact runs_fillTable (by omega) (by omega) (stable_p1Frame hv hinv hne)
  · intro machine' hsame hpointer
    apply (runs_copyOnWrite hv hcr2 (hsame.inv hinv) hfree hpointer hmin hmax (by omega) hsource).imp
    intro _ machine₃ hresolves
    apply hresolves.congr
    intro i hi
    have hframe : (512 * (f + v % 512) + i) / 512 = f + v % 512 := by omega
    exact hsame.other _ (by rw [hframe]; exact htable)

end Paths

end Dandelion.Kvm
