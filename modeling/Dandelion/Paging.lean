import Mathlib.Data.Nat.Bitwise

/-!
# Four level paging

A walk through page tables of 512 entries. Memory is given by its 64 bit words (the word at
byte address `8 * i` is `memory i`), and addresses by their page number, so that the entry
`i` of the table in page `f` is the word `512 * f + i`. Leaves are pages of 4 KB, 2 MB and
1 GB; the permissions of a page are those that every level on its path grants.
-/

namespace Paging

/-- Where a page is found, and what may be done with it. -/
@[ext] structure Translation where
  frame : Nat
  writable : Bool
  user : Bool
deriving DecidableEq, Repr

/-! ## Entries -/

def present (entry : Nat) : Bool := decide (entry % 2 = 1)

def writable (entry : Nat) : Bool := decide (entry / 2 % 2 = 1)

def user (entry : Nat) : Bool := decide (entry / 4 % 2 = 1)

/-- Set in an entry that maps a page although it stands above the last level. -/
def isPage (entry : Nat) : Bool := decide (entry / 128 % 2 = 1)

/-- The page an entry points to: bits 12 to 51. -/
def frame (entry : Nat) : Nat := entry / 2 ^ 12 % 2 ^ 40

/-- The first page of a 2 MB leaf: bits 21 to 51. -/
def largeFrame (entry : Nat) : Nat := entry / 2 ^ 21 % 2 ^ 31 * 512

/-- The first page of a 1 GB leaf: bits 30 to 51. -/
def hugeFrame (entry : Nat) : Nat := entry / 2 ^ 30 % 2 ^ 22 * 512 ^ 2

def entry (flags frame : Nat) : Nat := frame * 4096 + flags

theorem or_eq_entry {flags address : Nat} (hflags : flags < 4096) (haddress : address % 4096 = 0) :
    flags ||| address = entry flags (address / 4096) := by
  have h := Nat.two_pow_add_eq_or_of_lt (i := 12) hflags (address / 4096)
  rw [Nat.or_comm, entry]
  have hmul : 2 ^ 12 * (address / 4096) = address := by omega
  rw [hmul] at h
  omega

section Entry

variable {flags f : Nat}

theorem frame_entry (hflags : flags < 4096) (hf : f < 2 ^ 40) : frame (entry flags f) = f := by
  unfold frame entry
  omega

theorem largeFrame_entry (hflags : flags < 4096) (hf : f < 2 ^ 40) (hlarge : f % 512 = 0) :
    largeFrame (entry flags f) = f := by
  unfold largeFrame entry
  omega

@[simp] theorem present_entry : present (entry flags f) = present flags := by
  unfold present entry
  congr 1
  apply propext
  omega

@[simp] theorem writable_entry : writable (entry flags f) = writable flags := by
  unfold writable entry
  congr 1
  apply propext
  omega

@[simp] theorem user_entry : user (entry flags f) = user flags := by
  unfold user entry
  congr 1
  apply propext
  omega

@[simp] theorem isPage_entry : isPage (entry flags f) = isPage flags := by
  unfold isPage entry
  congr 1
  apply propext
  omega

end Entry

/-! ## The walk -/

/-- What remains of a translation below an entry. -/
def restrict (entry : Nat) (t : Translation) : Translation :=
  ⟨t.frame, writable entry && t.writable, user entry && t.user⟩

@[simp] theorem restrict_entry_all (f : Nat) (t : Translation) :
    restrict (entry 7 f) t = t := by
  unfold restrict
  rw [writable_entry, user_entry]
  rfl

@[simp] theorem map_restrict_all (f : Nat) (t : Option Translation) :
    t.map (restrict (entry 7 f)) = t := by
  cases t with
  | none => rfl
  | some t => rw [Option.map_some, restrict_entry_all]

/-- The translation below an entry of the last level. -/
def resolve1 (entry : Nat) : Option Translation :=
  if present entry then some ⟨frame entry, writable entry, user entry⟩ else none

variable (memory : Nat → Nat)

def resolve2 (entry page : Nat) : Option Translation :=
  if present entry then
    if isPage entry then
      some ⟨largeFrame entry + page % 512, writable entry, user entry⟩
    else (resolve1 (memory (512 * frame entry + page % 512))).map (restrict entry)
  else none

def resolve3 (entry page : Nat) : Option Translation :=
  if present entry then
    if isPage entry then
      some ⟨hugeFrame entry + page % 512 ^ 2, writable entry, user entry⟩
    else
      (resolve2 memory (memory (512 * frame entry + page / 512 % 512)) page).map (restrict entry)
  else none

def resolve4 (entry page : Nat) : Option Translation :=
  if present entry then
    (resolve3 memory (memory (512 * frame entry + page / 512 ^ 2 % 512)) page).map (restrict entry)
  else none

theorem resolve2_congr {entry page page' : Nat} (h : page % 512 = page' % 512) :
    resolve2 memory entry page = resolve2 memory entry page' := by
  unfold resolve2
  rw [h]

/-- Below a table that all may use. -/
theorem resolve3_table {f page : Nat} (hf : f < 2 ^ 40) : resolve3 memory (entry 7 f) page
    = resolve2 memory (memory (512 * f + page / 512 % 512)) page := by
  rw [resolve3, present_entry, isPage_entry, frame_entry (by decide) hf, map_restrict_all]
  rfl

theorem resolve4_table {f page : Nat} (hf : f < 2 ^ 40) : resolve4 memory (entry 7 f) page
    = resolve3 memory (memory (512 * f + page / 512 ^ 2 % 512)) page := by
  rw [resolve4, present_entry, frame_entry (by decide) hf, map_restrict_all]
  rfl

/-- The translation of a page by the tables whose root is in the page `root`. -/
def walk (root page : Nat) : Option Translation :=
  resolve4 memory (memory (512 * root + page / 512 ^ 3 % 512)) page

end Paging
