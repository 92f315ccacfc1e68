import Dandelion.SystemReads

/-!
# The bytes a system context reads

A system context stands for the bytes of its items, each at the offset at which it was put. A read
gives these bytes where it stays inside one item of another context, or starts with a response and
goes to its end, inside it or over whole responses. Everywhere else it does not: the rest of the
buffer is read behind the item in the other context, a response is always read from its start, and
the contents of the items decide whether anyone notices.
-/

namespace Dandelion

open Outcome Stateful Transitions

/-! ## Storages are lawful -/

theorem malloc_lawful {storage : List UInt8} {size : Nat} (hlength : storage.length = size)
    (hsize : size ≤ Usize.isizeMax) : ((DataContext.malloc storage).toRef size).Lawful where
  size_le := hsize
  byte_lt := by
    intro o b hbyte
    have hlt : o < storage.length := (List.getElem?_eq_some_iff.mp hbyte).1
    exact hlength ▸ hlt
  read_length := by
    intro o buffer
    change (readStorage storage o buffer).1.length = _
    rw [readStorage]
    split
    · rfl
    · split
      · rfl
      · rename_i readEnd hadd hle
        obtain ⟨-, rfl⟩ := Usize.add_eq_ok_iff.mp hadd
        rw [List.length_take, List.length_drop]
        omega
  read_returns := by
    intro o buffer hlimit
    change Returns (readStorage storage o buffer).2
    rw [readStorage, Usize.add_eq_ok hlimit]
    dsimp only
    split
    · exact returns_fail _
    · exact returns_pure _
  read_bytes := by
    intro o buffer hok i hi
    change (readStorage storage o buffer).2 = .ok () at hok
    obtain ⟨hlimit, hfits⟩ := readStorage_fits hok
    change (readStorage storage o buffer).1[i]? = storage[o + i]?
    rw [readStorage_eq hlimit hfits, List.getElem?_take, if_pos hi, List.getElem?_drop]
  read_defined := by
    intro o buffer hpos hdefined
    have hlast : (storage[o + (buffer.length - 1)]?).isSome := hdefined _ (by omega)
    have hlt : o + (buffer.length - 1) < storage.length := by
      by_contra hout
      rw [List.getElem?_eq_none (by omega)] at hlast
      cases hlast
    have hlimit : Usize.isizeMax < Usize.limit := by decide
    change (readStorage storage o buffer).2 = .ok ()
    rw [readStorage_eq (by omega) (by omega)]
  chunk_returns := by
    intro o n hlimit
    change Returns (chunkStorage storage o n)
    rw [chunkStorage, Usize.add_eq_ok hlimit, ok_bind]
    split
    · exact returns_fail _
    · exact returns_pure _
  chunk_bytes := by
    intro o n chunk hn hchunk
    change chunkStorage storage o n = .ok chunk at hchunk
    obtain ⟨readEnd, hend, hrest⟩ := (bind_eq_ok_iff _ _ _).mp hchunk
    obtain ⟨-, rfl⟩ := Usize.add_eq_ok_iff.mp hend
    by_cases hfits : o + n ≤ storage.length
    · rw [if_neg (by omega)] at hrest
      cases hrest
      have hlen : ((storage.drop o).take n).length = n := by
        rw [List.length_take, List.length_drop]
        omega
      refine ⟨by omega, hlen.le, fun i hi => ?_⟩
      change _ = storage[o + i]?
      rw [List.getElem?_take, if_pos (by omega), List.getElem?_drop]
    · rw [if_pos (by omega)] at hrest
      cases hrest
  chunk_defined := by
    intro o n hn hfits _
    have hle : o + n ≤ storage.length := hlength ▸ hfits
    have hlimit : Usize.isizeMax < Usize.limit := by decide
    refine ⟨(storage.drop o).take n, ?_⟩
    change chunkStorage storage o n = _
    rw [chunkStorage, Usize.add_eq_ok (by omega), ok_bind, if_neg (by omega)]
    rfl

namespace SystemContext

/-! ## The bytes of a system context -/

/-- The byte `d` bytes behind the start of an item. -/
def positionByte : DataPosition → Nat → Option UInt8
  | .contextStorage stored _ actualOffset, d => stored.byte (actualOffset + d)
  | .responseInformationStorage body, d => body[d]?

/-- The byte at an offset of the context. -/
def virtualByte (context : SystemContext) (offset : Nat) : Option UInt8 :=
  match context.entryUpTo offset with
  | some (key, position, size) => if offset < key + size then positionByte position (offset - key) else none
  | none => none

/-- The items are apart, and an item in another context can be read there. -/
structure Disjoint (context : SystemContext) : Prop extends Coherent context where
  apart : ∀ {key key' entry entry'}, context.localOffsetToDataPosition.get? key = some entry →
    context.localOffsetToDataPosition.get? key' = some entry' → key < key' → key + entry.2 ≤ key'
  defined : ∀ {key stored storedSize actualOffset size}, context.localOffsetToDataPosition.get? key
    = some (.contextStorage stored storedSize actualOffset, size) →
      ∀ d < size, (stored.byte (actualOffset + d)).isSome

/-- Every byte of the range is in an item. -/
def Covered (context : SystemContext) (offset length : Nat) : Prop :=
  ∀ i < length, ∃ key entry, context.localOffsetToDataPosition.get? key = some entry
    ∧ key ≤ offset + i ∧ offset + i < key + entry.2

/-- The read fills the buffer with the bytes of the context. -/
def ReadsVirtual (context : SystemContext) (offset : Nat) (buffer : List UInt8) : Prop :=
  (context.read offset buffer).2 = .ok () ∧ (context.read offset buffer).1.length = buffer.length
    ∧ ∀ i < buffer.length, (context.read offset buffer).1[i]? = context.virtualByte (offset + i)

variable {context : SystemContext} {offset : Nat} {buffer : List UInt8}

theorem Disjoint.entryUpTo (h : Disjoint context) {key o : Nat} {entry : DataPosition × Nat}
    (hget : context.localOffsetToDataPosition.get? key = some entry) (hkey : key ≤ o)
    (ho : o < key + entry.2) : context.entryUpTo o = some (key, entry) := by
  refine (OrderedMap.lastBefore_eq_some_iff _ _ _ _).mpr ⟨hget, by omega, fun key' entry' hget' hlt => ?_⟩
  by_contra hle
  have := h.apart hget hget' (by omega)
  omega

theorem Disjoint.virtualByte (h : Disjoint context) {key d size : Nat} {position : DataPosition}
    (hget : context.localOffsetToDataPosition.get? key = some (position, size)) (hd : d < size) :
    context.virtualByte (key + d) = positionByte position d := by
  rw [SystemContext.virtualByte, h.entryUpTo hget (by omega) (by simpa using hd)]
  dsimp only
  rw [if_pos (by omega), Nat.add_sub_cancel_left]

/-- The entry that is found in the range is that of the item the byte is in. -/
theorem Covered.entryUpTo {length i : Nat} (hcovered : Covered context offset length)
    (h : Disjoint context) (hi : i < length) :
    ∃ key position size, context.entryUpTo (offset + i) = some (key, position, size)
      ∧ context.localOffsetToDataPosition.get? key = some (position, size)
      ∧ key ≤ offset + i ∧ offset + i < key + size := by
  obtain ⟨key, ⟨position, size⟩, hget, hkey, hlt⟩ := hcovered i hi
  exact ⟨key, position, size, h.entryUpTo hget hkey hlt, hget, hkey, hlt⟩

/-- The read is inside one item of another context; or it starts with a response, and ends inside it
or with the end of a response. -/
def Straight (context : SystemContext) (offset length : Nat) : Prop :=
  length = 0 ∨ ∃ key position size, context.entryUpTo offset = some (key, position, size)
    ∧ key + size < Usize.limit
    ∧ match position with
      | .contextStorage _ _ _ => offset + length ≤ key + size
      | .responseInformationStorage _ =>
        key = offset ∧ (length ≤ size ∨ Reaches (Next context offset) 0 length)

/-! ## Reads that go straight through -/

theorem PiecesAt.virtualByte (h : Disjoint context) {pieces : List (List UInt8)} {o : Nat}
    (hpieces : PiecesAt context o pieces) :
    ∀ i < pieces.flatten.length, context.virtualByte (o + i) = pieces.flatten[i]? := by
  induction pieces generalizing o with
  | nil =>
    intro i hi
    cases hi
  | cons piece pieces ih =>
    obtain ⟨-, hget, hrest⟩ := hpieces
    intro i hi
    rw [List.flatten_cons, List.length_append] at hi
    rw [List.flatten_cons]
    by_cases hlt : i < piece.length
    · rw [h.virtualByte hget hlt, List.getElem?_append_left hlt]
      rfl
    · have hlater := ih hrest (i - piece.length) (by omega)
      rw [show o + piece.length + (i - piece.length) = o + i by omega] at hlater
      rw [hlater, List.getElem?_append_right (by omega)]

theorem pieces_of_reaches (h : Disjoint context) {t length : Nat}
    (hreaches : Reaches (Next context offset) t length)
    (hstart : ∀ key entry, context.entryUpTo (offset + t) = some (key, entry) →
      offset + t < key + entry.2 → key = offset + t) :
    ∃ pieces, PiecesAt context (offset + t) pieces ∧ t + pieces.flatten.length = length := by
  induction hreaches using Relation.ReflTransGen.head_induction_on with
  | refl => exact ⟨[], trivial, rfl⟩
  | head hnext _ ih =>
    obtain ⟨key, body, size, hentry, hin, rfl⟩ := hnext
    obtain rfl := hstart key _ hentry hin
    obtain ⟨hget, -⟩ := entryUpTo_some hentry
    obtain rfl := h.body hget
    obtain ⟨pieces, hpieces, hlength⟩ := ih fun key' entry' hentry' hin' => by
      obtain ⟨hget', hle', hlast⟩ := (OrderedMap.lastBefore_eq_some_iff _ _ _ _).mp hentry'
      have hge := hlast _ _ hget (by omega)
      rcases Nat.lt_or_eq_of_le hge with hlt | heq
      · have := h.apart hget hget' hlt
        dsimp only at this
        omega
      · rw [← heq, hget] at hget'
        cases hget'
        dsimp only at hin'
        omega
    refine ⟨body :: pieces, ⟨List.ne_nil_of_length_pos (by omega), hget, ?_⟩, ?_⟩
    · rw [Nat.add_assoc]
      exact hpieces
    · rw [List.flatten_cons, List.length_append]
      omega

theorem readsVirtual_of_pieces (h : Disjoint context) {pieces : List (List UInt8)}
    (hpieces : PiecesAt context offset pieces) (hlength : pieces.flatten.length = buffer.length)
    (hinside : offset + buffer.length ≤ context.size) (hsize : context.size < Usize.limit) :
    ReadsVirtual context offset buffer := by
  have hread := read_pieces hpieces hlength hinside hsize
  refine ⟨by rw [hread], by rw [hread, hlength], fun i hi => ?_⟩
  rw [hread, PiecesAt.virtualByte h hpieces i (by omega)]

theorem copyInto_full {storage bytes : List UInt8} (h : storage.length ≤ bytes.length) :
    KvmContext.copyInto storage 0 (bytes.take storage.length) = bytes.take storage.length := by
  rw [KvmContext.copyInto, List.take_zero, List.nil_append, List.length_take_of_le h, Nat.zero_add,
    List.drop_length, List.append_nil]

section Read

variable (hinside : offset + buffer.length ≤ context.size) (hsize : context.size < Usize.limit)
include hinside hsize

theorem read_eq_loop :
    context.read offset buffer = (exec (readLoop context offset buffer.length 0) buffer).swap := by
  rw [SystemContext.read, Usize.add_eq_ok (by omega)]
  dsimp only
  rw [if_neg (by omega)]

theorem read_stored (h : Disjoint context) (hpos : 0 < buffer.length)
    {key storedSize actualOffset size : Nat} {stored : DataContext}
    (hentry : context.entryUpTo offset = some (key, .contextStorage stored storedSize actualOffset, size))
    (hend : key + size < Usize.limit) (hin : offset < key + size) :
    context.read offset buffer = stored.read (actualOffset + (offset - key)) buffer := by
  obtain ⟨hget, hkey⟩ := entryUpTo_some hentry
  obtain ⟨hlawful, hfits⟩ := h.stored hget
  have hstored : storedSize ≤ Usize.isizeMax := hlawful.size_le
  have hlimit : Usize.isizeMax < Usize.limit := by decide
  obtain ⟨fuel, hfuel⟩ := Nat.exists_eq_succ_of_ne_zero hpos.ne'
  rw [read_eq_loop hinside hsize, hfuel, Nat.succ_eq_add_one,
    exec_readLoop_stored fuel hpos hentry hend hin (by omega)]
  rfl

theorem readsVirtual_stored (h : Disjoint context) (hpos : 0 < buffer.length)
    {key storedSize actualOffset size : Nat} {stored : DataContext}
    (hentry : context.entryUpTo offset = some (key, .contextStorage stored storedSize actualOffset, size))
    (hend : key + size < Usize.limit) (hrange : offset + buffer.length ≤ key + size) :
    ReadsVirtual context offset buffer := by
  obtain ⟨hget, hkey⟩ := entryUpTo_some hentry
  obtain ⟨hlawful, hfits⟩ := h.stored hget
  have hread := read_stored hinside hsize h hpos hentry hend (by omega)
  have hok : (stored.read (actualOffset + (offset - key)) buffer).2 = .ok () := by
    refine hlawful.read_defined _ _ hpos fun i hi => ?_
    have := h.defined hget (offset - key + i) (by omega)
    rwa [← Nat.add_assoc] at this
  rw [ReadsVirtual, hread]
  refine ⟨hok, hlawful.read_length _ _, fun i hi => ?_⟩
  have hbyte := h.virtualByte hget (show offset - key + i < size by omega)
  rw [show key + (offset - key + i) = offset + i by omega] at hbyte
  rw [hbyte, positionByte, ← Nat.add_assoc]
  exact hlawful.read_bytes _ _ hok i hi

theorem read_response (h : Disjoint context) (hpos : 0 < buffer.length) {key size : Nat}
    {body : List UInt8}
    (hentry : context.entryUpTo offset = some (key, .responseInformationStorage body, size))
    (hend : key + size < Usize.limit) (hin : offset < key + size) :
    context.read offset buffer =
      (exec (readLoop context offset (buffer.length - 1) (min buffer.length body.length))
        (KvmContext.copyInto buffer 0 (body.take buffer.length))).swap := by
  obtain ⟨hget, hkey⟩ := entryUpTo_some hentry
  obtain rfl := h.body hget
  have hne : body ≠ [] := List.ne_nil_of_length_pos (by omega)
  have hround := exec_readLoop_response (buffer.length - 1) hpos hentry hend hin
  rw [Nat.sub_add_cancel hpos, exec_bind_ok (exec_readResponse_first hne hpos), Nat.zero_add] at hround
  rw [read_eq_loop hinside hsize, hround]

theorem readsVirtual_front (h : Disjoint context) (hpos : 0 < buffer.length) {body : List UInt8}
    {size : Nat} (hentry : context.entryUpTo offset = some (offset, .responseInformationStorage body, size))
    (hend : offset + size < Usize.limit) (hrange : buffer.length ≤ size) :
    ReadsVirtual context offset buffer := by
  obtain ⟨hget, -⟩ := entryUpTo_some hentry
  obtain rfl := h.body hget
  have hread := read_response hinside hsize h hpos hentry hend (by omega)
  rw [Nat.min_eq_left hrange, copyInto_full hrange,
    exec_readLoop_done (by rw [List.length_take]; omega), Prod.swap_prod_mk] at hread
  rw [ReadsVirtual, hread]
  refine ⟨rfl, List.length_take_of_le hrange, fun i hi => ?_⟩
  rw [h.virtualByte hget (by omega), positionByte, List.getElem?_take, if_pos hi]

end Read

/-! ## What any read that ends well has done -/

/-- Behind the first item, responses leave the first byte as it is. -/
theorem readLoop_ok_cases (h : Disjoint context) {length : Nat} (hcovered : Covered context offset length)
    {t fuel : Nat} {after : List UInt8} (hpos : 0 < t) (hle : t ≤ length) (hlength : buffer.length = length)
    (hok : exec (readLoop context offset fuel t) buffer = (.ok (), after)) :
    (Reaches (Next context offset) t length ∧ after[0]? = buffer[0]?) ∨
      ∃ key stored storedSize actualOffset size o, context.localOffsetToDataPosition.get? key
        = some (.contextStorage stored storedSize actualOffset, size) ∧ after[0]? = stored.byte o := by
  induction fuel generalizing t buffer with
  | zero =>
    rw [readLoop, exec_get_bind] at hok
    by_cases hlt : t < buffer.length
    · rw [if_pos hlt] at hok
      cases hok
    · rw [if_neg hlt] at hok
      cases hok
      obtain rfl : t = length := by omega
      exact .inl ⟨.refl t, rfl⟩
  | succ fuel ih =>
    by_cases hlt : t < length
    swap
    · rw [exec_readLoop_done (by omega)] at hok
      cases hok
      obtain rfl : t = length := by omega
      exact .inl ⟨.refl t, rfl⟩
    obtain ⟨key, position, size, hentry, hget, hkey, hin⟩ := hcovered.entryUpTo h hlt
    by_cases hend : key + size < Usize.limit
    swap
    · rw [exec_readLoop_overflow fuel (by omega) hentry (by omega)] at hok
      cases hok
    cases position with
    | contextStorage stored storedSize actualOffset =>
      obtain ⟨hlawful, hfits⟩ := h.stored hget
      have hstored : storedSize ≤ Usize.isizeMax := hlawful.size_le
      have hlimit : Usize.isizeMax < Usize.limit := by decide
      rw [exec_readLoop_stored fuel (by omega) hentry hend hin (by omega)] at hok
      obtain ⟨hresult, hafter⟩ := Prod.mk.inj hok
      have hbyte := hlawful.read_bytes _ _ hresult 0 (by omega)
      exact .inr ⟨key, stored, storedSize, actualOffset, size, _, hget, hafter ▸ hbyte⟩
    | responseInformationStorage body =>
      obtain rfl := h.body hget
      rw [exec_readLoop_response fuel (by omega) hentry hend hin] at hok
      by_cases hfits : t + body.length ≤ length
      · have hne : body ≠ [] := List.ne_nil_of_length_pos (by omega)
        rw [exec_bind_ok (exec_readResponse hne (by omega))] at hok
        have hcopied := KvmContext.getElem?_copyInto (show t + body.length ≤ buffer.length by omega) 0
        rw [if_neg (by omega)] at hcopied
        refine (ih (by omega) hfits ((KvmContext.length_copyInto (by omega)).trans hlength) hok).imp_left ?_
        rintro ⟨hreaches, hfirst⟩
        exact ⟨Relation.ReflTransGen.head ⟨key, body, _, hentry, hin, rfl⟩ hreaches, hfirst.trans hcopied⟩
      · have hlonger := exec_readResponse_longer (show t < buffer.length by omega)
          (show buffer.length - t < body.length by omega)
        rw [if_neg (by omega)] at hlonger
        rw [exec_bind_error hlonger] at hok
        cases hok

section Read

variable (hinside : offset + buffer.length ≤ context.size) (hsize : context.size < Usize.limit)
include hinside hsize

theorem read_ok_stored (h : Disjoint context) (hpos : 0 < buffer.length)
    {key storedSize actualOffset size : Nat} {stored : DataContext}
    (hentry : context.entryUpTo offset = some (key, .contextStorage stored storedSize actualOffset, size))
    (hend : key + size < Usize.limit) (hin : offset < key + size)
    (hok : (context.read offset buffer).2 = .ok ()) :
    ∀ i < buffer.length,
      (context.read offset buffer).1[i]? = stored.byte (actualOffset + (offset - key) + i) := by
  obtain ⟨hget, hkey⟩ := entryUpTo_some hentry
  obtain ⟨hlawful, hfits⟩ := h.stored hget
  rw [read_stored hinside hsize h hpos hentry hend hin] at hok ⊢
  exact hlawful.read_bytes _ _ hok

theorem read_ok_response (h : Disjoint context) (hcovered : Covered context offset buffer.length)
    (hpos : 0 < buffer.length) {key size : Nat} {body : List UInt8}
    (hentry : context.entryUpTo offset = some (key, .responseInformationStorage body, size))
    (hend : key + size < Usize.limit) (hin : offset < key + size)
    (hok : (context.read offset buffer).2 = .ok ()) :
    ((buffer.length ≤ size ∨ Reaches (Next context offset) 0 buffer.length)
        ∧ (context.read offset buffer).1[0]? = body[0]?) ∨
      ∃ key stored storedSize actualOffset size o, context.localOffsetToDataPosition.get? key
        = some (.contextStorage stored storedSize actualOffset, size)
          ∧ (context.read offset buffer).1[0]? = stored.byte o := by
  obtain ⟨hget, hkey⟩ := entryUpTo_some hentry
  obtain rfl := h.body hget
  have hne : body ≠ [] := List.ne_nil_of_length_pos (by omega)
  have hfirst : (KvmContext.copyInto buffer 0 (body.take buffer.length))[0]? = body[0]? := by
    have hbody := List.length_pos_iff.mpr hne
    rw [KvmContext.getElem?_copyInto (by rw [List.length_take]; omega),
      if_pos (by rw [List.length_take]; omega), List.getElem?_take, if_pos hpos]
  have hloop := read_response hinside hsize h hpos hentry hend hin
  by_cases hlonger : buffer.length ≤ body.length
  · rw [Nat.min_eq_left hlonger, copyInto_full hlonger,
      exec_readLoop_done (by rw [List.length_take]; omega)] at hloop
    refine .inl ⟨.inl hlonger, ?_⟩
    rw [hloop, ← hfirst, copyInto_full hlonger]
    rfl
  · rw [Nat.min_eq_right (by omega), List.take_of_length_le (by omega)] at hloop
    rw [List.take_of_length_le (by omega)] at hfirst
    rw [hloop] at hok ⊢
    have hcopied := KvmContext.length_copyInto (show 0 + body.length ≤ buffer.length by omega)
    refine (readLoop_ok_cases h hcovered (by omega) (by omega) hcopied (Prod.ext hok rfl)).imp_left ?_
    rintro ⟨hreaches, hafter⟩
    refine ⟨.inr (Relation.ReflTransGen.head ⟨key, body, _, hentry, hin, (Nat.zero_add _).symm⟩ hreaches), ?_⟩
    exact hafter.trans hfirst

end Read

/-! ## Contexts with the same layout -/

def isResponse : DataPosition → Bool
  | .contextStorage _ _ _ => false
  | .responseInformationStorage _ => true

/-- The kind and the size of the item at an offset. -/
def layout (context : SystemContext) (key : Nat) : Option (Bool × Nat) :=
  (context.localOffsetToDataPosition.get? key).map fun entry => (isResponse entry.1, entry.2)

/-- Contexts that differ in the contents of their items only. -/
def SameLayout (context context' : SystemContext) : Prop :=
  context.size = context'.size ∧ ∀ key, context.layout key = context'.layout key

theorem SameLayout.symm {context' : SystemContext} (h : SameLayout context context') :
    SameLayout context' context :=
  ⟨h.1.symm, fun key => (h.2 key).symm⟩

section Layout

variable {context' : SystemContext} (hlayout : SameLayout context context')
include hlayout

theorem SameLayout.get? {key size : Nat} {position : DataPosition}
    (hget : context.localOffsetToDataPosition.get? key = some (position, size)) :
    ∃ position', context'.localOffsetToDataPosition.get? key = some (position', size)
      ∧ isResponse position' = isResponse position := by
  have heq := hlayout.2 key
  rw [layout, hget, layout] at heq
  obtain ⟨⟨position', size'⟩, hget', hpair⟩ := Option.map_eq_some_iff.mp heq.symm
  obtain ⟨hkind, rfl⟩ := Prod.mk.inj hpair
  exact ⟨position', hget', hkind⟩

theorem SameLayout.entryUpTo {o key size : Nat} {position : DataPosition}
    (hentry : context.entryUpTo o = some (key, position, size)) :
    ∃ position', context'.entryUpTo o = some (key, position', size)
      ∧ isResponse position' = isResponse position := by
  obtain ⟨hget, hlt, hlast⟩ := (OrderedMap.lastBefore_eq_some_iff _ _ _ _).mp hentry
  obtain ⟨position', hget', hkind⟩ := hlayout.get? hget
  refine ⟨position', (OrderedMap.lastBefore_eq_some_iff _ _ _ _).mpr ⟨hget', hlt, ?_⟩, hkind⟩
  rintro key'' ⟨_, size''⟩ hget'' hlt''
  obtain ⟨position'', hback, -⟩ := hlayout.symm.get? hget''
  exact hlast key'' _ hback hlt''

theorem SameLayout.covered {length : Nat} (h : Covered context offset length) :
    Covered context' offset length := by
  intro i hi
  obtain ⟨key, ⟨position, size⟩, hget, hle, hlt⟩ := h i hi
  obtain ⟨position', hget', -⟩ := hlayout.get? hget
  exact ⟨key, (position', size), hget', hle, hlt⟩

theorem SameLayout.next (h : Coherent context) (h' : Coherent context') {t t' : Nat}
    (hnext : Next context offset t t') : Next context' offset t t' := by
  obtain ⟨key, body, size, hentry, hin, rfl⟩ := hnext
  obtain ⟨position', hentry', hkind⟩ := hlayout.entryUpTo hentry
  cases position' with
  | contextStorage stored storedSize actualOffset => cases hkind
  | responseInformationStorage body' =>
    refine ⟨key, body', size, hentry', hin, ?_⟩
    rw [← h.body (entryUpTo_some hentry).1, ← h'.body (entryUpTo_some hentry').1]

theorem SameLayout.straight (h : Coherent context) (h' : Coherent context') {length : Nat}
    (hstraight : Straight context offset length) : Straight context' offset length := by
  rcases hstraight with hzero | ⟨key, position, size, hentry, hend, hrange⟩
  · exact .inl hzero
  · obtain ⟨position', hentry', hkind⟩ := hlayout.entryUpTo hentry
    refine .inr ⟨key, position', size, hentry', hend, ?_⟩
    cases position with
    | contextStorage stored storedSize actualOffset =>
      cases position' with
      | contextStorage stored' storedSize' actualOffset' => exact hrange
      | responseInformationStorage body' => cases hkind
    | responseInformationStorage body =>
      cases position' with
      | contextStorage stored' storedSize' actualOffset' => cases hkind
      | responseInformationStorage body' =>
        refine ⟨hrange.1, hrange.2.imp_right fun hreaches => ?_⟩
        exact Relation.ReflTransGen.mono (fun _ _ => hlayout.next h h') _ _ hreaches

end Layout

/-- An item with the given bytes in its storage. -/
def colorPosition (color : Nat → UInt8) (size : Nat) : DataPosition → DataPosition
  | .contextStorage _ storedSize actualOffset =>
    .contextStorage (.malloc ((List.range storedSize).map color)) storedSize actualOffset
  | .responseInformationStorage _ => .responseInformationStorage ((List.range size).map color)

/-- The same layout, with bytes that depend on the item. -/
def recolor (color : Nat → Nat → UInt8) (context : SystemContext) : SystemContext where
  localOffsetToDataPosition := context.localOffsetToDataPosition.mapValues fun key entry =>
    (colorPosition (color key) entry.2 entry.1, entry.2)
  size := context.size

section Recolor

variable (color : Nat → Nat → UInt8)

theorem get?_recolor (key : Nat) : (recolor color context).localOffsetToDataPosition.get? key
    = (context.localOffsetToDataPosition.get? key).map fun entry =>
      (colorPosition (color key) entry.2 entry.1, entry.2) :=
  OrderedMap.get?_mapValues ..

theorem get?_recolor_some {key size : Nat} {position : DataPosition}
    (hget : context.localOffsetToDataPosition.get? key = some (position, size)) :
    (recolor color context).localOffsetToDataPosition.get? key
      = some (colorPosition (color key) size position, size) := by
  rw [get?_recolor, hget]
  rfl

theorem sameLayout_recolor : SameLayout context (recolor color context) := by
  refine ⟨rfl, fun key => ?_⟩
  rw [layout, layout, get?_recolor, Option.map_map]
  congr 1
  funext entry
  obtain ⟨position, size⟩ := entry
  cases position with
  | contextStorage stored storedSize actualOffset => rfl
  | responseInformationStorage body => rfl

theorem getElem?_colors (f : Nat → UInt8) {n j : Nat} (hj : j < n) :
    ((List.range n).map f)[j]? = some (f j) := by
  rw [List.getElem?_map, List.getElem?_range hj, Option.map_some]

theorem Disjoint.recolor (h : Disjoint context) : Disjoint (recolor color context) := by
  have hback : ∀ {key entry'}, (SystemContext.recolor color context).localOffsetToDataPosition.get? key
      = some entry' → ∃ position, context.localOffsetToDataPosition.get? key = some (position, entry'.2)
        ∧ entry'.1 = colorPosition (color key) entry'.2 position := by
    intro key entry' hget'
    rw [get?_recolor] at hget'
    obtain ⟨⟨position, size⟩, hget, rfl⟩ := Option.map_eq_some_iff.mp hget'
    exact ⟨position, hget, rfl⟩
  refine { body := ?_, stored := ?_, apart := ?_, defined := ?_ }
  · intro key body size hget'
    obtain ⟨position, -, hcolor⟩ := hback hget'
    cases position with
    | contextStorage stored storedSize actualOffset => cases hcolor
    | responseInformationStorage body' =>
      injection hcolor with hbody
      rw [hbody, List.length_map, List.length_range]
  · intro key stored storedSize actualOffset size hget'
    obtain ⟨position, hget, hcolor⟩ := hback hget'
    cases position with
    | contextStorage stored' storedSize' actualOffset' =>
      cases hcolor
      obtain ⟨hlawful, hfits⟩ := h.stored hget
      refine ⟨malloc_lawful ?_ hlawful.size_le, hfits⟩
      rw [List.length_map, List.length_range]
    | responseInformationStorage body' => cases hcolor
  · rintro key key' ⟨_, size⟩ ⟨_, size'⟩ hget hget' hlt
    obtain ⟨position, hold, -⟩ := hback hget
    obtain ⟨position', hold', -⟩ := hback hget'
    have hle := h.apart hold hold' hlt
    exact hle
  · intro key stored storedSize actualOffset size hget' d hd
    obtain ⟨position, hget, hcolor⟩ := hback hget'
    cases position with
    | contextStorage stored' storedSize' actualOffset' =>
      cases hcolor
      have hfits := (h.stored hget).2
      change (((List.range storedSize).map (color key))[actualOffset + d]?).isSome
      rw [getElem?_colors _ (by omega)]
      rfl
    | responseInformationStorage body' => cases hcolor

theorem Disjoint.virtualByte_recolor (h : Disjoint context) {key d size : Nat} {position : DataPosition}
    {x : UInt8} (hget : context.localOffsetToDataPosition.get? key = some (position, size))
    (hd : d < size) (hcolor : ∀ j, color key j = x) :
    (SystemContext.recolor color context).virtualByte (key + d) = some x := by
  rw [(h.recolor color).virtualByte (get?_recolor_some color hget) hd]
  cases position with
  | contextStorage stored storedSize actualOffset =>
    have hfits := (h.stored hget).2
    change ((List.range storedSize).map (color key))[actualOffset + d]? = some x
    rw [getElem?_colors _ (by omega), hcolor]
  | responseInformationStorage body =>
    change ((List.range size).map (color key))[d]? = some x
    rw [getElem?_colors _ hd, hcolor]

theorem recolor_stored_byte {key storedSize actualOffset size o : Nat} {stored : DataContext} {x y : UInt8}
    (hget : (SystemContext.recolor color context).localOffsetToDataPosition.get? key
      = some (.contextStorage stored storedSize actualOffset, size))
    (hcolor : ∀ j, color key j = x) (hbyte : stored.byte o = some y) : y = x := by
  rw [get?_recolor] at hget
  obtain ⟨⟨position, size'⟩, -, hentry⟩ := Option.map_eq_some_iff.mp hget
  cases position with
  | contextStorage stored' storedSize' actualOffset' =>
    cases hentry
    change ((List.range storedSize).map (color key))[o]? = some y at hbyte
    obtain ⟨j, -, rfl⟩ := List.mem_map.mp (List.mem_of_getElem? hbyte)
    exact hcolor j
  | responseInformationStorage body => cases hentry

end Recolor

/-! ## Reads of every content -/

theorem straight_stored (h : Disjoint context) (hcovered : Covered context offset buffer.length)
    (hinside : offset + buffer.length ≤ context.size) (hsize : context.size < Usize.limit)
    (hall : ∀ color, ReadsVirtual (recolor color context) offset buffer)
    {key storedSize actualOffset size : Nat} {stored : DataContext}
    (hget : context.localOffsetToDataPosition.get? key
      = some (.contextStorage stored storedSize actualOffset, size))
    (hkey : key ≤ offset) (hend : key + size < Usize.limit) (hin : offset < key + size) :
    offset + buffer.length ≤ key + size := by
  by_contra hbeyond
  -- the item has ones, all other items have zeros
  let color : Nat → Nat → UInt8 := fun k _ => if k = key then 1 else 0
  have hcolored := h.recolor color
  have hinside' : offset + buffer.length ≤ (recolor color context).size := hinside
  have hget' := get?_recolor_some color hget
  have hentry' := hcolored.entryUpTo hget' hkey hin
  obtain ⟨hok, -, hbytes⟩ := hall color
  have hi : key + size - offset < buffer.length := by omega
  have hread := read_ok_stored hinside' hsize hcolored (by omega) hentry' hend hin hok _ hi
  rw [hbytes _ hi] at hread
  obtain ⟨key', ⟨position', size'⟩, hother, hle, hlt⟩ := hcovered _ hi
  have hne : key' ≠ key := by
    rintro rfl
    rw [hget] at hother
    cases hother
    dsimp only at hlt
    omega
  have hzero := h.virtualByte_recolor color hother
    (show offset + (key + size - offset) - key' < size' by dsimp only at hlt; omega)
    (fun _ => if_neg hne)
  rw [show key' + (offset + (key + size - offset) - key') = offset + (key + size - offset) by omega]
    at hzero
  rw [hzero] at hread
  have hone := recolor_stored_byte color hget' (fun _ => if_pos rfl) hread.symm
  exact absurd hone (by decide)

theorem straight_start (h : Disjoint context) (hcovered : Covered context offset buffer.length)
    (hinside : offset + buffer.length ≤ context.size) (hsize : context.size < Usize.limit)
    (hpos : 0 < buffer.length) (hall : ∀ color, ReadsVirtual (recolor color context) offset buffer)
    {key size : Nat} {body : List UInt8}
    (hget : context.localOffsetToDataPosition.get? key = some (.responseInformationStorage body, size))
    (hkey : key ≤ offset) (hend : key + size < Usize.limit) (hin : offset < key + size) :
    key = offset := by
  by_contra hne
  -- the only one is at the offset of the read
  let color : Nat → Nat → UInt8 := fun k j => if k = key ∧ j = offset - key then 1 else 0
  have hcolored := h.recolor color
  have hinside' : offset + buffer.length ≤ (recolor color context).size := hinside
  have hget' := get?_recolor_some color hget
  have hentry' := hcolored.entryUpTo hget' hkey hin
  obtain ⟨hok, -, hbytes⟩ := hall color
  have hone : (recolor color context).virtualByte (offset + 0) = some 1 := by
    have hbyte := hcolored.virtualByte hget' (show offset - key < size by omega)
    rw [Nat.add_sub_cancel' hkey] at hbyte
    rw [Nat.add_zero, hbyte]
    change ((List.range size).map (color key))[offset - key]? = some 1
    rw [getElem?_colors _ (by omega)]
    simp [color]
  rw [← hbytes 0 hpos] at hone
  rcases read_ok_response hinside' hsize hcolored ((sameLayout_recolor color).covered hcovered) hpos
    hentry' hend hin hok with
    ⟨-, hfirst⟩ | ⟨key', stored, storedSize, actualOffset, size', o, hstored, hfirst⟩
  · rw [hone] at hfirst
    have hzero : ((List.range size).map (color key))[0]? = some 0 := by
      rw [getElem?_colors _ (by omega)]
      simp only [color]
      rw [if_neg (by omega)]
    exact absurd (Option.some.inj (hfirst.trans hzero)) (by decide)
  · have hother : key' ≠ key := by
      rintro rfl
      cases hget'.symm.trans hstored
    have hzero := recolor_stored_byte color hstored (fun _ => if_neg fun hboth => hother hboth.1)
      (hfirst.symm.trans hone)
    exact absurd hzero (by decide)

theorem straight_end (h : Disjoint context) (hcovered : Covered context offset buffer.length)
    (hinside : offset + buffer.length ≤ context.size) (hsize : context.size < Usize.limit)
    (hpos : 0 < buffer.length) (hall : ∀ color, ReadsVirtual (recolor color context) offset buffer)
    {size : Nat} {body : List UInt8}
    (hget : context.localOffsetToDataPosition.get? offset = some (.responseInformationStorage body, size))
    (hend : offset + size < Usize.limit) (hin : offset < offset + size) :
    buffer.length ≤ size ∨ Reaches (Next context offset) 0 buffer.length := by
  -- the first item has ones, all other items have zeros
  let color : Nat → Nat → UInt8 := fun k _ => if k = offset then 1 else 0
  have hcolored := h.recolor color
  have hinside' : offset + buffer.length ≤ (recolor color context).size := hinside
  have hlayout : SameLayout context (recolor color context) := sameLayout_recolor color
  have hget' := get?_recolor_some color hget
  have hentry' := hcolored.entryUpTo hget' (le_refl offset) hin
  obtain ⟨hok, -, hbytes⟩ := hall color
  have hone := h.virtualByte_recolor color hget (show 0 < size by omega) (fun _ => if_pos rfl)
  rw [← hbytes 0 hpos] at hone
  rcases read_ok_response hinside' hsize hcolored (hlayout.covered hcovered) hpos
    hentry' hend hin hok with ⟨hlast, -⟩ | ⟨key', stored, storedSize, actualOffset, size', o, hstored, hfirst⟩
  · refine hlast.imp_right fun hreaches => ?_
    exact Relation.ReflTransGen.mono
      (fun _ _ => hlayout.symm.next hcolored.toCoherent h.toCoherent) _ _ hreaches
  · have hother : key' ≠ offset := by
      rintro rfl
      cases hget'.symm.trans hstored
    have hzero := recolor_stored_byte color hstored (fun _ => if_neg hother) (hfirst.symm.trans hone)
    exact absurd hzero (by decide)

theorem Straight.readsVirtual {length : Nat} (hstraight : Straight context offset length)
    (h : Disjoint context) (hlength : buffer.length = length)
    (hinside : offset + buffer.length ≤ context.size) (hsize : context.size < Usize.limit) :
    ReadsVirtual context offset buffer := by
  by_cases hpos : 0 < buffer.length
  swap
  · have hnil : PiecesAt context offset [] := trivial
    exact readsVirtual_of_pieces h hnil (by rw [List.flatten_nil, List.length_nil]; omega) hinside hsize
  obtain hzero | ⟨key, position, size, hentry, hend, hrange⟩ := hstraight
  · omega
  cases position with
  | contextStorage stored storedSize actualOffset =>
    exact readsVirtual_stored hinside hsize h hpos hentry hend (hlength ▸ hrange)
  | responseInformationStorage body =>
    obtain ⟨rfl, hle | hreaches⟩ := hrange
    · exact readsVirtual_front hinside hsize h hpos hentry hend (hlength ▸ hle)
    · obtain ⟨pieces, hpieces, htotal⟩ := pieces_of_reaches h hreaches fun key' entry hentry' _ => by
        rw [Nat.add_zero, hentry] at hentry'
        cases hentry'
        rfl
      exact readsVirtual_of_pieces h hpieces (by omega) hinside hsize

/-- A read of a covered range gives the bytes of the context, whatever is in the items, exactly if it
is inside one item of another context, or starts with a response and ends inside it or at the end of
one of the responses behind it. -/
theorem readsVirtual_iff (h : Disjoint context) (hcovered : Covered context offset buffer.length)
    (hinside : offset + buffer.length ≤ context.size) (hsize : context.size < Usize.limit) :
    (∀ context', SameLayout context context' → Disjoint context' →
        ReadsVirtual context' offset buffer) ↔ Straight context offset buffer.length := by
  constructor
  · intro hall
    by_cases hpos : 0 < buffer.length
    swap
    · exact .inl (by omega)
    have hcolors : ∀ color, ReadsVirtual (recolor color context) offset buffer :=
      fun color => hall _ (sameLayout_recolor color) (h.recolor color)
    obtain ⟨key, position, size, hentry, hget, hkey, hin⟩ := hcovered.entryUpTo h hpos
    have hend : key + size < Usize.limit := by
      by_contra hover
      have hok := (hall context ⟨rfl, fun _ => rfl⟩ h).1
      have hpanic := exec_readLoop_overflow (buffer.length - 1) hpos hentry (by omega)
      rw [Nat.sub_add_cancel hpos] at hpanic
      rw [read_eq_loop hinside hsize, hpanic] at hok
      cases hok
    refine .inr ⟨key, position, size, hentry, hend, ?_⟩
    cases position with
    | contextStorage stored storedSize actualOffset =>
      exact straight_stored h hcovered hinside hsize hcolors hget hkey hend hin
    | responseInformationStorage body =>
      obtain rfl := straight_start h hcovered hinside hsize hpos hcolors hget hkey hend hin
      exact ⟨rfl, straight_end h hcovered hinside hsize hpos hcolors hget hend hin⟩
  · intro hstraight context' hlayout h'
    exact (hlayout.straight h.toCoherent h'.toCoherent hstraight).readsVirtual h' rfl
      (hlayout.1 ▸ hinside) (hlayout.1 ▸ hsize)

/-- Three bytes of another context, and a response behind them. -/
def storedAndBody : SystemContext :=
  ((⟨OrderedMap.empty, 5⟩ : SystemContext).put 0 (.contextStorage (.malloc [9, 1, 2, 3]) 4 1) 3).put 3
    (.responseInformationStorage [4, 5]) 2

theorem storedAndBody_get? {key : Nat} {entry : DataPosition × Nat}
    (hget : storedAndBody.localOffsetToDataPosition.get? key = some entry) :
    (key = 0 ∧ entry = (.contextStorage (.malloc [9, 1, 2, 3]) 4 1, 3)) ∨
      (key = 3 ∧ entry = (.responseInformationStorage [4, 5], 2)) := by
  rw [storedAndBody, get?_put] at hget
  by_cases hthree : key = 3
  · rw [if_pos hthree] at hget
    cases hget
    exact .inr ⟨hthree, rfl⟩
  · rw [if_neg hthree, get?_put] at hget
    by_cases hzero : key = 0
    · rw [if_pos hzero] at hget
      cases hget
      exact .inl ⟨hzero, rfl⟩
    · rw [if_neg hzero] at hget
      cases hget

theorem disjoint_storedAndBody : Disjoint storedAndBody := by
  refine { body := ?_, stored := ?_, apart := ?_, defined := ?_ }
  · intro key body size hget
    rcases storedAndBody_get? hget with ⟨-, hentry⟩ | ⟨-, hentry⟩
    · cases hentry
    · cases hentry
      rfl
  · intro key stored storedSize actualOffset size hget
    rcases storedAndBody_get? hget with ⟨-, hentry⟩ | ⟨-, hentry⟩
    · cases hentry
      exact ⟨malloc_lawful rfl (by decide), by decide⟩
    · cases hentry
  · intro key key' entry entry' hget hget' hlt
    rcases storedAndBody_get? hget with ⟨rfl, rfl⟩ | ⟨rfl, rfl⟩
    · rcases storedAndBody_get? hget' with ⟨rfl, -⟩ | ⟨rfl, -⟩
      · omega
      · decide
    · rcases storedAndBody_get? hget' with ⟨rfl, -⟩ | ⟨rfl, -⟩
      · omega
      · omega
  · intro key stored storedSize actualOffset size hget
    rcases storedAndBody_get? hget with ⟨-, hentry⟩ | ⟨-, hentry⟩
    · cases hentry
      decide
    · cases hentry

theorem covered_storedAndBody {o length : Nat} (h : o + length ≤ 5) : Covered storedAndBody o length := by
  intro i hi
  by_cases hlt : o + i < 3
  · exact ⟨0, (.contextStorage (.malloc [9, 1, 2, 3]) 4 1, 3), rfl, Nat.zero_le _, by simpa using hlt⟩
  · refine ⟨3, (.responseInformationStorage [4, 5], 2), rfl, by omega, ?_⟩
    change o + i < 5
    omega

/-- The last two bytes of the first item. -/
theorem storedAndBody_reads : ReadsVirtual storedAndBody 1 [0, 0] := by
  have hcovered : Covered storedAndBody 1 [(0 : UInt8), 0].length := covered_storedAndBody (by decide)
  refine (readsVirtual_iff disjoint_storedAndBody hcovered (by decide) (by decide)).mpr ?_ storedAndBody
    ⟨rfl, fun _ => rfl⟩ disjoint_storedAndBody
  exact .inr ⟨0, _, 3, rfl, by decide, le_refl 3⟩

/-- The second byte of the response is read as its first one. -/
theorem storedAndBody_misread : Disjoint storedAndBody ∧ Covered storedAndBody 4 1
    ∧ 4 + 1 ≤ storedAndBody.size ∧ ¬ ReadsVirtual storedAndBody 4 [0] := by
  refine ⟨disjoint_storedAndBody, covered_storedAndBody (by decide), by decide, ?_⟩
  rintro ⟨-, -, hbytes⟩
  have hread : storedAndBody.read 4 [0] = ([4], .ok ()) := rfl
  have hvirtual : storedAndBody.virtualByte 4 = some 5 := rfl
  have hbyte := hbytes 0 (by decide)
  rw [hread, hvirtual] at hbyte
  exact absurd hbyte (by decide)

end SystemContext

end Dandelion
