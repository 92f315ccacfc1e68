import Dandelion.ChunkCopies
import Dandelion.Contexts

/-!
# Transfers of responses

The data of a response lies in a system context as consecutive pieces, each at the offset at
which the one before it ends. All three algorithms that read such a range go through it piece by
piece: the copy of the entries into another system context, the transfer out of it, and the copy
chunk by chunk into a KVM context.
-/

namespace Dandelion

open Outcome Stateful

/-- Consecutive pieces of responses from an offset on, none of them empty. -/
def PiecesAt (context : SystemContext) : Nat → List (List UInt8) → Prop
  | _, [] => True
  | offset, piece :: pieces => piece ≠ []
    ∧ context.localOffsetToDataPosition.get? offset
      = some (.responseInformationStorage piece, piece.length)
    ∧ PiecesAt context (offset + piece.length) pieces

@[simp] theorem get?_put (context : SystemContext) (offset key size : Nat) (position : DataPosition) :
    (context.put offset position size).localOffsetToDataPosition.get? key
      = if key = offset then some (position, size) else context.localOffsetToDataPosition.get? key :=
  OrderedMap.get?_insert ..

@[simp] theorem size_put (context : SystemContext) (offset size : Nat) (position : DataPosition) :
    (context.put offset position size).size = context.size := rfl

theorem PiecesAt.put {context : SystemContext} {pieces : List (List UInt8)} {offset key size : Nat}
    {position : DataPosition} (h : PiecesAt context offset pieces)
    (hkey : offset + pieces.flatten.length ≤ key) :
    PiecesAt (context.put key position size) offset pieces := by
  induction pieces generalizing offset with
  | nil => exact trivial
  | cons piece pieces ih =>
    obtain ⟨hpiece, hget, hrest⟩ := h
    have hpos := List.length_pos_iff.mpr hpiece
    rw [List.flatten_cons, List.length_append] at hkey
    refine ⟨hpiece, ?_, ih hrest (by omega)⟩
    rw [get?_put, if_neg (by omega), hget]

theorem PiecesAt.append_put {context : SystemContext} {pieces : List (List UInt8)}
    {piece : List UInt8} {offset : Nat} (h : PiecesAt context offset pieces) (hpiece : piece ≠ []) :
    PiecesAt (context.put (offset + pieces.flatten.length) (.responseInformationStorage piece)
      piece.length) offset (pieces ++ [piece]) := by
  induction pieces generalizing offset with
  | nil =>
    refine ⟨hpiece, ?_, trivial⟩
    rw [get?_put, List.flatten_nil, List.length_nil, Nat.add_zero, if_pos rfl]
  | cons first pieces ih =>
    obtain ⟨hfirst, hget, hrest⟩ := h
    have hpos := List.length_pos_iff.mpr hfirst
    have hnext := ih hrest
    rw [List.flatten_cons, List.length_append]
    rw [Nat.add_assoc] at hnext
    refine ⟨hfirst, ?_, hnext⟩
    rw [get?_put, if_neg (by omega), hget]

/-! ## Piece by piece -/

/-- Go through pieces, with the offset at which each of them goes. -/
def eachPiece {σ : Type} (step : Nat → List UInt8 → Stateful DandelionError σ Unit) :
    Nat → List (List UInt8) → Stateful DandelionError σ Unit
  | _, [] => pure ()
  | offset, piece :: pieces => do
    step offset piece
    eachPiece step (offset + piece.length) pieces

section Loops

variable {source : SystemContext} {destinationOffset sourceOffset size : Nat}

theorem itemLoop_eq {σ : Type} (move : DataPosition → Nat → Nat → Stateful DandelionError σ Unit)
    {pieces : List (List UInt8)} {fuel n : Nat} (h : PiecesAt source (sourceOffset + n) pieces)
    (hsize : n + pieces.flatten.length = size) (hfuel : pieces.flatten.length ≤ fuel)
    (hsource : sourceOffset + size < Usize.limit)
    (hdestination : destinationOffset + size < Usize.limit) :
    itemLoop source move destinationOffset sourceOffset size fuel n
      = eachPiece (fun offset piece => move (.responseInformationStorage piece) offset piece.length)
        (destinationOffset + n) pieces := by
  induction pieces generalizing fuel n with
  | nil =>
    have hdone : ¬ n < size := by
      rw [List.flatten_nil, List.length_nil] at hsize
      omega
    cases fuel with
    | zero => rw [itemLoop, if_neg hdone, eachPiece]
    | succ fuel => rw [itemLoop, if_neg hdone, eachPiece]
  | cons piece pieces ih =>
    obtain ⟨hpiece, hget, hrest⟩ := h
    have hpos := List.length_pos_iff.mpr hpiece
    rw [List.flatten_cons, List.length_append] at hsize hfuel
    cases fuel with
    | zero => omega
    | succ fuel =>
      rw [Nat.add_assoc] at hrest
      rw [itemLoop, if_pos (by omega), Usize.add_eq_ok (by omega), lift_ok_bind, hget]
      dsimp only
      rw [Usize.add_eq_ok (by omega), lift_ok_bind, if_neg (by omega), Usize.add_eq_ok (by omega),
        lift_ok_bind, ih hrest (by omega) (by omega), eachPiece, Nat.add_assoc]

/-- The last entry up to the start of a piece is that of the piece. -/
theorem entryUpTo_eq {offset : Nat} {entry : DataPosition × Nat}
    (hget : source.localOffsetToDataPosition.get? offset = some entry) :
    source.entryUpTo offset = some (offset, entry) := by
  apply (OrderedMap.lastBefore_eq_some_iff _ _ _ _).mpr
  exact ⟨hget, Nat.lt_succ_self offset, fun key _ _ hlt => Nat.le_of_lt_succ hlt⟩

theorem getChunkRef_piece {offset length : Nat} {piece : List UInt8}
    (hget : source.localOffsetToDataPosition.get? offset
      = some (.responseInformationStorage piece, piece.length))
    (hpiece : piece ≠ []) (hle : piece.length ≤ length) (hlimit : offset + length < Usize.limit)
    (hsize : offset + length ≤ source.size) : source.getChunkRef offset length = .ok piece := by
  have hpos := List.length_pos_iff.mpr hpiece
  rw [SystemContext.getChunkRef, Usize.add_eq_ok hlimit, ok_bind, if_neg (by omega),
    entryUpTo_eq hget]
  dsimp only
  rw [Usize.add_eq_ok (by omega), ok_bind, if_pos (by omega), Nat.sub_self, Nat.zero_add,
    Nat.min_eq_right hle, slice, if_pos (by omega), Nat.sub_zero, List.drop_zero, List.take_length]
  rfl

theorem copyLoop_eq {pieces : List (List UInt8)} {fuel n contextSize : Nat}
    (h : PiecesAt source (sourceOffset + n) pieces) (hsize : n + pieces.flatten.length = size)
    (hfuel : pieces.flatten.length ≤ fuel) (hsource : sourceOffset + size ≤ source.size)
    (hlimit : source.size < Usize.limit) :
    KvmContext.copyLoop (source.toRef contextSize) sourceOffset destinationOffset size fuel n
      = eachPiece KvmContext.writeBytes (destinationOffset + n) pieces := by
  induction pieces generalizing fuel n with
  | nil =>
    have hdone : ¬ n < size := by
      rw [List.flatten_nil, List.length_nil] at hsize
      omega
    cases fuel with
    | zero => rw [KvmContext.copyLoop, if_neg hdone, eachPiece]
    | succ fuel => rw [KvmContext.copyLoop, if_neg hdone, eachPiece]
  | cons piece pieces ih =>
    obtain ⟨hpiece, hget, hrest⟩ := h
    have hpos := List.length_pos_iff.mpr hpiece
    rw [List.flatten_cons, List.length_append] at hsize hfuel
    cases fuel with
    | zero => omega
    | succ fuel =>
      rw [Nat.add_assoc] at hrest
      have hchunk : (source.toRef contextSize).getChunkRef (sourceOffset + n) (size - n) = .ok piece :=
        getChunkRef_piece hget hpiece (by omega) (by omega) (by omega)
      rw [KvmContext.copyLoop, if_pos (by omega), hchunk, lift_ok_bind, if_neg (by omega),
        ih hrest (by omega) (by omega), eachPiece, Nat.add_assoc]

end Loops

theorem PiecesAt.ne_nil {context : SystemContext} {pieces : List (List UInt8)} {offset : Nat}
    (h : PiecesAt context offset pieces) : ∀ piece ∈ pieces, piece ≠ [] := by
  induction pieces generalizing offset with
  | nil => exact fun piece hpiece => by cases hpiece
  | cons piece pieces ih => exact List.forall_mem_cons.mpr ⟨h.1, ih h.2.2⟩

/-! ## Into a system context -/

theorem exec_putPieces {destination : SystemContext} {destinationOffset : Nat}
    {done pieces : List (List UInt8)} (h : PiecesAt destination destinationOffset done)
    (hpieces : ∀ piece ∈ pieces, piece ≠ []) :
    ∃ after, exec (eachPiece (fun offset piece => modify fun destination : SystemContext =>
        destination.put offset (.responseInformationStorage piece) piece.length)
        (destinationOffset + done.flatten.length) pieces) destination = (.ok (), after)
      ∧ after.size = destination.size ∧ PiecesAt after destinationOffset (done ++ pieces) := by
  induction pieces generalizing destination done with
  | nil =>
    rw [List.append_nil]
    exact ⟨destination, rfl, rfl, h⟩
  | cons piece pieces ih =>
    obtain ⟨hpiece, hrest⟩ := List.forall_mem_cons.mp hpieces
    obtain ⟨after, hexec, hsize, hafter⟩ := ih (h.append_put hpiece) hrest
    rw [List.append_assoc, List.singleton_append] at hafter
    rw [List.flatten_append, List.flatten_singleton, List.length_append, ← Nat.add_assoc] at hexec
    refine ⟨after, ?_, hsize, hafter⟩
    rw [eachPiece, exec_modify_bind]
    exact hexec

theorem systemContextTransfer_pieces (destination : SystemContext) {source : SystemContext}
    {destinationOffset sourceOffset : Nat} {pieces : List (List UInt8)}
    (h : PiecesAt source sourceOffset pieces)
    (hsource : sourceOffset + pieces.flatten.length < Usize.limit)
    (hdestination : destinationOffset + pieces.flatten.length < Usize.limit) :
    ∃ after, exec (systemContextTransfer source destinationOffset sourceOffset pieces.flatten.length)
        destination = (.ok (), after)
      ∧ after.size = destination.size ∧ PiecesAt after destinationOffset pieces := by
  have hloop := itemLoop_eq (n := 0) (fun position offset itemSize =>
    (modify fun destination => destination.put offset position itemSize :
      Stateful DandelionError SystemContext Unit)) h (Nat.zero_add _) (Nat.le_refl _) hsource hdestination
  rw [systemContextTransfer, hloop]
  have hempty : PiecesAt destination destinationOffset [] := trivial
  exact exec_putPieces hempty h.ne_nil

/-! ## Out of a system context -/

/-- `destination.write(offset, piece)` -/
def writeOut (offset : Nat) (piece : List UInt8) : DataM Unit :=
  onDestination fun destination => destination.write offset piece

theorem eachPiece_congr {σ : Type} {step step' : Nat → List UInt8 → Stateful DandelionError σ Unit}
    {pieces : List (List UInt8)} (h : ∀ piece ∈ pieces, ∀ offset, step offset piece = step' offset piece)
    (offset : Nat) : eachPiece step offset pieces = eachPiece step' offset pieces := by
  induction pieces generalizing offset with
  | nil => rfl
  | cons piece pieces ih =>
    obtain ⟨hpiece, hrest⟩ := List.forall_mem_cons.mp h
    rw [eachPiece, eachPiece, hpiece, ih hrest]

theorem outOfSystemContextTransfer_eq {source : SystemContext} {destinationOffset sourceOffset : Nat}
    {pieces : List (List UInt8)} (h : PiecesAt source sourceOffset pieces)
    (hsource : sourceOffset + pieces.flatten.length < Usize.limit)
    (hdestination : destinationOffset + pieces.flatten.length < Usize.limit) :
    outOfSystemContextTransfer source destinationOffset sourceOffset pieces.flatten.length
      = eachPiece writeOut destinationOffset pieces := by
  have hloop := itemLoop_eq (n := 0) moveOut h (Nat.zero_add _) (Nat.le_refl _) hsource hdestination
  rw [outOfSystemContextTransfer, hloop]
  exact eachPiece_congr (fun piece hpiece offset => if_pos (List.length_pos_iff.mpr (h.ne_nil piece hpiece)))
    _

theorem exec_onDestination (operation : DataContext → DataContext × DandelionResult Unit)
    (destination : DataContext) :
    exec (onDestination operation) destination = (operation destination).swap := rfl

namespace KvmContext

theorem exec_writeBytes (context : KvmContext) (offset : Nat) (data : List UInt8) :
    exec (writeBytes offset data) context = (write 1 context offset data).swap := rfl

theorem take_drop_copyInto {storage bytes : List UInt8} {start : Nat}
    (h : start + bytes.length ≤ storage.length) :
    ((copyInto storage start bytes).drop start).take bytes.length = bytes := by
  have htake : (storage.take start).length = start := by
    rw [List.length_take]
    omega
  rw [copyInto, List.append_assoc, List.drop_append_of_le_length htake.ge,
    List.drop_of_length_le htake.le, List.nil_append, List.take_left]

theorem copyInto_append {storage front back : List UInt8} {start : Nat}
    (h : start + front.length + back.length ≤ storage.length) :
    copyInto (copyInto storage start front) (start + front.length) back
      = copyInto storage start (front ++ back) := by
  have hfront : start + front.length ≤ storage.length := by omega
  have hlength : (copyInto storage start front).length = storage.length := length_copyInto hfront
  apply List.ext_getElem?
  intro o
  rw [getElem?_copyInto (by omega), getElem?_copyInto hfront,
    getElem?_copyInto (by rw [List.length_append]; omega), List.length_append]
  by_cases hback : start + front.length ≤ o ∧ o < start + front.length + back.length
  · rw [if_pos hback, if_pos (by omega), List.getElem?_append_right (by omega)]
    congr 1
    omega
  · rw [if_neg hback]
    by_cases hin : start ≤ o ∧ o < start + front.length
    · rw [if_pos hin, if_pos (by omega), List.getElem?_append_left (by omega)]
    · rw [if_neg hin, if_neg (by omega)]

end KvmContext

/-- The contexts whose bytes are a storage that can be written. -/
inductive ByteBacked : (List UInt8 → DataContext) → Prop
  | malloc : ByteBacked .malloc
  | mmu : ByteBacked .mmu

theorem ByteBacked.write_eq {wrap : List UInt8 → DataContext} (h : ByteBacked wrap)
    (storage : List UInt8) (offset : Nat) (data : List UInt8) :
    (wrap storage).write offset data =
      (wrap storage).updated (wrap <$> writeStorage storage offset data) := by
  cases h with
  | malloc => rfl
  | mmu => rfl

theorem ByteBacked.read_eq {wrap : List UInt8 → DataContext} (h : ByteBacked wrap)
    (storage : List UInt8) (offset : Nat) (buffer : List UInt8) :
    (wrap storage).read offset buffer = readStorage storage offset buffer := by
  cases h with
  | malloc => rfl
  | mmu => rfl

theorem writeStorage_eq {storage data : List UInt8} {offset : Nat} (hlimit : storage.length < Usize.limit)
    (hfits : offset + data.length ≤ storage.length) :
    writeStorage storage offset data = .ok (KvmContext.copyInto storage offset data) := by
  rw [writeStorage, Usize.add_eq_ok (by omega), ok_bind, if_neg (by omega)]
  rfl

theorem readStorage_eq {storage buffer : List UInt8} {offset : Nat}
    (hlimit : offset + buffer.length < Usize.limit) (hfits : offset + buffer.length ≤ storage.length) :
    readStorage storage offset buffer = ((storage.drop offset).take buffer.length, .ok ()) := by
  rw [readStorage, Usize.add_eq_ok hlimit]
  dsimp only
  rw [if_neg (by omega)]
  rfl

theorem readStorage_fits {storage buffer : List UInt8} {offset : Nat}
    (hok : (readStorage storage offset buffer).2 = .ok ()) :
    offset + buffer.length < Usize.limit ∧ offset + buffer.length ≤ storage.length := by
  by_cases hlimit : offset + buffer.length < Usize.limit
  · refine ⟨hlimit, ?_⟩
    by_contra hout
    rw [readStorage, Usize.add_eq_ok hlimit] at hok
    dsimp only at hok
    rw [if_pos (by omega)] at hok
    cases hok
  · rw [readStorage, Usize.add_eq_crash hlimit] at hok
    cases hok

theorem exec_writePieces {wrap : List UInt8 → DataContext} (hwrap : ByteBacked wrap)
    {storage : List UInt8} {pieces : List (List UInt8)} {offset : Nat}
    (hlimit : storage.length < Usize.limit) (hfits : offset + pieces.flatten.length ≤ storage.length) :
    exec (eachPiece writeOut offset pieces) (wrap storage)
      = (.ok (), wrap (KvmContext.copyInto storage offset pieces.flatten)) := by
  induction pieces generalizing storage offset with
  | nil =>
    rw [List.flatten_nil, KvmContext.copyInto_nil]
    rfl
  | cons piece pieces ih =>
    rw [List.flatten_cons, List.length_append] at hfits
    have hpiece : offset + piece.length ≤ storage.length := by omega
    have hlength := KvmContext.length_copyInto hpiece
    have hwrite : exec (writeOut offset piece) (wrap storage)
        = (.ok (), wrap (KvmContext.copyInto storage offset piece)) := by
      rw [writeOut, exec_onDestination, hwrap.write_eq, writeStorage_eq hlimit hpiece]
      rfl
    rw [eachPiece, exec_bind_ok hwrite, ih (by omega) (by omega), List.flatten_cons,
      KvmContext.copyInto_append (by omega)]

/-! ## Into a KVM context -/

/-- On a KVM context both ways out of a system context make the same writes. -/
theorem exec_eachPiece_kvm (context : KvmContext) (offset : Nat) (pieces : List (List UInt8)) :
    exec (eachPiece writeOut offset pieces) (.kvm context)
      = (exec (eachPiece KvmContext.writeBytes offset pieces) context).map id .kvm := by
  induction pieces generalizing context offset with
  | nil => rfl
  | cons piece pieces ih =>
    have hout : exec (writeOut offset piece) (.kvm context)
        = (exec (KvmContext.writeBytes offset piece) context).map id .kvm := rfl
    rw [eachPiece, eachPiece, exec_bind, exec_bind, hout]
    cases hwrite : exec (KvmContext.writeBytes offset piece) context with
    | mk result after =>
      cases result with
      | ok value => exact ih after _
      | error stop => rfl

namespace KvmContext

/-- A write inside the storage fails only where a read from an item does. -/
theorem writeBytes_inside {context : KvmContext} (h : Valid context) {offset : Nat} {data : List UInt8}
    (hdata : data ≠ []) (hfits : offset + data.length ≤ context.storage.length) :
    Runs (writeBytes offset data) context
      (fun _ after => Wrote context offset data (after, .ok ())
        ∧ (Solid context.overlay → Solid after.overlay))
      (fun _ => ¬ Solid context.overlay) := by
  have hlimit := lt_limit h.paged hfits
  have hwrote := write_spec h 1 hdata hlimit
  have hsolid := fun hs => write_solid h.paged hs (Nat.mod_one offset) hdata hlimit hfits
  unfold Runs
  rw [exec_writeBytes]
  cases hwrite : write 1 context offset data with
  | mk after result =>
    rw [hwrite] at hwrote hsolid
    cases result with
    | ok value => exact ⟨hwrote, fun hs => (hsolid hs).2⟩
    | error stop =>
      refine ⟨hwrote.returns stop rfl, fun hs => ?_⟩
      have := (hsolid hs).1
      cases this

theorem eachPiece_runs {before context : KvmContext} {destinationOffset : Nat}
    {done bytes : List UInt8} {pieces : List (List UInt8)} (hpieces : ∀ piece ∈ pieces, piece ≠ [])
    (hbytes : done ++ pieces.flatten = bytes)
    (hfits : destinationOffset + bytes.length ≤ before.storage.length)
    (h : Copied before context (fun i => bytes[i]?) destinationOffset 0 done.length)
    (hsolid : Solid before.overlay → Solid context.overlay) :
    Runs (eachPiece writeBytes (destinationOffset + done.length) pieces) context
      (fun _ after => Copied before after (fun i => bytes[i]?) destinationOffset 0 bytes.length)
      (fun _ => ¬ Solid before.overlay) := by
  induction pieces generalizing context done with
  | nil =>
    rw [List.flatten_nil, List.append_nil] at hbytes
    rw [hbytes] at h
    exact h
  | cons piece pieces ih =>
    obtain ⟨hpiece, hrest⟩ := List.forall_mem_cons.mp hpieces
    have hlength : bytes.length = done.length + (piece.length + pieces.flatten.length) := by
      rw [← hbytes, List.length_append, List.flatten_cons, List.length_append]
    have hchunk : ∀ i < piece.length, piece[i]? = bytes[0 + done.length + i]? := by
      intro i hi
      rw [← hbytes, Nat.zero_add, List.getElem?_append_right (by omega), Nat.add_sub_cancel_left,
        List.flatten_cons, List.getElem?_append_left hi]
    rw [eachPiece]
    have hroom : destinationOffset + done.length + piece.length ≤ context.storage.length := by
      rw [h.length]
      omega
    have hwrite := writeBytes_inside h.valid hpiece hroom
    refine (hwrite.mono (fun _ _ hq => hq) (fun _ hnot hs => hnot (hsolid hs))).bind
      fun _ after hafter => ?_
    have hstep := h.step (List.length_pos_iff.mpr hpiece) hchunk hafter.1
    rw [Nat.add_assoc, ← List.length_append]
    apply ih hrest
    · rw [← hbytes, List.flatten_cons, List.append_assoc]
    · rw [List.length_append]
      exact hstep
    · exact fun hs => hafter.2 (hsolid hs)

theorem Copied.read_eq {before after : KvmContext} {bytes buffer : List UInt8} {offset : Nat}
    (h : Copied before after (fun i => bytes[i]?) offset 0 bytes.length)
    (hbuffer : buffer.length = bytes.length) (hfits : offset + bytes.length ≤ before.storage.length) :
    read 1 after offset buffer = (bytes, .ok ()) := by
  have hlength := h.length
  rcases read_cases h.valid offset buffer with ⟨hlt, -⟩ | ⟨rfl, hread⟩ | ⟨-, hread⟩
  · omega
  · rw [hread, List.length_eq_zero_iff.mp hbuffer.symm]
  · have hview : ∀ i < buffer.length, after.view (offset + i) = bytes[i]? := by
      intro i hi
      rw [h.copied i (by omega), Nat.zero_add]
    have hok : (read 1 after offset buffer).2 = .ok () := hread.defined fun i hi => by
      rw [hview i hi, List.getElem?_eq_getElem (by omega)]
      rfl
    have hbytes : (read 1 after offset buffer).1 = bytes := by
      apply List.ext_getElem?
      intro i
      by_cases hi : i < buffer.length
      · rw [hread.bytes hok i hi, hview i hi]
      · rw [List.getElem?_eq_none (by rw [hread.length]; omega), List.getElem?_eq_none (by omega)]
    exact Prod.ext hbytes hok

end KvmContext

/-! ## Reading a system context -/

theorem exec_readResponse_done {body buffer : List UInt8} {total bytesRead : Nat}
    (h : ¬ (bytesRead < buffer.length ∧ bytesRead < body.length)) (fuel : Nat) :
    exec (SystemContext.readResponse body total fuel bytesRead) buffer = (.ok bytesRead, buffer) := by
  cases fuel with
  | zero =>
    rw [SystemContext.readResponse, exec_get_bind, if_neg h]
    rfl
  | succ fuel =>
    rw [SystemContext.readResponse, exec_get_bind, if_neg h]
    rfl

/-- One round: as much of the body as the rest of the buffer takes. -/
theorem exec_readResponse_round {body buffer : List UInt8} {total bytesRead : Nat} (fuel : Nat)
    (hbuffer : bytesRead < buffer.length) (hbody : bytesRead < body.length)
    (hfits : bytesRead + total ≤ buffer.length) :
    exec (SystemContext.readResponse body total (fuel + 1) bytesRead) buffer =
      exec (SystemContext.readResponse body total fuel
          (bytesRead + min (buffer.length - (bytesRead + total)) (body.length - bytesRead)))
        (KvmContext.copyInto buffer (bytesRead + total)
          ((body.drop bytesRead).take
            (min (buffer.length - (bytesRead + total)) (body.length - bytesRead)))) := by
  have hchunk : ¬ (body.drop bytesRead).isEmpty = true := by
    rw [List.isEmpty_iff, List.drop_eq_nil_iff]
    omega
  rw [SystemContext.readResponse, exec_get_bind, if_pos ⟨hbuffer, hbody⟩]
  dsimp only
  rw [if_neg hchunk, Usize.sub_eq_ok hfits, exec_lift_ok_bind, List.length_drop, if_neg (by omega),
    exec_set_bind]

theorem exec_readResponse {piece buffer : List UInt8} {total : Nat} (hpiece : piece ≠ [])
    (hfits : total + piece.length ≤ buffer.length) :
    exec (SystemContext.readResponse piece total piece.length 0) buffer
      = (.ok piece.length, KvmContext.copyInto buffer total piece) := by
  have hpos := List.length_pos_iff.mpr hpiece
  obtain ⟨fuel, hfuel⟩ := Nat.exists_eq_succ_of_ne_zero hpos.ne'
  have hreading : min (buffer.length - (0 + total)) (piece.length - 0) = piece.length := by omega
  have hround := exec_readResponse_round fuel (show 0 < buffer.length by omega) hpos
    (show 0 + total ≤ buffer.length by omega)
  rw [hreading, List.drop_zero, List.take_length, Nat.zero_add, Nat.zero_add,
    ← Nat.succ_eq_add_one, ← hfuel] at hround
  rw [hround, exec_readResponse_done (by omega)]

theorem exec_readLoop {context : SystemContext} {offset total fuel : Nat}
    {pieces : List (List UInt8)} {buffer : List UInt8}
    (h : PiecesAt context (offset + total) pieces)
    (hlength : total + pieces.flatten.length = buffer.length) (hfuel : pieces.flatten.length ≤ fuel)
    (hlimit : offset + buffer.length < Usize.limit) :
    exec (SystemContext.readLoop context offset fuel total) buffer
      = (.ok (), KvmContext.copyInto buffer total pieces.flatten) := by
  induction pieces generalizing total fuel buffer with
  | nil =>
    have hdone : ¬ total < buffer.length := by
      rw [List.flatten_nil, List.length_nil] at hlength
      omega
    rw [List.flatten_nil, KvmContext.copyInto_nil]
    cases fuel with
    | zero =>
      rw [SystemContext.readLoop, exec_get_bind, if_neg hdone]
      rfl
    | succ fuel =>
      rw [SystemContext.readLoop, exec_get_bind, if_neg hdone]
      rfl
  | cons piece pieces ih =>
    obtain ⟨hpiece, hget, hrest⟩ := h
    have hpos := List.length_pos_iff.mpr hpiece
    rw [List.flatten_cons, List.length_append] at hlength hfuel
    cases fuel with
    | zero => omega
    | succ fuel =>
      have hcopy := KvmContext.length_copyInto (show total + piece.length ≤ buffer.length by omega)
      rw [Nat.add_assoc] at hrest
      rw [SystemContext.readLoop, exec_get_bind, if_pos (by omega), entryUpTo_eq hget]
      dsimp only
      rw [Usize.add_eq_ok (by omega), exec_lift_ok_bind, if_pos (by omega),
        exec_bind_ok (exec_readResponse hpiece (by omega)), ih hrest (by omega) (by omega) (by omega),
        KvmContext.copyInto_append (by omega), List.flatten_cons]

theorem read_pieces {context : SystemContext} {offset : Nat} {pieces : List (List UInt8)}
    {buffer : List UInt8} (h : PiecesAt context offset pieces)
    (hlength : pieces.flatten.length = buffer.length) (hsize : offset + buffer.length ≤ context.size)
    (hlimit : context.size < Usize.limit) :
    context.read offset buffer = (pieces.flatten, .ok ()) := by
  rw [SystemContext.read, Usize.add_eq_ok (by omega)]
  dsimp only
  have hloop := exec_readLoop (show PiecesAt context (offset + 0) pieces from h)
    ((Nat.zero_add _).trans hlength) hlength.le (by omega)
  rw [if_neg (by omega), hloop, KvmContext.copyInto, hlength, Nat.zero_add, List.drop_length,
    List.take_zero, List.append_nil]
  rfl

end Dandelion
