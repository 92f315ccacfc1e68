import Dandelion.Responses

/-!
# Responses arrive complete

After all responses of a request have been written, the output context lists one item for each of
them in the set of the responses and in that of the bodies. The pieces of an item stay together
from one system context to the next, and every transfer of the item makes its bytes readable at
the destination.
-/

namespace Dandelion

open Outcome Stateful

/-! ## Writing responses -/

/-- The pieces of a body; an empty one has none. -/
def bodyPieces (response : ResponseInformation) : List (List UInt8) :=
  if response.body = [] then [] else [response.body]

def responsePieces (response : ResponseInformation) : List (List UInt8) :=
  response.preamble :: bodyPieces response

theorem flatten_bodyPieces (response : ResponseInformation) :
    (bodyPieces response).flatten = response.body := by
  unfold bodyPieces
  by_cases h : response.body = []
  · rw [if_pos h, h]
    rfl
  · rw [if_neg h, List.flatten_singleton]

theorem flatten_responsePieces (response : ResponseInformation) :
    (responsePieces response).flatten = response.preamble ++ response.body := by
  rw [responsePieces, List.flatten_cons, flatten_bodyPieces]

/-- An item of a response, of which the pieces of its bytes are in the context. -/
structure ItemAt (system : SystemContext) (response : ResponseInformation)
    (pieces : List (List UInt8)) (item : DataItem) : Prop where
  ident : item.ident = response.itemName
  key : item.key = response.itemKey
  size : item.data.size = pieces.flatten.length
  pieces : PiecesAt system item.data.offset pieces
  inside : item.data.offset + item.data.size ≤ system.size

/-- Pieces before `stop` are still there. -/
def KeepsBefore (stop : Nat) (before after : SystemContext) : Prop :=
  before.size = after.size ∧ ∀ offset pieces, PiecesAt before offset pieces →
    offset + pieces.flatten.length ≤ stop → PiecesAt after offset pieces

theorem ItemAt.keep {stop : Nat} {before after : SystemContext} {response : ResponseInformation}
    {pieces : List (List UInt8)} {item : DataItem} (h : ItemAt before response pieces item)
    (hkeep : KeepsBefore stop before after) (hstop : item.data.offset + item.data.size ≤ stop) :
    ItemAt after response pieces item :=
  ⟨h.ident, h.key, h.size, hkeep.2 _ _ h.pieces (h.size ▸ hstop), hkeep.1 ▸ h.inside⟩

/-- The sets of an output context after more items. -/
def addItems (set : Option DataSet) (items : List DataItem) : Option DataSet :=
  set.map fun set => { set with buffers := set.buffers ++ items }

/-- An output context that is being filled. -/
structure Collecting (contextSize stop : Nat) (system : SystemContext)
    (responses bodies : Option DataSet) (context : Context) : Prop where
  context_eq : context.context = .system system
  system_size : system.size = contextSize
  size_eq : context.size = contextSize
  content_eq : context.content = [responses, bodies]
  occupation : Sequential contextSize stop context.occupation

theorem pushItem_zero (responses bodies : Option DataSet) (item : DataItem) :
    pushItem [responses, bodies] 0 item = .ok [addItems responses [item], bodies] := by
  cases responses with
  | none => rfl
  | some set => rfl

theorem pushItem_one (responses bodies : Option DataSet) (item : DataItem) :
    pushItem [responses, bodies] 1 item = .ok [responses, addItems bodies [item]] := by
  cases bodies with
  | none => rfl
  | some set => rfl

/-- The preamble and the body of a response at an offset. -/
def putResponse (system : SystemContext) (start : Nat) (response : ResponseInformation) :
    SystemContext :=
  (system.put start (.responseInformationStorage response.preamble) response.preamble.length).put
    (start + response.preamble.length) (.responseInformationStorage response.body) response.body.length

def responseItem (response : ResponseInformation) (start : Nat) : DataItem :=
  ⟨response.itemName, ⟨start, response.length⟩, response.itemKey⟩

def bodyItem (response : ResponseInformation) (start : Nat) : DataItem :=
  ⟨response.itemName, ⟨start + response.preamble.length,
    response.length - response.preamble.length⟩, response.itemKey⟩

section Write

variable {system : SystemContext} {response : ResponseInformation} {start : Nat}

theorem itemAt_body (hinside : start + response.length ≤ system.size) :
    ItemAt (putResponse system start response) response (bodyPieces response)
      (bodyItem response start) where
  ident := rfl
  key := rfl
  size := by
    rw [flatten_bodyPieces]
    exact Nat.add_sub_cancel_left ..
  pieces := by
    unfold bodyPieces
    by_cases hempty : response.body = []
    · rw [if_pos hempty]
      trivial
    · rw [if_neg hempty]
      refine ⟨hempty, ?_, trivial⟩
      rw [putResponse, bodyItem, get?_put, if_pos rfl]
  inside := by
    have hlength : response.length = response.preamble.length + response.body.length := rfl
    change start + response.preamble.length + (response.length - response.preamble.length) ≤ system.size
    omega

theorem itemAt_response (hpreamble : response.preamble ≠ [])
    (hinside : start + response.length ≤ system.size) :
    ItemAt (putResponse system start response) response (responsePieces response)
      (responseItem response start) where
  ident := rfl
  key := rfl
  size := by
    rw [flatten_responsePieces, List.length_append]
    rfl
  pieces := by
    have hpos := List.length_pos_iff.mpr hpreamble
    refine ⟨hpreamble, ?_, (itemAt_body hinside).pieces⟩
    rw [putResponse, responseItem, get?_put, if_neg (by dsimp only; omega), get?_put, if_pos rfl]
  inside := hinside

theorem keepsBefore_putResponse {stop : Nat} (hstop : stop ≤ start) :
    KeepsBefore stop system (putResponse system start response) := by
  refine ⟨rfl, fun offset pieces hpieces hend => ?_⟩
  exact (hpieces.put (by omega)).put (by omega)

variable {contextSize stop : Nat} {responseSet bodySet : Option DataSet} {context : Context}
  (h : Collecting contextSize stop system responseSet bodySet context)
include h

theorem responseWrite_eq {occupation : List Position}
    (hspace : getFreeSpace .checked contextSize context.occupation response.length 128
      = .ok (start, occupation)) (hlimit : start + response.length < Usize.limit) :
    responseWrite context response = .ok { context with
      context := .system (putResponse system start response)
      content := [addItems responseSet [responseItem response start],
        addItems bodySet [bodyItem response start]]
      occupation } := by
  have hlength : response.preamble.length + response.body.length = response.length := rfl
  rw [responseWrite, Usize.add_eq_ok (by omega), ok_bind, hlength, h.size_eq, hspace, ok_bind]
  dsimp only
  rw [Usize.add_eq_ok (by omega), ok_bind, h.context_eq]
  dsimp only
  rw [systemContextWriteFromBytes, if_neg (not_not.mpr rfl), pure_bind, systemContextWriteFromBytes,
    if_neg (not_not.mpr rfl), pure_bind, pure_bind, h.content_eq, pushItem_zero, ok_bind, pushItem_one,
    ok_bind]
  rfl

theorem responseWrite_step (hlimit : contextSize + 1 < Usize.limit) (hpreamble : response.preamble ≠ [])
    (hfits : nextStart stop + response.length ≤ contextSize) :
    ∃ context', responseWrite context response = .ok context'
      ∧ Collecting contextSize (nextStart stop + response.length)
        (putResponse system (nextStart stop) response)
        (addItems responseSet [responseItem response (nextStart stop)])
        (addItems bodySet [bodyItem response (nextStart stop)]) context' := by
  have hpos := List.length_pos_iff.mpr hpreamble
  have hlength : response.preamble.length + response.body.length = response.length := rfl
  obtain ⟨occupation, hspace, hsequential⟩ :=
    getFreeSpace_sequential hlimit (show 0 < response.length by omega) h.occupation hfits
  exact ⟨_, responseWrite_eq h hspace (by omega), rfl, h.system_size, h.size_eq, rfl, hsequential⟩

theorem fits_of_responseWrite (hpreamble : response.preamble ≠ []) {context' : Context}
    (hok : responseWrite context response = .ok context') :
    nextStart stop + response.length ≤ contextSize := by
  have hpos := List.length_pos_iff.mpr hpreamble
  obtain ⟨responseLen, hadd, hok⟩ := (bind_eq_ok_iff _ _ _).mp hok
  obtain ⟨-, rfl⟩ := Usize.add_eq_ok_iff.mp hadd
  obtain ⟨found, hspace, -⟩ := (bind_eq_ok_iff _ _ _).mp hok
  rw [h.size_eq] at hspace
  have hlength : 0 < response.preamble.length + response.body.length := by omega
  exact fits_of_getFreeSpace hlength h.occupation hspace

end Write

/-- What all responses add to an output context. -/
structure Collected (before after : SystemContext) (stop : Nat) (responses : List ResponseInformation)
    (items bodyItems : List DataItem) : Prop where
  kept : KeepsBefore stop before after
  items : List.Forall₂ (fun response item => ItemAt after response (responsePieces response) item)
    responses items
  bodies : List.Forall₂ (fun response item => ItemAt after response (bodyPieces response) item)
    responses bodyItems

theorem addItems_nil (set : Option DataSet) : addItems set [] = set := by
  cases set with
  | none => rfl
  | some set => simp [addItems]

theorem addItems_addItems (set : Option DataSet) (front back : List DataItem) :
    addItems (addItems set front) back = addItems set (front ++ back) := by
  cases set with
  | none => rfl
  | some set => simp [addItems]

theorem responses_collected {contextSize stop : Nat} (hlimit : contextSize + 1 < Usize.limit)
    {responses : List ResponseInformation} (hpreamble : ∀ response ∈ responses, response.preamble ≠ [])
    (hfits : ResponsesFit contextSize stop responses) {system : SystemContext}
    {responseSet bodySet : Option DataSet} {context : Context}
    (h : Collecting contextSize stop system responseSet bodySet context) :
    ∃ context' system' items bodyItems stop', responses.foldlM responseWrite context = .ok context'
      ∧ Collecting contextSize stop' system' (addItems responseSet items) (addItems bodySet bodyItems)
        context'
      ∧ Collected system system' stop responses items bodyItems := by
  induction responses generalizing stop system responseSet bodySet context with
  | nil =>
    refine ⟨context, system, [], [], stop, rfl, ?_, ⟨rfl, fun _ _ hpieces _ => hpieces⟩, .nil, .nil⟩
    rw [addItems_nil, addItems_nil]
    exact h
  | cons response responses ih =>
    obtain ⟨hfirst, hrest⟩ := List.forall_mem_cons.mp hpreamble
    obtain ⟨hfit, hfits⟩ := hfits
    obtain ⟨context₁, hwrite, hcollecting⟩ := responseWrite_step h hlimit hfirst hfit
    obtain ⟨context', system', items, bodyItems, stop', hloop, hdone, hcollected⟩ :=
      ih hrest hfits hcollecting
    have hinside : nextStart stop + response.length ≤ system.size := by
      rw [h.system_size]
      exact hfit
    have hle := le_nextStart stop
    have hlength : response.preamble.length + response.body.length = response.length := rfl
    rw [addItems_addItems, addItems_addItems] at hdone
    refine ⟨context', system', _, _, stop', ?_, hdone, ?_, ?_, ?_⟩
    · rw [List.foldlM_cons, hwrite, ok_bind, hloop]
    · obtain ⟨hsize, hkeep⟩ := hcollected.kept
      obtain ⟨hsize₁, hkeep₁⟩ : KeepsBefore stop system (putResponse system (nextStart stop) response) :=
        keepsBefore_putResponse hle
      exact ⟨hsize₁.trans hsize, fun offset pieces hpieces hend =>
        hkeep _ _ (hkeep₁ _ _ hpieces hend) (by omega)⟩
    · refine .cons ((itemAt_response hfirst hinside).keep hcollected.kept ?_) hcollected.items
      exact Nat.le_refl _
    · refine .cons ((itemAt_body hinside).keep hcollected.kept ?_) hcollected.bodies
      change nextStart stop + response.preamble.length + (response.length - response.preamble.length) ≤ _
      omega

theorem responsesFit_of_foldlM {contextSize stop : Nat} (hlimit : contextSize + 1 < Usize.limit)
    {responses : List ResponseInformation} (hpreamble : ∀ response ∈ responses, response.preamble ≠ [])
    {system : SystemContext} {responseSet bodySet : Option DataSet} {context context' : Context}
    (h : Collecting contextSize stop system responseSet bodySet context)
    (hok : responses.foldlM responseWrite context = .ok context') :
    ResponsesFit contextSize stop responses := by
  induction responses generalizing stop system responseSet bodySet context with
  | nil => trivial
  | cons response responses ih =>
    obtain ⟨hfirst, hrest⟩ := List.forall_mem_cons.mp hpreamble
    rw [List.foldlM_cons] at hok
    obtain ⟨context₁, hwrite, hok⟩ := (bind_eq_ok_iff _ _ _).mp hok
    have hfit := fits_of_responseWrite h hfirst hwrite
    obtain ⟨context₂, hwrite', hcollecting⟩ := responseWrite_step h hlimit hfirst hfit
    obtain rfl : context₁ = context₂ := Except.ok.inj (hwrite.symm.trans hwrite')
    exact ⟨hfit, ih hrest hcollecting hok⟩

section Output

variable {contextSize : Nat} {outputSetNames : List String} {responses : List ResponseInformation}

theorem collecting_new (contextSize : Nat) (outputSetNames : List String) :
    Collecting contextSize 0 ⟨OrderedMap.empty, contextSize⟩ (outputSet outputSetNames "response")
      (outputSet outputSetNames "body")
      { Context.new (.system ⟨OrderedMap.empty, contextSize⟩) contextSize with
        content := [outputSet outputSetNames "response", outputSet outputSetNames "body"] } where
  context_eq := rfl
  system_size := rfl
  size_eq := rfl
  content_eq := rfl
  occupation := sequential_cleared contextSize

variable (hlimit : contextSize + 1 < Usize.limit)
  (hpreamble : ∀ response ∈ responses, response.preamble ≠ []) (hnames : outputSetNames ≠ [])
include hlimit hpreamble hnames

/-- The output context with one item of each response in each of its sets. -/
theorem responsesWrite_collected (hfits : ResponsesFit contextSize 0 responses) :
    ∃ context system items bodyItems stop, responsesWrite contextSize outputSetNames responses = .ok context
      ∧ Collecting contextSize stop system (addItems (outputSet outputSetNames "response") items)
        (addItems (outputSet outputSetNames "body") bodyItems) context
      ∧ List.Forall₂ (fun response item => ItemAt system response (responsePieces response) item)
        responses items
      ∧ List.Forall₂ (fun response item => ItemAt system response (bodyPieces response) item)
        responses bodyItems := by
  obtain ⟨context, system, items, bodyItems, stop, hloop, hcollecting, hcollected⟩ :=
    responses_collected hlimit hpreamble hfits (collecting_new contextSize outputSetNames)
  refine ⟨context, system, items, bodyItems, stop, ?_, hcollecting, hcollected.items, hcollected.bodies⟩
  rw [responsesWrite, if_neg (by simpa using hnames)]
  exact hloop

theorem responsesFit_of_responsesWrite {context : Context}
    (hok : responsesWrite contextSize outputSetNames responses = .ok context) :
    ResponsesFit contextSize 0 responses := by
  rw [responsesWrite, if_neg (by simpa using hnames)] at hok
  exact responsesFit_of_foldlM hlimit hpreamble (collecting_new contextSize outputSetNames) hok

end Output

/-! ## Transfers of an item -/

/-- A system context with consecutive pieces from an offset on. -/
structure CarriesPieces (context : Context) (offset : Nat) (pieces : List (List UInt8)) : Prop where
  exists_system : ∃ system, context.context = .system system ∧ system.size = context.size
    ∧ PiecesAt system offset pieces
  size_lt : context.size < Usize.limit
  inside : offset + pieces.flatten.length ≤ context.size

/-- A read of the whole range gives the bytes. -/
def ReadsBack (context : ContextType) (offset : Nat) (bytes : List UInt8) : Prop :=
  ∀ buffer, buffer.length = bytes.length → context.read offset buffer = (bytes, .ok ())

/-- Bytes of a system context that arrive wherever they are transferred to. On a KVM context the
transfer fails only if a read from one of its items does, and the transfer piece by piece
does the same as the one chunk by chunk. -/
structure Arrives (source : Context) (offset : Nat) (bytes : List UInt8) : Prop where
  system : ∀ (destination : SystemContext) destinationOffset, destination.size < Usize.limit →
    destinationOffset + bytes.length ≤ destination.size →
    ∃ after, transferMemory (.system destination) source destinationOffset offset bytes.length
        = (.system after, .ok ())
      ∧ ReadsBack (.system after) destinationOffset bytes
  byteBacked : ∀ wrap, ByteBacked wrap → ∀ storage destinationOffset, storage.length < Usize.limit →
    destinationOffset + bytes.length ≤ storage.length →
    ∃ after, transferMemory (.stored (wrap storage)) source destinationOffset offset bytes.length
        = (.stored (wrap after), .ok ())
      ∧ ReadsBack (.stored (wrap after)) destinationOffset bytes
  kvm : ∀ (destination : KvmContext) destinationOffset, destination.Valid →
    destinationOffset + bytes.length ≤ destination.storage.length →
    ∃ after result, transferMemory (.stored (.kvm destination)) source destinationOffset offset
        bytes.length = (.stored (.kvm after), result)
      ∧ Returns result
      ∧ (result = .ok () → ReadsBack (.stored (.kvm after)) destinationOffset bytes)
      ∧ (KvmContext.Solid destination.overlay → result = .ok ())
      ∧ ∀ system, source.context = .system system →
        exec (outOfSystemContextTransfer system destinationOffset offset bytes.length) (.kvm destination)
          = (result, .kvm after)

section Transfer

variable {source : Context} {offset : Nat} {pieces : List (List UInt8)}
  (h : CarriesPieces source offset pieces)
include h

theorem CarriesPieces.onward (system : SystemContext) {destinationOffset : Nat}
    (hlimit : destinationOffset + pieces.flatten.length < Usize.limit) :
    ∃ after, transferMemory (.system system) source destinationOffset offset pieces.flatten.length
        = (.system after, .ok ())
      ∧ after.size = system.size ∧ PiecesAt after destinationOffset pieces := by
  obtain ⟨sourceSystem, hcontext, -, hpieces⟩ := h.exists_system
  have hsource := h.inside
  have hsize := h.size_lt
  obtain ⟨after, hexec, hafter, hput⟩ :=
    systemContextTransfer_pieces system hpieces (by omega) hlimit
  refine ⟨after, ?_, hafter, hput⟩
  unfold transferMemory
  rw [hcontext]
  dsimp only
  rw [hexec]

theorem CarriesPieces.arrives_byteBacked {wrap : List UInt8 → DataContext} (hwrap : ByteBacked wrap)
    {storage : List UInt8} {destinationOffset : Nat} (hlimit : storage.length < Usize.limit)
    (hfits : destinationOffset + pieces.flatten.length ≤ storage.length) :
    transferMemory (.stored (wrap storage)) source destinationOffset offset pieces.flatten.length
      = (.stored (wrap (KvmContext.copyInto storage destinationOffset pieces.flatten)), .ok ()) := by
  obtain ⟨system, hcontext, -, hpieces⟩ := h.exists_system
  have hsource := h.inside
  have hsize := h.size_lt
  have hout : exec (outOfSystemContextTransfer system destinationOffset offset pieces.flatten.length)
      (wrap storage) = (.ok (), wrap (KvmContext.copyInto storage destinationOffset pieces.flatten)) := by
    rw [outOfSystemContextTransfer_eq hpieces (by omega) (by omega)]
    exact exec_writePieces hwrap hlimit hfits
  unfold transferMemory
  rw [hcontext]
  cases hwrap with
  | malloc =>
    dsimp only
    rw [hout]
  | mmu =>
    dsimp only
    rw [hout]

theorem CarriesPieces.arrives_kvm {destination : KvmContext} {destinationOffset : Nat}
    (hvalid : destination.Valid)
    (hfits : destinationOffset + pieces.flatten.length ≤ destination.storage.length) :
    ∃ after result, transferMemory (.stored (.kvm destination)) source destinationOffset offset
        pieces.flatten.length = (.stored (.kvm after), result)
      ∧ exec (eachPiece KvmContext.writeBytes destinationOffset pieces) destination = (result, after) := by
  obtain ⟨system, hcontext, hsize, hpieces⟩ := h.exists_system
  have hsource := h.inside
  have hlimit := h.size_lt
  have hend := KvmContext.lt_limit hvalid.paged hfits
  have hchunks : KvmContext.copyChunks (system.toRef source.size) offset destinationOffset
      pieces.flatten.length = eachPiece KvmContext.writeBytes destinationOffset pieces :=
    copyLoop_eq hpieces (Nat.zero_add _) (Nat.le_refl _) (by omega) (by omega)
  have hall : exec (KvmContext.transferAll (.other (system.toRef source.size)) destinationOffset offset
      pieces.flatten.length) destination
        = exec (eachPiece KvmContext.writeBytes destinationOffset pieces) destination := by
    have hin : ¬ (TransferSource.other (system.toRef source.size)).toRef.size
        < offset + pieces.flatten.length := Nat.not_lt.mpr hsource
    rw [KvmContext.transferAll, Usize.add_eq_ok (by omega), exec_lift_ok_bind, if_neg hin,
      Usize.add_eq_ok hend, exec_lift_ok_bind, exec_get_bind, if_neg (by omega), ← hchunks]
  refine ⟨_, _, ?_, rfl⟩
  unfold transferMemory
  rw [hcontext]
  dsimp only
  rw [KvmContext.transferInto, hall]
  rfl

theorem CarriesPieces.arrives : Arrives source offset pieces.flatten where
  system := by
    intro destination destinationOffset hlimit hfits
    have hend : destinationOffset + pieces.flatten.length < Usize.limit := by omega
    obtain ⟨after, hmove, hsize, hpieces⟩ := h.onward destination hend
    refine ⟨after, hmove, fun buffer hbuffer => ?_⟩
    exact read_pieces hpieces hbuffer.symm (by omega) (by omega)
  byteBacked := by
    intro wrap hwrap storage destinationOffset hlimit hfits
    refine ⟨_, h.arrives_byteBacked hwrap hlimit hfits, fun buffer hbuffer => ?_⟩
    have hlength := KvmContext.length_copyInto hfits
    change (wrap _).read destinationOffset buffer = _
    rw [hwrap.read_eq, readStorage_eq (by omega) (by omega), hbuffer, KvmContext.take_drop_copyInto hfits]
  kvm := by
    intro destination destinationOffset hvalid hfits
    obtain ⟨after, result, hmove, hexec⟩ := h.arrives_kvm hvalid hfits
    obtain ⟨system, hcontext, hsize, hpieces⟩ := h.exists_system
    have hsource := h.inside
    have hlimit := h.size_lt
    have hend := KvmContext.lt_limit hvalid.paged hfits
    have hruns : Runs (eachPiece KvmContext.writeBytes (destinationOffset + ([] : List UInt8).length)
        pieces) destination _ _ :=
      KvmContext.eachPiece_runs hpieces.ne_nil rfl hfits (KvmContext.copied_zero hvalid _ _ _) id
    unfold Runs at hruns
    rw [List.length_nil, Nat.add_zero, hexec] at hruns
    refine ⟨after, result, hmove, ?_, ?_, ?_, ?_⟩
    · cases result with
      | ok value => exact returns_ok value
      | error stop =>
        obtain ⟨e, rfl⟩ := hruns.1
        exact returns_fail e
    · rintro rfl buffer hbuffer
      exact KvmContext.Copied.read_eq hruns hbuffer hfits
    · intro hsolid
      cases result with
      | ok value => rfl
      | error stop => exact absurd hsolid hruns.2
    · intro system' hcontext'
      obtain rfl : system = system' := ContextType.system.inj (hcontext.symm.trans hcontext')
      rw [outOfSystemContextTransfer_eq hpieces (by omega) hend, exec_eachPiece_kvm, hexec]
      rfl

end Transfer

/-- From one context, a range goes to an offset of another one through any number of system
contexts. -/
inductive Forwarded (source : Context) (offset size : Nat) : Context → Nat → Prop
  | here : Forwarded source offset size source offset
  | onward {current destination : Context} {system : SystemContext} {after : ContextType}
      {place destinationOffset : Nat} (h : Forwarded source offset size current place)
      (hsystem : destination.context = .system system) (hsize : system.size = destination.size)
      (hlimit : destination.size < Usize.limit) (hfits : destinationOffset + size ≤ destination.size)
      (hmove : transferMemory destination.context current destinationOffset place size
        = (after, .ok ())) :
      Forwarded source offset size { destination with context := after } destinationOffset

theorem CarriesPieces.forwarded {source current : Context} {offset place : Nat} {pieces : List (List UInt8)}
    (h : CarriesPieces source offset pieces)
    (hforwarded : Forwarded source offset pieces.flatten.length current place) :
    CarriesPieces current place pieces := by
  induction hforwarded with
  | here => exact h
  | onward _ hsystem hsize hlimit hfits hmove ih =>
    rename_i destination system after _ destinationOffset _
    obtain ⟨system', hmove', hsize', hpieces⟩ := ih.onward system (show destinationOffset + _ < _ by omega)
    rw [hsystem, hmove'] at hmove
    obtain ⟨rfl, -⟩ := Prod.mk.inj hmove
    exact ⟨⟨system', rfl, hsize'.trans hsize, hpieces⟩, hlimit, hfits⟩

/-- An item of a response that arrives as the bytes it stands for, also after it has gone through
system contexts. -/
structure Delivers (context : Context) (bytes : List UInt8) (response : ResponseInformation)
    (item : DataItem) : Prop where
  ident : item.ident = response.itemName
  key : item.key = response.itemKey
  size : item.data.size = bytes.length
  arrives : ∀ current place, Forwarded context item.data.offset item.data.size current place →
    Arrives current place bytes

theorem ItemAt.carries {contextSize stop : Nat} {system : SystemContext}
    {responseSet bodySet : Option DataSet} {context : Context} {response : ResponseInformation}
    {pieces : List (List UInt8)} {item : DataItem} (h : ItemAt system response pieces item)
    (hcontext : Collecting contextSize stop system responseSet bodySet context)
    (hlimit : contextSize + 1 < Usize.limit) : CarriesPieces context item.data.offset pieces where
  exists_system := ⟨system, hcontext.context_eq, hcontext.system_size.trans hcontext.size_eq.symm, h.pieces⟩
  size_lt := by
    rw [hcontext.size_eq]
    omega
  inside := by
    rw [hcontext.size_eq, ← hcontext.system_size, ← h.size]
    exact h.inside

theorem ItemAt.delivers {contextSize stop : Nat} {system : SystemContext}
    {responseSet bodySet : Option DataSet} {context : Context} {response : ResponseInformation}
    {pieces : List (List UInt8)} {item : DataItem} (h : ItemAt system response pieces item)
    (hcontext : Collecting contextSize stop system responseSet bodySet context)
    (hlimit : contextSize + 1 < Usize.limit) : Delivers context pieces.flatten response item where
  ident := h.ident
  key := h.key
  size := h.size
  arrives := by
    intro current place hforwarded
    rw [h.size] at hforwarded
    exact ((h.carries hcontext hlimit).forwarded hforwarded).arrives

/-- The set that an output context has under a name it was asked for. -/
theorem addItems_outputSet {outputSetNames : List String} {name : String} (h : name ∈ outputSetNames)
    (items : List DataItem) : addItems (outputSet outputSetNames name) items = some ⟨name, items⟩ := by
  rw [outputSet, if_pos h]
  rfl

/-- The responses of a request arrive complete: each set that was asked for has one item for each
response, in order, and it arrives as preamble and body, or as body. -/
theorem responses_arrive {contextSize : Nat} (outputSetNames : List String)
    {responses : List ResponseInformation} (hlimit : contextSize + 1 < Usize.limit)
    (hpreamble : ∀ response ∈ responses, response.preamble ≠ [])
    (hfits : ResponsesFit contextSize 0 responses) :
    ∃ context, responsesWrite contextSize outputSetNames responses = .ok context
      ∧ ("response" ∈ outputSetNames → ∃ items, context.content[0]? = some (some ⟨"response", items⟩)
        ∧ List.Forall₂ (fun response item =>
          Delivers context (response.preamble ++ response.body) response item) responses items)
      ∧ ("body" ∈ outputSetNames → ∃ items, context.content[1]? = some (some ⟨"body", items⟩)
        ∧ List.Forall₂ (fun response item => Delivers context response.body response item)
          responses items) := by
  by_cases hnames : outputSetNames = []
  · rw [hnames]
    exact ⟨_, rfl, fun hmem => absurd hmem List.not_mem_nil, fun hmem => absurd hmem List.not_mem_nil⟩
  · obtain ⟨context, system, items, bodyItems, stop, hok, hcontext, hitems, hbodies⟩ :=
      responsesWrite_collected hlimit hpreamble hnames hfits
    refine ⟨context, hok, fun hmem => ⟨items, ?_, ?_⟩, fun hmem => ⟨bodyItems, ?_, ?_⟩⟩
    · rw [hcontext.content_eq, addItems_outputSet hmem]
      rfl
    · refine hitems.imp fun response item h => ?_
      have hdelivers := h.delivers hcontext hlimit
      rwa [flatten_responsePieces] at hdelivers
    · rw [hcontext.content_eq, addItems_outputSet hmem]
      rfl
    · refine hbodies.imp fun response item h => ?_
      have hdelivers := h.delivers hcontext hlimit
      rwa [flatten_bodyPieces] at hdelivers

/-- Two responses, the first of which ends at the offset where the second starts and has an empty
body. -/
theorem adjacentResponses_arrive :
    ResponsesFit 512 0 [⟨"first", 0, List.replicate 128 1, []⟩, ⟨"second", 1, [10], [2, 3]⟩]
      ∧ ∃ context, responsesWrite 512 ["response", "body"]
          [⟨"first", 0, List.replicate 128 1, []⟩, ⟨"second", 1, [10], [2, 3]⟩] = .ok context
        ∧ ∃ items, context.content[1]? = some (some ⟨"body", items⟩) ∧ items.length = 2 := by
  have hfits : ResponsesFit 512 0 [⟨"first", 0, List.replicate 128 1, []⟩, ⟨"second", 1, [10], [2, 3]⟩] := by
    simp [ResponsesFit, nextStart, ResponseInformation.length]
  obtain ⟨context, hok, -, hbodies⟩ :=
    responses_arrive ["response", "body"] (by decide) (by simp) hfits
  obtain ⟨items, hcontent, hitems⟩ := hbodies (by decide)
  exact ⟨hfits, context, hok, items, hcontent, hitems.length_eq.symm⟩

end Dandelion
