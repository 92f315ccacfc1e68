import Dandelion.Bson

/-!
# The layout of requests and responses

Sets travel as an array of documents. A set has its identifier and the array of its items, an item
its identifier, its key and its data. A request names the function in front of the sets; a response
may have timestamps behind them.
-/

namespace Dandelion

open Bson

structure InputItem where
  identifier : String
  key : UInt32
  data : List UInt8
deriving DecidableEq, Repr

structure InputSet where
  identifier : String
  items : List InputItem
deriving DecidableEq, Repr

structure DandelionRequest where
  name : String
  sets : List InputSet
deriving DecidableEq, Repr

namespace Layout

def identifier : Name := ⟨"identifier", by decide⟩

def key : Name := ⟨"key", by decide⟩

def data : Name := ⟨"data", by decide⟩

def items : Name := ⟨"items", by decide⟩

def name : Name := ⟨"name", by decide⟩

def sets : Name := ⟨"sets", by decide⟩

def timestamps : Name := ⟨"timestamps", by decide⟩

end Layout

/-- The data is a binary of the generic subtype. -/
def InputItem.elements (item : InputItem) : Elements :=
  .cons Layout.identifier (.string item.identifier) <|
  .cons Layout.key (.int64 (.ofNat item.key.toNat)) <|
  .cons Layout.data (.binary 0 item.data) .nil

theorem bytes_key (key : UInt32) : (Value.int64 (.ofNat key.toNat)).bytes = leBytes 8 key.toNat := by
  have hlt := key.toNat_lt
  rw [Value.bytes]
  change leBytes 8 (BitVec.ofNat 64 key.toNat).toNat = _
  rw [BitVec.toNat_ofNat, Nat.mod_eq_of_lt (by omega)]

def InputSet.elements (set : InputSet) : Elements :=
  .cons Layout.identifier (.string set.identifier) <|
  .cons Layout.items (.array (.ofValues 0 (set.items.map (.document ·.elements)))) .nil

def setsValue (sets : List InputSet) : Value :=
  .array (.ofValues 0 (sets.map (.document ·.elements)))

def DandelionRequest.elements (request : DandelionRequest) : Elements :=
  .cons Layout.name (.string request.name) <| .cons Layout.sets (setsValue request.sets) .nil

def DandelionRequest.bytes (request : DandelionRequest) : List UInt8 := encode request.elements

end Dandelion
