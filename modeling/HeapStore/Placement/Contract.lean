import HeapStore.Storage.PagedFile

/-! What a heap asks of a placement: where new records go, which numbers they
get, and how that knowledge is recovered when a store is opened. -/
namespace HeapStore

inductive SyncPolicy where
  | none
  | everyN (syncInterval : Nat)
  deriving DecidableEq, Repr

structure HeapConfig where
  syncPolicy : SyncPolicy
  integrity : Bool
  initialSize : Nat
  growth : Nat
  minExtent : Nat
  regionSlots : Nat
  pendingLimit : Nat

/-- The order in which a hash map with the given keys is iterated. It is not
specified, so every permutation of the keys has to be expected. -/
structure HashOrder where
  order : List Nat → List Nat
  perm : ∀ keys, (order keys).Perm keys

/-- A placement together with the store that it works on. -/
structure Placed (P : Type) where
  placement : P
  store : Store

abbrev PlaceM (P : Type) := EStateM Failure (Placed P)

namespace Placed

variable {P α : Type}

def onStore (x : StoreM α) : PlaceM P α :=
  Effect.zoom Placed.store (fun store s => { s with store }) x

def getPlacement : PlaceM P P := fun s => .ok s.placement s

def modifyPlacement (f : P → P) : PlaceM P Unit :=
  modify fun s => { s with placement := f s.placement }

end Placed

/-- The placement contract. `open` gets whether the store was just created and
also returns the count of restored slots. -/
class Placement (P : Type) where
  withBucket : Bool
  layout : UInt8
  «open» : HashOrder → HeapConfig → Bool → StoreM (P × Nat)
  alloc : HeapConfig → Nat → Nat → PlaceM P (Nat × Nat)
  allocUpdate : HeapConfig → Nat → Nat → PlaceM P Nat
  usedBytes : P → Nat

end HeapStore
