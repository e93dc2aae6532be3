import HeapStore.Storage.PagedFile

/-! Slots in the index file: one per record number, at a fixed position. -/
namespace HeapStore

namespace IndexFile

/-- The position of a slot, as the checked arithmetic of the language computes it. -/
def slotOffset (id : Nat) : StoreM Nat :=
  if 2 ^ 64 ≤ id * SLOT_SIZE then throw (.panic "attempt to multiply with overflow")
  else addU64 PAGE (id * SLOT_SIZE)

/-- The sixteen bytes of an optional slot. -/
def slotBytes : Option Slot → Bytes
  | some slot => slot.encode
  | none => List.replicate SLOT_SIZE 0

def stageSlot (id : Nat) (slot : Option Slot) : StoreM Unit := do
  let off ← slotOffset id
  PagedFile.stage .index off [slotBytes slot]

def stageTombstone (id : Nat) (oldSlot : Slot) : StoreM Unit := do
  let off ← slotOffset id
  PagedFile.stage .index off [oldSlot.tombstone.encode]

def readSlotBytes (id : Nat) : StoreM Bytes := do
  let off ← slotOffset id
  let (buffer, bufferOffset) ← PagedFile.readAligned .index off SLOT_SIZE
  return field buffer bufferOffset SLOT_SIZE

def readSlotState (id : Nat) : StoreM SlotState := do
  let bytes ← readSlotBytes id
  return Slot.state bytes

def readSlot (id : Nat) : StoreM (Option Slot) := do
  let bytes ← readSlotBytes id
  return Slot.decode bytes

/-- Distinct page starts in ascending order, joined into adjacent ranges. -/
def addPage (groups : List (Nat × Nat)) (pageStart : Nat) : List (Nat × Nat) :=
  match groups.getLast? with
  | some group =>
      if pageStart = group.2 then groups.dropLast ++ [(group.1, group.2 + PAGE)]
      else groups ++ [(pageStart, pageStart + PAGE)]
  | none => groups ++ [(pageStart, pageStart + PAGE)]

def slotGroups (offsets : List Nat) : List (Nat × Nat) :=
  let pages := ((offsets.map pageDown).mergeSort fun a b => decide (a ≤ b)).dedup
  pages.foldl addPage []

/-- The slot at an offset, out of the buffer of the range that covers it. -/
def pickSlot (groups : List ((Nat × Nat) × Bytes)) (slotOffset : Nat) : Option Slot :=
  match groups.dropWhile fun group => decide (group.1.2 ≤ slotOffset) with
  | (group, buffer) :: _ => Slot.decode (field buffer (slotOffset - group.1) SLOT_SIZE)
  | [] => none

def slotOffsets : List Nat → StoreM (List Nat)
  | [] => return []
  | id :: rest => do
      let off ← slotOffset id
      let offs ← slotOffsets rest
      return off :: offs

def readSlots (ids : List Nat) : StoreM (List (Option Slot)) := do
  PagedFile.flush .index
  let offsets ← slotOffsets ids
  let groups := slotGroups offsets
  let buffers ← readVec .index (groups.map fun group => (group.1, group.2 - group.1))
  return offsets.map (pickSlot (groups.zip buffers))

end IndexFile

end HeapStore
