import HeapStore.Recovery.Restore

/-! Append placement: records lie in allocation order behind one cursor. -/
namespace HeapStore

structure AppendPlacement where
  cursor : Nat
  nextId : Nat

namespace AppendPlacement

open Placed

/-- The next free record number and the greatest record end that the slots name. -/
structure SlotScan where
  nextId : Nat
  maxEnd : Nat

def noteSlots : Nat → List Bytes → SlotScan → StoreM SlotScan
  | _, [], scan => return scan
  | id, chunk :: rest, scan =>
      match Slot.state chunk with
      | .live slot | .deleted slot => do
          let stop ← addU64 slot.offset slot.totalLen
          noteSlots (id + 1) rest ⟨id + 1, max scan.maxEnd stop⟩
      | .empty => noteSlots (id + 1) rest scan

/-- Read all slots, a chunk of the index file at a time. -/
def scanIndex (indexSize : Nat) : Nat → Nat → SlotScan → StoreM SlotScan
  | 0, _, scan => return scan
  | fuel + 1, offset, scan =>
      if offset < indexSize then do
        let chunkSize := min (indexSize - offset) (2 ^ 20)
        let (buffer, bufferOffset) ← PagedFile.readAligned .index offset chunkSize
        let scan ← noteSlots ((offset - PAGE) / SLOT_SIZE)
          (chunksExact SLOT_SIZE (field buffer bufferOffset chunkSize)) scan
        scanIndex indexSize fuel (offset + chunkSize) scan
      else return scan

/-- The records behind the cursor, up to the first damaged one. -/
structure Tail where
  found : List FoundRecord
  cursor : Nat

def tailVisitor (headerSize : Nat) : Visitor Tail := fun tail offset header payloadValid =>
  if payloadValid then
    (⟨tail.found ++ [.ofHeader headerSize offset header], offset + header.len + headerSize⟩, true)
  else (tail, false)

structure Restore where
  nextId : Nat
  restored : Nat
  updates : NewestTable

/-- Give consecutive new numbers their slots and collect the updates of old
ones, until a number leaves a gap. -/
def restoreTail : List FoundRecord → Restore → StoreM Restore
  | [], st => return st
  | f :: rest, st =>
      if f.id = st.nextId then do
        IndexFile.stageSlot f.id (some f.slot)
        restoreTail rest { st with nextId := st.nextId + 1, restored := st.restored + 1 }
      else if f.id < st.nextId then
        restoreTail rest { st with updates := keepNewest st.updates f }
      else return st

/-- Stage the newest found version of each updated number that supersedes its slot. -/
def restoreUpdates (d : DataFile) (updates : NewestTable) : List Nat → Nat → StoreM Nat
  | [], restored => return restored
  | id :: rest, restored =>
      match updates.lookup id with
      | none => restoreUpdates d updates rest restored
      | some f => do
          let state ← IndexFile.readSlotState id
          let newer ← supersedes d f state
          if newer then do
            IndexFile.stageSlot id (some f.slot)
            restoreUpdates d updates rest (restored + 1)
          else restoreUpdates d updates rest restored

def «open» (order : HashOrder) (config : HeapConfig) (created : Bool) :
    StoreM (AppendPlacement × Nat) :=
  if created then do
    PagedFile.ensureAlloc .data config.initialSize config.growth
    return (⟨PAGE, 0⟩, 0)
  else do
    let d : DataFile := ⟨false, config.integrity⟩
    let indexSize ← PagedFile.size .index
    let scan ← scanIndex indexSize indexSize PAGE ⟨0, PAGE⟩
    let dataEnd ← PagedFile.size .data
    let (_, tail) ← walk ⟨false, config.integrity, dataEnd, false⟩ scan.maxEnd
      (tailVisitor d.recordHeaderLen) ⟨[], scan.maxEnd⟩
    let st ← restoreTail tail.found ⟨scan.nextId, 0, ∅⟩
    let restored ← restoreUpdates d st.updates (order.order st.updates.keys) st.restored
    publishRestored restored
    let dataSize ← PagedFile.size .data
    PagedFile.noteAlloc .data dataSize
    return (⟨tail.cursor, st.nextId⟩, restored)

def allocUpdate (config : HeapConfig) (_bucket totalLen : Nat) : PlaceM AppendPlacement Nat := do
  let p ← getPlacement
  onStore (PagedFile.ensureAlloc .data (p.cursor + totalLen) config.growth)
  modifyPlacement fun p => { p with cursor := p.cursor + totalLen }
  return p.cursor

def alloc (config : HeapConfig) (bucket totalLen : Nat) : PlaceM AppendPlacement (Nat × Nat) := do
  let offset ← allocUpdate config bucket totalLen
  let p ← getPlacement
  modifyPlacement fun p => { p with nextId := p.nextId + 1 }
  return (offset, p.nextId)

instance : Placement AppendPlacement where
  withBucket := false
  layout := LAYOUT_APPEND
  «open» := AppendPlacement.open
  alloc := alloc
  allocUpdate := allocUpdate
  usedBytes p := p.cursor - PAGE

end AppendPlacement

end HeapStore
