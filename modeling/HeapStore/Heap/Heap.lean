import HeapStore.Placement.Append
import HeapStore.Placement.Bucket
import HeapStore.Recovery.Rebuild

/-! The heap: record operations over a placement and three paged files, the
commit order, and opening with recovery. -/
namespace HeapStore

/-- An open heap. -/
structure Heap (P : Type) where
  placed : Placed P
  operationsSinceSync : Nat

abbrev HeapM (P : Type) := EStateM Failure (Heap P)

structure RecoveryReport where
  rebuilt : Bool
  restoredSlots : Nat
  rebuild : WalkStats

def WalkStats.none : WalkStats := ⟨0, 0, 0, 0⟩

namespace Heap

variable {P : Type} [Placement P]

def store (h : Heap P) : Store := h.placed.store

def placement (h : Heap P) : P := h.placed.placement

/-- The data file as a heap with this placement and configuration uses it. -/
def dataFile (P : Type) [Placement P] (config : HeapConfig) : DataFile :=
  ⟨Placement.withBucket P, config.integrity⟩

def onPlaced {α : Type} (x : PlaceM P α) : HeapM P α :=
  Effect.zoom Heap.placed (fun placed h => { h with placed }) x

def onStore {α : Type} (x : StoreM α) : HeapM P α := onPlaced (Placed.onStore x)

/-- Open the three files of an existing store. -/
def openFiles (P : Type) [Placement P] : StoreM Unit := do
  PagedFile.open .data 'D'.toUInt8 (Placement.layout P)
  PagedFile.open .index 'I'.toUInt8 (Placement.layout P)
  if Placement.withBucket P then PagedFile.open .registry 'R'.toUInt8 (Placement.layout P)
  else return ()

def createFiles (P : Type) [Placement P] : StoreM Unit := do
  PagedFile.create .data 'D'.toUInt8 (Placement.layout P)
  PagedFile.create .index 'I'.toUInt8 (Placement.layout P)
  if Placement.withBucket P then PagedFile.create .registry 'R'.toUInt8 (Placement.layout P)
  else return ()

def fileExists (n : FileName) : StoreM Bool := fun s => .ok (s.disk n).isSome s

/-- The file is missing or its header is not accepted. -/
def metadataIsBroken (P : Type) [Placement P] (n : FileName) (kind : UInt8) : StoreM Bool := do
  let present ← fileExists n
  if present then do
    let opened ← attempt (PagedFile.open n kind (Placement.layout P))
    return opened.isNone
  else return true

/-- Whether the index, or in the bucket layout the registry, has to be rebuilt. -/
def needsRebuild (P : Type) [Placement P] : StoreM Bool := do
  let indexIsBroken ← metadataIsBroken P .index 'I'.toUInt8
  if indexIsBroken then return true
  else if Placement.withBucket P then metadataIsBroken P .registry 'R'.toUInt8
  else return false

/-- Rebuild the metadata under an open data handle, which is kept. -/
def rebuildUnderData (P : Type) [Placement P] (order : HashOrder) (config : HeapConfig) :
    StoreM WalkStats := do
  let data ← getPaged .data
  let stats ← HeapStore.rebuild order (Placement.layout P) config.integrity config
  modifyPaged .data fun _ => data
  PagedFile.open .index 'I'.toUInt8 (Placement.layout P)
  if Placement.withBucket P then do
    PagedFile.open .registry 'R'.toUInt8 (Placement.layout P)
    return stats
  else return stats

/-- The second and last try to open the placement, from rebuilt metadata. -/
def reopenRebuilt (P : Type) [Placement P] (order : HashOrder) (config : HeapConfig) :
    StoreM (P × RecoveryReport) := do
  let stats ← rebuildUnderData P order config
  let (placement, restored) ← Placement.open (P := P) order config false
  return (placement, ⟨true, restored, stats⟩)

/-- Open the placement; corrupt metadata is rebuilt once. -/
def openPlacement (order : HashOrder) (config : HeapConfig) (created : Bool)
    (report : RecoveryReport) : StoreM (P × RecoveryReport) := fun s =>
  match Placement.open (P := P) order config created s with
  | .ok (placement, restored) t => .ok (placement, { report with restoredSlots := restored }) t
  | .error (.error (.corrupt what offset)) t =>
      if !created && !report.rebuilt then reopenRebuilt P order config t
      else .error (.error (.corrupt what offset)) t
  | .error e t => .error e t

/-- Open a store that exists, after rebuilding broken metadata. -/
def openExisting (P : Type) [Placement P] (order : HashOrder) (config : HeapConfig) :
    StoreM RecoveryReport := do
  let broken ← needsRebuild P
  if broken then do
    let stats ← HeapStore.rebuild order (Placement.layout P) config.integrity config
    openFiles P
    return ⟨true, 0, stats⟩
  else do
    openFiles P
    return ⟨false, 0, .none⟩

def «open» (P : Type) [Placement P] (order : HashOrder) (config : HeapConfig) :
    StoreM (P × RecoveryReport) := do
  let present ← fileExists .data
  if present then do
    let report ← openExisting P order config
    openPlacement order config false report
  else do
    createFiles P
    openPlacement order config true ⟨false, 0, .none⟩

def flushPending (n : FileName) : StoreM Unit := do
  let pf ← getPaged n
  if pf.hasPending then do
    PagedFile.flush n
    sync n
  else return ()

def commitRegistry (P : Type) [Placement P] : StoreM Unit :=
  if Placement.withBucket P then flushPending .registry else return ()

/-- Registry, then data, each synced, before the index is written. -/
def commitFiles (P : Type) [Placement P] : StoreM Unit := do
  commitRegistry P
  PagedFile.flush .data
  sync .data
  PagedFile.flush .index

def commit : HeapM P Unit := onStore (commitFiles P)

def pendingBytes : HeapM P Nat := fun h =>
  .ok ((h.store.paged .data).pendingBytes + (h.store.paged .index).pendingBytes) h

def afterWrite (config : HeapConfig) : HeapM P Unit := do
  modify fun h => { h with operationsSinceSync := (h.operationsSinceSync + 1) % 2 ^ 32 }
  let h ← get
  let due := match config.syncPolicy with
    | .everyN syncInterval =>
        decide (0 < syncInterval) && decide (h.operationsSinceSync % syncInterval = 0)
    | .none => false
  if due then commit
  else do
    let pending ← pendingBytes
    if config.pendingLimit < pending then commit else return ()

def insertInto (config : HeapConfig) (bucket : Nat) (payload : Bytes) : HeapM P Nat := do
  let d := dataFile P config
  let total := d.recordHeaderLen + payload.length
  let (off, id) ← onPlaced (Placement.alloc config bucket total)
  onStore (d.stageRecord off bucket id 1 payload)
  onStore (IndexFile.stageSlot id (some ⟨off, total⟩))
  afterWrite config
  return id

def insert (config : HeapConfig) (payload : Bytes) : HeapM P Nat := insertInto config 0 payload

/-- The live slot of a number. -/
def liveSlot (id : Nat) : HeapM P Slot := do
  let slot ← onStore (IndexFile.readSlot id)
  match slot with
  | some slot => return slot
  | none => throw (.error (.notFound id))

def read (config : HeapConfig) (id : Nat) : HeapM P Bytes := do
  let slot ← liveSlot id
  let (_, payload) ← onStore ((dataFile P config).readRecord slot.offset slot.totalLen id)
  return payload

/-- The read items of a batch; the first number without a live slot ends it. -/
def batchItems : List (Nat × Option Slot) → HeapM P (List DataFile.ReadItem)
  | [] => return []
  | (id, slot) :: rest =>
      match slot with
      | none => throw (.error (.notFound id))
      | some slot => do
          let items ← batchItems rest
          return ⟨slot.offset, slot.totalLen, id⟩ :: items

def readBatch (config : HeapConfig) (ids : List Nat) : HeapM P (List Bytes) := do
  let slots ← onStore (IndexFile.readSlots ids)
  let items ← batchItems (ids.zip slots)
  onStore ((dataFile P config).readMany items)

def update (config : HeapConfig) (id : Nat) (payload : Bytes) : HeapM P Unit := do
  let d := dataFile P config
  let slot ← liveSlot id
  let old ← onStore (d.readHeader slot.offset id)
  let total := d.recordHeaderLen + payload.length
  let off ← onPlaced (Placement.allocUpdate config old.bucket total)
  onStore (d.stageRecord off old.bucket id ((old.version + 1) % 2 ^ 16) payload)
  onStore (IndexFile.stageSlot id (some ⟨off, total⟩))
  afterWrite config

def delete (config : HeapConfig) (id : Nat) : HeapM P Unit := do
  let old ← liveSlot id
  onStore (IndexFile.stageTombstone id old)
  afterWrite config

def flushFiles (P : Type) [Placement P] : StoreM Unit := do
  commitFiles P
  PagedFile.flush .index
  sync .index
  if Placement.withBucket P then sync .registry else return ()

def flush : HeapM P Unit := onStore (flushFiles P)

/-- The process ends without a flush: handles are gone, issued writes stay. -/
def simulateCrash (h : Heap P) : Store := { h.store with paged := fun _ => .fresh }

/-- Dropping a heap flushes it, whatever the flush returns. -/
def close (h : Heap P) : Store := simulateCrash (Effect.final flush h)

end Heap

end HeapStore
