import HeapStore.Placement.BucketAlloc
import HeapStore.Recovery.Restore

/-! Opening a bucket store: the registry is replayed into extents and regions,
then each bucket recovers its used bytes and numbers from slots and records. -/
namespace HeapStore

namespace BucketPlacement

open Placed

/-- An allocator without buckets. -/
def fresh (config : HeapConfig) : BucketPlacement := ⟨[], 0, config.initialSize, 0, PAGE⟩

/-- Cut the first extent that contains a range down to the part before it. -/
def shrinkExtents (start stop : Nat) : List Extent → Option (List Extent)
  | [] => none
  | e :: rest =>
      if e.start ≤ start ∧ stop ≤ e.stop then some ({ e with size := start - e.start } :: rest)
      else (shrinkExtents start stop rest).map (e :: ·)

def shrinkStates (start stop : Nat) : List BucketState → List BucketState
  | [] => []
  | state :: rest =>
      match shrinkExtents start stop state.data with
      | some data => { state with data } :: rest
      | none => state :: shrinkStates start stop rest

/-- The position of the bucket of a row, which may be its first row. -/
def rowBucket (p : BucketPlacement) (bucket : Nat) : BucketPlacement × Nat :=
  match p.bucketIndices bucket with
  | some i => (p, i)
  | none => ({ p with states := p.states ++ [⟨bucket, [], []⟩] }, p.states.length)

def replayRow (p : BucketPlacement) (row : RegistryRow) : StoreM BucketPlacement := do
  let (p, i) := p.rowBucket row.bucket
  let p := { p with
    extentGrantCount := p.extentGrantCount + 1
    registryEnd := p.registryEnd + REGISTRY_ROW_SIZE }
  let extent : Extent := { start := row.start, size := row.size, used := 0 }
  if row.kind = 'D'.toUInt8 then do
    let stop ← addU64 row.start row.size
    let p := { p with
      states := shrinkStates row.start stop p.states
      fileSize := max p.fileSize stop }
    return p.modifyState i fun state => { state with data := state.data ++ [extent] }
  else if row.kind = 'S'.toUInt8 then do
    let stop ← addU64 row.start row.size
    let p := { p with nextRegion := max p.nextRegion stop }
    return p.modifyState i fun state => { state with slots := state.slots ++ [extent] }
  else throw (.error (.corrupt "registry row kind" p.registryEnd))

/-- Replay rows up to the first blank one. -/
def replayRows : List Bytes → BucketPlacement → StoreM BucketPlacement
  | [], p => return p
  | chunk :: rest, p =>
      match RegistryRow.decode chunk with
      | some row => do
          let p ← replayRow p row
          replayRows rest p
      | none =>
          if chunk.all (· == 0) then return p
          else throw (.error (.corrupt "registry row" p.registryEnd))

def replay (p : BucketPlacement) : StoreM BucketPlacement := do
  let registrySize ← PagedFile.size .registry
  if PAGE < registrySize then do
    let (buffer, bufferOffset) ← PagedFile.readAligned .registry PAGE (registrySize - PAGE)
    replayRows (chunksExact REGISTRY_ROW_SIZE (buffer.drop bufferOffset)) p
  else return p

abbrev KnownSlots := AList fun _ : Nat => SlotState

/-- Note the slots of one region that are not empty; the second result is the
end of the last one. -/
def noteRegion (start : Nat) : Nat → List Bytes → KnownSlots × Nat → KnownSlots × Nat
  | _, [], acc => acc
  | slotIndex, slotBytes :: rest, (known, lastUsed) =>
      match Slot.state slotBytes with
      | .empty => noteRegion start (slotIndex + 1) rest (known, lastUsed)
      | state => noteRegion start (slotIndex + 1) rest
          (known.insert (start + slotIndex) state, slotIndex + 1)

/-- Read the regions of a bucket. All but the last one count as used up. -/
def scanRegions : List Extent → KnownSlots → StoreM (List Extent × KnownSlots)
  | [], known => return ([], known)
  | region :: rest, known => do
      let off ← IndexFile.slotOffset region.start
      if 2 ^ 64 ≤ region.size * SLOT_SIZE then throw (.panic "attempt to multiply with overflow")
      else do
        let (buffer, bufferOffset) ← PagedFile.readAligned .index off (region.size * SLOT_SIZE)
        let slots := (List.range region.size).map fun i =>
          field buffer (bufferOffset + i * SLOT_SIZE) SLOT_SIZE
        let (known, lastUsed) := noteRegion region.start 0 slots (known, 0)
        let used := if rest.isEmpty then lastUsed else region.size
        let (regions, known) ← scanRegions rest known
        return ({ region with used } :: regions, known)

/-- The records of the last extent, and the end of the last one in it. -/
structure ExtentScan where
  found : List FoundRecord
  used : Nat

def extentVisitor (headerSize start : Nat) : Visitor ExtentScan :=
  fun scan offset header payloadValid =>
    if payloadValid then
      (⟨scan.found ++ [.ofHeader headerSize offset header],
        offset + header.len + headerSize - start⟩, true)
    else (scan, false)

/-- Known slots may name records behind the ones that the walk reached. -/
def usedBySlots (extent : Extent) : List SlotState → Nat → StoreM Nat
  | [], used => return used
  | state :: rest, used =>
      match state with
      | .live slot | .deleted slot =>
          if extent.start ≤ slot.offset then do
            let stop ← addU64 slot.offset slot.totalLen
            usedBySlots extent rest (if stop ≤ extent.stop then max used (stop - extent.start) else used)
          else usedBySlots extent rest used
      | .empty => usedBySlots extent rest used

/-- Stage each found record that supersedes what is known of its number. -/
def restoreFound (d : DataFile) (known : KnownSlots) (best : NewestTable) :
    List Nat → Nat → StoreM Nat
  | [], restored => return restored
  | id :: rest, restored =>
      match best.lookup id with
      | none => restoreFound d known best rest restored
      | some f => do
          let newer ← supersedes d f ((known.lookup id).getD .empty)
          if newer then do
            IndexFile.stageSlot id (some f.slot)
            restoreFound d known best rest (restored + 1)
          else restoreFound d known best rest restored

/-- The greatest number that the slots or the found records name. -/
def maxId (known : KnownSlots) (found : List FoundRecord) : Option Nat :=
  (known.keys ++ found.map FoundRecord.id).max?

/-- The used slots of the last region reach at least to the greatest number seen in it. -/
def coverMaxId (maxId : Option Nat) (region : Extent) : Extent :=
  match maxId with
  | some maxSeenId =>
      if region.start ≤ maxSeenId then
        { region with used := max region.used (maxSeenId - region.start + 1) }
      else region
  | none => region

/-- All extents but the last count as used up. -/
def fillEarlier (data : List Extent) : List Extent :=
  data.dropLast.map (fun e => { e with used := e.size }) ++ data.getLast?.toList

/-- Recover the used bytes, the numbers and the slots of one bucket. -/
def recoverBucket (order : HashOrder) (d : DataFile) (state : BucketState) (restored : Nat) :
    StoreM (BucketState × Nat) := do
  let (slots, known) ← scanRegions state.slots ∅
  let state := { state with data := fillEarlier state.data, slots }
  match state.data.getLast? with
  | none => return (state, restored)
  | some lastExtent => do
      let (_, scan) ← walk ⟨true, d.integrity, lastExtent.stop, false⟩ lastExtent.start
        (extentVisitor d.recordHeaderLen lastExtent.start) ⟨[], 0⟩
      let used ← usedBySlots lastExtent (known.entries.map Sigma.snd) scan.used
      let best := scan.found.foldl keepNewest ∅
      let restored ← restoreFound d known best (order.order best.keys) restored
      if slots.isEmpty then throw (.panic "called `Option::unwrap()` on a `None` value")
      else return ({ state with
        data := modifyLast (fun e => { e with used }) state.data
        slots := modifyLast (coverMaxId (maxId known scan.found)) slots }, restored)

def recoverBuckets (order : HashOrder) (d : DataFile) :
    List BucketState → Nat → StoreM (List BucketState × Nat)
  | [], restored => return ([], restored)
  | state :: rest, restored => do
      let (state, restored) ← recoverBucket order d state restored
      let (states, restored) ← recoverBuckets order d rest restored
      return (state :: states, restored)

def «open» (order : HashOrder) (config : HeapConfig) (created : Bool) :
    StoreM (BucketPlacement × Nat) :=
  if created then do
    PagedFile.ensureAlloc .data config.initialSize config.growth
    return (fresh config, 0)
  else do
    let p ← replay (fresh config)
    let dataSize ← PagedFile.size .data
    let p := { p with fileSize := max p.fileSize dataSize }
    PagedFile.noteAlloc .data p.fileSize
    let (states, restored) ← recoverBuckets order ⟨true, config.integrity⟩ p.states 0
    publishRestored restored
    return ({ p with states }, restored)

instance : Placement BucketPlacement where
  withBucket := true
  layout := LAYOUT_BUCKET
  «open» := BucketPlacement.open
  alloc := alloc
  allocUpdate := allocUpdate
  usedBytes := usedBytes

end BucketPlacement

end HeapStore
