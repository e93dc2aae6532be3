import HeapStore.Recovery.Restore

/-! Rebuilding the metadata files from the data file alone. -/
namespace HeapStore

/-- Records of one bucket that lie back to back. -/
structure BucketRun where
  bucket : Nat
  start : Nat
  stop : Nat
  deriving DecidableEq, Repr

structure RebuildState where
  latestRecords : NewestTable
  bucketRuns : List BucketRun

def addToRuns (runs : List BucketRun) (bucket start stop : Nat) : List BucketRun :=
  match runs.getLast? with
  | some run =>
      if run.bucket = bucket ∧ run.stop = start then runs.dropLast ++ [{ run with stop }]
      else runs ++ [⟨bucket, start, stop⟩]
  | none => runs ++ [⟨bucket, start, stop⟩]

/-- The rebuild visitor: damaged payloads are passed over, the walk never stops early. -/
def rebuildVisitor (headerSize : Nat) : Visitor RebuildState := fun st offset header payloadValid =>
  if payloadValid then
    ({ latestRecords := keepNewest st.latestRecords (.ofHeader headerSize offset header)
       bucketRuns := addToRuns st.bucketRuns header.bucket offset (offset + (headerSize + header.len)) },
      true)
  else (st, true)

/-- The newest records in the order of their numbers. -/
def latestInOrder (table : NewestTable) : List FoundRecord :=
  (table.entries.map Sigma.snd).mergeSort fun a b => decide (a.id ≤ b.id)

/-- Keep the staged slots within four mebibytes. -/
def flushLarge : StoreM Unit := do
  let pf ← getPaged .index
  if 4 * 2 ^ 20 < pf.pendingBytes then PagedFile.flush .index else return ()

def stageLatest : List FoundRecord → StoreM Unit
  | [] => return ()
  | f :: rest => do
      IndexFile.stageSlot f.id (some f.slot)
      flushLarge
      stageLatest rest

def runRow (run : BucketRun) : RegistryRow :=
  ⟨'D'.toUInt8, run.bucket, pageDown run.start, pageUp run.stop - pageDown run.start⟩

/-- Each region with a newest record in it, and the bucket of the first such
record in hash order. -/
def regionBuckets (order : HashOrder) (regionSlots : Nat) (table : NewestTable) :
    AList fun _ : Nat => Nat :=
  (order.order table.keys).foldl (fun regions id =>
    match table.lookup id with
    | none => regions
    | some f =>
        let region := id / regionSlots * regionSlots
        if region ∈ regions then regions else regions.insert region f.bucket) ∅

def regionRows (order : HashOrder) (regionSlots : Nat) (table : NewestTable) : List RegistryRow :=
  ((regionBuckets order regionSlots table).entries.map fun entry =>
    (⟨'S'.toUInt8, entry.2, entry.1, regionSlots⟩ : RegistryRow)).mergeSort
      fun a b => decide (a.start ≤ b.start)

/-- Stage rows one behind the other; the result is the end of the last one. -/
def stageRows : Nat → List RegistryRow → StoreM Nat
  | registryEnd, [] => return registryEnd
  | registryEnd, row :: rest => do
      PagedFile.stage .registry registryEnd [row.encode]
      stageRows (registryEnd + REGISTRY_ROW_SIZE) rest

def rebuildRegistry (order : HashOrder) (layout : UInt8) (config : HeapConfig)
    (st : RebuildState) : StoreM Unit := do
  PagedFile.create .registry 'R'.toUInt8 layout
  let registryEnd ← stageRows PAGE (st.bucketRuns.map runRow)
  if config.regionSlots = 0 ∧ st.latestRecords.keys ≠ [] then
    throw (.panic "attempt to divide by zero")
  else do
    let _ ← stageRows registryEnd (regionRows order config.regionSlots st.latestRecords)
    PagedFile.flush .registry
    sync .registry

def rebuild (order : HashOrder) (layout : UInt8) (integrity : Bool) (config : HeapConfig) :
    StoreM WalkStats := do
  let withBucket := layout == LAYOUT_BUCKET
  PagedFile.open .data 'D'.toUInt8 layout
  let dataSize ← PagedFile.size .data
  let (stats, st) ← walk ⟨withBucket, integrity, dataSize, true⟩ PAGE
    (rebuildVisitor (headerLen withBucket)) ⟨∅, []⟩
  PagedFile.create .index 'I'.toUInt8 layout
  stageLatest (latestInOrder st.latestRecords)
  PagedFile.flush .index
  sync .index
  if withBucket then do
    rebuildRegistry order layout config st
    return stats
  else return stats

end HeapStore
