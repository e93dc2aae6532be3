import HeapStore.Storage.PagedFile

/-! Records in the data file: staging, parsing, and single and batched reads. -/
namespace HeapStore

structure DataFile where
  withBucket : Bool
  integrity : Bool

namespace DataFile

def recordHeaderLen (d : DataFile) : Nat := headerLen d.withBucket

/-- The header that is stored in front of a payload. -/
def header (d : DataFile) (bucket id version : Nat) (payload : Bytes) : RecordHeader :=
  { len := payload.length, bucket, id, version
    crc := if d.integrity then crc32c payload else 0#32 }

def stageRecord (d : DataFile) (off bucket id version : Nat) (payload : Bytes) : StoreM Unit :=
  PagedFile.stage .data off [(d.header bucket id version payload).encode d.withBucket, payload]

/-- Check a record against its slot and cut its payload out of a buffer. -/
def parse (d : DataFile) (buffer : Bytes) (bufferOffset totalLen expectId offset : Nat) :
    StoreM (RecordHeader × Bytes) :=
  let headerSize := headerLen d.withBucket
  match RecordHeader.decode (buffer.drop bufferOffset) d.withBucket with
  | none => throw (.error (.corrupt "record header" offset))
  | some header =>
      if header.id ≠ expectId then throw (.error (.corrupt "record identity" offset))
      else do
        let recordLen ← addU64 header.len headerSize
        if recordLen ≠ totalLen then throw (.error (.corrupt "record identity" offset))
        else
          let payload := field buffer (bufferOffset + headerSize) header.len
          if d.integrity ∧ crc32c payload ≠ header.crc then
            throw (.error (.corrupt "record payload" offset))
          else return (header, payload)

def readRecord (d : DataFile) (off totalLen expectId : Nat) : StoreM (RecordHeader × Bytes) := do
  let (buffer, bufferOffset) ← PagedFile.readAligned .data off totalLen
  d.parse buffer bufferOffset totalLen expectId off

def readHeader (d : DataFile) (off expectId : Nat) : StoreM RecordHeader := do
  let (buffer, bufferOffset) ← PagedFile.readAligned .data off d.recordHeaderLen
  match RecordHeader.decode (buffer.drop bufferOffset) d.withBucket with
  | none => throw (.error (.corrupt "record header" off))
  | some header =>
      if header.id ≠ expectId then throw (.error (.corrupt "record identity" off))
      else return header

/-- A read of one record: its offset, its total length and its expected number. -/
structure ReadItem where
  offset : Nat
  length : Nat
  id : Nat

/-- A page range read at once, and the positions of the items inside it. -/
structure ReadGroup where
  start : Nat
  stop : Nat
  members : List Nat

/-- Items in offset order, joined while their page ranges touch. -/
def addToGroups (items : List ReadItem) (groups : List ReadGroup) (itemIndex : Nat) :
    List ReadGroup :=
  match items[itemIndex]? with
  | none => groups
  | some item =>
      let groupStart := pageDown item.offset
      let groupEnd := pageUp (item.offset + item.length)
      match groups.getLast? with
      | some group =>
          if groupStart ≤ group.stop then
            groups.dropLast ++
              [{ group with stop := max group.stop groupEnd, members := group.members ++ [itemIndex] }]
          else groups ++ [⟨groupStart, groupEnd, [itemIndex]⟩]
      | none => groups ++ [⟨groupStart, groupEnd, [itemIndex]⟩]

def readGroups (items : List ReadItem) : List ReadGroup :=
  let order := (List.range items.length).mergeSort fun a b =>
    decide (((items[a]?).map ReadItem.offset).getD 0 ≤ ((items[b]?).map ReadItem.offset).getD 0)
  order.foldl (addToGroups items) []

/-- Parse the items of one group and put their payloads into the output. -/
def parseMembers (d : DataFile) (items : List ReadItem) (group : ReadGroup) (buffer : Bytes) :
    List Nat → List Bytes → StoreM (List Bytes)
  | [], out => return out
  | itemIndex :: rest, out =>
      match items[itemIndex]? with
      | none => parseMembers d items group buffer rest out
      | some item => do
          let (_, payload) ← d.parse buffer (item.offset - group.start) item.length item.id item.offset
          parseMembers d items group buffer rest (out.set itemIndex payload)

def parseGroups (d : DataFile) (items : List ReadItem) :
    List (ReadGroup × Bytes) → List Bytes → StoreM (List Bytes)
  | [], out => return out
  | (group, buffer) :: rest, out => do
      let out ← parseMembers d items group buffer group.members out
      parseGroups d items rest out

/-- Some rounded end of an item is no 64-bit number. -/
def overflows (items : List ReadItem) : Bool :=
  items.any fun item => decide (2 ^ 64 ≤ item.offset + item.length + PAGE)

def readMany (d : DataFile) (items : List ReadItem) : StoreM (List Bytes) := do
  PagedFile.flush .data
  if overflows items then throw (.panic "attempt to add with overflow")
  else do
    let groups := readGroups items
    let buffers ← readVec .data (groups.map fun group => (group.start, group.stop - group.start))
    parseGroups d items (groups.zip buffers) (List.replicate items.length [])

end DataFile

end HeapStore
