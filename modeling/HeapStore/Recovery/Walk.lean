import HeapStore.Storage.PagedFile

/-! The record walk: it reads the data file in chunks, decodes record after
record, and, when it may resync, searches for the next record magic. -/
namespace HeapStore

def RECOVERY_SCAN_CHUNK_SIZE : Nat := 2 ^ 20

structure WalkStats where
  records : Nat
  resyncs : Nat
  badPayload : Nat
  lastEnd : Nat
  deriving DecidableEq, Repr

/-- A visitor gets the position and header of a record and whether its payload
is valid; it says whether the walk goes on. -/
abbrev Visitor (σ : Type) := σ → Nat → RecordHeader → Bool → σ × Bool

/-- What stays fixed during a walk. -/
structure WalkRange where
  withBucket : Bool
  integrity : Bool
  endOffset : Nat
  allowResync : Bool

/-- The bytes of the file from `start` on that are read already. -/
structure ScanBuffer where
  start : Nat
  bytes : Bytes

structure WalkState (σ : Type) where
  buffer : ScanBuffer
  position : Nat
  stats : WalkStats
  seen : σ

def recordMagic : Bytes := LittleEndian.encode 4 RECORD_MAGIC

/-- The first position in a buffer where the record magic stands. -/
def findMagic : Bytes → Option Nat
  | [] => none
  | byte :: rest =>
      if (byte :: rest).take 4 = recordMagic then some 0 else (findMagic rest).map (· + 1)

/-- Part of a buffer, with the bounds check of the language. -/
def sliceOf (buf : Bytes) (start count : Nat) : StoreM Bytes :=
  if buf.length < start + count then throw (.panic "range end index out of range for slice")
  else return field buf start count

/-- The rest of a buffer, with the bounds check of the language. -/
def sliceFrom (buf : Bytes) (start : Nat) : StoreM Bytes :=
  if buf.length < start then throw (.panic "range start index out of range for slice")
  else return buf.drop start

namespace ScanBuffer

def stop (b : ScanBuffer) : Nat := b.start + b.bytes.length

/-- Drop scanned bytes from the front. -/
def drain (b : ScanBuffer) (count : Nat) : StoreM ScanBuffer :=
  if b.bytes.length < count then throw (.panic "range end index out of range for slice")
  else return ⟨b.start + count, b.bytes.drop count⟩

/-- Drop all but the last `keep` bytes before an offset when too many are held. -/
def discard (b : ScanBuffer) (offset keep : Nat) : StoreM ScanBuffer := do
  let scanned ← subU64 offset b.start
  if 8 * RECOVERY_SCAN_CHUNK_SIZE < scanned then b.drain (scanned - keep) else return b

/-- Read on until `needed` bytes are available or the range is used up. A loop
that has not ended when its fuel is used up stops as no run of the code does. -/
def fill (endOffset needed : Nat) : Nat → Nat → ScanBuffer → StoreM (ScanBuffer × Bool)
  | 0, _, _ => throw (.panic "reading does not end")
  | fuel + 1, available, b =>
      if needed ≤ available then return (b, true)
      else if endOffset ≤ b.stop then return (b, false)
      else do
        let readLen := min RECOVERY_SCAN_CHUNK_SIZE (endOffset - b.stop)
        let (chunk, chunkOffset) ← PagedFile.readAligned .data b.stop readLen
        let part ← sliceOf chunk chunkOffset readLen
        fill endOffset needed fuel (available + readLen) { b with bytes := b.bytes ++ part }

def ensureAvailable (b : ScanBuffer) (endOffset position needed : Nat) :
    StoreM (ScanBuffer × Bool) := do
  let available ← subU64 b.stop position
  fill endOffset needed (endOffset - b.stop + 1) available b

end ScanBuffer

namespace WalkRange

variable {σ : Type}

/-- Search forward for the next record magic; there is none when the range is used up. -/
def resync (r : WalkRange) (position : Nat) :
    Nat → Nat → ScanBuffer → StoreM (Option Nat × ScanBuffer)
  | 0, _, _ => throw (.panic "resynchronisation does not end")
  | fuel + 1, searchOffset, b => do
      let b ← b.discard searchOffset 3
      let (b, enough) ← b.ensureAvailable r.endOffset position (searchOffset - position + 4)
      if enough then do
        let searchIndex ← subU64 searchOffset b.start
        let rest ← sliceFrom b.bytes searchIndex
        match findMagic rest with
        | some relativeOffset => return (some (searchOffset + relativeOffset), b)
        | none => resync r position fuel (b.stop - 3) b
      else return (none, b)

/-- A decoded header counts only when its record ends inside the range. -/
def fitting (r : WalkRange) (position : Nat) : Option RecordHeader → StoreM (Option RecordHeader)
  | none => return none
  | some header => do
      let stop ← addU64 (position + headerLen r.withBucket) header.len
      return if stop ≤ r.endOffset then some header else none

/-- Check the payload of a record, show it to the visitor and step over it. -/
def visit (r : WalkRange) (visitor : Visitor σ) (w : WalkState σ) (header : RecordHeader) :
    StoreM (WalkState σ × Bool) := do
  let headerSize := headerLen r.withBucket
  let (b, enough) ← w.buffer.ensureAvailable r.endOffset w.position (headerSize + header.len)
  if enough then do
    let bufferOffset ← subU64 w.position b.start
    let payload ← sliceOf b.bytes (bufferOffset + headerSize) header.len
    let payloadValid := !r.integrity || crc32c payload == header.crc
    let (seen, continueWalk) := visitor w.seen w.position header payloadValid
    let stop := w.position + headerSize + header.len
    return (⟨b, stop,
      { w.stats with
        records := w.stats.records + 1
        badPayload := w.stats.badPayload + if payloadValid then 0 else 1
        lastEnd := stop }, seen⟩, continueWalk)
  else return ({ w with buffer := b }, false)

/-- Step to the next magic after a position that holds no record. -/
def skip (r : WalkRange) (w : WalkState σ) : StoreM (WalkState σ × Bool) :=
  if r.allowResync then do
    let (found, b) ← r.resync w.position (r.endOffset - w.position + 1) (w.position + 1) w.buffer
    match found with
    | some searchOffset =>
        return (⟨b, searchOffset, { w.stats with resyncs := w.stats.resyncs + 1 }, w.seen⟩, true)
    | none => return ({ w with buffer := b }, false)
  else return (w, false)

/-- One pass of the walk loop, and whether the loop goes on. -/
def pass (r : WalkRange) (visitor : Visitor σ) (w : WalkState σ) :
    StoreM (WalkState σ × Bool) := do
  let b ← w.buffer.discard w.position 0
  if r.endOffset < w.position + headerLen r.withBucket then return ({ w with buffer := b }, false)
  else do
    let (b, enough) ← b.ensureAvailable r.endOffset w.position (headerLen r.withBucket)
    if enough then do
      let bufferOffset ← subU64 w.position b.start
      let rest ← sliceFrom b.bytes bufferOffset
      let header ← r.fitting w.position (RecordHeader.decode rest r.withBucket)
      match header with
      | some header => r.visit visitor { w with buffer := b } header
      | none => r.skip { w with buffer := b }
    else return ({ w with buffer := b }, false)

def loop (r : WalkRange) (visitor : Visitor σ) : Nat → WalkState σ → StoreM (WalkState σ)
  | 0, _ => throw (.panic "walk does not end")
  | fuel + 1, w => do
      let (next, continueWalk) ← r.pass visitor w
      if continueWalk then loop r visitor fuel next else return next

end WalkRange

def walk {σ : Type} (r : WalkRange) (startOffset : Nat) (visitor : Visitor σ) (seen : σ) :
    StoreM (WalkStats × σ) := do
  PagedFile.flush .data
  let w ← r.loop visitor (r.endOffset - startOffset + 1)
    ⟨⟨startOffset, []⟩, startOffset, ⟨0, 0, 0, startOffset⟩, seen⟩
  return (w.stats, w.seen)

end HeapStore
