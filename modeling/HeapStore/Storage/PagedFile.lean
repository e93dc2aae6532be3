import HeapStore.Storage.BlockIo

/-! The page-based write cache of one file: staged writes, captured head
pages, cached tail pages, and the flush that turns them into page requests. -/
namespace HeapStore

def MAX_STAGED_WRITES : Nat := 64

namespace StagedWrite

def base (w : StagedWrite) : Nat := pageDown w.start

def endOffset (w : StagedWrite) : Nat := w.base + w.buffer.length

/-- The bytes that were staged, without the old bytes before them in the page. -/
def payload (w : StagedWrite) : Bytes := w.buffer.drop (w.start - w.base)

/-- The page ranges of the write and of `[lo, hi)` meet. -/
def overlaps (w : StagedWrite) (lo hi : Nat) : Bool :=
  decide (w.base < hi) && decide (lo < pageUp w.endOffset)

end StagedWrite

namespace PagedFile

def size (n : FileName) : StoreM Nat := fun s => .ok (s.file n).size s

def hasPending (pf : PagedFile) : Bool := !pf.stagedWrites.isEmpty

def create (n : FileName) (kind layout : UInt8) : StoreM Unit := do
  truncate n
  modifyPaged n fun _ => .fresh
  writeVec n [(0, FileHeader.encode ⟨kind, layout⟩)]
  sync n
  modifyPaged n fun pf => { pf with allocatedEnd := PAGE }

def «open» (n : FileName) (kind layout : UInt8) : StoreM Unit := do
  openDirect n
  modifyPaged n fun _ => .fresh
  let page ← readOne n 0 PAGE
  match FileHeader.decode page with
  | some header =>
      if header.kind = kind ∧ header.layout = layout then return ()
      else throw (.error (.corrupt "file header" 0))
  | none => throw (.error (.corrupt "file header" 0))

/-- The end that `upto` asks for is a sum of its callers, checked as all are. -/
def ensureAlloc (n : FileName) (upto chunk : Nat) : StoreM Unit := do
  let pf ← getPaged n
  if 2 ^ 64 ≤ upto then throw (.panic "attempt to add with overflow")
  else if upto ≤ pf.allocatedEnd then return ()
  else do
    let chunkEnd ← addU64 pf.allocatedEnd chunk
    let newEnd ← pageUpU64 (max upto chunkEnd)
    fallocate n pf.allocatedEnd (newEnd - pf.allocatedEnd)
    modifyPaged n fun pf => { pf with allocatedEnd := newEnd }

def noteAlloc (n : FileName) (upto : Nat) : StoreM Unit :=
  modifyPaged n fun pf => { pf with allocatedEnd := max pf.allocatedEnd upto }

/-- A buffer cut or zero-extended to a length. -/
def resizeZeroed (buffer : Bytes) (len : Nat) : Bytes :=
  buffer.take len ++ List.replicate (len - buffer.length) 0

/-- The page content from which the rest of a partial last page is kept. -/
def lastPage (n : FileName) (w : StagedWrite) (last : Nat) : StoreM Bytes := do
  let pf ← getPaged n
  if last = w.base ∧ w.head.isSome then return w.head.getD []
  else match pf.tailPages last with
    | some page => return page
    | none => readOne n last PAGE

/-- The kept page of a write that ends inside a page; none is needed otherwise. -/
def suffixPage (n : FileName) (w : StagedWrite) : StoreM (Option Bytes) :=
  if w.endOffset % PAGE ≠ 0 then do
    let page ← lastPage n w (pageDown w.endOffset)
    return some page
  else return none

/-- The staged buffer completed to whole pages. -/
def sealedBuffer (w : StagedWrite) (suffix : Option Bytes) : Bytes :=
  let buffer := resizeZeroed w.buffer (pageUp w.endOffset - w.base)
  let last := pageDown w.endOffset
  let pageOffset := last - w.base
  let within := w.endOffset - last
  match suffix with
  | none => buffer
  | some page =>
      buffer.take (pageOffset + within) ++ page.drop within ++ buffer.drop (pageOffset + PAGE)

/-- Forget the tail pages that a write covers and keep its own partial last page. -/
def retail (pf : PagedFile) (w : StagedWrite) (buffer : Bytes) : PagedFile :=
  let last := pageDown w.endOffset
  let removed := fun page =>
    if w.base ≤ page ∧ page < pageUp w.endOffset ∧ page % PAGE = 0 then none
    else pf.tailPages page
  { pf with tailPages :=
      if w.endOffset % PAGE ≠ 0 then
        Function.update removed last (some (field buffer (last - w.base) PAGE))
      else removed }

/-- Complete one staged write to a page request. -/
def sealWrite (n : FileName) (w : StagedWrite) : StoreM (Nat × Bytes) := do
  let suffix ← suffixPage n w
  let buffer := sealedBuffer w suffix
  modifyPaged n fun pf => pf.retail w buffer
  return (w.base, buffer)

def sealWrites (n : FileName) : List StagedWrite → StoreM (List (Nat × Bytes))
  | [] => return []
  | w :: rest => do
      let request ← sealWrite n w
      let requests ← sealWrites n rest
      return request :: requests

def flush (n : FileName) : StoreM Unit := do
  let pf ← getPaged n
  if pf.stagedWrites.isEmpty then return ()
  else do
    modifyPaged n fun pf => { pf with stagedWrites := [] }
    let requests ← sealWrites n pf.stagedWrites
    writeVec n requests
    modifyPaged n fun pf => { pf with pendingBytes := 0 }

/-- The open staged write that ends where a new write starts, unless growing
it would reach into the pages of another staged write. -/
def openWrite? (pf : PagedFile) (off len : Nat) : Option Nat :=
  match pf.stagedWrites.findIdx? fun w => w.endOffset == off with
  | none => none
  | some i =>
      let base := (pf.stagedWrites[i]?.map StagedWrite.base).getD 0
      let newEnd := pageUp (off + len)
      if (pf.stagedWrites.eraseIdx i).any fun w => w.overlaps base newEnd then none else some i

/-- The old content of the page that an unaligned write starts in. -/
def captureHead (n : FileName) (off : Nat) : StoreM (Option Bytes) := do
  let headPage := pageDown off
  let pf ← getPaged n
  if off - headPage = 0 then return none
  else match pf.tailPages headPage with
    | some page => return some page
    | none => do
        let page ← readOne n headPage PAGE
        return some page

/-- Stage bytes that no open staged write takes. -/
def pushWrite (n : FileName) (off : Nat) (bytes : Bytes) : StoreM Unit := do
  let head ← captureHead n off
  let pad := off - pageDown off
  let buffer := ((head.getD []).take pad) ++ bytes
  modifyPaged n fun pf =>
    { pf with
      pendingBytes := pf.pendingBytes + bytes.length
      stagedWrites := pf.stagedWrites ++ [⟨off, buffer, head⟩] }

/-- Take the bytes into an open staged write. -/
def extendWrite (pf : PagedFile) (i : Nat) (bytes : Bytes) : PagedFile :=
  { pf with
    pendingBytes := pf.pendingBytes + bytes.length
    stagedWrites := pf.stagedWrites.modify i fun w => { w with buffer := w.buffer ++ bytes } }

/-- Flush before a new staged write when the table is full. -/
def flushFull (n : FileName) : StoreM Unit := do
  let pf ← getPaged n
  if MAX_STAGED_WRITES ≤ pf.stagedWrites.length then flush n else return ()

/-- Flush before a new staged write that shares a page with another one. -/
def flushOverlapping (n : FileName) (off len : Nat) : StoreM Unit := do
  let newEnd ← pageUpU64 (off + len)
  let pf ← getPaged n
  if pf.stagedWrites.any fun w => w.overlaps (pageDown off) newEnd then flush n
  else return ()

/-- Some staged write ends where a new one starts. -/
def endsAt (pf : PagedFile) (off : Nat) : Bool :=
  pf.stagedWrites.any fun w => w.endOffset == off

/-- The new end is rounded up when a staged write that might take the bytes is
looked at, else after a full table was flushed. -/
def stage (n : FileName) (off : Nat) (parts : List Bytes) : StoreM Unit := do
  let bytes := parts.flatten
  let pf ← getPaged n
  if pf.endsAt off = true ∧ 2 ^ 64 ≤ off + bytes.length + PAGE then
    throw (.panic "attempt to add with overflow")
  else match pf.openWrite? off bytes.length with
  | some i => modifyPaged n fun pf => pf.extendWrite i bytes
  | none => do
      flushFull n
      flushOverlapping n off bytes.length
      pushWrite n off bytes

/-- Flush, then read the page-rounded range; the second result is the position
of the wanted bytes in the buffer. -/
def readAligned (n : FileName) (off len : Nat) : StoreM (Bytes × Nat) := do
  flush n
  let stop ← pageUpU64 (off + len)
  let base := pageDown off
  let buffer ← readOne n base (stop - base)
  return (buffer, off - base)

end PagedFile

namespace Store

/-- The file with every staged write laid over it, in staging order. -/
def overlay (image : Nat → UInt8) (staged : List StagedWrite) : Nat → UInt8 :=
  staged.foldl (fun image w => Image.write image w.start w.payload) image

/-- The content of a file as its open handle presents it. -/
def logical (s : Store) (n : FileName) : Nat → UInt8 :=
  overlay (s.file n).bytes (s.paged n).stagedWrites

end Store

end HeapStore
