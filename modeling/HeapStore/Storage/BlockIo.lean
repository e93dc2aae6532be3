import HeapStore.Library.Effect
import HeapStore.Format.Layout
import Mathlib.Logic.Function.Basic

/-! The three store files and the block requests made to them. A store also
carries the caches of its open file handles, the schedule of request outcomes,
and a history of every write that was issued, with the files as they were. -/
namespace HeapStore

inductive HeapError where
  | io
  | corrupt (what : String) (offset : Nat)
  | notFound (id : Nat)
  | invalidArg (message : String)
  deriving DecidableEq, Repr

/-- A call either returns an error or stops in a panic. -/
inductive Failure where
  | error (e : HeapError)
  | panic (message : String)
  deriving DecidableEq, Repr

/-- A 64-bit sum with the overflow check of the language. -/
def addU64 {σ : Type} (a b : Nat) : EStateM Failure σ Nat :=
  if 2 ^ 64 ≤ a + b then throw (.panic "attempt to add with overflow") else pure (a + b)

/-- A 64-bit difference with the overflow check of the language. -/
def subU64 {σ : Type} (a b : Nat) : EStateM Failure σ Nat :=
  if a < b then throw (.panic "attempt to subtract with overflow") else pure (a - b)

/-- Rounding up to a page start adds a whole page before it takes one off, and
the sum is checked. -/
def pageUpU64 {σ : Type} (off : Nat) : EStateM Failure σ Nat :=
  if 2 ^ 64 ≤ off + PAGE then throw (.panic "attempt to add with overflow") else pure (pageUp off)

inductive FileName where
  | data
  | index
  | registry
  deriving DecidableEq, Repr

/-- File contents, extended with zeros past the end of the file. -/
structure File where
  bytes : Nat → UInt8
  size : Nat
  zero_past : ∀ i, size ≤ i → bytes i = 0

namespace File

def empty : File := ⟨fun _ => 0, 0, fun _ _ => rfl⟩

def write (f : File) (off : Nat) (buf : Bytes) : File :=
  if buf.isEmpty then f
  else
    { bytes := Image.write f.bytes off buf
      size := max f.size (off + buf.length)
      zero_past := fun i h => by
        rw [Image.write_apply_ge _ _ (by omega)]
        exact f.zero_past i (by omega) }

def writes (f : File) (requests : List (Nat × Bytes)) : File :=
  requests.foldl (fun f request => f.write request.1 request.2) f

/-- Space reserved up to an offset reads as zeros. -/
def allocate (f : File) (upto : Nat) : File :=
  { f with size := max f.size upto, zero_past := fun i h => f.zero_past i (by omega) }

end File

/-- How a block request ends. A failed write may have stored any of its requests. -/
inductive IoOutcome where
  | success
  | failure (written : List Bool)

/-- One staged write: its first byte, the page-based buffer, and the old
content of the first page when the write starts inside it. -/
structure StagedWrite where
  start : Nat
  buffer : Bytes
  head : Option Bytes

structure PagedFile where
  tailPages : Nat → Option Bytes
  stagedWrites : List StagedWrite
  pendingBytes : Nat
  allocatedEnd : Nat

/-- A handle with nothing cached, as `create` and `open` make it. -/
def PagedFile.fresh : PagedFile := ⟨fun _ => none, [], 0, 0⟩

/-- A write request list as it was issued, and the files at that moment. -/
structure IssuedWrite where
  file : FileName
  requests : List (Nat × Bytes)
  disk : FileName → Option File
  durable : FileName → Option File

structure Store where
  disk : FileName → Option File
  durable : FileName → Option File
  plan : List IoOutcome
  issued : List IssuedWrite
  paged : FileName → PagedFile

abbrev StoreM := EStateM Failure Store

namespace Store

/-- No files, no open handles, and every request succeeds. -/
def empty : Store := ⟨fun _ => none, fun _ => none, [], [], fun _ => .fresh⟩

def file (s : Store) (n : FileName) : File := (s.disk n).getD .empty

def setDisk (s : Store) (n : FileName) (f : File) : Store :=
  { s with disk := Function.update s.disk n (some f) }

def setPaged (s : Store) (n : FileName) (pf : PagedFile) : Store :=
  { s with paged := Function.update s.paged n pf }

/-- The next outcome of the schedule; past its end every request succeeds. -/
def outcome (s : Store) : IoOutcome := s.plan.headD .success

def tick (s : Store) : Store := { s with plan := s.plan.tail }

def noteIssued (s : Store) (n : FileName) (requests : List (Nat × Bytes)) : Store :=
  { s with issued := s.issued ++ [⟨n, requests, s.disk, s.durable⟩] }

end Store

/-- File offsets are signed 64-bit numbers to the kernel. -/
def inFileRange (off len : Nat) : Bool := decide (off + len < 2 ^ 63)

/-- A read within the file offsets, or one of no bytes, which is not made. -/
def servable (off len : Nat) : Bool := decide (len = 0) || inFileRange off len

def readVec (n : FileName) (requests : List (Nat × Nat)) : StoreM (List Bytes) := fun s =>
  match s.outcome with
  | .failure _ => .error (.error .io) s.tick
  | .success =>
      if requests.all fun request => servable request.1 request.2 then
        .ok (requests.map fun request => Image.read (s.file n).bytes request.1 request.2) s.tick
      else .error (.error .io) s.tick

def readOne (n : FileName) (off len : Nat) : StoreM Bytes := do
  let buffers ← readVec n [(off, len)]
  return buffers.headD []

def writeVec (n : FileName) (requests : List (Nat × Bytes)) : StoreM Unit := fun s =>
  let noted := (s.noteIssued n requests).tick
  match s.outcome with
  | .failure written =>
      let stored := ((requests.zip written).filter Prod.snd).map Prod.fst
      .error (.error .io) (noted.setDisk n ((s.file n).writes stored))
  | .success =>
      let stored := requests.takeWhile fun request => inFileRange request.1 request.2.length
      let next := noted.setDisk n ((s.file n).writes stored)
      if stored.length = requests.length then .ok () next else .error (.error .io) next

def sync (n : FileName) : StoreM Unit := fun s =>
  match s.outcome with
  | .failure _ => .error (.error .io) s.tick
  | .success => .ok () { s.tick with durable := Function.update s.durable n (s.disk n) }

/-- Open for writing, create if missing, and cut to length zero. -/
def truncate (n : FileName) : StoreM Unit := fun s =>
  match s.outcome with
  | .failure _ => .error (.error .io) s.tick
  | .success => .ok () (s.tick.setDisk n .empty)

def fallocate (n : FileName) (offset len : Nat) : StoreM Unit := fun s =>
  match s.outcome with
  | .failure _ => .error (.error .io) s.tick
  | .success =>
      if inFileRange offset len then
        .ok () (s.tick.setDisk n ((s.file n).allocate (offset + len)))
      else .error (.error .io) s.tick

/-- Open an existing file; a missing one is an error of the file system. -/
def openDirect (n : FileName) : StoreM Unit := fun s =>
  if (s.disk n).isSome then .ok () s else .error (.error .io) s

def getPaged (n : FileName) : StoreM PagedFile := fun s => .ok (s.paged n) s

def modifyPaged (n : FileName) (f : PagedFile → PagedFile) : StoreM Unit :=
  modify fun s => s.setPaged n (f (s.paged n))

end HeapStore
