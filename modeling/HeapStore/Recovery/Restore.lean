import HeapStore.Recovery.Walk
import HeapStore.Storage.DataFile
import HeapStore.Storage.IndexFile
import HeapStore.Placement.Contract
import Mathlib.Data.List.AList

/-! What every recovery path shares: the table of the newest version that a
walk saw of each record, and the comparison of a found record with the slot
that its number has already. -/
namespace HeapStore

/-- A record that a walk came across. -/
structure FoundRecord where
  id : Nat
  offset : Nat
  version : Nat
  recordLen : Nat
  bucket : Nat
  deriving DecidableEq, Repr

namespace FoundRecord

def slot (f : FoundRecord) : Slot := ⟨f.offset, f.recordLen⟩

def ofHeader (headerSize offset : Nat) (header : RecordHeader) : FoundRecord :=
  { id := header.id, offset, version := header.version
    recordLen := header.len + headerSize, bucket := header.bucket }

end FoundRecord

abbrev NewestTable := AList fun _ : Nat => FoundRecord

/-- A later record replaces an entry unless its version is smaller. -/
def keepNewest (table : NewestTable) (f : FoundRecord) : NewestTable :=
  match table.lookup f.id with
  | none => table.insert f.id f
  | some entry => if entry.version ≤ f.version then table.insert f.id f else table

/-- Run a program whose error, but not its panic, is of no interest. -/
def attempt {α : Type} (x : StoreM α) : StoreM (Option α) := fun s =>
  match x s with
  | .ok a t => .ok (some a) t
  | .error (.error _) t => .ok none t
  | .error (.panic message) t => .error (.panic message) t

/-- Whether a found record takes the place of what its number has now: never a
tombstone's, and a live slot's only with a newer version or when the live slot
leads to no header of that number. -/
def supersedes (d : DataFile) (f : FoundRecord) : SlotState → StoreM Bool
  | .deleted _ => return false
  | .live slot =>
      if slot.offset = f.offset then return false
      else do
        let existing ← attempt (d.readHeader slot.offset f.id)
        match existing with
        | some header => return decide (header.version < f.version)
        | none => return true
  | .empty => return true

/-- A buffer cut into whole pieces of one size. -/
def chunksExact (size : Nat) (buffer : Bytes) : List Bytes :=
  (List.range (buffer.length / size)).map fun i => field buffer (i * size) size

/-- Make the restored slots durable when there are any. -/
def publishRestored (restored : Nat) : StoreM Unit :=
  if 0 < restored then do
    PagedFile.flush .index
    sync .index
  else return ()

end HeapStore
