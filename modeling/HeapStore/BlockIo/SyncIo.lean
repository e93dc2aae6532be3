import HeapStore.Library.Effect
import HeapStore.BlockIo.Requests

/-! The blocking backend: positioned reads and writes, repeated until each
request is served. The kernel may answer any call short. -/
namespace HeapStore.BlockIo

open Effect

/-- How many bytes each positioned call moves. A read moves none exactly at or
past the end of the file; a write always moves some. -/
structure Positioned where
  processed : (call : Nat) → (isRead : Bool) → (size offset len : Nat) → Nat
  le_len : ∀ call isRead size offset len, processed call isRead size offset len ≤ len
  read_zero : ∀ call size offset len, 0 < len →
    (processed call true size offset len = 0 ↔ size ≤ offset)
  write_some : ∀ call size offset len, 0 < len → processed call false size offset len ≠ 0

structure SyncRun where
  world : World
  counters : IoCounters
  calls : Nat

abbrev SyncM := EStateM Failure SyncRun

namespace SyncIo

/-- One positioned call: the bytes it moves and their number. -/
def callAt (kernel : Positioned) (isRead : Bool) (offset pointer len : Nat) : SyncM Nat := fun s =>
  let count := kernel.processed s.calls isRead s.world.file.size offset len
  .ok count { s with world := s.world.transfer isRead offset pointer count, calls := s.calls + 1 }

/-- Serve the rest of a read request, `done` bytes in; a call that moves no
byte is the end of the file, and the rest of the buffer becomes zeros. -/
def readRest (kernel : Positioned) (r : BlockReq) (done : Nat) : SyncM Unit :=
  if done < r.len then do
    let processed ← callAt kernel true (r.off + done) (r.pointer + done) (r.len - done)
    modify fun s => { s with counters := s.counters.note true processed }
    if _hSome : processed = 0 then
      modify fun s => { s with world := s.world.fillZero (r.pointer + done) (r.len - done) }
    else readRest kernel r (done + processed)
  else return ()
termination_by r.len - done

def readVec (kernel : Positioned) : List BlockReq → SyncM Unit
  | [] => return ()
  | r :: rest => do
      readRest kernel r 0
      readVec kernel rest

/-- Serve the rest of a write request, `done` bytes in. -/
def writeRest (kernel : Positioned) (r : BlockReq) (done : Nat) : SyncM Unit :=
  if done < r.len then do
    let processed ← callAt kernel false (r.off + done) (r.pointer + done) (r.len - done)
    if _hSome : processed = 0 then throw (.error .io)
    else do
      modify fun s => { s with counters := s.counters.note false processed }
      writeRest kernel r (done + processed)
  else return ()
termination_by r.len - done

def writeVec (kernel : Positioned) : List BlockReq → SyncM Unit
  | [] => return ()
  | r :: rest => do
      writeRest kernel r 0
      writeVec kernel rest

end SyncIo

end HeapStore.BlockIo
