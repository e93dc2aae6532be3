import HeapStore.Storage.BlockIo

/-! Block requests as the two backends serve them: ranges of process memory
that are filled from the file or stored to it, piece by piece. -/
namespace HeapStore.BlockIo

structure IoCounters where
  reads : Nat
  writes : Nat
  readBytes : Nat
  writeBytes : Nat
  syncs : Nat
  deriving DecidableEq, Repr

def IoCounters.zero : IoCounters := ⟨0, 0, 0, 0, 0⟩

/-- Count one answered operation and the bytes it moved. -/
def IoCounters.note (c : IoCounters) (isRead : Bool) (bytes : Nat) : IoCounters :=
  if isRead then { c with reads := c.reads + 1, readBytes := c.readBytes + bytes }
  else { c with writes := c.writes + 1, writeBytes := c.writeBytes + bytes }

/-- A read or write request: a range of the file, named by 64-bit offsets, and
the address of the buffer of the same length. -/
structure BlockReq where
  off : Nat
  pointer : Nat
  len : Nat
  fits : off + len < 2 ^ 64

/-- The file and the process memory that requests move bytes between. -/
structure World where
  file : File
  memory : Nat → UInt8

/-- Where an operation takes its bytes from: the file for a read, the buffer for a write. -/
def origin (isRead : Bool) (offset pointer : Nat) : Nat := if isRead then offset else pointer

/-- Where an operation puts its bytes. -/
def dest (isRead : Bool) (offset pointer : Nat) : Nat := if isRead then pointer else offset

namespace World

def source (w : World) (isRead : Bool) : Nat → UInt8 := if isRead then w.file.bytes else w.memory

def target (w : World) (isRead : Bool) : Nat → UInt8 := if isRead then w.memory else w.file.bytes

/-- Move `count` bytes of one operation. -/
def transfer (w : World) (isRead : Bool) (offset pointer count : Nat) : World :=
  if isRead then
    { w with memory := Image.write w.memory pointer (Image.read w.file.bytes offset count) }
  else { w with file := w.file.write offset (Image.read w.memory pointer count) }

/-- Set `count` bytes of process memory to zero. -/
def fillZero (w : World) (pointer count : Nat) : World :=
  { w with memory := Image.write w.memory pointer (List.replicate count 0) }

/-- Every request moved as a whole, one after the other. -/
def served (w : World) (isRead : Bool) (requests : List BlockReq) : World :=
  requests.foldl (fun w r => w.transfer isRead r.off r.pointer r.len) w

end World

/-- The ranges that the requests put bytes into have no byte in common: buffers of reads
are exclusive borrows, and writes are given pairwise disjoint file ranges. -/
def Apart (isRead : Bool) (requests : List BlockReq) : Prop :=
  requests.Pairwise fun a b => a.len = 0 ∨ b.len = 0 ∨
    dest isRead a.off a.pointer + a.len ≤ dest isRead b.off b.pointer ∨
      dest isRead b.off b.pointer + b.len ≤ dest isRead a.off a.pointer

end HeapStore.BlockIo
