import HeapStore.Library.Image
import HeapStore.Library.LittleEndian
import HeapStore.Format.Crc32
import Mathlib.Data.Nat.Bitwise

/-! The durable byte format: pages, the file header, record headers, index
slots and registry rows, with the field positions of the files on disk. -/
namespace HeapStore

def PAGE : Nat := 4096

def RECORD_MAGIC : Nat := 0x44524352
def REGISTRY_MAGIC : Nat := 0x58474552

def LAYOUT_APPEND : UInt8 := 0
def LAYOUT_BUCKET : UInt8 := 1

def SLOT_SIZE : Nat := 16
def REGISTRY_ROW_SIZE : Nat := 64

/-- The start of the page that holds this offset: the low twelve bits cleared. -/
def pageDown (off : Nat) : Nat := off / PAGE * PAGE

/-- The first page start at or after this offset. -/
def pageUp (off : Nat) : Nat := (off + PAGE - 1) / PAGE * PAGE

/-- `count` bytes of a buffer from a position on. -/
def field (buf : Bytes) (off count : Nat) : Bytes := (buf.drop off).take count

/-- A little-endian field of a buffer, as a number. -/
def fieldNat (buf : Bytes) (off count : Nat) : Nat := LittleEndian.decode (field buf off count)

/-- A little-endian 32-bit field, as the word that checksums are compared with. -/
def fieldWord (buf : Bytes) (off : Nat) : BitVec 32 := BitVec.ofNat 32 (fieldNat buf off 4)

structure FileHeader where
  kind : UInt8
  layout : UInt8
  deriving DecidableEq, Repr

/-- The ASCII bytes of the file signature `HSF1`. -/
def fileSignature : Bytes := [0x48, 0x53, 0x46, 0x31]

namespace FileHeader

def body (h : FileHeader) : Bytes := fileSignature ++ [h.kind, h.layout, 0, 0]

def encode (h : FileHeader) : Bytes :=
  h.body ++ LittleEndian.encode 4 (crc32c h.body).toNat ++ List.replicate (PAGE - 12) 0

def decode (page : Bytes) : Option FileHeader :=
  if field page 0 4 ≠ fileSignature then none
  else if fieldWord page 8 ≠ crc32c (field page 0 8) then none
  else some ⟨(page[4]?).getD 0, (page[5]?).getD 0⟩

end FileHeader

structure RecordHeader where
  len : Nat
  bucket : Nat
  id : Nat
  version : Nat
  crc : BitVec 32
  deriving DecidableEq

/-- Every field fits the integer type that stores it. -/
structure RecordHeader.InRange (h : RecordHeader) : Prop where
  len : h.len < 2 ^ 64
  bucket : h.bucket < 2 ^ 64
  id : h.id < 2 ^ 64
  version : h.version < 2 ^ 16

def headerLen (withBucket : Bool) : Nat := if withBucket then 38 else 30

namespace RecordHeader

/-- The header fields that the header checksum covers. -/
def body (h : RecordHeader) (withBucket : Bool) : Bytes :=
  LittleEndian.encode 4 RECORD_MAGIC ++ LittleEndian.encode 8 h.len
    ++ (if withBucket then LittleEndian.encode 8 h.bucket else [])
    ++ LittleEndian.encode 8 h.id ++ LittleEndian.encode 2 h.version
    ++ LittleEndian.encode 4 h.crc.toNat

def encode (h : RecordHeader) (withBucket : Bool) : Bytes :=
  h.body withBucket ++ LittleEndian.encode 4 (crc32c (h.body withBucket)).toNat

def decode (buf : Bytes) (withBucket : Bool) : Option RecordHeader :=
  let headerSize := headerLen withBucket
  if buf.length < headerSize ∨ fieldNat buf 0 4 ≠ RECORD_MAGIC then none
  else if fieldWord buf (headerSize - 4) ≠ crc32c (field buf 0 (headerSize - 4)) then none
  else
    let fieldOffset := if withBucket then 20 else 12
    some
      { len := fieldNat buf 4 8
        bucket := if withBucket then fieldNat buf 12 8 else 0
        id := fieldNat buf fieldOffset 8
        version := fieldNat buf (fieldOffset + 8) 2
        crc := fieldWord buf (fieldOffset + 10) }

end RecordHeader

structure Slot where
  offset : Nat
  totalLen : Nat
  deriving DecidableEq, Repr

def TOMBSTONE_BIT : Nat := 2 ^ 63

inductive SlotState where
  | empty
  | deleted (slot : Slot)
  | live (slot : Slot)
  deriving DecidableEq, Repr

namespace Slot

def encode (s : Slot) : Bytes :=
  LittleEndian.encode 8 s.offset ++ LittleEndian.encode 8 s.totalLen

/-- Tombstones keep the place of the record that they hide. -/
def state (buf : Bytes) : SlotState :=
  let offset := fieldNat buf 0 8
  let totalLen := fieldNat buf 8 8
  if offset = 0 then .empty
  else if offset &&& TOMBSTONE_BIT ≠ 0 then .deleted ⟨offset &&& (TOMBSTONE_BIT - 1), totalLen⟩
  else .live ⟨offset, totalLen⟩

def decode (buf : Bytes) : Option Slot :=
  match state buf with
  | .live slot => some slot
  | _ => none

def fileOffset (id : Nat) : Nat := PAGE + id * SLOT_SIZE

/-- The slot that a delete stages in place of a live one. -/
def tombstone (old : Slot) : Slot := ⟨old.offset ||| TOMBSTONE_BIT, old.totalLen⟩

end Slot

structure RegistryRow where
  kind : UInt8
  bucket : Nat
  start : Nat
  size : Nat
  deriving DecidableEq, Repr

/-- Every field fits the integer type that stores it. -/
structure RegistryRow.InRange (row : RegistryRow) : Prop where
  bucket : row.bucket < 2 ^ 64
  start : row.start < 2 ^ 64
  size : row.size < 2 ^ 64

namespace RegistryRow

def body (row : RegistryRow) : Bytes :=
  LittleEndian.encode 4 REGISTRY_MAGIC ++ [row.kind, 0, 0, 0]
    ++ LittleEndian.encode 8 row.bucket ++ LittleEndian.encode 8 row.start
    ++ LittleEndian.encode 8 row.size

def encode (row : RegistryRow) : Bytes :=
  row.body ++ LittleEndian.encode 4 (crc32c row.body).toNat ++ List.replicate 28 0

def decode (buf : Bytes) : Option RegistryRow :=
  if fieldNat buf 0 4 ≠ REGISTRY_MAGIC then none
  else if fieldWord buf 32 ≠ crc32c (field buf 0 32) then none
  else some
    { kind := (buf[4]?).getD 0
      bucket := fieldNat buf 8 8
      start := fieldNat buf 16 8
      size := fieldNat buf 24 8 }

end RegistryRow

end HeapStore
