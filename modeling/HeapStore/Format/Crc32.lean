import Mathlib.Logic.Function.Iterate

/-! The record integrity check: a reflected CRC-32C computed eight bytes at a
time from eight tables, with a bytewise remainder. -/
namespace HeapStore

abbrev Bytes := List UInt8

def CRC32C_POLYNOMIAL : BitVec 32 := 0x82F63B78#32

/-- One of the eight bit steps that fill the first table. -/
def tableBit (crc : BitVec 32) : BitVec 32 :=
  if crc &&& 1#32 ≠ 0#32 then (crc >>> 1) ^^^ CRC32C_POLYNOMIAL else crc >>> 1

/-- The generated tables; table `k` advances a byte by `k + 1` byte steps. -/
def TABLES : Nat → Nat → BitVec 32
  | 0, byteValue => tableBit^[8] (BitVec.ofNat 32 byteValue)
  | tableIndex + 1, byteValue =>
      let prev := TABLES tableIndex byteValue
      (prev >>> 8) ^^^ TABLES 0 (prev &&& 0xFF#32).toNat

/-- The 32-bit word whose little-endian bytes these are. -/
def fromLeBytes (b0 b1 b2 b3 : UInt8) : BitVec 32 :=
  b3.toBitVec ++ b2.toBitVec ++ b1.toBitVec ++ b0.toBitVec

def crcChunk (crc : BitVec 32) (c0 c1 c2 c3 c4 c5 c6 c7 : UInt8) : BitVec 32 :=
  let lower := fromLeBytes c0 c1 c2 c3 ^^^ crc
  let upper := fromLeBytes c4 c5 c6 c7
  TABLES 7 (lower &&& 0xFF#32).toNat
    ^^^ TABLES 6 ((lower >>> 8) &&& 0xFF#32).toNat
    ^^^ TABLES 5 ((lower >>> 16) &&& 0xFF#32).toNat
    ^^^ TABLES 4 (lower >>> 24).toNat
    ^^^ TABLES 3 (upper &&& 0xFF#32).toNat
    ^^^ TABLES 2 ((upper >>> 8) &&& 0xFF#32).toNat
    ^^^ TABLES 1 ((upper >>> 16) &&& 0xFF#32).toNat
    ^^^ TABLES 0 (upper >>> 24).toNat

def crcByte (crc : BitVec 32) (byte : UInt8) : BitVec 32 :=
  (crc >>> 8) ^^^ TABLES 0 ((crc ^^^ (byte.toBitVec.setWidth 32)) &&& 0xFF#32).toNat

/-- Whole chunks first, then what is left of the slice byte by byte. -/
def crcLoop : BitVec 32 → Bytes → BitVec 32
  | crc, c0 :: c1 :: c2 :: c3 :: c4 :: c5 :: c6 :: c7 :: rest =>
      crcLoop (crcChunk crc c0 c1 c2 c3 c4 c5 c6 c7) rest
  | crc, remainder => remainder.foldl crcByte crc

def crc32c (data : Bytes) : BitVec 32 := ~~~ (crcLoop (~~~ 0#32) data)

example : crc32c [] = 0#32 := by decide

example : crc32c "123456789".toUTF8.toList = 0xE3069283#32 := by decide +kernel

end HeapStore
