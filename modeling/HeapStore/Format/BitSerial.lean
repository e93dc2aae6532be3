import HeapStore.Format.Crc32
import HeapStore.Library.LittleEndian
import HeapStore.Library.ShiftRegister

/-! The checksum as a feedback shift register: one step for each message bit.
The tables advance a byte by whole byte steps, so that the chunked computation
is the bit-serial one. -/
namespace HeapStore

open ShiftRegister

/-- The bits of a message, each byte lowest bit first. -/
def messageBits (data : Bytes) : List Bool :=
  data.flatMap fun byte => (List.range 8).map byte.toBitVec.getLsbD

/-- The register that has taken the bits of a message one at a time. -/
def crcRegister (crc : BitVec 32) (data : Bytes) : BitVec 32 :=
  (messageBits data).foldl (absorb CRC32C_POLYNOMIAL) crc

/-- The reflected CRC-32C of a message, one bit at a time. -/
def crcSerial (data : Bytes) : BitVec 32 := ~~~ (crcRegister (~~~ 0#32) data)

/-- Step the register of the checksum. -/
abbrev crcSteps (n : Nat) (crc : BitVec 32) : BitVec 32 := steps CRC32C_POLYNOMIAL n crc

section Words

variable {w : Nat}

theorem lowBits_add (m n : Nat) (word : BitVec w) :
    lowBits (m + n) word = lowBits m word ++ lowBits n (word >>> m) := by
  rw [lowBits, List.range_add, List.map_append, List.map_map, lowBits, lowBits]
  congr 1
  apply List.map_congr_left
  intro i _
  simp

/-- The bits of bytes are the low bits of the number that they spell. -/
theorem lowBits_decode {data : Bytes} (h : 8 * data.length ≤ w) :
    lowBits (8 * data.length) (BitVec.ofNat w (LittleEndian.decode data)) = messageBits data := by
  induction data with
  | nil => rfl
  | cons byte rest ih =>
      rw [List.length_cons] at h
      have hLt := LittleEndian.decode_lt rest
      have hByte := byte.toNat_lt
      have hPow : 256 * 256 ^ rest.length ≤ 2 ^ w := by
        calc 256 * 256 ^ rest.length = 2 ^ (8 * (rest.length + 1)) := by
              rw [Nat.pow_mul, Nat.pow_succ, Nat.mul_comm]
          _ ≤ 2 ^ w := Nat.pow_le_pow_right (by decide) h
      have hValue : byte.toNat + 256 * LittleEndian.decode rest < 2 ^ w := by omega
      have hHigh : BitVec.ofNat w (byte.toNat + 256 * LittleEndian.decode rest) >>> 8 =
          BitVec.ofNat w (LittleEndian.decode rest) := by
        apply BitVec.eq_of_toNat_eq
        rw [BitVec.toNat_ushiftRight, BitVec.toNat_ofNat, BitVec.toNat_ofNat,
          Nat.mod_eq_of_lt hValue, Nat.mod_eq_of_lt (by omega), Nat.shiftRight_eq_div_pow]
        omega
      have hLow : lowBits 8 (BitVec.ofNat w (byte.toNat + 256 * LittleEndian.decode rest)) =
          (List.range 8).map byte.toBitVec.getLsbD := by
        apply List.map_congr_left
        intro i hi
        have hi := List.mem_range.mp hi
        have hDigit : (byte.toNat + 256 * LittleEndian.decode rest).testBit i =
            byte.toNat.testBit i := by
          have hPower : (256 : Nat) = 2 ^ 8 := by decide
          rw [Nat.add_comm, hPower, Nat.testBit_two_pow_mul_add _ hByte, if_pos hi]
        rw [BitVec.getLsbD_ofNat, hDigit]
        simp only [show i < w by omega, decide_true, Bool.true_and]
        rfl
      rw [List.length_cons, Nat.mul_succ, Nat.add_comm, lowBits_add, LittleEndian.decode_cons,
        hHigh, ih (by omega), hLow]
      rfl

end Words

/-- The word whose little-endian bytes these are, as the number that they spell. -/
theorem fromLeBytes_eq (b0 b1 b2 b3 : UInt8) :
    fromLeBytes b0 b1 b2 b3 = BitVec.ofNat 32 (LittleEndian.decode [b0, b1, b2, b3]) := by
  have h0 := b0.toNat_lt
  have h1 := b1.toNat_lt
  have h2 := b2.toNat_lt
  have h3 := b3.toNat_lt
  apply BitVec.eq_of_toNat_eq
  simp only [fromLeBytes, BitVec.toNat_append, UInt8.toNat_toBitVec]
  rw [← Nat.shiftLeft_add_eq_or_of_lt h2, ← Nat.shiftLeft_add_eq_or_of_lt h1,
    ← Nat.shiftLeft_add_eq_or_of_lt h0, BitVec.toNat_ofNat]
  simp only [LittleEndian.decode, Nat.shiftLeft_eq]
  omega

/-! The tables. -/

theorem tableBit_eq (crc : BitVec 32) : tableBit crc = step CRC32C_POLYNOMIAL crc := by
  have hLow : crc &&& 1#32 ≠ 0#32 ↔ crc.getLsbD 0 = true := by
    rw [BitVec.and_one_eq_setWidth_ofBool_getLsbD]
    cases crc.getLsbD 0 <;> decide
  simp only [tableBit, step, hLow]

theorem TABLES_zero (byteValue : Nat) :
    TABLES 0 byteValue = crcSteps 8 (BitVec.ofNat 32 byteValue) := by
  have hStep : tableBit = step CRC32C_POLYNOMIAL := funext tableBit_eq
  rw [TABLES, hStep]
  rfl

/-- The lowest byte of a word and the bytes above it. -/
theorem split_byte (x : BitVec 32) : (x &&& 0xFF#32) ^^^ (x &&& ~~~ 0xFF#32) = x := by
  apply BitVec.eq_of_getLsbD_eq
  intro i hi
  simp only [BitVec.getLsbD_xor, BitVec.getLsbD_and, BitVec.getLsbD_not, hi]
  cases x.getLsbD i <;> cases (0xFF#32).getLsbD i <;> rfl

theorem getLsbD_byteMask (i : Nat) : (0xFF#32).getLsbD i = decide (i < 8) := by
  have hMask : (255 : Nat).testBit i = decide (i < 8) := Nat.testBit_two_pow_sub_one 8 i
  rw [BitVec.getLsbD_ofNat, hMask]
  by_cases h : i < 8
  · simp [h, show i < 32 by omega]
  · simp [h]

/-- One byte step: a table entry for the lowest byte, and a shift of the others. -/
theorem crcSteps_byte (x : BitVec 32) :
    crcSteps 8 x = (x >>> 8) ^^^ TABLES 0 (x &&& 0xFF#32).toNat := by
  have hHigh : crcSteps 8 (x &&& ~~~ 0xFF#32) = x >>> 8 := by
    rw [crcSteps, steps_of_low]
    · apply BitVec.eq_of_getLsbD_eq
      intro i hi
      simp only [BitVec.getLsbD_ushiftRight, BitVec.getLsbD_and, BitVec.getLsbD_not,
        getLsbD_byteMask]
      by_cases hIn : 8 + i < 32
      · simp [hIn]
      · simp [BitVec.getLsbD_of_ge x (8 + i) (by omega)]
    · intro i hi
      rw [BitVec.getLsbD_and, BitVec.getLsbD_not, getLsbD_byteMask]
      simp [hi]
  calc crcSteps 8 x = crcSteps 8 ((x &&& 0xFF#32) ^^^ (x &&& ~~~ 0xFF#32)) := by rw [split_byte]
    _ = crcSteps 8 (x &&& 0xFF#32) ^^^ (x >>> 8) := steps_xor.trans (congrArg _ hHigh)
    _ = (x >>> 8) ^^^ TABLES 0 (x &&& 0xFF#32).toNat := by
      rw [TABLES_zero, BitVec.ofNat_toNat, BitVec.setWidth_eq, BitVec.xor_comm]

/-- Table `k` advances a byte by `k + 1` byte steps. -/
theorem TABLES_eq (k byteValue : Nat) :
    TABLES k byteValue = crcSteps (8 * (k + 1)) (BitVec.ofNat 32 byteValue) := by
  induction k with
  | zero => exact TABLES_zero byteValue
  | succ k ih =>
      rw [TABLES, ← crcSteps_byte, ih, Nat.mul_succ 8 (k + 1), Nat.add_comm (8 * (k + 1))]
      exact steps_add.symm

/-- A run of byte steps takes the lowest byte from one table. -/
theorem crcSteps_succ (k : Nat) (x : BitVec 32) :
    crcSteps (8 * (k + 1)) x = crcSteps (8 * k) (x >>> 8) ^^^ TABLES k (x &&& 0xFF#32).toNat := by
  have hTable : TABLES k (x &&& 0xFF#32).toNat =
      crcSteps (8 * k) (TABLES 0 (x &&& 0xFF#32).toNat) := by
    rw [TABLES_eq, TABLES_zero, Nat.mul_succ]
    exact steps_add
  rw [hTable, ← steps_xor, ← crcSteps_byte, Nat.mul_succ]
  exact steps_add

/-! The loop. -/

theorem crcByte_eq (crc : BitVec 32) (byte : UInt8) :
    crcByte crc byte = crcSteps 8 (crc ^^^ byte.toBitVec.setWidth 32) := by
  have hShift : (byte.toBitVec.setWidth 32) >>> 8 = 0#32 := by
    apply BitVec.eq_of_getLsbD_eq
    intro i hi
    simp
  rw [crcByte, crcSteps_byte, BitVec.ushiftRight_xor_distrib, hShift, BitVec.xor_zero]

theorem crcRegister_append (crc : BitVec 32) (a b : Bytes) :
    crcRegister crc (a ++ b) = crcRegister (crcRegister crc a) b := by
  rw [crcRegister, messageBits, List.flatMap_append, List.foldl_append]
  rfl

/-- Up to four bytes are put into the register at once. -/
theorem crcRegister_word (crc : BitVec 32) {data : Bytes} (h : data.length ≤ 4) :
    crcRegister crc data =
      crcSteps (8 * data.length) (crc ^^^ BitVec.ofNat 32 (LittleEndian.decode data)) := by
  have hLt := LittleEndian.decode_lt data
  have hPow : 2 ^ (8 * data.length) = 256 ^ data.length := Nat.pow_mul 2 8 data.length
  have hBig : 256 ^ data.length ≤ 256 ^ 4 := Nat.pow_le_pow_right (by decide) h
  rw [crcRegister, ← lowBits_decode (w := 32) (by omega)]
  apply foldl_absorb_of_shifted
  apply BitVec.eq_of_toNat_eq
  rw [BitVec.toNat_ushiftRight, BitVec.toNat_ofNat, Nat.mod_eq_of_lt (by omega),
    Nat.shiftRight_eq_div_pow, hPow, Nat.div_eq_of_lt hLt]
  rfl

theorem crcByte_eq_register (crc : BitVec 32) (byte : UInt8) :
    crcByte crc byte = crcRegister crc [byte] := by
  rw [crcByte_eq, crcRegister_word crc (by simp)]
  congr 2
  apply BitVec.eq_of_toNat_eq
  simp [LittleEndian.decode]

theorem foldl_crcByte (crc : BitVec 32) (data : Bytes) :
    data.foldl crcByte crc = crcRegister crc data := by
  induction data generalizing crc with
  | nil => rfl
  | cons byte rest ih =>
      rw [List.foldl_cons, ih, crcByte_eq_register, ← crcRegister_append]
      rfl

/-- A word of the register is spread over four tables. -/
theorem crcSteps_word (k : Nat) (x : BitVec 32) :
    crcSteps (8 * (k + 4)) x =
      TABLES (k + 3) (x &&& 0xFF#32).toNat
        ^^^ TABLES (k + 2) ((x >>> 8) &&& 0xFF#32).toNat
        ^^^ TABLES (k + 1) ((x >>> 16) &&& 0xFF#32).toNat
        ^^^ TABLES k (x >>> 24).toNat := by
  have hTop : (x >>> 24) &&& 0xFF#32 = x >>> 24 := by
    apply BitVec.eq_of_getLsbD_eq
    intro i hi
    rw [BitVec.getLsbD_and, getLsbD_byteMask, BitVec.getLsbD_ushiftRight]
    by_cases h : i < 8
    · simp [h]
    · simp [BitVec.getLsbD_of_ge x (24 + i) (by omega)]
  have hGone : crcSteps (8 * k) (x >>> 32) = 0#32 := by
    rw [BitVec.ushiftRight_eq_zero (by omega)]
    exact steps_of_low (fun i _ => BitVec.getLsbD_zero) |>.trans (BitVec.zero_ushiftRight)
  have hShift (n : Nat) : x >>> n >>> 8 = x >>> (n + 8) := (BitVec.shiftRight_add ..).symm
  rw [crcSteps_succ (k + 3), crcSteps_succ (k + 2), crcSteps_succ (k + 1), crcSteps_succ k,
    hShift, hShift, hShift, hGone, hTop, BitVec.zero_xor]
  ac_rfl

theorem crcRegister_four (crc : BitVec 32) (b0 b1 b2 b3 : UInt8) :
    crcRegister crc [b0, b1, b2, b3] = crcSteps 32 (crc ^^^ fromLeBytes b0 b1 b2 b3) := by
  rw [crcRegister_word crc (by simp), ← fromLeBytes_eq]
  simp only [List.length_cons, List.length_nil, Nat.zero_add, Nat.reduceAdd, Nat.reduceMul]

theorem crcChunk_eq (crc : BitVec 32) (c0 c1 c2 c3 c4 c5 c6 c7 : UInt8) :
    crcChunk crc c0 c1 c2 c3 c4 c5 c6 c7 = crcRegister crc [c0, c1, c2, c3, c4, c5, c6, c7] := by
  have hLower : crcSteps 64 (fromLeBytes c0 c1 c2 c3 ^^^ crc) = _ := crcSteps_word 4 _
  have hUpper : crcSteps 32 (fromLeBytes c4 c5 c6 c7) = _ := crcSteps_word 0 _
  have hTwice (x : BitVec 32) : crcSteps 64 x = crcSteps 32 (crcSteps 32 x) :=
    steps_add (m := 32) (n := 32)
  have hRun : crcRegister crc ([c0, c1, c2, c3] ++ [c4, c5, c6, c7]) =
      crcSteps 64 (fromLeBytes c0 c1 c2 c3 ^^^ crc) ^^^ crcSteps 32 (fromLeBytes c4 c5 c6 c7) := by
    rw [crcRegister_append, crcRegister_four, crcRegister_four, BitVec.xor_comm crc, hTwice]
    exact steps_xor
  refine Eq.trans ?_ hRun.symm
  rw [hLower, hUpper, crcChunk]
  simp only [BitVec.xor_assoc]

theorem crcLoop_eq (crc : BitVec 32) (data : Bytes) : crcLoop crc data = crcRegister crc data := by
  induction crc, data using crcLoop.induct with
  | case1 crc c0 c1 c2 c3 c4 c5 c6 c7 rest ih =>
      rw [crcLoop, ih, crcChunk_eq, ← crcRegister_append]
      rfl
  | case2 crc remainder hShort =>
      rw [crcLoop]
      · exact foldl_crcByte crc remainder
      · exact hShort

/-- The sliced computation is the bit-serial one, for every message. -/
theorem crc32c_eq_crcSerial (data : Bytes) : crc32c data = crcSerial data := by
  rw [crc32c, crcSerial, crcLoop_eq]

end HeapStore
