import Mathlib.Data.List.Basic
import Mathlib.Algebra.Group.Nat.Defs

/-! Little-endian numerals over bytes: a number cut into a fixed count of
bytes, lowest first, and the number that a list of bytes spells. -/
namespace LittleEndian

/-- The lowest `count` base-256 digits, lowest first. -/
def encode : Nat → Nat → List UInt8
  | 0, _ => []
  | count + 1, value => UInt8.ofNat value :: encode count (value / 256)

/-- The number spelled by the digits, lowest first. -/
def decode : List UInt8 → Nat
  | [] => 0
  | digit :: rest => digit.toNat + 256 * decode rest

@[simp] theorem length_encode (count value : Nat) : (encode count value).length = count := by
  induction count generalizing value with
  | zero => rfl
  | succ count ih => simp [encode, ih]

@[simp] theorem decode_nil : decode [] = 0 := rfl

theorem decode_cons (digit : UInt8) (rest : List UInt8) :
    decode (digit :: rest) = digit.toNat + 256 * decode rest := rfl

theorem decode_lt (digits : List UInt8) : decode digits < 256 ^ digits.length := by
  induction digits with
  | nil => simp
  | cons digit rest ih =>
      have hDigit := digit.toNat_lt
      rw [decode_cons, List.length_cons, Nat.pow_succ]
      omega

theorem decode_encode_mod (count value : Nat) :
    decode (encode count value) = value % 256 ^ count := by
  induction count generalizing value with
  | zero => simp [encode, Nat.mod_one]
  | succ count ih =>
      rw [encode, decode_cons, ih, Nat.pow_succ, Nat.mul_comm (256 ^ count), Nat.mod_mul]
      simp

/-- A number that fits its width is read back exactly. -/
theorem decode_encode {count value : Nat} (h : value < 256 ^ count) :
    decode (encode count value) = value := by
  rw [decode_encode_mod, Nat.mod_eq_of_lt h]

/-- Bytes are recovered from the number that they spell. -/
theorem encode_decode (digits : List UInt8) : encode digits.length (decode digits) = digits := by
  induction digits with
  | nil => rfl
  | cons digit rest ih =>
      have hDigit := digit.toNat_lt
      have hDiv : (digit.toNat + 256 * decode rest) / 256 = decode rest := by omega
      have hHead : UInt8.ofNat (digit.toNat + 256 * decode rest) = digit := by
        apply UInt8.toNat.inj
        simp
      rw [List.length_cons, encode, decode_cons, hDiv, ih, hHead]

@[simp] theorem decode_replicate_zero (count : Nat) :
    decode (List.replicate count 0) = 0 := by
  induction count with
  | zero => rfl
  | succ count ih => simp [List.replicate_succ, decode_cons, ih]

end LittleEndian
