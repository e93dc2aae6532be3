import Mathlib.Data.List.Basic
import Mathlib.Logic.Function.Iterate

/-! Feedback shift registers that shift to the right, as reflected checksums
use them: one step, its linearity, and the message bits that a run absorbs. -/
namespace ShiftRegister

variable {w : Nat} (poly : BitVec w)

/-- One step: the bit that leaves the register selects the feedback. -/
def step (x : BitVec w) : BitVec w :=
  if x.getLsbD 0 then (x >>> 1) ^^^ poly else x >>> 1

def steps (n : Nat) (x : BitVec w) : BitVec w := (step poly)^[n] x

/-- Take one message bit into the register. -/
def absorb (x : BitVec w) (bit : Bool) : BitVec w :=
  step poly (x ^^^ (BitVec.ofBool bit).setWidth w)

/-- The lowest bits of a word, lowest first. -/
def lowBits (n : Nat) (word : BitVec w) : List Bool := (List.range n).map word.getLsbD

variable {poly} {x y : BitVec w} {m n : Nat}

@[simp] theorem steps_zero_count : steps poly 0 x = x := rfl

theorem steps_succ : steps poly (n + 1) x = steps poly n (step poly x) :=
  Function.iterate_succ_apply ..

theorem steps_add : steps poly (m + n) x = steps poly m (steps poly n x) :=
  Function.iterate_add_apply ..

theorem step_xor : step poly (x ^^^ y) = step poly x ^^^ step poly y := by
  unfold step
  rw [BitVec.getLsbD_xor, BitVec.ushiftRight_xor_distrib]
  have hCancel : ∀ a b : BitVec w, a ^^^ poly ^^^ (b ^^^ poly) = a ^^^ b := by
    intro a b
    rw [BitVec.xor_comm b, BitVec.xor_assoc, ← BitVec.xor_assoc poly, BitVec.xor_self,
      BitVec.zero_xor]
  cases x.getLsbD 0 <;> cases y.getLsbD 0
  · simp
  · simp [BitVec.xor_assoc]
  · simp only [Bool.xor_false, if_true, Bool.false_eq_true, if_false]
    rw [BitVec.xor_assoc, BitVec.xor_comm (y >>> 1), ← BitVec.xor_assoc]
  · simp [hCancel]

theorem steps_xor : steps poly n (x ^^^ y) = steps poly n x ^^^ steps poly n y := by
  induction n generalizing x y with
  | zero => rfl
  | succ n ih => simp only [steps_succ, step_xor, ih]

/-- As long as zeros leave the register, it only shifts. -/
theorem steps_of_low (h : ∀ i, i < n → x.getLsbD i = false) : steps poly n x = x >>> n := by
  induction n generalizing x with
  | zero => simp
  | succ n ih =>
      have hStep : step poly x = x >>> 1 := by
        rw [step, h 0 (by omega)]
        simp
      rw [steps_succ, hStep, ih, ← BitVec.shiftRight_add, Nat.add_comm]
      intro i hi
      rw [BitVec.getLsbD_ushiftRight]
      exact h (1 + i) (by omega)

/-- A run that reaches zero started there, as the feedback sets the top bit. -/
theorem step_eq_zero (hTop : poly.msb = true) (h : step poly x = 0#w) : x = 0#w := by
  unfold step at h
  split at h
  · rename_i hLow
    have hMsb : (x >>> 1 ^^^ poly).msb = false := by rw [h, BitVec.msb_zero]
    rw [BitVec.msb_xor, hTop, BitVec.msb_ushiftRight] at hMsb
    cases hMsb
  · rename_i hLow
    apply BitVec.eq_of_getLsbD_eq
    intro i hi
    rw [BitVec.getLsbD_zero]
    cases i with
    | zero => simpa using hLow
    | succ i =>
        have hBit : (x >>> 1).getLsbD i = false := by rw [h, BitVec.getLsbD_zero]
        rwa [BitVec.getLsbD_ushiftRight, Nat.add_comm] at hBit

theorem steps_eq_zero (hTop : poly.msb = true) (h : steps poly n x = 0#w) : x = 0#w := by
  induction n generalizing x with
  | zero => exact h
  | succ n ih =>
      rw [steps_succ] at h
      exact step_eq_zero hTop (ih h)

/-- Different registers stay different. -/
theorem steps_injective (hTop : poly.msb = true) (n : Nat) :
    Function.Injective (steps poly n) := by
  intro x y h
  have hDiff : steps poly n (x ^^^ y) = 0#w := by rw [steps_xor, h, BitVec.xor_self]
  have hZero := steps_eq_zero hTop hDiff
  exact BitVec.xor_eq_zero_iff.mp hZero

@[simp] theorem length_lowBits (word : BitVec w) : (lowBits n word).length = n := by
  simp [lowBits]

theorem lowBits_succ (word : BitVec w) :
    lowBits (n + 1) word = word.getLsbD 0 :: lowBits n (word >>> 1) := by
  rw [lowBits, List.range_succ_eq_map, List.map_cons, List.map_map, lowBits]
  congr 1
  apply List.map_congr_left
  intro i _
  simp [Nat.add_comm]

/-- A register whose lowest bit is cleared by itself shifts without feedback. -/
theorem step_clear (word : BitVec w) :
    step poly (word ^^^ (BitVec.ofBool (word.getLsbD 0)).setWidth w) = word >>> 1 := by
  have hShift : (BitVec.ofBool (word.getLsbD 0)).setWidth w >>> 1 = 0#w := by
    apply BitVec.eq_of_getLsbD_eq
    intro i hi
    simp [Nat.add_comm 1 i]
  have hLow : (word ^^^ (BitVec.ofBool (word.getLsbD 0)).setWidth w).getLsbD 0 = false := by
    rw [BitVec.getLsbD_xor, BitVec.getLsbD_setWidth, BitVec.getLsbD_ofBool]
    rcases Nat.eq_zero_or_pos w with rfl | hw
    · simp
    · simp [hw]
  rw [step, hLow, BitVec.ushiftRight_xor_distrib, hShift, BitVec.xor_zero]
  simp

/-- Bits that are absorbed one by one can be put into the register at once. -/
theorem foldl_absorb_lowBits (word : BitVec w) :
    (lowBits n word).foldl (absorb poly) x = steps poly n (x ^^^ word) ^^^ (word >>> n) := by
  induction n generalizing x word with
  | zero =>
      rw [lowBits, List.range_zero, List.map_nil, List.foldl_nil, steps_zero_count,
        BitVec.ushiftRight_zero, BitVec.xor_assoc, BitVec.xor_self, BitVec.xor_zero]
  | succ n ih =>
      have hSplit : step poly (x ^^^ word) = absorb poly x (word.getLsbD 0) ^^^ (word >>> 1) := by
        rw [absorb, ← step_clear word, ← step_xor]
        congr 1
        rw [BitVec.xor_comm word, ← BitVec.xor_assoc, BitVec.xor_assoc x, BitVec.xor_self,
          BitVec.xor_zero]
      rw [lowBits_succ, List.foldl_cons, ih, steps_succ, hSplit, ← BitVec.shiftRight_add,
        Nat.add_comm 1 n]

/-- All bits of a word that the run shifts out are absorbed. -/
theorem foldl_absorb_of_shifted {word : BitVec w} (h : word >>> n = 0#w) :
    (lowBits n word).foldl (absorb poly) x = steps poly n (x ^^^ word) := by
  rw [foldl_absorb_lowBits, h, BitVec.xor_zero]

end ShiftRegister
