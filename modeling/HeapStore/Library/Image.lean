import Mathlib.Data.List.Basic

/-! Flat addressable images: a total map from addresses to cells, read and
overwritten by whole lists. Nothing here knows what the cells are for. -/
namespace Image

variable {α : Type*}

/-- The `count` cells starting at an address, in address order. -/
def read (image : Nat → α) : Nat → Nat → List α
  | _, 0 => []
  | off, count + 1 => image off :: read image (off + 1) count

/-- Overwrite the cells from `off` on with a list; all others are kept. -/
def write (image : Nat → α) (off : Nat) (cells : List α) : Nat → α := fun i =>
  if i < off then image i else (cells[i - off]?).getD (image i)

/-- The list is stored at this address. -/
def Holds (image : Nat → α) (off : Nat) (cells : List α) : Prop :=
  ∀ (i : Nat) (h : i < cells.length), image (off + i) = cells[i]

/-- Two images with the same cells in `[lo, hi)`. -/
def Agree (a b : Nat → α) (lo hi : Nat) : Prop :=
  ∀ i, lo ≤ i → i < hi → a i = b i

@[simp] theorem read_zero (image : Nat → α) (off : Nat) : read image off 0 = [] := rfl

theorem read_succ (image : Nat → α) (off count : Nat) :
    read image off (count + 1) = image off :: read image (off + 1) count := rfl

@[simp] theorem length_read (image : Nat → α) (off count : Nat) :
    (read image off count).length = count := by
  induction count generalizing off with
  | zero => rfl
  | succ count ih => simp [read, ih]

theorem getElem?_read (image : Nat → α) (off count i : Nat) :
    (read image off count)[i]? = if i < count then some (image (off + i)) else none := by
  induction count generalizing off i with
  | zero => simp
  | succ count ih =>
      cases i with
      | zero => simp [read]
      | succ i => simp [read, ih, Nat.add_assoc, Nat.add_comm 1 i]

@[simp] theorem getElem_read (image : Nat → α) (off count i : Nat)
    (h : i < (read image off count).length) :
    (read image off count)[i] = image (off + i) := by
  have hi : i < count := by simpa using h
  have hGet := getElem?_read image off count i
  rw [List.getElem?_eq_getElem h, if_pos hi] at hGet
  exact Option.some.inj hGet

theorem read_add (image : Nat → α) (off m n : Nat) :
    read image off (m + n) = read image off m ++ read image (off + m) n := by
  induction m generalizing off with
  | zero => simp
  | succ m ih =>
      rw [show m + 1 + n = (m + n) + 1 by omega, read_succ, ih, read_succ]
      simp [Nat.add_assoc, Nat.add_comm 1 m]

theorem take_read (image : Nat → α) (off count k : Nat) (h : k ≤ count) :
    (read image off count).take k = read image off k := by
  obtain ⟨d, rfl⟩ := Nat.exists_eq_add_of_le h
  rw [read_add, List.take_left' (by simp)]

theorem drop_read (image : Nat → α) (off count k : Nat) (h : k ≤ count) :
    (read image off count).drop k = read image (off + k) (count - k) := by
  obtain ⟨d, rfl⟩ := Nat.exists_eq_add_of_le h
  rw [read_add, List.drop_left' (by simp), Nat.add_sub_cancel_left]

theorem read_congr {a b : Nat → α} {off count : Nat} (h : Agree a b off (off + count)) :
    read a off count = read b off count := by
  induction count generalizing off with
  | zero => rfl
  | succ count ih =>
      rw [read_succ, read_succ, h off (by omega) (by omega),
        ih (fun i hLo hHi => h i (by omega) (by omega))]

theorem write_apply_lt (image : Nat → α) {off i : Nat} (cells : List α) (h : i < off) :
    write image off cells i = image i := by
  simp [write, h]

theorem write_apply_ge (image : Nat → α) {off i : Nat} (cells : List α)
    (h : off + cells.length ≤ i) : write image off cells i = image i := by
  have hOut : cells[i - off]? = none := List.getElem?_eq_none (by omega)
  simp [write, hOut]

theorem write_apply_mem (image : Nat → α) {off i : Nat} (cells : List α)
    (hLo : off ≤ i) (hHi : i - off < cells.length) :
    write image off cells i = cells[i - off] := by
  simp [write, Nat.not_lt.mpr hLo, List.getElem?_eq_getElem hHi]

theorem write_apply_off (image : Nat → α) {off i : Nat} (cells : List α)
    (h : i < off ∨ off + cells.length ≤ i) : write image off cells i = image i := by
  rcases h with h | h
  · exact write_apply_lt image cells h
  · exact write_apply_ge image cells h

@[simp] theorem write_nil (image : Nat → α) (off : Nat) : write image off [] = image := by
  funext i
  simp [write]

theorem write_append (image : Nat → α) (off : Nat) (first second : List α) :
    write image off (first ++ second) =
      write (write image off first) (off + first.length) second := by
  funext i
  rcases Nat.lt_or_ge i off with hLt | hGe
  · rw [write_apply_lt _ _ hLt, write_apply_lt _ _ (by omega), write_apply_lt _ _ hLt]
  rcases Nat.lt_or_ge i (off + first.length) with hMid | hMid
  · rw [write_apply_lt _ second hMid,
      write_apply_mem image (first ++ second) hGe (by simp; omega),
      write_apply_mem image first hGe (by omega), List.getElem_append_left]
  rcases Nat.lt_or_ge i (off + first.length + second.length) with hHi | hHi
  · rw [write_apply_mem image (first ++ second) hGe (by simp; omega),
      write_apply_mem _ second hMid (by omega), List.getElem_append_right (by omega)]
    congr 1
    omega
  · rw [write_apply_ge _ _ (by simp; omega), write_apply_ge _ second hHi,
      write_apply_ge _ first (by omega)]

theorem read_write_same (image : Nat → α) (off : Nat) (cells : List α) :
    read (write image off cells) off cells.length = cells := by
  apply List.ext_getElem (by simp)
  intro i hLeft hRight
  rw [getElem_read, write_apply_mem _ _ (by omega) (by omega)]
  congr 1
  omega

theorem read_write_off (image : Nat → α) {off count at' : Nat} (cells : List α)
    (h : off + count ≤ at' ∨ at' + cells.length ≤ off) :
    read (write image at' cells) off count = read image off count := by
  apply read_congr
  intro i hLo hHi
  exact write_apply_off _ _ (by omega)

/-- Cells written right behind a range extend it. -/
theorem read_write_end (image : Nat → α) (off count : Nat) (cells : List α) :
    read (write image (off + count) cells) off (count + cells.length) = read image off count ++ cells := by
  rw [read_add, read_write_same, read_write_off _ _ (.inl (Nat.le_refl _))]

theorem holds_iff_read (image : Nat → α) (off : Nat) (cells : List α) :
    Holds image off cells ↔ read image off cells.length = cells := by
  constructor
  · intro h
    apply List.ext_getElem (by simp)
    intro i hLeft hRight
    rw [getElem_read]
    exact h i hRight
  · intro h i hi
    have hGet : (read image off cells.length)[i]? = some (image (off + i)) := by
      rw [getElem?_read, if_pos hi]
    rw [h, List.getElem?_eq_getElem hi, Option.some.injEq] at hGet
    exact hGet.symm

theorem holds_write_same (image : Nat → α) (off : Nat) (cells : List α) :
    Holds (write image off cells) off cells :=
  (holds_iff_read _ _ _).mpr (read_write_same image off cells)

theorem Holds.congr {a b : Nat → α} {off : Nat} {cells : List α} (hold : Holds a off cells)
    (h : Agree a b off (off + cells.length)) : Holds b off cells := by
  intro i hi
  rw [← h (off + i) (by omega) (by omega)]
  exact hold i hi

theorem Holds.write_off {image : Nat → α} {off at' : Nat} {cells : List α} (other : List α)
    (hold : Holds image off cells)
    (h : off + cells.length ≤ at' ∨ at' + other.length ≤ off) :
    Holds (write image at' other) off cells :=
  hold.congr fun i hLo hHi => (write_apply_off _ _ (by omega)).symm

theorem Holds.append_left {image : Nat → α} {off : Nat} {first second : List α}
    (h : Holds image off (first ++ second)) : Holds image off first := by
  intro i hi
  rw [h i (by simp; omega), List.getElem_append_left]

theorem Holds.append_right {image : Nat → α} {off : Nat} {first second : List α}
    (h : Holds image off (first ++ second)) : Holds image (off + first.length) second := by
  intro i hi
  rw [Nat.add_assoc, h (first.length + i) (by simp; omega), List.getElem_append_right (by omega)]
  simp

theorem Agree.symm {a b : Nat → α} {lo hi : Nat} (h : Agree a b lo hi) : Agree b a lo hi :=
  fun i hLo hHi => (h i hLo hHi).symm

theorem Agree.trans {a b c : Nat → α} {lo hi : Nat} (h : Agree a b lo hi) (k : Agree b c lo hi) :
    Agree a c lo hi :=
  fun i hLo hHi => (h i hLo hHi).trans (k i hLo hHi)

theorem Agree.mono {a b : Nat → α} {lo hi lo' hi' : Nat} (h : Agree a b lo hi)
    (hLo : lo ≤ lo') (hHi : hi' ≤ hi) : Agree a b lo' hi' :=
  fun i h₁ h₂ => h i (Nat.le_trans hLo h₁) (Nat.lt_of_lt_of_le h₂ hHi)

theorem agree_write (image : Nat → α) (cells : List α) {off lo hi : Nat}
    (h : hi ≤ off ∨ off + cells.length ≤ lo) : Agree (write image off cells) image lo hi :=
  fun i hLo hHi => write_apply_off _ _ (by omega)

/-- Rewriting a block that contains the changed range with the block's new
content is the same as making the change itself. -/
theorem write_block (image base : Nat → α) {off blockOff count : Nat} (cells : List α)
    (hLo : blockOff ≤ off) (hHi : off + cells.length ≤ blockOff + count)
    (hAgree : Agree image base blockOff (blockOff + count)) :
    write image blockOff (read (write base off cells) blockOff count) = write image off cells := by
  funext i
  rcases Nat.lt_or_ge i blockOff with hLt | hGe
  · rw [write_apply_lt _ _ hLt, write_apply_lt _ _ (by omega)]
  rcases Nat.lt_or_ge i (blockOff + count) with hIn | hOut
  · rw [write_apply_mem _ _ hGe (by simp; omega), getElem_read,
      show blockOff + (i - blockOff) = i by omega]
    simp only [write]
    rw [hAgree i hGe hIn]
  · rw [write_apply_ge _ _ (by simpa using hOut), write_apply_ge _ _ (by omega)]

end Image
