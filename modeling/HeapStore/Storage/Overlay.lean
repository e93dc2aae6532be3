import HeapStore.Storage.Requests
import Mathlib.Tactic.Linarith

/-! Staged writes over a file: when the page ranges of the staged writes are
disjoint, the order in which they are laid over the file does not matter. -/
namespace HeapStore

namespace StagedWrite

/-- The end of the page range of a staged write. -/
def stop (w : StagedWrite) : Nat := pageUp w.endOffset

/-- The page ranges of two staged writes do not meet. -/
def Apart (a b : StagedWrite) : Prop := a.stop ≤ b.base ∨ b.stop ≤ a.base

/-- A staged write that keeps the old bytes of its first page: the buffer
starts with them, and a write that starts inside the page has the whole page. -/
structure Captured (image : Nat → UInt8) (w : StagedWrite) : Prop where
  nonempty : w.start < w.endOffset
  old : w.buffer.take (w.start - w.base) = Image.read image w.base (w.start - w.base)
  head : w.head = if w.start - w.base = 0 then none else some (Image.read image w.base PAGE)

variable {image : Nat → UInt8} {w : StagedWrite}

theorem base_le_start (w : StagedWrite) : w.base ≤ w.start := pageDown_le _

@[simp] theorem base_mod (w : StagedWrite) : w.base % PAGE = 0 := pageDown_mod _

@[simp] theorem stop_mod (w : StagedWrite) : w.stop % PAGE = 0 := pageUp_mod _

theorem endOffset_le_stop (w : StagedWrite) : w.endOffset ≤ w.stop := le_pageUp _

theorem length_payload (w : StagedWrite) : w.payload.length = w.endOffset - w.start := by
  have hBase := w.base_le_start
  simp only [payload, endOffset, List.length_drop]
  omega

theorem Captured.length_payload (h : Captured image w) :
    w.start + w.payload.length = w.endOffset := by
  have hLength := w.length_payload
  have hNonempty := h.nonempty
  omega

theorem Captured.base_lt_stop (h : Captured image w) : w.base < w.stop := by
  have := w.base_le_start
  have := h.nonempty
  have := w.endOffset_le_stop
  omega

theorem Apart.symm {a b : StagedWrite} (h : Apart a b) : Apart b a := Or.symm h

/-- The complete buffer is the old bytes of the first page, then the payload. -/
theorem Captured.buffer_eq (h : Captured image w) :
    w.buffer = Image.read image w.base (w.start - w.base) ++ w.payload := by
  conv_lhs => rw [← List.take_append_drop (w.start - w.base) w.buffer]
  rw [h.old, payload]

end StagedWrite

open StagedWrite

namespace Store

/-- The staged writes lie in disjoint page ranges. -/
def PagewiseDisjoint (staged : List StagedWrite) : Prop := staged.Pairwise Apart

@[simp] theorem overlay_nil (image : Nat → UInt8) : overlay image [] = image := rfl

theorem overlay_cons (image : Nat → UInt8) (w : StagedWrite) (rest : List StagedWrite) :
    overlay image (w :: rest) = overlay (Image.write image w.start w.payload) rest := rfl

theorem overlay_append (image : Nat → UInt8) (a b : List StagedWrite) :
    overlay image (a ++ b) = overlay (overlay image a) b := List.foldl_append

/-- Addresses outside every staged page range show the file. -/
theorem overlay_apply_of_off (image : Nat → UInt8) {staged : List StagedWrite} {i : Nat}
    (hOff : ∀ w ∈ staged, i < w.base ∨ w.stop ≤ i) : overlay image staged i = image i := by
  induction staged generalizing image with
  | nil => rfl
  | cons w rest ih =>
      rw [overlay_cons, ih _ fun v hv => hOff v (List.mem_cons_of_mem _ hv)]
      have hBase := w.base_le_start
      have hStop := w.endOffset_le_stop
      have hLength := w.length_payload
      have hW := hOff w (List.mem_cons_self ..)
      by_cases hLt : w.start ≤ w.endOffset
      · exact Image.write_apply_off _ _ (by omega)
      · rw [List.eq_nil_of_length_eq_zero (by omega : w.payload.length = 0), Image.write_nil]

theorem overlay_congr {a b : Nat → UInt8} (staged : List StagedWrite) {i : Nat} (h : a i = b i) :
    overlay a staged i = overlay b staged i := by
  induction staged generalizing a b with
  | nil => exact h
  | cons w rest ih =>
      rw [overlay_cons, overlay_cons]
      apply ih
      simp [Image.write, h]

/-- A write outside the staged page ranges may be laid down before or after them. -/
theorem overlay_write_comm (image : Nat → UInt8) {staged : List StagedWrite} {off : Nat}
    {cells : Bytes} (hOff : ∀ w ∈ staged, off + cells.length ≤ w.base ∨ w.stop ≤ off) :
    overlay (Image.write image off cells) staged = Image.write (overlay image staged) off cells := by
  funext i
  by_cases hIn : off ≤ i ∧ i - off < cells.length
  · rw [Image.write_apply_mem _ _ hIn.1 hIn.2, overlay_apply_of_off,
      Image.write_apply_mem _ _ hIn.1 hIn.2]
    intro w hw
    have := hOff w hw
    omega
  · rw [Image.write_apply_off (overlay image staged) cells (by omega)]
    apply overlay_congr
    exact Image.write_apply_off _ _ (by omega)

end Store

end HeapStore
