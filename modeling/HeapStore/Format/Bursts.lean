import HeapStore.Format.BitSerial
import HeapStore.Format.Codec

/-! The checksum tells messages apart that differ in a few neighbouring bytes
only, also when the difference reaches into the stored checksum itself. -/
namespace HeapStore

open ShiftRegister

/-- Two lists of one length that agree outside a window of some width. -/
structure Burst {α : Type} (width : Nat) (a b : List α) : Prop where
  length : a.length = b.length
  window : ∃ start, ∀ i, i < start ∨ start + width ≤ i → a[i]? = b[i]?

namespace Burst

variable {α : Type} {width : Nat} {a b : List α}

theorem take (h : Burst width a b) (n : Nat) : Burst width (a.take n) (b.take n) := by
  constructor
  case length => rw [List.length_take, List.length_take, h.length]
  case window =>
    obtain ⟨start, hAgree⟩ := h.window
    refine ⟨start, ?_⟩
    intro i hi
    rw [List.getElem?_take, List.getElem?_take, hAgree i hi]

theorem drop (h : Burst width a b) (n : Nat) : Burst width (a.drop n) (b.drop n) := by
  constructor
  case length => rw [List.length_drop, List.length_drop, h.length]
  case window =>
    obtain ⟨start, hAgree⟩ := h.window
    refine ⟨start - n, ?_⟩
    intro i hi
    rw [List.getElem?_drop, List.getElem?_drop]
    apply hAgree
    omega

theorem field {a b : Bytes} (h : Burst width a b) (off count : Nat) :
    Burst width (field a off count) (HeapStore.field b off count) :=
  (h.drop off).take count

/-- What comes before the window, the window, and what comes after it. -/
theorem parts (h : Burst width a b) :
    ∃ before first second after, a = before ++ first ++ after ∧ b = before ++ second ++ after ∧
      first.length = second.length ∧ first.length ≤ width := by
  obtain ⟨start, hAgree⟩ := h.window
  have hBefore : a.take start = b.take start := by
    apply List.ext_getElem?
    intro i
    rw [List.getElem?_take, List.getElem?_take]
    split
    · rename_i hi
      exact hAgree i (.inl hi)
    · rfl
  have hAfter : a.drop (start + width) = b.drop (start + width) := by
    apply List.ext_getElem?
    intro i
    rw [List.getElem?_drop, List.getElem?_drop]
    exact hAgree _ (.inr (by omega))
  have hSplit (l : List α) :
      l = l.take start ++ (l.drop start).take width ++ l.drop (start + width) := by
    rw [List.append_assoc, ← List.drop_drop, List.take_append_drop, List.take_append_drop]
  refine ⟨a.take start, (a.drop start).take width, (b.drop start).take width,
    a.drop (start + width), hSplit a, ?_, ?_, List.length_take_le _ _⟩
  · rw [hBefore, hAfter]
    exact hSplit b
  · simp [h.length]

end Burst

/-! The register. -/

theorem crcRegister_cons (crc : BitVec 32) (byte : UInt8) (rest : Bytes) :
    crcRegister crc (byte :: rest) =
      crcRegister (crcSteps 8 (crc ^^^ byte.toBitVec.setWidth 32)) rest := by
  rw [← crcByte_eq, crcByte_eq_register, ← crcRegister_append]
  rfl

theorem crcSteps_injective (n : Nat) : Function.Injective (crcSteps n) :=
  steps_injective (by decide) n

theorem xor_left_injective {w : Nat} {a b c : BitVec w} (h : a ^^^ b = a ^^^ c) : b = c := by
  have hCancel := congrArg (a ^^^ ·) h
  simpa only [← BitVec.xor_assoc, BitVec.xor_self, BitVec.zero_xor] using hCancel

/-- The same bytes keep different registers different. -/
theorem crcRegister_injective (data : Bytes) : Function.Injective (crcRegister · data) := by
  induction data with
  | nil =>
      intro a b h
      exact h
  | cons byte rest ih =>
      intro a b h
      simp only [crcRegister_cons] at h
      have hWord := crcSteps_injective 8 (ih h)
      rw [BitVec.xor_comm a, BitVec.xor_comm b] at hWord
      exact xor_left_injective hWord

/-- Different short messages of one length make one register different. -/
theorem crcRegister_short {a b : Bytes} {crc : BitVec 32} (hLength : a.length = b.length)
    (hShort : a.length ≤ 4) (h : crcRegister crc a = crcRegister crc b) : a = b := by
  have hPow : 256 ^ a.length ≤ 2 ^ 32 := by
    calc 256 ^ a.length ≤ 256 ^ 4 := Nat.pow_le_pow_right (by decide) hShort
      _ = 2 ^ 32 := by decide
  have ha := LittleEndian.decode_lt a
  have hb := LittleEndian.decode_lt b
  rw [← hLength] at hb
  rw [crcRegister_word crc hShort, crcRegister_word crc (hLength ▸ hShort), ← hLength] at h
  have hWord := congrArg BitVec.toNat (xor_left_injective (crcSteps_injective _ h))
  rw [BitVec.toNat_ofNat, BitVec.toNat_ofNat, Nat.mod_eq_of_lt (by omega),
    Nat.mod_eq_of_lt (by omega)] at hWord
  calc a = LittleEndian.encode a.length (LittleEndian.decode a) :=
        (LittleEndian.encode_decode a).symm
    _ = LittleEndian.encode b.length (LittleEndian.decode b) := by rw [hLength, hWord]
    _ = b := LittleEndian.encode_decode b

/-- A burst of at most four bytes changes the register. -/
theorem crcRegister_burst {a b : Bytes} {crc : BitVec 32} (hBurst : Burst 4 a b) (hNe : a ≠ b) :
    crcRegister crc a ≠ crcRegister crc b := by
  obtain ⟨before, first, second, after, rfl, rfl, hLength, hShort⟩ := hBurst.parts
  intro h
  simp only [crcRegister_append] at h
  have hMiddle := crcRegister_injective after h
  exact hNe (by rw [crcRegister_short hLength hShort hMiddle])

theorem crc32c_burst {a b : Bytes} (hBurst : Burst 4 a b) (hNe : a ≠ b) : crc32c a ≠ crc32c b := by
  intro h
  rw [crc32c_eq_crcSerial, crc32c_eq_crcSerial, crcSerial, crcSerial] at h
  exact crcRegister_burst hBurst hNe (BitVec.not_inj.mp h)

/-! Messages with their checksum behind them. -/

/-- The first bytes of a buffer are followed by their checksum. -/
def Checked (buf : Bytes) (count : Nat) : Prop := fieldWord buf count = crc32c (field buf 0 count)

theorem crcRegister_field_word (crc : BitVec 32) {buf : Bytes} {off : Nat}
    (h : off + 4 ≤ buf.length) :
    crcRegister crc (field buf off 4) = crcSteps 32 (crc ^^^ fieldWord buf off) := by
  have hLength : (field buf off 4).length = 4 := by
    rw [length_field]
    omega
  rw [crcRegister_word crc hLength.le, hLength]
  rfl

/-- A message and its checksum leave the same register, whatever the message is. -/
theorem checked_iff {buf : Bytes} {count : Nat} (h : count + 4 ≤ buf.length) :
    Checked buf count ↔
      crcRegister (~~~ 0#32) (field buf 0 (count + 4)) = crcSteps 32 (~~~ 0#32) := by
  have hSplit : field buf 0 (count + 4) = field buf 0 count ++ field buf count 4 := by
    rw [field, field, field, List.take_add, List.drop_drop, Nat.zero_add]
  have hNot (x : BitVec 32) : x ^^^ ~~~ x = ~~~ 0#32 := by
    apply BitVec.eq_of_getLsbD_eq
    intro i hi
    simp only [BitVec.getLsbD_xor, BitVec.getLsbD_not, BitVec.getLsbD_zero, hi, decide_true]
    cases x.getLsbD i <;> rfl
  rw [hSplit, crcRegister_append, crcRegister_field_word _ h, Checked, crc32c_eq_crcSerial, crcSerial]
  constructor
  · intro hStored
    rw [hStored, hNot]
  · intro hRegister
    have hWord := crcSteps_injective 32 hRegister
    exact xor_left_injective (hWord.trans (hNot _).symm)

/-- No burst of at most four bytes leads from one checked message to another,
wherever it lies in the message and its checksum. -/
theorem Checked.burst {a b : Bytes} {count : Nat} (h : Checked a count) (hFits : count + 4 ≤ a.length)
    (hBurst : Burst 4 a b) (hNe : field a 0 (count + 4) ≠ field b 0 (count + 4)) :
    ¬ Checked b count := by
  intro hOther
  have hLength := hBurst.length
  apply crcRegister_burst (hBurst.field 0 (count + 4)) hNe
  rw [(checked_iff hFits).mp h, (checked_iff (by omega)).mp hOther]

/-- An encoded message is checked. -/
theorem checked_append (body rest : Bytes) :
    Checked (body ++ LittleEndian.encode 4 (crc32c body).toNat ++ rest) body.length := by
  rw [Checked, fieldWord_encode _ rfl, List.append_assoc, field_prefix _ _ rfl]

namespace RecordHeader

theorem decode_eq_none {buf : Bytes} {withBucket : Bool}
    (h : ¬ Checked buf (headerLen withBucket - 4)) : decode buf withBucket = none := by
  rw [decode]
  simp only
  split
  · rfl
  · exact if_pos h

theorem checked_encode (h : RecordHeader) (withBucket : Bool) (rest : Bytes) :
    Checked (h.encode withBucket ++ rest) (headerLen withBucket - 4) := by
  rw [encode, ← length_body h withBucket]
  exact checked_append _ _

/-- A damaged header is no header. -/
theorem decode_burst (h : RecordHeader) (withBucket : Bool) {rest damaged : Bytes}
    (hBurst : Burst 4 (h.encode withBucket ++ rest) damaged)
    (hNe : h.encode withBucket ≠ damaged.take (headerLen withBucket)) :
    decode damaged withBucket = none := by
  have hSize : headerLen withBucket - 4 + 4 = headerLen withBucket := by cases withBucket <;> rfl
  apply decode_eq_none
  refine (h.checked_encode withBucket rest).burst ?_ hBurst ?_
  · rw [hSize, List.length_append, length_encode]
    exact Nat.le_add_right _ _
  · rw [hSize, field_prefix _ _ (length_encode h withBucket)]
    exact hNe

end RecordHeader

namespace RegistryRow

/-- A row that is damaged in its checksummed bytes is no row. -/
theorem decode_burst (row : RegistryRow) {damaged : Bytes} (hBurst : Burst 4 row.encode damaged)
    (hNe : field row.encode 0 36 ≠ field damaged 0 36) : decode damaged = none := by
  have hChecked : Checked row.encode 32 := by
    have hBody := checked_append row.body (List.replicate 28 0)
    rwa [length_body] at hBody
  have hDamaged := hChecked.burst (by simp [REGISTRY_ROW_SIZE]) hBurst hNe
  rw [decode]
  split
  · rfl
  · exact if_pos hDamaged

end RegistryRow

namespace FileHeader

/-- A file header that is damaged in its checksummed bytes is no file header. -/
theorem decode_burst (h : FileHeader) {damaged : Bytes} (hBurst : Burst 4 h.encode damaged)
    (hNe : field h.encode 0 12 ≠ field damaged 0 12) : decode damaged = none := by
  have hChecked : Checked h.encode 8 := by
    rw [encode, ← length_body h]
    exact checked_append _ _
  have hDamaged := hChecked.burst (by simp [PAGE]) hBurst hNe
  rw [decode]
  split
  · rfl
  · exact if_pos hDamaged

end FileHeader

end HeapStore
