import HeapStore.Storage.Slots

/-! The readers and the writers of the durable format are inverse to each
other: what is written is read back, and what is read was written that way. -/
namespace HeapStore

section Fields

variable {buf : Bytes} {off count : Nat}

/-- A field inside a buffer is the numeral of its number. -/
theorem encode_fieldNat (h : off + count ≤ buf.length) :
    LittleEndian.encode count (fieldNat buf off count) = field buf off count := by
  have hLength : (field buf off count).length = count := by
    rw [length_field]
    omega
  have hDecode := LittleEndian.encode_decode (field buf off count)
  rwa [hLength] at hDecode

theorem fieldWord_toNat (buf : Bytes) (off : Nat) : (fieldWord buf off).toNat = fieldNat buf off 4 := by
  rw [fieldWord, BitVec.toNat_ofNat]
  exact Nat.mod_eq_of_lt (fieldNat_lt buf off 4)

theorem encode_fieldWord (h : off + 4 ≤ buf.length) :
    LittleEndian.encode 4 (fieldWord buf off).toNat = field buf off 4 := by
  rw [fieldWord_toNat, encode_fieldNat h]

/-- Fields that follow each other are one field. -/
theorem field_add (buf : Bytes) (off a b : Nat) :
    field buf off a ++ field buf (off + a) b = field buf off (a + b) := by
  rw [field, field, field, List.take_add, List.drop_drop]

end Fields

namespace RecordHeader

/-- Encoding a decoded header gives the bytes that it was decoded from. -/
theorem encode_of_decode {buf : Bytes} {withBucket : Bool} {h : RecordHeader}
    (hDecode : decode buf withBucket = some h) :
    h.encode withBucket = buf.take (headerLen withBucket) := by
  unfold decode at hDecode
  simp only at hDecode
  split at hDecode
  · cases hDecode
  rename_i hStart
  obtain ⟨hSize, hMagic⟩ := not_or.mp hStart
  rw [ne_eq, not_not] at hMagic
  split at hDecode
  · cases hDecode
  rename_i hStored
  rw [ne_eq, not_not] at hStored
  have hFields := Option.some.inj hDecode
  have hBody : h.body withBucket = field buf 0 (headerLen withBucket - 4) := by
    rw [← hFields]
    cases withBucket
    · simp only [headerLen, Bool.false_eq_true, if_false, Nat.not_lt] at hSize
      simp only [body, Bool.false_eq_true, if_false, List.append_nil, ← hMagic]
      rw [encode_fieldNat (by omega), encode_fieldNat (by omega), encode_fieldNat (by omega),
        encode_fieldNat (by omega), encode_fieldWord (by omega), field_add, field_add, field_add,
        field_add]
      rfl
    · simp only [headerLen, if_true, Nat.not_lt] at hSize
      simp only [body, if_true, ← hMagic]
      rw [encode_fieldNat (by omega), encode_fieldNat (by omega), encode_fieldNat (by omega),
        encode_fieldNat (by omega), encode_fieldNat (by omega), encode_fieldWord (by omega),
        field_add, field_add, field_add, field_add, field_add]
      rfl
  have hPositive : 4 ≤ headerLen withBucket := by cases withBucket <;> decide
  rw [encode, hBody, ← hStored, encode_fieldWord (by omega)]
  have hAll := field_add buf 0 (headerLen withBucket - 4) 4
  rw [Nat.zero_add, Nat.sub_add_cancel hPositive] at hAll
  exact hAll

end RecordHeader

namespace Slot

/-- Sixteen bytes are the numerals of their two fields. -/
theorem encode_fields {buf : Bytes} (hLength : buf.length = SLOT_SIZE) :
    encode ⟨fieldNat buf 0 8, fieldNat buf 8 8⟩ = buf := by
  rw [SLOT_SIZE] at hLength
  rw [encode, encode_fieldNat (by omega), encode_fieldNat (by omega)]
  exact (field_add buf 0 8 8).trans (field_all buf hLength)

theorem encode_of_live {buf : Bytes} {s : Slot} (hLength : buf.length = SLOT_SIZE)
    (h : state buf = .live s) : s.encode = buf := by
  simp only [state] at h
  split at h
  · cases h
  split at h
  · cases h
  cases h
  exact encode_fields hLength

/-- The flag bit is set again in the place of a deleted slot. -/
theorem encode_of_deleted {buf : Bytes} {s : Slot} (hLength : buf.length = SLOT_SIZE)
    (h : state buf = .deleted s) : s.tombstone.encode = buf := by
  simp only [state] at h
  split at h
  · cases h
  split at h
  · rename_i hBit
    cases h
    have hLt : fieldNat buf 0 8 < 2 ^ 64 := fieldNat_lt buf 0 8
    have hGe : 2 ^ 63 ≤ fieldNat buf 0 8 := by
      by_contra hBelow
      rw [TOMBSTONE_BIT, Nat.and_two_pow, Nat.testBit_lt_two_pow (by omega)] at hBit
      simp at hBit
    have hLow : fieldNat buf 0 8 &&& (TOMBSTONE_BIT - 1) = fieldNat buf 0 8 - 2 ^ 63 := by
      rw [TOMBSTONE_BIT, Nat.and_two_pow_sub_one_eq_mod]
      omega
    have hOffset : (tombstone ⟨fieldNat buf 0 8 &&& (TOMBSTONE_BIT - 1), fieldNat buf 8 8⟩).offset =
        fieldNat buf 0 8 := by
      rw [tombstone_offset (by simp only [hLow]; omega)]
      simp only [hLow]
      omega
    have hEncode := encode_fields hLength
    rw [← hOffset] at hEncode
    exact hEncode
  · cases h

theorem offset_ne_zero_of_state {buf : Bytes} (h : fieldNat buf 0 8 ≠ 0) : state buf ≠ .empty := by
  simp only [state, if_neg h]
  split <;> simp

/-- The bytes that read as a live slot are its encoding. -/
theorem decode_eq_some_iff {buf : Bytes} {s : Slot} (hLength : buf.length = SLOT_SIZE)
    (hPos : 0 < s.offset) (hOffset : s.offset < 2 ^ 63) (hTotal : s.totalLen < 2 ^ 64) :
    decode buf = some s ↔ buf = s.encode := by
  rw [decode_eq_some]
  constructor
  · intro h
    exact (encode_of_live hLength h).symm
  · rintro rfl
    exact state_live hPos hOffset hTotal

end Slot

namespace IndexFile

variable {id : Nat} {slot : Slot} {s t : Store}

/-- The state of a slot as the cached index shows it. -/
def shownState (s : Store) (id : Nat) : SlotState :=
  Slot.state (Image.read (s.logical .index) (Slot.fileOffset id) SLOT_SIZE)

theorem shownState_staged {bytes : Bytes} (hLength : bytes.length = SLOT_SIZE)
    (h : Staged .index (Slot.fileOffset id) bytes s t) : shownState t id = Slot.state bytes := by
  rw [shownState, h.logical, ← hLength, Image.read_write_same]

end IndexFile

/-- Headers, rows and slots are read back as written, also the slots that are
staged into the index, and headers and slots are written back as read. -/
theorem codecs_inverse :
    (∀ (h : RecordHeader) (withBucket : Bool) (rest : Bytes), h.InRange →
      RecordHeader.decode (h.encode withBucket ++ rest) withBucket =
        some { h with bucket := if withBucket then h.bucket else 0 }) ∧
    (∀ (buf : Bytes) (withBucket : Bool) (h : RecordHeader),
      RecordHeader.decode buf withBucket = some h →
        h.encode withBucket = buf.take (headerLen withBucket)) ∧
    (∀ row : RegistryRow, row.InRange → RegistryRow.decode row.encode = some row) ∧
    (∀ h : FileHeader, FileHeader.decode h.encode = some h) ∧
    (∀ slot : Slot, 0 < slot.offset → slot.offset < 2 ^ 63 → slot.totalLen < 2 ^ 64 →
      Slot.state slot.encode = .live slot ∧ Slot.state slot.tombstone.encode = .deleted slot ∧
      (∀ buf : Bytes, buf.length = SLOT_SIZE → (Slot.decode buf = some slot ↔ buf = slot.encode)) ∧
      ∀ (id : Nat) (s t : Store), Coherent .index s →
        (IndexFile.stageSlot id (some slot) s = .ok () t →
          IndexFile.shownState t id = .live slot) ∧
        (IndexFile.stageTombstone id slot s = .ok () t →
          IndexFile.shownState t id = .deleted slot)) ∧
    (∀ buf : Bytes, buf.length = SLOT_SIZE → fieldNat buf 0 8 ≠ 0 →
      (∃ slot, Slot.state buf = .live slot ∧ slot.encode = buf) ∨
        ∃ slot, Slot.state buf = .deleted slot ∧ slot.tombstone.encode = buf) := by
  refine ⟨?headers, ?reencode, ?rows, ?files, ?slots, ?bytes⟩
  case headers =>
    intro h withBucket rest hRange
    exact h.decode_encode withBucket hRange rest
  case reencode =>
    intro buf withBucket h hDecode
    exact RecordHeader.encode_of_decode hDecode
  case rows =>
    intro row hRange
    exact RegistryRow.decode_encode hRange
  case files =>
    intro h
    exact h.decode_encode
  case slots =>
    intro slot hPos hOffset hTotal
    have hLive := Slot.state_live hPos hOffset hTotal
    have hDeleted := Slot.state_tombstone hOffset hTotal
    refine ⟨hLive, hDeleted, ?_, ?_⟩
    · intro buf hLength
      exact Slot.decode_eq_some_iff hLength hPos hOffset hTotal
    · intro id s t hCoherent
      constructor
      · intro hRun
        have hStaged := (IndexFile.stageSlot_ok hCoherent hRun).1
        rw [IndexFile.shownState_staged (by simp) hStaged, hLive]
      · intro hRun
        have hStaged := (IndexFile.stageTombstone_ok hCoherent hRun).1
        rw [IndexFile.shownState_staged (by simp) hStaged, hDeleted]
  case bytes =>
    intro buf hLength hNonzero
    cases hState : Slot.state buf with
    | empty => exact absurd hState (Slot.offset_ne_zero_of_state hNonzero)
    | live slot => exact .inl ⟨slot, rfl, Slot.encode_of_live hLength hState⟩
    | deleted slot => exact .inr ⟨slot, rfl, Slot.encode_of_deleted hLength hState⟩

/-- A bucket header before other bytes, and a slot with its tombstone. -/
theorem codecs_inverse_sample :
    RecordHeader.decode (RecordHeader.encode ⟨5, 7, 9, 1, 0#32⟩ true ++ [1, 2]) true =
        some ⟨5, 7, 9, 1, 0#32⟩ ∧
      Slot.state (Slot.encode ⟨4096, 43⟩) = .live ⟨4096, 43⟩ ∧
      Slot.state (Slot.tombstone ⟨4096, 43⟩).encode = .deleted ⟨4096, 43⟩ := by
  obtain ⟨hHeaders, -, -, -, hSlots, -⟩ := codecs_inverse
  obtain ⟨hLive, hDeleted, -⟩ := hSlots ⟨4096, 43⟩ (by decide) (by decide) (by decide)
  exact ⟨hHeaders _ true [1, 2] ⟨by decide, by decide, by decide, by decide⟩, hLive, hDeleted⟩

end HeapStore
