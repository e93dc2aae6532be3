import HeapStore.Format.Layout

/-! Round trips of the durable format, and the arithmetic of page rounding. -/
namespace HeapStore

theorem PAGE_pos : 0 < PAGE := by decide

theorem pageDown_le (off : Nat) : pageDown off ≤ off := Nat.div_mul_le_self _ _

theorem lt_pageDown_add (off : Nat) : off < pageDown off + PAGE := by
  simp only [pageDown, PAGE]
  omega

theorem le_pageUp (off : Nat) : off ≤ pageUp off := by
  simp only [pageUp, PAGE]
  omega

theorem pageUp_lt (off : Nat) : pageUp off < off + PAGE := by
  simp only [pageUp, PAGE]
  omega

@[simp] theorem pageDown_mod (off : Nat) : pageDown off % PAGE = 0 := Nat.mul_mod_left _ _

@[simp] theorem pageUp_mod (off : Nat) : pageUp off % PAGE = 0 := Nat.mul_mod_left _ _

theorem pageDown_of_mod {off : Nat} (h : off % PAGE = 0) : pageDown off = off :=
  Nat.div_mul_cancel (Nat.dvd_of_mod_eq_zero h)

theorem pageUp_of_mod {off : Nat} (h : off % PAGE = 0) : pageUp off = off := by
  simp only [pageUp, PAGE] at *
  omega

theorem pageUp_mono {a b : Nat} (h : a ≤ b) : pageUp a ≤ pageUp b := by
  simp only [pageUp, PAGE]
  omega

theorem pageDown_mono {a b : Nat} (h : a ≤ b) : pageDown a ≤ pageDown b := by
  simp only [pageDown, PAGE]
  omega

theorem pageDown_le_pageUp (off : Nat) : pageDown off ≤ pageUp off :=
  (pageDown_le off).trans (le_pageUp off)

/-- A page boundary at or above an offset is at or above its page end. -/
theorem pageUp_le_of_mod {a b : Nat} (hMod : b % PAGE = 0) (h : a ≤ b) : pageUp a ≤ b := by
  simp only [pageUp, PAGE] at *
  omega

theorem le_pageDown_of_mod {a b : Nat} (hMod : a % PAGE = 0) (h : a ≤ b) : a ≤ pageDown b := by
  simp only [pageDown, PAGE] at *
  omega

/-- Inside its page, an offset that is no boundary lies strictly before the page end. -/
theorem pageUp_eq_pageDown_add {off : Nat} (h : off % PAGE ≠ 0) :
    pageUp off = pageDown off + PAGE := by
  simp only [pageUp, pageDown, PAGE] at *
  omega

@[simp] theorem length_field (buf : Bytes) (off count : Nat) :
    (field buf off count).length = min count (buf.length - off) := by
  simp [field]

theorem field_append_left {a : Bytes} (b : Bytes) {off count : Nat}
    (h : off + count ≤ a.length) : field (a ++ b) off count = field a off count := by
  rw [field, field, List.drop_append_of_le_length (by omega),
    List.take_append_of_le_length (by simp; omega)]

theorem field_append_right (a b : Bytes) {off count : Nat} (h : a.length ≤ off) :
    field (a ++ b) off count = field b (off - a.length) count := by
  rw [field, field, List.drop_append, List.drop_eq_nil_of_le h, List.nil_append]

theorem field_all (a : Bytes) {count : Nat} (h : a.length = count) : field a 0 count = a := by
  simp [field, ← h]

/-- A field that lies inside a prefix is not changed by cutting the rest off. -/
theorem field_take (buf : Bytes) {off count k : Nat} (h : off + count ≤ k) :
    field (buf.take k) off count = field buf off count := by
  rw [field, field, List.drop_take, List.take_take, Nat.min_eq_left (by omega)]

theorem field_read (image : Nat → UInt8) (off k : Nat) {pos count : Nat} (h : pos + count ≤ k) :
    field (Image.read image off k) pos count = Image.read image (off + pos) count := by
  rw [field, Image.drop_read _ _ _ _ (by omega), Image.take_read _ _ _ _ (by omega)]

theorem fieldNat_lt (buf : Bytes) (off count : Nat) : fieldNat buf off count < 256 ^ count := by
  refine Nat.lt_of_lt_of_le (LittleEndian.decode_lt _) ?_
  exact Nat.pow_le_pow_right (by decide) (List.length_take_le _ _)

theorem fieldNat_encode {a b : Bytes} {count value off : Nat} (hOff : a.length = off)
    (hValue : value < 256 ^ count) :
    fieldNat (a ++ LittleEndian.encode count value ++ b) off count = value := by
  rw [fieldNat, List.append_assoc, field_append_right _ _ (by omega), hOff, Nat.sub_self,
    field_append_left _ (by simp), field_all _ (by simp), LittleEndian.decode_encode hValue]

theorem fieldWord_encode {a b : Bytes} {off : Nat} (word : BitVec 32) (hOff : a.length = off) :
    fieldWord (a ++ LittleEndian.encode 4 word.toNat ++ b) off = word := by
  have hWord : word.toNat < 256 ^ 4 := word.isLt
  rw [fieldWord, fieldNat_encode hOff hWord, BitVec.ofNat_toNat, BitVec.setWidth_eq]

theorem field_prefix (a b : Bytes) {count : Nat} (h : a.length = count) :
    field (a ++ b) 0 count = a := by
  rw [field_append_left _ (by omega), field_all _ h]

/-! Record headers. -/
namespace RecordHeader

variable (h : RecordHeader) (withBucket : Bool)

theorem length_body : (h.body withBucket).length = headerLen withBucket - 4 := by
  cases withBucket <;> simp [body, headerLen]

@[simp] theorem length_encode : (h.encode withBucket).length = headerLen withBucket := by
  rw [encode, List.length_append, length_body, LittleEndian.length_encode]
  cases withBucket <;> rfl

/-- The layout without buckets stores no bucket and reads it back as zero. -/
def visible : RecordHeader := { h with bucket := if withBucket then h.bucket else 0 }

/-- A header is read back from any buffer that starts with its encoding. -/
theorem decode_encode (hRange : h.InRange) (rest : Bytes) :
    decode (h.encode withBucket ++ rest) withBucket = some (h.visible withBucket) := by
  have hMagic : fieldNat (h.encode withBucket ++ rest) 0 4 = RECORD_MAGIC := by
    rw [encode, body]
    simp only [List.append_assoc]
    exact fieldNat_encode (a := []) rfl (by decide)
  have hSize : headerLen withBucket ≤ (h.encode withBucket ++ rest).length := by
    rw [List.length_append, length_encode]
    omega
  have hStored : fieldWord (h.encode withBucket ++ rest) (headerLen withBucket - 4) =
      crc32c (h.body withBucket) := fieldWord_encode _ (length_body h withBucket)
  have hBody : field (h.encode withBucket ++ rest) 0 (headerLen withBucket - 4) =
      h.body withBucket := by
    rw [encode, List.append_assoc, field_prefix _ _ (length_body h withBucket)]
  have hFields : some (h.visible withBucket) = decode (h.encode withBucket ++ rest) withBucket := by
    unfold decode
    simp only [hMagic, hStored, hBody, ne_eq, not_true, or_false, Nat.not_lt.mpr hSize, if_false]
    rw [visible, encode, body]
    cases withBucket
    · simp only [Bool.false_eq_true, ↓reduceIte, List.append_nil, Option.some.injEq,
        RecordHeader.mk.injEq, true_and]
      refine ⟨?_, ?_, ?_, ?_⟩
      · simp only [List.append_assoc]
        rw [← List.append_assoc]
        exact (fieldNat_encode (by simp) hRange.len).symm
      · rw [List.append_assoc _ _ rest, List.append_assoc, List.append_assoc]
        exact (fieldNat_encode (by simp) hRange.id).symm
      · rw [List.append_assoc _ _ rest, List.append_assoc]
        exact (fieldNat_encode (by simp) hRange.version).symm
      · rw [List.append_assoc _ _ rest]
        exact (fieldWord_encode _ (by simp)).symm
    · simp only [↓reduceIte, Option.some.injEq, RecordHeader.mk.injEq]
      refine ⟨?_, ?_, ?_, ?_, ?_⟩
      · simp only [List.append_assoc]
        rw [← List.append_assoc]
        exact (fieldNat_encode (by simp) hRange.len).symm
      · rw [List.append_assoc _ _ rest, List.append_assoc, List.append_assoc, List.append_assoc]
        exact (fieldNat_encode (by simp) hRange.bucket).symm
      · rw [List.append_assoc _ _ rest, List.append_assoc, List.append_assoc]
        exact (fieldNat_encode (by simp) hRange.id).symm
      · rw [List.append_assoc _ _ rest, List.append_assoc]
        exact (fieldNat_encode (by simp) hRange.version).symm
      · rw [List.append_assoc _ _ rest]
        exact (fieldWord_encode _ (by simp)).symm
  exact hFields.symm

/-- Decoding looks at the header bytes only. -/
theorem decode_take (buf : Bytes) {k : Nat} (hk : headerLen withBucket ≤ k) :
    decode (buf.take k) withBucket = decode buf withBucket := by
  have hNat : ∀ off count, off + count ≤ headerLen withBucket →
      fieldNat (buf.take k) off count = fieldNat buf off count := fun off count hIn => by
    rw [fieldNat, fieldNat, field_take _ (by omega)]
  have hWord : ∀ off, off + 4 ≤ headerLen withBucket →
      fieldWord (buf.take k) off = fieldWord buf off := fun off hIn => by
    rw [fieldWord, fieldWord, hNat _ _ hIn]
  have hLen : (buf.take k).length < headerLen withBucket ↔
      buf.length < headerLen withBucket := by
    simp only [List.length_take]
    omega
  have hBody : field (buf.take k) 0 (headerLen withBucket - 4) =
      field buf 0 (headerLen withBucket - 4) := field_take _ (by omega)
  unfold decode
  cases withBucket
  · simp only [headerLen, Bool.false_eq_true, ↓reduceIte] at *
    simp only [hLen, hNat 0 4 (by omega), hWord 26 (by omega), hBody, hNat 4 8 (by omega),
      hNat 12 8 (by omega), hNat (12 + 8) 2 (by omega), hWord (12 + 10) (by omega)]
  · simp only [headerLen, ↓reduceIte] at *
    simp only [hLen, hNat 0 4 (by omega), hWord 34 (by omega), hBody, hNat 4 8 (by omega),
      hNat 12 8 (by omega), hNat 20 8 (by omega), hNat (20 + 8) 2 (by omega),
      hWord (20 + 10) (by omega)]

/-- A buffer that does not start with the magic holds no header. -/
theorem decode_of_magic {buf : Bytes} (hMagic : fieldNat buf 0 4 ≠ RECORD_MAGIC) :
    decode buf withBucket = none := by
  simp [decode, hMagic]

theorem magic_of_decode {buf : Bytes} {h : RecordHeader} (hDecode : decode buf withBucket = some h) :
    fieldNat buf 0 4 = RECORD_MAGIC := by
  by_contra hMagic
  simp [decode_of_magic withBucket hMagic] at hDecode

end RecordHeader

/-! Index slots. -/
namespace Slot

@[simp] theorem length_encode (s : Slot) : s.encode.length = SLOT_SIZE := by
  simp [encode, SLOT_SIZE]

private theorem fieldNat_offset {s : Slot} (h : s.offset < 2 ^ 64) :
    fieldNat s.encode 0 8 = s.offset := by
  have hField : fieldNat ([] ++ LittleEndian.encode 8 s.offset ++ LittleEndian.encode 8 s.totalLen)
      0 8 = s.offset := fieldNat_encode rfl h
  simpa [encode] using hField

private theorem fieldNat_totalLen {s : Slot} (h : s.totalLen < 2 ^ 64) :
    fieldNat s.encode 8 8 = s.totalLen := by
  have hField : fieldNat (LittleEndian.encode 8 s.offset ++ LittleEndian.encode 8 s.totalLen ++ [])
      8 8 = s.totalLen := fieldNat_encode (by simp) h
  simpa [encode] using hField

theorem state_live {s : Slot} (hPos : 0 < s.offset) (hOffset : s.offset < 2 ^ 63)
    (hTotal : s.totalLen < 2 ^ 64) : state s.encode = .live s := by
  have hBit : s.offset &&& TOMBSTONE_BIT = 0 := by
    rw [TOMBSTONE_BIT, Nat.and_two_pow, Nat.testBit_lt_two_pow hOffset]
    simp
  simp only [state, fieldNat_offset (show s.offset < 2 ^ 64 by omega), fieldNat_totalLen hTotal,
    hBit, ne_eq, not_true, if_false, if_neg (Nat.pos_iff_ne_zero.mp hPos)]

theorem tombstone_offset {s : Slot} (h : s.offset < 2 ^ 63) :
    s.tombstone.offset = s.offset + 2 ^ 63 := by
  have hOr := Nat.two_pow_add_eq_or_of_lt h 1
  rw [Nat.mul_one] at hOr
  change s.offset ||| 2 ^ 63 = _
  rw [Nat.lor_comm, ← hOr, Nat.add_comm]

/-- The staged tombstone reads back as the deleted form of the same place. -/
theorem state_tombstone {s : Slot} (hOffset : s.offset < 2 ^ 63) (hTotal : s.totalLen < 2 ^ 64) :
    state s.tombstone.encode = .deleted s := by
  have hNew := tombstone_offset hOffset
  have hField : fieldNat s.tombstone.encode 0 8 = s.offset + 2 ^ 63 := by
    rw [fieldNat_offset (by omega), hNew]
  have hTotalField : fieldNat s.tombstone.encode 8 8 = s.totalLen := fieldNat_totalLen hTotal
  have hBit : (s.offset + 2 ^ 63) &&& TOMBSTONE_BIT ≠ 0 := by
    rw [TOMBSTONE_BIT, Nat.and_two_pow, Nat.add_comm, Nat.testBit_two_pow_add_eq,
      Nat.testBit_lt_two_pow hOffset]
    simp
  have hLow : (s.offset + 2 ^ 63) &&& (TOMBSTONE_BIT - 1) = s.offset := by
    rw [TOMBSTONE_BIT, Nat.and_two_pow_sub_one_eq_mod, Nat.add_mod_right, Nat.mod_eq_of_lt hOffset]
  simp only [state, hField, hTotalField]
  rw [if_neg (by omega), if_pos hBit, hLow]

theorem decode_eq_some {buf : Bytes} {s : Slot} : decode buf = some s ↔ state buf = .live s := by
  unfold decode
  cases state buf <;> simp

/-- A live slot never points to the file start or into the tombstone half. -/
theorem offset_of_live {buf : Bytes} {s : Slot} (h : state buf = .live s) :
    0 < s.offset ∧ s.offset < 2 ^ 63 ∧ s.totalLen < 2 ^ 64 := by
  simp only [state] at h
  split at h
  · cases h
  rename_i hNonzero
  split at h
  · cases h
  rename_i hBit
  cases h
  have hLt : fieldNat buf 0 8 < 2 ^ 64 := fieldNat_lt buf 0 8
  refine ⟨Nat.pos_of_ne_zero hNonzero, ?_, fieldNat_lt buf 8 8⟩
  change fieldNat buf 0 8 < 2 ^ 63
  rw [ne_eq, not_not, TOMBSTONE_BIT, Nat.and_two_pow] at hBit
  have hTest : (fieldNat buf 0 8).testBit 63 = false := by
    cases hb : (fieldNat buf 0 8).testBit 63 with
    | false => rfl
    | true => simp [hb] at hBit
  by_contra hGe
  have hDiv : fieldNat buf 0 8 / 2 ^ 63 = 1 := by omega
  rw [Nat.testBit_eq_decide_div_mod_eq, hDiv] at hTest
  simp at hTest

theorem state_replicate_zero : state (List.replicate SLOT_SIZE 0) = .empty := by decide

end Slot

/-! Registry rows and file headers. -/
namespace RegistryRow

theorem length_body (row : RegistryRow) : row.body.length = 32 := by simp [body]

@[simp] theorem length_encode (row : RegistryRow) : row.encode.length = REGISTRY_ROW_SIZE := by
  simp [encode, length_body, REGISTRY_ROW_SIZE]

theorem decode_encode {row : RegistryRow} (hRange : row.InRange) :
    decode row.encode = some row := by
  have hMagic : fieldNat row.encode 0 4 = REGISTRY_MAGIC := by
    rw [encode, body]
    simp only [List.append_assoc]
    exact fieldNat_encode (a := []) rfl (by decide)
  have hStored : fieldWord row.encode 32 = crc32c row.body :=
    fieldWord_encode _ (length_body row)
  have hBody : field row.encode 0 32 = row.body := by
    rw [encode, List.append_assoc, field_prefix _ _ (length_body row)]
  have hKind : row.encode[4]? = some row.kind := by
    rw [encode, body]
    simp only [List.append_assoc]
    rw [List.getElem?_append_right (by simp)]
    simp
  have hBucket : fieldNat row.encode 8 8 = row.bucket := by
    rw [encode, body]
    simp only [List.append_assoc]
    rw [← List.append_assoc, ← List.append_assoc]
    exact fieldNat_encode (by simp) hRange.bucket
  have hStart : fieldNat row.encode 16 8 = row.start := by
    rw [encode, body, List.append_assoc, List.append_assoc _ _ (_ ++ _)]
    exact fieldNat_encode (by simp) hRange.start
  have hSize : fieldNat row.encode 24 8 = row.size := by
    rw [encode, body, List.append_assoc]
    exact fieldNat_encode (by simp) hRange.size
  simp [decode, hMagic, hStored, hBody, hKind, hBucket, hStart, hSize]

theorem magic_of_decode {buf : Bytes} {row : RegistryRow} (hDecode : decode buf = some row) :
    fieldNat buf 0 4 = REGISTRY_MAGIC := by
  by_contra hMagic
  simp [decode, hMagic] at hDecode

end RegistryRow

namespace FileHeader

theorem length_body (h : FileHeader) : h.body.length = 8 := by simp [body, fileSignature]

@[simp] theorem length_encode (h : FileHeader) : h.encode.length = PAGE := by
  simp only [encode, List.length_append, length_body, LittleEndian.length_encode,
    List.length_replicate]
  rfl

theorem decode_encode (h : FileHeader) : decode h.encode = some h := by
  have hStored : fieldWord h.encode 8 = crc32c h.body := fieldWord_encode _ (length_body h)
  have hBody : field h.encode 0 8 = h.body := by
    rw [encode, List.append_assoc, field_prefix _ _ (length_body h)]
  have hSignature : field h.encode 0 4 = fileSignature := by
    rw [encode, body]
    simp only [List.append_assoc]
    exact field_prefix _ _ rfl
  have hKind : h.encode[4]? = some h.kind := by simp [encode, body, fileSignature]
  have hLayout : h.encode[5]? = some h.layout := by simp [encode, body, fileSignature]
  simp [decode, hStored, hBody, hSignature, hKind, hLayout]

end FileHeader

end HeapStore
