import HeapStore.Recovery.Records
import HeapStore.Storage.Space

/-! Reading records back from a data file in which they are laid out. -/
namespace HeapStore

open Effect PagedFile

namespace DataFile

variable {d : DataFile} {records : List Record} {r : Record} {s t : Store} {id : Nat}

/-- A buffer that holds the rounded range of some bytes, from those bytes on. -/
theorem drop_aligned (image : Nat → UInt8) (off len : Nat) :
    (Image.read image (pageDown off) (pageUp (off + len) - pageDown off)).drop (off - pageDown off) =
      Image.read image off (pageUp (off + len) - off) := by
  have hDown := pageDown_le off
  have hUp := le_pageUp (off + len)
  rw [Image.drop_read _ _ _ _ (by omega), Nat.add_sub_cancel' hDown]
  congr 1
  omega

theorem decode_drop (image : Nat → UInt8) (off : Nat) {len : Nat}
    (hLen : headerLen d.withBucket ≤ len) :
    RecordHeader.decode ((Image.read image (pageDown off)
      (pageUp (off + len) - pageDown off)).drop (off - pageDown off)) d.withBucket =
      RecordHeader.decode (Image.read image off (headerLen d.withBucket)) d.withBucket := by
  have hUp := le_pageUp (off + len)
  rw [drop_aligned, ← RecordHeader.decode_take _ _ (Nat.le_refl _), Image.take_read _ _ _ _ (by omega)]

/-- Parsing a laid record returns its header and its payload. -/
theorem parse_record (h : Laid d.withBucket records (s.logical .data)) (hr : r ∈ records)
    (hId : r.header.id = id) (hIntact : r.intact d.integrity = true)
    (hStop : r.stop d.withBucket < 2 ^ 64) (u : Store) :
    d.parse (Image.read (s.logical .data) (pageDown r.off)
        (pageUp (r.off + r.totalLen d.withBucket) - pageDown r.off)) (r.off - pageDown r.off)
      (r.totalLen d.withBucket) id r.off u = .ok (r.header, r.payload) u := by
  have hTotal : headerLen d.withBucket ≤ r.totalLen d.withBucket := Nat.le_add_right _ _
  have hDown := pageDown_le r.off
  have hUp := le_pageUp (r.off + r.totalLen d.withBucket)
  have hLen : ¬ 2 ^ 64 ≤ r.header.len + headerLen d.withBucket := by
    rw [Record.stop, Record.totalLen] at hStop
    omega
  have hSame : r.header.len + headerLen d.withBucket = r.totalLen d.withBucket := Nat.add_comm _ _
  have hPayload : field (Image.read (s.logical .data) (pageDown r.off)
      (pageUp (r.off + r.totalLen d.withBucket) - pageDown r.off))
      (r.off - pageDown r.off + headerLen d.withBucket) r.header.len = r.payload := by
    rw [Record.totalLen] at hUp ⊢
    rw [field_read _ _ _ (by omega), ← h.read_payload hr]
    congr 1
    omega
  rw [parse, decode_drop _ _ hTotal, h.decode hr]
  simp only [hId, ne_eq, not_true, if_false]
  rw [addU64, if_neg hLen]
  refine (bind_of_ok rfl).trans ?_
  rw [if_neg (fun hNe => hNe hSame), hPayload, if_neg]
  · rfl
  · rintro ⟨hCheck, hBad⟩
    rw [Record.intact, hCheck] at hIntact
    simp only [Bool.not_true, Bool.false_or, beq_iff_eq] at hIntact
    exact hBad hIntact

theorem readRecord_run (hCoherent : Coherent .data s) (hPlan : s.plan = [])
    (hReach : InReach .data s) (h : Laid d.withBucket records (s.logical .data)) (hr : r ∈ records)
    (hId : r.header.id = id) (hIntact : r.intact d.integrity = true)
    (hRange : pageUp (r.stop d.withBucket) < 2 ^ 63) :
    ∃ t, d.readRecord r.off (r.totalLen d.withBucket) id s = .ok (r.header, r.payload) t ∧
      Flushed .data s t := by
  obtain ⟨t, hRead⟩ := readAligned_run hCoherent hPlan hReach hRange
  have hUp := le_pageUp (r.stop d.withBucket)
  refine ⟨t, ?_, (readAligned_ok hCoherent hRead).2.2.1⟩
  rw [readRecord, bind_of_ok hRead]
  exact parse_record h hr hId hIntact (by omega) t

/-- A record that is read is the one that is laid there. -/
theorem readRecord_ok {header : RecordHeader} {payload : Bytes} (hCoherent : Coherent .data s)
    (h : Laid d.withBucket records (s.logical .data)) (hr : r ∈ records)
    (hId : r.header.id = id) (hIntact : r.intact d.integrity = true)
    (hStop : r.stop d.withBucket < 2 ^ 64)
    (hRun : d.readRecord r.off (r.totalLen d.withBucket) id s = .ok (header, payload) t) :
    header = r.header ∧ payload = r.payload ∧ Flushed .data s t := by
  obtain ⟨⟨buffer, bufferOffset⟩, u, hRead, hRest⟩ := bind_eq_ok.mp hRun
  obtain ⟨rfl, rfl, hFlushed, -⟩ := readAligned_ok hCoherent hRead
  simp only [parse_record h hr hId hIntact hStop u] at hRest
  cases hRest
  exact ⟨rfl, rfl, hFlushed⟩

theorem readHeader_run (hCoherent : Coherent .data s) (hPlan : s.plan = [])
    (hReach : InReach .data s) (h : Laid d.withBucket records (s.logical .data)) (hr : r ∈ records)
    (hId : r.header.id = id) (hRange : pageUp (r.stop d.withBucket) < 2 ^ 63) :
    ∃ t, d.readHeader r.off id s = .ok r.header t ∧ Flushed .data s t := by
  have hStop : r.off + headerLen d.withBucket ≤ r.stop d.withBucket :=
    Nat.add_le_add_left (Nat.le_add_right _ _) _
  have hUp := pageUp_mono hStop
  obtain ⟨t, hRead⟩ := readAligned_run hCoherent hPlan hReach (Nat.lt_of_le_of_lt hUp hRange)
  refine ⟨t, ?_, (readAligned_ok hCoherent hRead).2.2.1⟩
  rw [readHeader, recordHeaderLen, bind_of_ok hRead]
  simp only [decode_drop _ _ (Nat.le_refl _), h.decode hr, hId, ne_eq, not_true, if_false]
  rfl

/-- A header that is read is the one that is laid there. -/
theorem readHeader_ok {header : RecordHeader} (hCoherent : Coherent .data s)
    (h : Laid d.withBucket records (s.logical .data)) (hr : r ∈ records)
    (hRun : d.readHeader r.off id s = .ok header t) :
    header = r.header ∧ r.header.id = id ∧ Flushed .data s t := by
  obtain ⟨⟨buffer, bufferOffset⟩, u, hRead, hRest⟩ := bind_eq_ok.mp hRun
  obtain ⟨rfl, rfl, hFlushed, -⟩ := readAligned_ok hCoherent hRead
  simp only [recordHeaderLen, decode_drop _ _ (Nat.le_refl _), h.decode hr] at hRest
  split at hRest
  · cases hRest
  · rename_i hId
    cases hRest
    exact ⟨rfl, not_not.mp hId, hFlushed⟩

end DataFile

end HeapStore
