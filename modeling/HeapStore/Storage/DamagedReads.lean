import HeapStore.Format.Bursts
import HeapStore.Storage.RecordReads

/-! A record whose stored bytes were changed in a few neighbouring places is
reported as corrupt when it is read, wherever the change lies. -/
namespace HeapStore

open Effect PagedFile

/-- An aligned read returns what the file holds after the flush. -/
theorem PagedFile.readAligned_stored {n : FileName} {off len pos : Nat} {buf : Bytes} {s t : Store}
    (h : readAligned n off len s = .ok (buf, pos) t) :
    ∃ u, PagedFile.flush n s = .ok () u ∧ pos = off - pageDown off ∧
      buf = Image.read (u.file n).bytes (pageDown off) (pageUp (off + len) - pageDown off) ∧
      off + len + PAGE < 2 ^ 64 := by
  obtain ⟨_, u, hFlush, hRun⟩ := bind_eq_ok.mp h
  obtain ⟨stop, w, hStop, hRest⟩ := bind_eq_ok.mp hRun
  obtain ⟨rfl, rfl, hFits⟩ := pageUpU64_ok hStop
  obtain ⟨buffer, v, hRead, hPure⟩ := bind_eq_ok.mp hRest
  cases hPure
  obtain ⟨rfl, -⟩ := readOne_ok hRead
  exact ⟨w, hFlush, rfl, rfl, hFits⟩

/-- Without pending writes and failing requests, every range that the kernel
can address is read. -/
theorem PagedFile.readAligned_settled {n : FileName} {off len : Nat} {s : Store}
    (hPlan : s.plan = []) (hStaged : (s.paged n).stagedWrites = [])
    (hRange : pageUp (off + len) < 2 ^ 63) : ∃ x, readAligned n off len s = .ok x s := by
  have hFlush : PagedFile.flush n s = .ok () s := by
    rw [PagedFile.flush, bind_of_ok (getPaged_apply n s)]
    simp only [hStaged, List.isEmpty_nil, if_true]
    rfl
  have hUp := le_pageUp (off + len)
  have hDown := pageDown_le off
  rw [readAligned, bind_of_ok hFlush, bind_of_ok (pageUpU64_run (fits_of_pageUp hRange) s)]
  exact ⟨_, (bind_of_ok (readOne_run hPlan (by omega))).trans rfl⟩

namespace DataFile

variable {d : DataFile} {bucket id version off : Nat} {payload damaged : Bytes} {s : Store}

/-- The bytes of a record: its header, then its payload. -/
def recordBytes (d : DataFile) (bucket id version : Nat) (payload : Bytes) : Bytes :=
  (d.header bucket id version payload).encode d.withBucket ++ payload

/-- A record is staged as these bytes. -/
theorem stageRecord_bytes (d : DataFile) (off bucket id version : Nat) (payload : Bytes) :
    ∃ parts, d.stageRecord off bucket id version payload = PagedFile.stage .data off parts ∧
      parts.flatten = d.recordBytes bucket id version payload :=
  ⟨_, rfl, by simp [recordBytes]⟩

/-- A record with a fitting header and a payload that its checksum rejects. -/
theorem parse_payload {header : RecordHeader} {buffer : Bytes} {pos total : Nat}
    (hDecode : RecordHeader.decode (buffer.drop pos) d.withBucket = some header)
    (hId : header.id = id) (hLen : header.len + headerLen d.withBucket = total)
    (hTotal : total < 2 ^ 64) (hIntegrity : d.integrity = true)
    (hBad : crc32c (field buffer (pos + headerLen d.withBucket) header.len) ≠ header.crc) (u : Store) :
    d.parse buffer pos total id off u = .error (.error (.corrupt "record payload" off)) u := by
  rw [parse, hDecode]
  simp only [hId, ne_eq, not_true, if_false]
  rw [addU64, if_neg (by omega)]
  refine (bind_of_ok rfl).trans ?_
  rw [if_neg (fun hNe => hNe hLen), if_pos ⟨hIntegrity, hBad⟩]
  rfl

/-- Parsing the damaged bytes of a record fails at the header or at the payload. -/
theorem parse_burst (hIntegrity : d.integrity = true) (hId : id < 2 ^ 64) (hBucket : bucket < 2 ^ 64)
    (hVersion : version < 2 ^ 16)
    (hBurst : Burst 4 (d.recordBytes bucket id version payload) damaged)
    (hNe : d.recordBytes bucket id version payload ≠ damaged) {image : Nat → UInt8}
    (hImage : Image.read image off damaged.length = damaged)
    (hFits : off + damaged.length + PAGE < 2 ^ 64) (u : Store) :
    ∃ what, d.parse (Image.read image (pageDown off)
        (pageUp (off + damaged.length) - pageDown off)) (off - pageDown off) damaged.length id off u =
      .error (.error (.corrupt what off)) u := by
  have hLength : damaged.length = headerLen d.withBucket + payload.length := by
    rw [← hBurst.length, recordBytes, List.length_append, RecordHeader.length_encode]
  have hDecode : RecordHeader.decode ((Image.read image (pageDown off)
      (pageUp (off + damaged.length) - pageDown off)).drop (off - pageDown off)) d.withBucket =
      RecordHeader.decode damaged d.withBucket := by
    rw [decode_drop _ _ (by omega), ← Image.take_read image off damaged.length _ (by omega), hImage,
      RecordHeader.decode_take _ _ (Nat.le_refl _)]
  by_cases hHeader : (d.header bucket id version payload).encode d.withBucket =
      damaged.take (headerLen d.withBucket)
  · have hTail : payload ≠ damaged.drop (headerLen d.withBucket) := by
      intro hSame
      apply hNe
      calc d.recordBytes bucket id version payload =
            damaged.take (headerLen d.withBucket) ++ damaged.drop (headerLen d.withBucket) := by
              rw [recordBytes, hHeader, ← hSame]
        _ = damaged := List.take_append_drop _ _
    have hPayload : Burst 4 payload (damaged.drop (headerLen d.withBucket)) := by
      have hDrop := hBurst.drop (headerLen d.withBucket)
      rwa [recordBytes, List.drop_left' (RecordHeader.length_encode _ _)] at hDrop
    have hSound : RecordHeader.decode damaged d.withBucket =
        some ((d.header bucket id version payload).visible d.withBucket) := by
      rw [← List.take_append_drop (headerLen d.withBucket) damaged, ← hHeader]
      apply RecordHeader.decode_encode
      have hLen : payload.length < 2 ^ 64 := by omega
      exact ⟨hLen, hBucket, hId, hVersion⟩
    have hRead : field (Image.read image (pageDown off)
        (pageUp (off + damaged.length) - pageDown off))
        (off - pageDown off + headerLen d.withBucket) payload.length =
        damaged.drop (headerLen d.withBucket) := by
      have hDown := pageDown_le off
      have hUp := le_pageUp (off + damaged.length)
      have hDrop := Image.drop_read image off damaged.length (headerLen d.withBucket) (by omega)
      rw [hImage] at hDrop
      rw [field_read _ _ _ (by omega), hDrop]
      congr 1
      · omega
      · omega
    have hCrc : (d.header bucket id version payload).crc = crc32c payload := by
      rw [header, if_pos hIntegrity]
    refine ⟨"record payload", parse_payload (hDecode.trans hSound) rfl ?_ (by omega) hIntegrity ?_ u⟩
    · exact (Nat.add_comm _ _).trans hLength.symm
    · change crc32c (field _ _ payload.length) ≠ (d.header bucket id version payload).crc
      rw [hRead, hCrc]
      exact (crc32c_burst hPayload hTail).symm
  · refine ⟨"record header", ?_⟩
    rw [parse, hDecode, RecordHeader.decode_burst _ _ hBurst hHeader]
    rfl

/-- Bytes of a record that differ from the staged ones in at most four
neighbouring places are never returned: a read that gets them from the file
ends with a corruption error. So do the readers of registry rows and of file
headers with bytes that are damaged in their checksummed part. -/
theorem burst_detected (hIntegrity : d.integrity = true) (hId : id < 2 ^ 64)
    (hBucket : bucket < 2 ^ 64) (hVersion : version < 2 ^ 16)
    (hBurst : Burst 4 (d.recordBytes bucket id version payload) damaged)
    (hNe : d.recordBytes bucket id version payload ≠ damaged)
    (hStored : ∀ u, PagedFile.flush .data s = .ok () u →
      Image.read (u.file .data).bytes off damaged.length = damaged) :
    (∀ r t, d.readRecord off damaged.length id s ≠ .ok r t) ∧
    (∀ x t, readAligned .data off damaged.length s = .ok x t →
      ∃ what, d.readRecord off damaged.length id s = .error (.error (.corrupt what off)) t) ∧
    (s.plan = [] → (s.paged .data).stagedWrites = [] → pageUp (off + damaged.length) < 2 ^ 63 →
      ∃ what, d.readRecord off damaged.length id s = .error (.error (.corrupt what off)) s) ∧
    (∀ (row : RegistryRow) (changed : Bytes), Burst 4 row.encode changed →
      field row.encode 0 36 ≠ field changed 0 36 → RegistryRow.decode changed = none) ∧
    (∀ (h : FileHeader) (changed : Bytes), Burst 4 h.encode changed →
      field h.encode 0 12 ≠ field changed 0 12 → FileHeader.decode changed = none) := by
  have hCorrupt (x : Bytes × Nat) (t : Store)
      (hRead : readAligned .data off damaged.length s = .ok x t) :
      ∃ what, d.readRecord off damaged.length id s = .error (.error (.corrupt what off)) t := by
    obtain ⟨buf, pos⟩ := x
    obtain ⟨u, hFlush, rfl, rfl, hFits⟩ := readAligned_stored hRead
    obtain ⟨what, hParse⟩ := parse_burst hIntegrity hId hBucket hVersion hBurst hNe
      (hStored u hFlush) hFits t
    refine ⟨what, ?_⟩
    rw [readRecord, bind_of_ok hRead]
    exact hParse
  refine ⟨?never, hCorrupt, ?settled, fun row changed => row.decode_burst, fun h changed => h.decode_burst⟩
  case never =>
    intro r t hRun
    obtain ⟨x, u, hRead, -⟩ := bind_eq_ok.mp hRun
    obtain ⟨what, hError⟩ := hCorrupt x u hRead
    rw [hRun] at hError
    cases hError
  case settled =>
    intro hPlan hStaged hRange
    obtain ⟨x, hRead⟩ := readAligned_settled hPlan hStaged hRange
    exact hCorrupt x s hRead

/-- A stored record whose last header byte and first payload bytes were changed. -/
def straddled : Bytes :=
  ((recordBytes ⟨true, true⟩ 7 9 1 [1, 2, 3]).set 37 0).set 39 0

theorem burst_detected_straddled :
    ∃ what, readRecord ⟨true, true⟩ PAGE straddled.length 9
        (Store.empty.setDisk .data (File.empty.write PAGE straddled)) =
      .error (.error (.corrupt what PAGE))
        (Store.empty.setDisk .data (File.empty.write PAGE straddled)) := by
  have hBurst : Burst 4 (recordBytes ⟨true, true⟩ 7 9 1 [1, 2, 3]) straddled := by
    constructor
    case length => simp [straddled]
    case window =>
      refine ⟨37, ?_⟩
      intro i hi
      rw [straddled, List.getElem?_set_ne (by omega), List.getElem?_set_ne (by omega)]
  have hStored : ∀ u, PagedFile.flush .data
        (Store.empty.setDisk .data (File.empty.write PAGE straddled)) = .ok () u →
      Image.read (u.file .data).bytes PAGE straddled.length = straddled := by
    intro u hFlush
    cases hFlush
    exact Image.read_write_same _ _ _
  exact (burst_detected (d := ⟨true, true⟩) rfl (by decide) (by decide) (by decide) hBurst
    (by decide +kernel) hStored).2.2.1 rfl rfl (by decide +kernel)

end DataFile

end HeapStore
