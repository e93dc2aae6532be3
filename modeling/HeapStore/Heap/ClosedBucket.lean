import HeapStore.Heap.Progress
import HeapStore.Heap.Reopen

/-! Opening the files of a bucket heap that was flushed: every bucket has its
extents, its used bytes and its numbers, and every record a slot. -/
namespace HeapStore

open Effect PagedFile IndexFile

namespace Heap

open BucketPlacement

variable {config : HeapConfig} {L : Ledger} {s : Placed BucketPlacement} {calm : Prop}

/-- A file of whole pages with a header has its first page. -/
theorem page_le_size {f : File} {header : FileHeader}
    (hHeader : Image.Holds f.bytes 0 header.encode) (hWhole : f.Whole) : PAGE ≤ f.size := by
  have hLength := FileHeader.length_encode header
  have hPage : 0 < header.encode.length := by
    rw [hLength]
    decide
  have hFirst : f.bytes (0 + 0) = header.encode[0] := hHeader 0 hPage
  have hSignature : header.encode[0] ≠ 0 := by
    change (0x48 : UInt8) ≠ 0
    decide
  have hPos : 0 < f.size := by
    by_contra hNone
    exact hSignature (hFirst.symm.trans (f.zero_past (0 + 0) (by omega)))
  exact Nat.le_of_dvd hPos (Nat.dvd_of_mod_eq_zero hWhole.pages)

/-- The files of a flushed bucket heap, as opening finds them. -/
theorem Sound.reopening (h : Sound config L s)
    (hStaged : ∀ n, HasFile BucketPlacement n → (s.store.paged n).stagedWrites = []) :
    Reopening config s.placement L.log ((closed s.store).file .data).bytes L.slots where
  laid := by
    have hData := h.data
    rwa [Store.logical, hStaged .data (hasFile_data _)] at hData
  intact := h.faithful.intact
  geometry := h.placed.geometry
  numbering := h.placed.numbering
  range := by
    have hInside := h.placed.reserved.trans h.placed.roomy.reserved
    exact (pageUp_le_of_mod h.placed.roomy.whole.pages hInside).trans_lt h.placed.roomy.whole.range
  named := h.faithful.named

theorem Sound.complete (h : Sound config L s) : Complete L.log L.slots := fun r hr =>
  (h.faithful.written r.header.id).mpr ⟨r, hr, rfl⟩

theorem Sound.registered (h : Sound config L s)
    (hStaged : ∀ n, HasFile BucketPlacement n → (s.store.paged n).stagedWrites = []) :
    Registered L.rows (closed s.store) := by
  have hRows : Rows L.rows ((closed s.store).file .registry).bytes := by
    have hLogical := h.placed.registry
    rwa [Store.logical, hStaged .registry fun _ => rfl] at hLogical
  have hHeader := (h.atRest hStaged).header .registry fun _ => rfl
  exact
    { staged := rfl
      range := (h.atRest hStaged).fileRange .registry
      holds := hRows
      inside := rows_inside hRows (h.whole .registry) (page_le_size hHeader (h.whole .registry))
      replayable := fun row hRow => ⟨h.placed.recorded.kinds row hRow, h.placed.recorded.ranged row hRow⟩ }

/-- The files of a flushed bucket heap are opened as the placement that wrote
them, with earlier extents counted as full. -/
theorem Sound.reopen_meets (h : Sound config L s)
    (hStaged : ∀ n, HasFile BucketPlacement n → (s.store.paged n).stagedWrites = [])
    (order : HashOrder) :
    Meets (Refuses True (Spaced s.placement)) (fun out t =>
        out.1 = s.placement.resumed L.rows (s.store.file .data).size ∧
        ((t.paged .registry = .fresh ∧ (t.paged .data).allocatedEnd = (s.store.file .data).size) ∧
          IndexWork (IndexWork.noted (closed s.store) (s.store.file .data).size) t ∧
          (Spaced s.placement → AllInReach t)) ∧
        ∃ slots, Sound config { L with slots := slots } (⟨out.1, t⟩ : Placed BucketPlacement) ∧
          (Ascending L.log → (∀ id slot, L.slots id = .live slot →
            ∃ r, newest L.log id = some r ∧ r.slot true = slot) → slots = L.slots))
      (BucketPlacement.open order config false) (closed s.store) := by
  have hRest := h.atRest hStaged
  have hSlots : SlotsAt L.slots ((closed s.store).file .index).bytes := by
    have hIndex := h.index
    rwa [Store.logical, hStaged .index (hasFile_index _)] at hIndex
  have hHolding : Holding True (Spaced s.placement) ((closed s.store).file .data).bytes L.slots
      (closed s.store) := hRest.holding hSlots
  have hSize : s.placement.fileSize ≤ (s.store.file .data).size :=
    h.placed.reserved.trans h.placed.roomy.reserved
  refine (BucketPlacement.reopen_meets (h.reopening hStaged) h.complete h.placed.recorded
    h.placed.stocked (h.registered hStaged) hHolding hSize).mono (fun _ hFail => hFail) ?_
  rintro out t ⟨hOut, slots, ⟨hReopening, hComplete⟩, hHeld, hWork, hSame⟩
  have hPaged := hRest.paged_data hWork
  have hReach : Spaced s.placement → AllInReach t := hRest.inReach hWork hHeld
  refine ⟨hOut, ⟨⟨hRest.paged_registry hWork, by rw [hPaged]; rfl⟩, hWork, hReach⟩, slots, ?_, hSame trivial⟩
  have hFile : t.file .data = s.store.file .data := hWork.file (by decide)
  have hWritten : ∀ id, slots id ≠ .empty ↔ ∃ r ∈ L.log, r.header.id = id := by
    intro id
    constructor
    · intro hSlot
      cases hState : slots id with
      | empty => exact absurd hState hSlot
      | live slot =>
          obtain ⟨r, hr, hId, -⟩ := hReopening.named id slot (by rw [hState]; rfl)
          exact ⟨r, hr, hId⟩
      | deleted slot =>
          obtain ⟨r, hr, hId, -⟩ := hReopening.named id slot (by rw [hState]; rfl)
          exact ⟨r, hr, hId⟩
    · rintro ⟨r, hr, rfl⟩
      exact hComplete r hr
  have hKept : Kept config ⟨out.1, t⟩ L.log L.rows := by
    rw [hOut]
    refine Kept.resumed h.placed hSize (h.whole .data).pages (by rw [hPaged])
      ⟨?_, ?_⟩ (coherent_fresh (hRest.paged_registry hWork))
      (by rw [hRest.paged_registry hWork]; rfl) ?_
    · rw [hFile]
      exact h.whole .data
    · rw [hPaged, hFile]
      exact Nat.le_refl _
    · rw [hRest.logical_registry hWork]
      exact (h.registered hStaged).holds
  exact hRest.sound (L := { L with slots }) hReopening.laid hHeld hWork
    ⟨h.faithful.intact, hWritten, hReopening.named⟩ hKept

end Heap

end HeapStore
