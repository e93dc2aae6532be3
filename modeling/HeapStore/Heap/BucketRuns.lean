import HeapStore.Heap.Progress
import HeapStore.Heap.ClosedBucket
import HeapStore.Placement.Transfer

/-! Runs of a bucket heap: with space reserved, an operation completes as its
allocation does over a store that holds nothing but the reservation. -/
namespace HeapStore

open Effect PagedFile IndexFile

namespace Heap

open BucketPlacement

variable {config : HeapConfig} {h : Heap BucketPlacement} {L : Ledger} {s t : Store}
  {bucket id off : Nat} {payload : Bytes}

/-- A megabyte to start with, and regions of one number. -/
def megabyte : HeapConfig := ⟨.none, true, 2 ^ 20, 2 ^ 20, PAGE, 1, 2 ^ 20⟩

theorem megabyte_usable : megabyte.Usable := ⟨by decide, by decide, by decide⟩

/-- A registry handle with nothing but some staged rows. -/
def stagedRows : Nat → PagedFile
  | 0 => .fresh
  | rows + 1 => { PagedFile.fresh with
      stagedWrites := [⟨PAGE, List.replicate ((rows + 1) * REGISTRY_ROW_SIZE) 0, none⟩]
      pendingBytes := (rows + 1) * REGISTRY_ROW_SIZE }

/-- No files, and nothing but a reservation and some staged rows in the handles. -/
def reserving (allocatedEnd rows : Nat) : Store :=
  (Store.empty.setPaged .data { PagedFile.fresh with allocatedEnd }).setPaged .registry
    (stagedRows rows)

theorem coherent_reserving (allocatedEnd rows : Nat) :
    Coherent .registry (reserving allocatedEnd rows) := by
  have hPaged : (reserving allocatedEnd rows).paged .registry = stagedRows rows := by
    simp [reserving, Store.setPaged]
  cases rows with
  | zero => exact coherent_fresh hPaged
  | succ rows =>
      have hStaged : ((reserving allocatedEnd (rows + 1)).paged .registry).stagedWrites =
          [⟨PAGE, List.replicate ((rows + 1) * REGISTRY_ROW_SIZE) 0, none⟩] := by
        rw [hPaged]
        rfl
      have hBase : StagedWrite.base ⟨PAGE, List.replicate ((rows + 1) * REGISTRY_ROW_SIZE) 0, none⟩ =
          PAGE := pageDown_of_mod (Nat.mod_self PAGE)
      refine ⟨?_, fun w hw => ?_, fun p page hPage => ?_, ?_⟩
      · rw [hStaged]
        exact List.pairwise_singleton _ _
      · rw [hStaged, List.mem_singleton] at hw
        subst hw
        refine ⟨?_, ?_, ?_⟩
        · rw [StagedWrite.endOffset, hBase, List.length_replicate, REGISTRY_ROW_SIZE]
          change PAGE < _
          omega
        · rw [hBase, Nat.sub_self]
          rfl
        · rw [hBase, Nat.sub_self]
          rfl
      · rw [hPaged] at hPage
        cases hPage
      · rw [hStaged, hPaged]
        simp [stagedRows, StagedWrite.payload, hBase]

/-- Without staged rows the registry ends within its file. -/
theorem Sound.registry_room {s : Placed BucketPlacement} (h : Sound config L s)
    (hStaged : (s.store.paged .registry).stagedWrites = []) :
    pageUp s.placement.registryEnd < 2 ^ 63 := by
  have hWhole := h.whole .registry
  have hHeader := h.header .registry fun _ => rfl
  have hRows := h.placed.registry
  rw [Store.logical, hStaged, Store.overlay_nil] at hHeader hRows
  have hInside := rows_inside hRows hWhole (page_le_size hHeader hWhole)
  rw [h.placed.recorded.registryEnd]
  exact (pageUp_le_of_mod hWhole.pages hInside).trans_lt hWhole.range

/-- The store of a sound heap obliges the allocator as any other one with the
same reservation. -/
theorem Sound.mirrors (hSound : Sound config L h.placed) (hReach : AllInReach h.store)
    (hSource : Coherent .registry s)
    (hEnd : (h.store.paged .data).allocatedEnd = (s.paged .data).allocatedEnd) :
    Mirrors h.placement.registryEnd s h.store :=
  ⟨hSound.plan, hSource, hSound.coherent .registry, hSound.placed.tail, hSound.registry_room,
    fun _ => hReach .registry, hEnd⟩

/-- Reserving space lengthens the data file up to the reserved end, and stages nothing. -/
theorem ensureAlloc_size {upto chunk : Nat} {u : Store}
    (hRun : PagedFile.ensureAlloc .data upto chunk s = .ok () u) :
    (u.file .data).size = (if upto ≤ (s.paged .data).allocatedEnd then (s.file .data).size
      else max (s.file .data).size (pageUp (max upto ((s.paged .data).allocatedEnd + chunk)))) ∧
      (u.paged .data).stagedWrites = (s.paged .data).stagedWrites := by
  obtain ⟨-, ⟨hEnough, rfl⟩ | ⟨hMore, -, -, rfl⟩⟩ := PagedFile.ensureAlloc_cases hRun
  · rw [if_pos hEnough]
    exact ⟨rfl, rfl⟩
  · rw [if_neg (Nat.not_le.mpr hMore)]
    exact ⟨by simp [File.allocate], by simp⟩

/-- A bucket heap is opened without files. -/
theorem exists_opened_bucket (config : HeapConfig) (hBlank : Blank s)
    (hConfig : config.Usable) (hRange : grownEnd PAGE config.initialSize config.growth < 2 ^ 63) :
    ∃ h : Heap BucketPlacement, OpenedOn config s h ∧ h.placement = fresh config ∧
      Sound config .empty h.placed ∧ AllInReach h.store ∧
      (h.store.paged .data).allocatedEnd = grownEnd PAGE config.initialSize config.growth ∧
      Snug h.store := by
  obtain ⟨h, hOpened, hPlacement, hReach, hEnd, hSnug⟩ := open_blank_run
    ⟨id, fun _ => .refl _⟩ (fresh config) (fun u => AllInReach u ∧
      (u.paged .data).allocatedEnd = grownEnd PAGE config.initialSize config.growth ∧ Snug u) hBlank
    fun t hNew => by
      obtain ⟨u, hRun, hEnd⟩ := ensureAlloc_run config.initialSize config.growth
        hNew.plan (by rw [hNew.allocated]; exact hRange)
      obtain ⟨hSize, hStaged⟩ := ensureAlloc_size hRun
      rw [hNew.allocated] at hEnd hSize
      rw [hNew.size] at hSize
      refine ⟨0, u, ?_, hNew.inReach.ensureAlloc hRun, hEnd, ?_, fun w hw => ?_⟩
      · change BucketPlacement.open _ config true t = _
        rw [BucketPlacement.open, if_pos rfl, bind_of_ok hRun]
        rfl
      · have hUp := le_pageUp (max config.initialSize (PAGE + config.growth))
        rw [hSize, hEnd, grownEnd]
        split
        · rfl
        · exact Nat.max_eq_right (by omega)
      · rw [hStaged, (hNew.files .data).staged] at hw
        cases hw
  exact ⟨h, hOpened, hPlacement, hOpened.created hBlank hConfig, hReach, hEnd, hSnug⟩

/-- An allocation for an addressable number only reserves space and stages rows. -/
theorem Sound.alloc_reserved {v : Placed BucketPlacement} (hSound : Sound config L h.placed)
    (hConfig : config.Usable) (hBucket : bucket < 2 ^ 64) (hId : Addressable id)
    (hRun : alloc config bucket ((dataFile BucketPlacement config).recordHeaderLen + payload.length)
      h.placed = .ok (off, id) v) : Reserved h.store v.store := by
  have hLt : id < 2 ^ 64 := by
    have hOffset := hId.fileOffset_lt
    rw [Slot.fileOffset, SLOT_SIZE] at hOffset
    omega
  exact (LawfulPlacement.alloc hSound.placed hConfig hBucket hLt hRun
    (DataFile.record_fills (dataFile BucketPlacement config) off bucket id 1 payload) rfl).1

/-- An insert completes as its allocation does over another store with the same
reservation. -/
theorem bucket_insert_run {q : BucketPlacement} (bucket id off : Nat) (payload : Bytes) (hSound : Sound config L h.placed)
    (hConfig : config.Usable) (hReach : AllInReach h.store) (hSource : Coherent .registry s)
    (hEnd : (h.store.paged .data).allocatedEnd = (s.paged .data).allocatedEnd)
    (hBucket : bucket < 2 ^ 64) (hId : Addressable id)
    (hAlloc : alloc config bucket ((dataFile BucketPlacement config).recordHeaderLen + payload.length)
      ⟨h.placement, s⟩ = .ok (off, id) ⟨q, t⟩) (hRange : pageUp q.registryEnd < 2 ^ 63) :
    ∃ h' M, insertInto config bucket payload h = .ok id h' ∧ h'.placement = q ∧
      Sound config M h'.placed ∧ AllInReach h'.store ∧
      (h'.store.paged .data).allocatedEnd = (t.paged .data).allocatedEnd ∧
      (Snug h.store → Snug h'.store) ∧ ∃ v, alloc config bucket
        ((dataFile BucketPlacement config).recordHeaderLen + payload.length) h.placed =
          .ok (off, id) v := by
  obtain ⟨v, hRun, hMirrors⟩ := (transfers_alloc config bucket _).repeats hAlloc
    (hSound.mirrors hReach hSource hEnd)
  have hReserved := hSound.alloc_reserved hConfig hBucket hId hRun
  have hReachV : AllInReach v := fun n => by
    cases n with
    | data => exact hReserved.reach_data (hReach .data)
    | index => exact hReserved.reach_index (hReach .index)
    | registry => exact hMirrors.rows hRange
  obtain ⟨h', hInsert, hPlacement, hReach', hEnd', hSnug⟩ := insertInto_run hSound hConfig hBucket hRun
    hReachV hId
  obtain ⟨r, new, hInserted⟩ := insertInto_ok hSound hConfig hBucket hInsert
  exact ⟨h', _, hInsert, hPlacement, hInserted.sound, hReach', hEnd'.trans hMirrors.allocated,
    fun hBefore => hSnug (hReserved.snug hBefore), _, hRun⟩

end Heap

end HeapStore
