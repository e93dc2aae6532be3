import HeapStore.Heap.CatchUp

/-! Opening the files of an append heap that was flushed: the cursor, the next
number and every slot are as they were. -/
namespace HeapStore

open Effect PagedFile IndexFile WalkRange

namespace AppendPlacement

/-- There are at least as many records as numbers. -/
theorem nextId_le_length {log : List Record} {next : Nat}
    (h : ∀ id, (∃ r ∈ log, r.header.id = id) ↔ id < next) : next ≤ log.length := by
  have hSubset : List.range next ⊆ log.map fun r => r.header.id := fun id hId => by
    obtain ⟨r, hr, rfl⟩ := (h id).mpr (List.mem_range.mp hId)
    exact List.mem_map_of_mem hr
  have hLe := (List.subperm_of_subset List.nodup_range hSubset).length_le
  rwa [List.length_range, List.length_map] at hLe

/-- As many records as fit a file have numbers that fit the index. -/
theorem addressable_of_chain {log : List Record} {next cursor id : Nat}
    (h : ∀ id, (∃ r ∈ log, r.header.id = id) ↔ id < next) (hChain : Chain false PAGE cursor log)
    (hCursor : cursor < 2 ^ 63) (hId : id < next) : Addressable id := by
  have hNext := nextId_le_length h
  have hLength := hChain.length_le
  have hUp := pageUp_lt (Slot.fileOffset id + SLOT_SIZE)
  have hHeader : headerLen false = 30 := by decide
  rw [hHeader, PAGE] at hLength
  simp only [Addressable, Slot.fileOffset, SLOT_SIZE, PAGE] at *
  omega

end AppendPlacement

namespace Heap

open AppendPlacement

variable {config : HeapConfig} {L : Ledger} {events : List Event} {s : Placed AppendPlacement}

/-- The files of a flushed append heap, as opening finds them. -/
theorem Sound.stored (h : Sound config L s) (hHistoric : L.Historic false events)
    (hCount : ∀ id, updateCount events id ≤ 65534)
    (hStaged : ∀ n, HasFile AppendPlacement n → (s.store.paged n).stagedWrites = []) :
    Stored config L.log s.placement.cursor L.slots (closed s.store) where
  laid := by
    have hData := h.data
    rwa [Store.logical, hStaged .data (hasFile_data _)] at hData
  intact := h.faithful.intact
  ascending := hHistoric.ascending hCount
  chain := h.placed.chain
  inside := h.placed.reserved.trans h.placed.roomy.reserved
  data := h.whole .data
  index := h.whole .index
  slotted := by
    have hIndex := h.index
    rwa [Store.logical, hStaged .index (hasFile_index _)] at hIndex
  named := h.faithful.named
  addressable r hr := by
    have hRange := h.placed.roomy.whole.range
    have hInside := h.placed.reserved.trans h.placed.roomy.reserved
    exact addressable_of_chain h.placed.numbers h.placed.chain (hInside.trans_lt hRange)
      ((h.placed.numbers r.header.id).mp ⟨r, hr, rfl⟩)

/-- The files of a flushed append heap are opened as the placement that wrote them. -/
theorem Sound.reopens (h : Sound config L s) (hHistoric : L.Historic false events)
    (hCount : ∀ id, updateCount events id ≤ 65534)
    (hStaged : ∀ n, HasFile AppendPlacement n → (s.store.paged n).stagedWrites = [])
    (order : HashOrder) :
    ∃ restored t, AppendPlacement.open order config false (closed s.store) =
        .ok (s.placement, restored) t ∧
      Sound config L (⟨s.placement, t⟩ : Placed AppendPlacement) ∧ AllInReach t ∧
      IndexWork (IndexWork.noted (closed s.store) (s.store.file .data).size) t := by
  have hStored := h.stored hHistoric hCount hStaged
  have hRest := h.atRest hStaged
  have hOpened : JustOpened (closed s.store) :=
    ⟨hRest.plan, hRest.handles, hRest.whole, hRest.present, hRest.header⟩
  have hScanned := h.scanned_eq hHistoric hStored
  have hCaught : Caught config ((closed s.store).file .data).bytes L.slots L.log []
      (scanned L.slots (closed s.store)).maxEnd s.placement.cursor
      ((closed s.store).file .data).size (scanned L.slots (closed s.store)).nextId := by
    rw [hScanned]
    exact
      { laid := by rw [List.append_nil]; exact hStored.laid
        intact := by rw [List.append_nil]; exact hStored.intact
        ascending := by rw [List.append_nil]; exact hStored.ascending
        prior := fun r hr => (h.placed.chain.bounds hr).2
        chain := .nil _
        inside := hStored.inside
        range := hStored.data_range
        named := h.faithful.named
        next := fun id hUsed => (h.placed.numbers id).mp ((hHistoric.written id).mp hUsed)
        base := h.placed.chain.le }
  obtain ⟨restored, t, hRun, hHolding, hWork⟩ :=
    hOpened.opens hStored (List.append_nil _).symm hCaught order
  rw [hScanned] at hRun hHolding
  have hSame : recovered L.slots (continued s.placement.nextId []) = L.slots := rfl
  rw [hSame] at hHolding
  refine ⟨restored, t, hRun, ?_⟩
  have hRows : L.rows = [] := h.placed.rows
  have hSound := hOpened.sound hStored hHolding hWork
    ⟨h.faithful.intact, h.faithful.written, h.faithful.named⟩ h.placed.numbers
  rw [← hRows] at hSound
  exact ⟨hSound, hRest.inReach hWork hHolding trivial, hWork⟩

end Heap

end HeapStore
