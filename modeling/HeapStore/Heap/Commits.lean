import HeapStore.Heap.PowerFailure

/-! What a mutation makes durable. It stages a slot in the index, so that it has
ended in a commit exactly when nothing is staged there afterwards. -/
namespace HeapStore

open Effect PagedFile IndexFile

/-- Whether the sync policy counts an operation. -/
def Event.mutates : Event → Bool
  | .observed => false
  | _ => true

theorem Wrote.durable {withBucket : Bool} {r : Record} {s t : Store} (h : Wrote withBucket r s t) :
    t.durable = s.durable := by
  obtain ⟨a, b, hReserved, hData, hIndex⟩ := h.parts
  rw [hIndex.frame.durable, hData.frame.durable, hReserved.durable]

theorem Wrote.registry {withBucket : Bool} {r : Record} {s t : Store} (h : Wrote withBucket r s t) :
    t.disk .registry = s.disk .registry := by
  obtain ⟨a, b, hReserved, hData, hIndex⟩ := h.parts
  rw [hIndex.frame.disk _ (by decide), hData.frame.disk _ (by decide), hReserved.disk _ (by decide)]

/-- Once bytes are taken, something is staged. -/
theorem Staged.staged {n : FileName} {off : Nat} {bytes : Bytes} {s t : Store} (h : Staged n off bytes s t) :
    (t.paged n).stagedWrites ≠ [] := by
  obtain ⟨mid, -, hTook⟩ := h.parts
  exact hTook.staged

theorem Wrote.staged {withBucket : Bool} {r : Record} {s t : Store} (h : Wrote withBucket r s t) :
    (t.paged .index).stagedWrites ≠ [] := by
  obtain ⟨a, b, -, -, hIndex⟩ := h.parts
  exact hIndex.staged

/-- A commit writes the slots that are staged. -/
theorem Committed.issued {withBucket : Bool} {s t : Store} (h : Committed withBucket s t)
    (hStaged : (s.paged .index).stagedWrites ≠ []) : ∃ write ∈ t.issued, write.file = .index := by
  obtain ⟨a, b, c, hRegistry, hData, hSynced, hIndex⟩ := h.parts
  have hFirst : a.paged .index = s.paged .index := by
    split at hRegistry
    · cases hRegistry with
      | idle _ same => rw [same]
      | pushed mid _ flush sync => rw [sync.paged, flush.frame.paged _ (by decide)]
    · rw [hRegistry]
  have hLast : c.paged .index = s.paged .index := by
    rw [hSynced.paged, hData.frame.paged _ (by decide), hFirst]
  rw [← hLast] at hStaged
  have hIssued := hIndex.issued
  rw [if_neg hStaged] at hIssued
  rw [hIssued]
  exact ⟨_, List.mem_append_right _ (List.mem_singleton_self _), rfl⟩

namespace Heap

variable {P : Type} [Placement P] [LawfulPlacement P] {config : HeapConfig} {h h' : Heap P} {L : Ledger}
  {bucket id : Nat} {payload : Bytes} {e : Event}

/-- A completed mutation: what it stages, a slot at least, is not durable, and then it is
counted and committed when that is due. -/
structure Mutated (config : HeapConfig) (h h' : Heap P) : Prop where
  intro ::
  parts : ∃ g : Heap P, afterWrite config g = .ok () h' ∧ (∀ n, Coherent n g.store) ∧
    g.operationsSinceSync = h.operationsSinceSync ∧ g.store.durable = h.store.durable ∧
    g.store.disk .registry = h.store.disk .registry ∧ (g.store.paged .index).stagedWrites ≠ []

theorem Mutated.inserted (hSound : Sound config L h.placed) (hConfig : LawfulPlacement.Accepts P config)
    (hBucket : bucket < 2 ^ 64) (hRun : insertInto config bucket payload h = .ok id h') :
    Mutated config h h' := by
  obtain ⟨⟨off, number⟩, g, hAllocRun, hRun⟩ := bind_eq_ok.mp hRun
  obtain ⟨t, hAlloc, rfl⟩ := onPlaced_eq_ok.mp hAllocRun
  obtain ⟨_, g, hRecordRun, hRun⟩ := bind_eq_ok.mp hRun
  obtain ⟨u, hRecord, rfl⟩ := onStore_eq_ok.mp hRecordRun
  obtain ⟨_, g, hSlotRun, hRun⟩ := bind_eq_ok.mp hRun
  obtain ⟨v, hSlot, rfl⟩ := onStore_eq_ok.mp hSlotRun
  obtain ⟨_, g, hAfter, hRun⟩ := bind_eq_ok.mp hRun
  cases hRun
  have hId : id < 2 ^ 64 := by
    obtain ⟨_, _, hOffset, -⟩ := bind_eq_ok.mp hSlot
    have hOffset := (slotOffset_ok hOffset).2.2
    rw [Slot.fileOffset, SLOT_SIZE] at hOffset
    omega
  obtain ⟨hReserved, -, new, hKeeps⟩ :=
    LawfulPlacement.alloc hSound.placed hConfig hBucket hId hAlloc
      (DataFile.record_fills (dataFile P config) off bucket id 1 payload) rfl
  obtain ⟨hWrote, hSound'⟩ := hSound.wrote hReserved hKeeps hBucket (by decide) hRecord hSlot
  exact ⟨_, hAfter, hSound'.coherent, rfl, hWrote.durable, hWrote.registry, hWrote.staged⟩

theorem Mutated.updated (hSound : Sound config L h.placed)
    (hRun : update config id payload h = .ok () h') : Mutated config h h' := by
  obtain ⟨slot, g, hLookup, hRun⟩ := bind_eq_ok.mp hRun
  obtain ⟨hLive, s₁, hIndex, rfl⟩ := liveSlot_ok hSound hLookup
  have hSound₁ := hSound.refreshed (.flushed hIndex)
  obtain ⟨old, hOld, hOldId, rfl, -⟩ := hSound.record_of_live hLive
  obtain ⟨header, g, hHeaderRun, hRun⟩ := bind_eq_ok.mp hRun
  obtain ⟨s₂, hHeader, rfl⟩ := onStore_eq_ok.mp hHeaderRun
  obtain ⟨rfl, -, hData⟩ := DataFile.readHeader_ok (d := dataFile P config)
    (hSound₁.coherent .data) hSound₁.data hOld hHeader
  have hSound₂ := hSound₁.refreshed (.flushed hData)
  obtain ⟨off, g, hAllocRun, hRun⟩ := bind_eq_ok.mp hRun
  obtain ⟨t, hAlloc, rfl⟩ := onPlaced_eq_ok.mp hAllocRun
  obtain ⟨_, g, hRecordRun, hRun⟩ := bind_eq_ok.mp hRun
  obtain ⟨u, hRecord, rfl⟩ := onStore_eq_ok.mp hRecordRun
  obtain ⟨_, g, hSlotRun, hRun⟩ := bind_eq_ok.mp hRun
  obtain ⟨v, hSlot, rfl⟩ := onStore_eq_ok.mp hSlotRun
  have hBucket := (hSound.data.formed old hOld).range.bucket
  obtain ⟨hReserved, new, hKeeps⟩ :=
    LawfulPlacement.allocUpdate hSound₂.placed hOld hBucket hAlloc
      (DataFile.record_fills (dataFile P config) off old.header.bucket id
        ((old.header.version + 1) % 2 ^ 16) payload) hOldId.symm
  obtain ⟨hWrote, hSound'⟩ := hSound₂.wrote hReserved hKeeps hBucket
    (Nat.mod_lt _ (by decide)) hRecord hSlot
  refine ⟨_, hRun, hSound'.coherent, rfl, ?_, ?_, hWrote.staged⟩
  · exact hWrote.durable.trans (hData.frame.durable.trans hIndex.frame.durable)
  · exact hWrote.registry.trans
      ((hData.frame.disk _ (by decide)).trans (hIndex.frame.disk _ (by decide)))

theorem Mutated.deleted (hSound : Sound config L h.placed) (hRun : delete config id h = .ok () h') :
    Mutated config h h' := by
  obtain ⟨slot, g, hLookup, hRun⟩ := bind_eq_ok.mp hRun
  obtain ⟨hLive, s₁, hIndex, rfl⟩ := liveSlot_ok hSound hLookup
  have hSound₁ := hSound.refreshed (.flushed hIndex)
  obtain ⟨_, g, hStageRun, hAfter⟩ := bind_eq_ok.mp hRun
  obtain ⟨t, hStage, rfl⟩ := onStore_eq_ok.mp hStageRun
  have hStaged := (stageTombstone_ok (hSound₁.coherent .index) hStage).1
  refine ⟨_, hAfter, (hSound₁.bury hLive hStaged).coherent, rfl, ?_, ?_, hStaged.staged⟩
  · exact hStaged.frame.durable.trans hIndex.frame.durable
  · exact (hStaged.frame.disk _ (by decide)).trans (hIndex.frame.disk _ (by decide))

theorem Performed.mutated (hPerformed : Performed config h e h') (hSound : Sound config L h.placed)
    (hConfig : LawfulPlacement.Accepts P config) (hMutates : e.mutates = true) : Mutated config h h' := by
  cases hPerformed with
  | inserted range run => exact .inserted hSound hConfig range run
  | updated run => exact .updated hSound run
  | deleted run => exact .deleted hSound run
  | read run => cases hMutates
  | flushed run => cases hMutates
  | missed run => cases hMutates

/-- All that is written of the registry is durable. -/
def RegistryDurable (P : Type) [Placement P] (s : Store) : Prop :=
  Placement.withBucket P = true → s.durable .registry = s.disk .registry

/-- Every staged slot is written to the index. -/
def Written (h : Heap P) : Prop := (h.store.paged .index).stagedWrites = []

namespace Mutated

omit [LawfulPlacement P]

theorem count (hMutated : Mutated config h h') :
    h'.operationsSinceSync = (h.operationsSinceSync + 1) % 2 ^ 32 := by
  obtain ⟨g, hAfter, hCoherent, hCount, -⟩ := hMutated.parts
  obtain ⟨u, rfl, -⟩ := afterWrite_ok hCoherent hAfter
  rw [← hCount]
  rfl

/-- A mutation whose slot is still staged was not due, and leaves the durable files alone. -/
theorem waiting (hMutated : Mutated config h h') (hStaged : ¬ h'.Written) :
    h'.store.durable = h.store.durable ∧ h'.store.disk .registry = h.store.disk .registry ∧
      ∀ interval, config.syncPolicy = .everyN interval → 0 < interval →
        h'.operationsSinceSync % interval ≠ 0 := by
  obtain ⟨g, hAfter, hCoherent, -, hDurable, hRegistry, -⟩ := hMutated.parts
  obtain ⟨u, rfl, hCase⟩ := afterWrite_ok hCoherent hAfter
  cases hCommits : commits config g.counted with
  | true =>
      rw [hCommits] at hCase
      obtain ⟨a, b, c, -, -, -, hIndex⟩ := Committed.parts hCase
      exact absurd hIndex.staged hStaged
  | false =>
      rw [hCommits] at hCase
      obtain rfl : u = g.store := hCase
      refine ⟨hDurable, hRegistry, fun interval hPolicy hPos hZero => ?_⟩
      have hDue : due config g.counted = false := (Bool.or_eq_false_iff.mp hCommits).1
      have hMod : g.counted.operationsSinceSync % interval = 0 := hZero
      simp [due, hPolicy, hPos, hMod] at hDue

/-- A mutation whose slot is written was committed: all files but the index are durable. -/
theorem committed (hMutated : Mutated config h h') (hWritten : h'.Written) :
    h'.store.durable .index = h.store.durable .index ∧
      (RegistryDurable P h.store → ∀ n, HasFile P n → n ≠ .index →
        h'.store.durable n = h'.store.disk n ∧ (h'.store.paged n).stagedWrites = []) := by
  obtain ⟨g, hAfter, hCoherent, -, hDurable, hRegistry, hSome⟩ := hMutated.parts
  obtain ⟨u, rfl, hCase⟩ := afterWrite_ok hCoherent hAfter
  cases hCommits : commits config g.counted with
  | true =>
      rw [hCommits] at hCase
      have hCommitted : Committed (Placement.withBucket P) g.store u := hCase
      refine ⟨hCommitted.durable.2.trans (by rw [hDurable]), fun hSafe n hFile hNot => ?_⟩
      cases n with
      | data => exact ⟨hCommitted.durable.1, hCommitted.staged_data⟩
      | index => exact absurd rfl hNot
      | registry =>
          have hBucket := hFile rfl
          rw [hBucket] at hCommitted
          exact hCommitted.durable_registry (by rw [hDurable, hRegistry]; exact hSafe hBucket)
  | false =>
      rw [hCommits] at hCase
      obtain rfl : u = g.store := hCase
      exact absurd hWritten hSome

/-- A mutation whose slot is written has issued a write to the index. -/
theorem issued (hMutated : Mutated config h h') (hWritten : h'.Written) :
    ∃ write ∈ h'.store.issued, write.file = .index := by
  obtain ⟨g, hAfter, hCoherent, -, -, -, hSome⟩ := hMutated.parts
  obtain ⟨u, rfl, hCase⟩ := afterWrite_ok hCoherent hAfter
  cases hCommits : commits config g.counted with
  | true =>
      rw [hCommits] at hCase
      exact Committed.issued hCase hSome
  | false =>
      rw [hCommits] at hCase
      obtain rfl : u = g.store := hCase
      exact absurd hWritten hSome

end Mutated

/-- With a commit after every mutation, every mutation is committed. -/
theorem written_of_everyOne (hPolicy : config.syncPolicy = .everyN 1) (hPerformed : Performed config h e h')
    (hSound : Sound config L h.placed) (hAccepted : LawfulPlacement.Accepts P config)
    (hMutates : e.mutates = true) : h'.Written := by
  by_contra hStaged
  have hNotDue := ((hPerformed.mutated hSound hAccepted hMutates).waiting hStaged).2.2
  exact hNotDue 1 hPolicy Nat.one_pos (Nat.mod_one _)

end Heap

end HeapStore
