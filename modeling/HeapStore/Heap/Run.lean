import HeapStore.Heap.History
import HeapStore.Heap.Create

/-! Runs of heap operations, and the ledger that a run leaves: the store is
sound for it, and it grew along the history of the run. -/
namespace HeapStore

open Effect PagedFile IndexFile

namespace Heap

variable {P : Type} [Placement P]

/-- One operation that was answered. Reads, flushes and calls that end at a
missing live slot are observed only. -/
inductive Performed (config : HeapConfig) : Heap P → Event → Heap P → Prop where
  | inserted {h h' : Heap P} {bucket id : Nat} {payload : Bytes} (range : bucket < 2 ^ 64)
      (run : insertInto config bucket payload h = .ok id h') :
      Performed config h (.inserted id bucket payload) h'
  | updated {h h' : Heap P} {id : Nat} {payload : Bytes}
      (run : update config id payload h = .ok () h') : Performed config h (.updated id payload) h'
  | deleted {h h' : Heap P} {id : Nat} (run : delete config id h = .ok () h') :
      Performed config h (.deleted id) h'
  | read {h h' : Heap P} {id : Nat} {payload : Bytes} (run : read config id h = .ok payload h') :
      Performed config h .observed h'
  | flushed {h h' : Heap P} (run : flush h = .ok () h') : Performed config h .observed h'
  | missed {h h' : Heap P} {id : Nat}
      (run : liveSlot id h = .error (.error (.notFound id)) h') : Performed config h .observed h'

/-- A sequence of answered operations. -/
abbrev Runs (config : HeapConfig) : Heap P → List Event → Heap P → Prop :=
  Runs.Steps (Performed config)

variable [LawfulPlacement P] {config : HeapConfig} {h h' : Heap P} {L M : Ledger}
  {events more : List Event} {e : Event} {id : Nat}

/-- A number without a live slot in the index has none in the ledger. -/
theorem liveSlot_missed (hSound : Sound config L h.placed)
    (hRun : liveSlot id h = .error (.error (.notFound id)) h') :
    liveOf (L.slots id) = none ∧ ∃ u, Flushed .index h.store u ∧ h' = h.withStore u := by
  rcases bind_eq_error.mp hRun with hRead | ⟨found, g, hRead, hRest⟩
  · obtain ⟨u, hSlot, -⟩ := onStore_eq_error.mp hRead
    rcases readSlot_error hSlot with hIo | ⟨message, hPanic⟩
    · cases hIo
    · cases hPanic
  · obtain ⟨u, hSlot, rfl⟩ := onStore_eq_ok.mp hRead
    obtain ⟨rfl, hFlushed⟩ := readSlot_ok (hSound.coherent .index) hSound.index hSlot
    cases hState : liveOf (L.slots id) with
    | some slot =>
        rw [hState] at hRest
        cases hRest
    | none =>
        rw [hState] at hRest
        cases hRest
        exact ⟨rfl, u, hFlushed, rfl⟩

/-- A payload that is read is the one that the live slot names. -/
theorem read_ok {payload : Bytes} (hSound : Sound config L h.placed)
    (hRun : read config id h = .ok payload h') :
    L.value id = some payload ∧ ∃ u, Refreshed h.store u ∧ h' = h.withStore u := by
  obtain ⟨slot, g, hLookup, hRun⟩ := bind_eq_ok.mp hRun
  obtain ⟨hLive, s₁, hIndex, rfl⟩ := liveSlot_ok hSound hLookup
  have hSound₁ := hSound.refreshed (.flushed hIndex)
  obtain ⟨r, hr, hId, rfl, hValue⟩ := hSound.record_of_live hLive
  obtain ⟨⟨header, stored⟩, g, hRecordRun, hRun⟩ := bind_eq_ok.mp hRun
  obtain ⟨s₂, hRecord, rfl⟩ := onStore_eq_ok.mp hRecordRun
  cases hRun
  have hStop := hSound.stop_lt hr
  have hUp := le_pageUp (r.stop (Placement.withBucket P))
  obtain ⟨-, rfl, hData⟩ := DataFile.readRecord_ok (d := dataFile P config) (hSound₁.coherent .data)
    hSound₁.data hr hId (hSound.faithful.intact r hr)
    (show r.stop (Placement.withBucket P) < 2 ^ 64 by omega) hRecord
  exact ⟨hValue, s₂, (Refreshed.flushed hIndex).trans (.flushed hData), rfl⟩

/-- One step of a sound heap is one step of its ledger. -/
theorem Performed.step (hPerformed : Performed config h e h') (hConfig : LawfulPlacement.Accepts P config)
    (hSound : Sound config L h.placed) (hHistoric : L.Historic (Placement.withBucket P) events) :
    ∃ M, Ledger.Step (Placement.withBucket P) L e M ∧ Sound config M h'.placed := by
  cases hPerformed with
  | inserted range run =>
      obtain ⟨r, new, hInserted⟩ := insertInto_ok hSound hConfig range run
      obtain ⟨off, rfl⟩ := hInserted.record
      exact ⟨_, .inserted _ new rfl rfl rfl hInserted.fresh, hInserted.sound⟩
  | updated run =>
      obtain ⟨old, r, new, hUpdated⟩ := update_ok hSound run
      obtain ⟨off, rfl⟩ := hUpdated.record
      obtain ⟨x, hx, hSlot⟩ := hHistoric.newest _ _ (by rw [hUpdated.live]; rfl)
      obtain rfl : x = old := hSound.data.eq_of_off (newest_eq_some hx).1 hUpdated.mem
        (congrArg Slot.offset hSlot)
      exact ⟨_, .updated x _ new hx hUpdated.live rfl rfl rfl, hUpdated.sound⟩
  | deleted run =>
      obtain ⟨slot, hDeleted⟩ := delete_ok hSound run
      exact ⟨_, .deleted slot hDeleted.live, hDeleted.sound⟩
  | read run =>
      obtain ⟨-, u, hRefreshed, rfl⟩ := read_ok hSound run
      exact ⟨L, .observed, hSound.refreshed hRefreshed⟩
  | flushed run => exact ⟨L, .observed, (flush_ok hSound run).2⟩
  | missed run =>
      obtain ⟨-, u, hFlushed, rfl⟩ := liveSlot_missed hSound run
      exact ⟨L, .observed, hSound.refreshed (.flushed hFlushed)⟩

/-- A run of a sound heap leaves it sound for the ledger of the longer history. -/
theorem Runs.sound (hRuns : Runs config h more h') (hConfig : LawfulPlacement.Accepts P config)
    (hSound : Sound config L h.placed) (hHistoric : L.Historic (Placement.withBucket P) events) :
    ∃ M, L.Grows (Placement.withBucket P) more M ∧ Sound config M h'.placed ∧
      M.Historic (Placement.withBucket P) (events ++ more) :=
  hRuns.simulate (R := fun events h L => Sound config L h.placed ∧
      L.Historic (Placement.withBucket P) events)
    (fun _ _ _ _ _ hBoth hPerformed => by
      obtain ⟨M, hStep, hNext⟩ := hPerformed.step hConfig hBoth.1 hBoth.2
      exact ⟨M, hStep, hNext, hBoth.2.step hStep⟩)
    ⟨hSound, hHistoric⟩

end Heap

end HeapStore
