import HeapStore.Heap.Run

/-! What a sound heap answers: the payload of a live slot's record, or that
there is no such record, whenever the kernel can address what is staged. -/
namespace HeapStore

open Effect PagedFile IndexFile

namespace Heap

variable {P : Type}

/-- Everything staged for records and slots lies within the kernel's file offsets. -/
structure Ready (h : Heap P) : Prop where
  data : InReach .data h.store
  index : InReach .index h.store

theorem Ready.refreshed {h : Heap P} {u : Store} (hReady : Ready h) (hRefreshed : Refreshed h.store u) :
    Ready (h.withStore u) :=
  ⟨hRefreshed.reach .data hReady.data, hRefreshed.reach .index hReady.index⟩

/-- A store that presents these records and these slots, with nothing in the way of
reading them. -/
structure Presents (withBucket integrity : Bool) (log : List Record) (slots : Nat → SlotState)
    (s : Store) : Prop where
  plan : s.plan = []
  coherent : ∀ n, Coherent n s
  data : Laid withBucket log (s.logical .data)
  index : SlotsAt slots (s.logical .index)
  intact : ∀ r ∈ log, r.intact integrity = true
  range : ∀ r ∈ log, pageUp (r.stop withBucket) < 2 ^ 63

theorem Presents.refreshed {withBucket integrity : Bool} {log : List Record} {slots : Nat → SlotState}
    {s t : Store} (h : Presents withBucket integrity log slots s) (hRefreshed : Refreshed s t) :
    Presents withBucket integrity log slots t where
  plan := hRefreshed.plan h.plan
  coherent := hRefreshed.coherent h.coherent
  data := by
    rw [hRefreshed.logical]
    exact h.data
  index := by
    rw [hRefreshed.logical]
    exact h.index
  intact := h.intact
  range := h.range

section Presenting

variable [Placement P] {config : HeapConfig} {h : Heap P} {id : Nat} {r : Record} {log : List Record}
  {slots : Nat → SlotState}

namespace Presents

theorem readSlot (hPresents : Presents (Placement.withBucket P) config.integrity log slots h.store)
    (hReady : Ready h) (hId : Addressable id) :
    ∃ u, Flushed .index h.store u ∧
      onStore (IndexFile.readSlot id) h = .ok (liveOf (slots id)) (h.withStore u) := by
  obtain ⟨slot, u, hRun⟩ := readSlot_run (hPresents.coherent .index) hPresents.plan hReady.index hId
  obtain ⟨rfl, hFlushed⟩ := readSlot_ok (hPresents.coherent .index) hPresents.index hRun
  exact ⟨u, hFlushed, onStore_eq_ok.mpr ⟨u, hRun, rfl⟩⟩

theorem liveSlot {slot : Slot}
    (hPresents : Presents (Placement.withBucket P) config.integrity log slots h.store)
    (hReady : Ready h) (hId : Addressable id) (hLive : slots id = .live slot) :
    ∃ u, Flushed .index h.store u ∧ Heap.liveSlot id h = .ok slot (h.withStore u) := by
  obtain ⟨u, hFlushed, hRun⟩ := hPresents.readSlot hReady hId
  rw [hLive] at hRun
  exact ⟨u, hFlushed, by rw [Heap.liveSlot, bind_of_ok hRun]; rfl⟩

/-- The record of a live slot is read. -/
theorem read_live (hPresents : Presents (Placement.withBucket P) config.integrity log slots h.store)
    (hReady : Ready h) (hId : Addressable id) (hr : r ∈ log) (hSame : r.header.id = id)
    (hLive : slots id = .live (r.slot (Placement.withBucket P))) :
    ∃ u, Inspected h.store u ∧ read config id h = .ok r.payload (h.withStore u) := by
  obtain ⟨u, hIndex, hSlot⟩ := hPresents.liveSlot hReady hId hLive
  have hPresents₁ := hPresents.refreshed (.flushed hIndex)
  have hReady₁ := hReady.refreshed (.flushed hIndex)
  obtain ⟨v, hRecord, hData⟩ := DataFile.readRecord_run (d := dataFile P config)
    (hPresents₁.coherent .data) hPresents₁.plan hReady₁.data hPresents₁.data hr hSame
    (hPresents.intact r hr) (hPresents.range r hr)
  refine ⟨v, (Inspected.flushed (by decide) hIndex).trans (.flushed (by decide) hData), ?_⟩
  rw [read, bind_of_ok hSlot, bind_of_ok (onStore_eq_ok.mpr ⟨v, hRecord, rfl⟩)]
  rfl

/-- No record is read where no slot is live. -/
theorem read_missing (hPresents : Presents (Placement.withBucket P) config.integrity log slots h.store)
    (hReady : Ready h) (hId : Addressable id) (hNone : liveOf (slots id) = none) :
    ∃ u, Inspected h.store u ∧
      read config id h = .error (.error (.notFound id)) (h.withStore u) := by
  obtain ⟨u, hFlushed, hRun⟩ := hPresents.readSlot hReady hId
  rw [hNone] at hRun
  have hSlot : Heap.liveSlot id h = .error (.error (.notFound id)) (h.withStore u) := by
    rw [Heap.liveSlot, bind_of_ok hRun]
    rfl
  exact ⟨u, .flushed (by decide) hFlushed, by rw [read, bind_of_error hSlot]⟩

end Presents

end Presenting

variable [Placement P] [LawfulPlacement P] {config : HeapConfig} {h h' : Heap P} {L : Ledger} {id : Nat}
  {payload : Bytes} {r : Record}

theorem Sound.presents (hSound : Sound config L h.placed) :
    Presents (Placement.withBucket P) config.integrity L.log L.slots h.store :=
  ⟨hSound.plan, hSound.coherent, hSound.data, hSound.index, hSound.faithful.intact,
    fun _ hr => hSound.stop_lt hr⟩

theorem readSlot_answers (hSound : Sound config L h.placed) (hReady : Ready h) (hId : Addressable id) :
    ∃ u, Flushed .index h.store u ∧
      onStore (IndexFile.readSlot id) h = .ok (liveOf (L.slots id)) (h.withStore u) :=
  hSound.presents.readSlot hReady hId

theorem liveSlot_live {slot : Slot} (hSound : Sound config L h.placed) (hReady : Ready h)
    (hId : Addressable id) (hLive : L.slots id = .live slot) :
    ∃ u, Flushed .index h.store u ∧ liveSlot id h = .ok slot (h.withStore u) :=
  hSound.presents.liveSlot hReady hId hLive

theorem read_live (hSound : Sound config L h.placed) (hReady : Ready h) (hId : Addressable id)
    (hr : r ∈ L.log) (hSame : r.header.id = id)
    (hLive : L.slots id = .live (r.slot (Placement.withBucket P))) :
    ∃ u, Inspected h.store u ∧ read config id h = .ok r.payload (h.withStore u) :=
  hSound.presents.read_live hReady hId hr hSame hLive

theorem read_missing (hSound : Sound config L h.placed) (hReady : Ready h) (hId : Addressable id)
    (hNone : liveOf (L.slots id) = none) :
    ∃ u, Inspected h.store u ∧
      read config id h = .error (.error (.notFound id)) (h.withStore u) :=
  hSound.presents.read_missing hReady hId hNone

end Heap

end HeapStore
