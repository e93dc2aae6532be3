import HeapStore.Heap.Steps

/-! The record operations on a sound heap: what each one answers, what it
writes, and the ledger that it leaves. -/
namespace HeapStore

open Effect PagedFile

namespace DataFile

variable (d : DataFile) (off bucket id version : Nat) (payload : Bytes)

/-- The record that staging these values stores. -/
def record : Record := ⟨off, (d.header bucket id version payload).visible d.withBucket, payload⟩

variable {d off bucket id version payload}

theorem encode_visible (h : RecordHeader) (withBucket : Bool) :
    (h.visible withBucket).encode withBucket = h.encode withBucket := by
  cases withBucket <;> rfl

theorem visible_visible (h : RecordHeader) (withBucket : Bool) :
    (h.visible withBucket).visible withBucket = h.visible withBucket := by
  cases withBucket <;> rfl

theorem record_bytes : (d.record off bucket id version payload).bytes d.withBucket =
    [(d.header bucket id version payload).encode d.withBucket, payload].flatten := by
  simp only [Record.bytes, record, encode_visible, List.flatten_cons, List.flatten_nil, List.append_nil]

theorem record_fills (d : DataFile) (off bucket id version : Nat) (payload : Bytes) :
    (d.record off bucket id version payload).Fills d.withBucket off
      (d.recordHeaderLen + payload.length) bucket := ⟨rfl, rfl, rfl⟩

theorem record_intact : (d.record off bucket id version payload).intact d.integrity = true := by
  cases hIntegrity : d.integrity with
  | false => simp [Record.intact]
  | true => simp [Record.intact, record, RecordHeader.visible, header, hIntegrity]

theorem record_wellFormed (hLen : payload.length < 2 ^ 64) (hBucket : bucket < 2 ^ 64)
    (hId : id < 2 ^ 64) (hVersion : version < 2 ^ 16) :
    (d.record off bucket id version payload).WellFormed d.withBucket := by
  refine ⟨⟨hLen, ?_, hId, hVersion⟩, ?_, rfl⟩
  · change (if d.withBucket then bucket else 0) < 2 ^ 64
    split
    · exact hBucket
    · decide
  · exact visible_visible _ _

theorem stageRecord_ok {s t : Store} (h : Coherent .data s)
    (hRun : d.stageRecord off bucket id version payload s = .ok () t) :
    Staged .data off ((d.record off bucket id version payload).bytes d.withBucket) s t := by
  rw [record_bytes]
  refine stage_staged h ?_ hRun
  have hHeader := headerLen_ge d.withBucket
  simp only [List.flatten_cons, List.length_append, RecordHeader.length_encode]
  omega

end DataFile

namespace Heap

open IndexFile

variable {P : Type} [Placement P] [LawfulPlacement P] {config : HeapConfig} {h h' : Heap P}
  {L : Ledger} {bucket id : Nat} {payload : Bytes}

/-- A live slot that is read is the one that the ledger has. -/
theorem liveSlot_ok {slot : Slot} (hSound : Sound config L h.placed)
    (hRun : liveSlot id h = .ok slot h') :
    L.slots id = .live slot ∧ ∃ u, Flushed .index h.store u ∧ h' = h.withStore u := by
  obtain ⟨found, g, hRead, hRest⟩ := bind_eq_ok.mp hRun
  obtain ⟨u, hSlot, rfl⟩ := onStore_eq_ok.mp hRead
  obtain ⟨rfl, hFlushed⟩ := readSlot_ok (hSound.coherent .index) hSound.index hSlot
  cases hState : L.slots id with
  | live found =>
      simp only [hState, liveOf] at hRest
      cases hRest
      exact ⟨rfl, u, hFlushed, rfl⟩
  | empty =>
      simp only [hState, liveOf] at hRest
      cases hRest
  | deleted found =>
      simp only [hState, liveOf] at hRest
      cases hRest

/-- The record that a live slot names. -/
theorem Sound.record_of_live {s : Placed P} {slot : Slot} (hSound : Sound config L s)
    (hLive : L.slots id = .live slot) :
    ∃ r ∈ L.log, r.header.id = id ∧ r.slot (Placement.withBucket P) = slot ∧
      L.value id = some r.payload := by
  obtain ⟨r, hr, hId, rfl⟩ := hSound.faithful.named id slot (by rw [hLive]; rfl)
  refine ⟨r, hr, hId, rfl, ?_⟩
  rw [Ledger.value, hLive]
  have hFound : L.log.find? (fun x => x.off == (r.slot (Placement.withBucket P)).offset) = some r := by
    cases hFind : L.log.find? fun x => x.off == (r.slot (Placement.withBucket P)).offset with
    | none =>
        have hNone := List.find?_eq_none.mp hFind r hr
        simp [Record.slot] at hNone
    | some x =>
        have hx := List.mem_of_find?_eq_some hFind
        have hOff : x.off = r.off := by simpa [Record.slot] using List.find?_some hFind
        rw [hSound.data.eq_of_off hx hr hOff]
  simp only [hFound, Option.map_some]

/-- Records end within the kernel's file offsets, page rounded. -/
theorem Sound.stop_lt {s : Placed P} {r : Record} (hSound : Sound config L s) (hr : r ∈ L.log) :
    pageUp (r.stop (Placement.withBucket P)) < 2 ^ 63 := by
  have hRoomy := LawfulPlacement.roomy hSound.placed
  have hStop := (LawfulPlacement.bounds hSound.placed hr).2.trans hRoomy.reserved
  exact Nat.lt_of_le_of_lt (pageUp_le_of_mod hRoomy.whole.pages hStop) hRoomy.whole.range

/-- A new record with its slot, behind an allocation that made room for it. -/
theorem Sound.wrote {s t : Placed P} {u v : Store} {new : List RegistryRow} {off version : Nat}
    (hSound : Sound config L s) (hReserved : Reserved s.store t.store)
    (hKeeps : LawfulPlacement.Keeps config t
      (L.log ++ [(dataFile P config).record off bucket id version payload]) (L.rows ++ new))
    (hBucket : bucket < 2 ^ 64) (hVersion : version < 2 ^ 16)
    (hData : (dataFile P config).stageRecord off bucket id version payload t.store = .ok () u)
    (hIndex : stageSlot id (some ⟨off, (dataFile P config).recordHeaderLen + payload.length⟩) u =
      .ok () v) :
    Wrote (Placement.withBucket P) ((dataFile P config).record off bucket id version payload)
      s.store v ∧
    Sound config (L.put (Placement.withBucket P)
      ((dataFile P config).record off bucket id version payload) new) (⟨t.placement, v⟩ : Placed P) := by
  have hRoomy := LawfulPlacement.roomy hKeeps
  have hStop := (LawfulPlacement.bounds hKeeps
    (List.mem_append_right _ (List.mem_singleton_self _))).2.trans hRoomy.reserved
  have hRange := hRoomy.whole.range
  have hLen : payload.length < 2 ^ 64 := by
    change off + (headerLen _ + payload.length) ≤ _ at hStop
    omega
  have hStaged := DataFile.stageRecord_ok (hReserved.coherent_data (hSound.coherent .data)) hData
  have hCoherent := Refreshed.coherent_congr (hReserved.coherent_index (hSound.coherent .index))
    (hStaged.frame.paged .index (by decide)) (hStaged.frame.disk .index (by decide))
  obtain ⟨hSlot, hOffset⟩ := stageSlot_ok hCoherent hIndex
  have hId : id < 2 ^ 64 := by
    rw [Slot.fileOffset, SLOT_SIZE] at hOffset
    omega
  refine ⟨⟨t.store, u, hReserved, hStaged, hSlot⟩, ?_⟩
  exact hSound.put hReserved hKeeps (DataFile.record_wellFormed (d := dataFile P config) hLen hBucket hId hVersion)
    (DataFile.record_intact (d := dataFile P config)) hStaged hSlot

theorem Sound.concluded {u : Store} {s : Placed P} (hSound : Sound config L s)
    (hConcluded : Concluded (Placement.withBucket P) s.store u) :
    Sound config L (⟨s.placement, u⟩ : Placed P) :=
  hSound.refreshed (.concluded hConcluded)

/-- A completed insert: a record of a new number, with version one. -/
structure Inserted (config : HeapConfig) (L : Ledger) (bucket : Nat) (payload : Bytes) (id : Nat)
    (h h' : Heap P) (r : Record) (new : List RegistryRow) : Prop where
  record : ∃ off, r = (dataFile P config).record off bucket id 1 payload
  placed : ∃ t, Placement.alloc config bucket ((dataFile P config).recordHeaderLen + payload.length)
    h.placed = .ok (r.off, id) t
  fresh : ∀ old ∈ L.log, old.header.id ≠ id
  stores : ∃ t, Wrote (Placement.withBucket P) r h.store t ∧
    Concluded (Placement.withBucket P) t h'.store
  sound : Sound config (L.put (Placement.withBucket P) r new) h'.placed

theorem insertInto_ok (hSound : Sound config L h.placed) (hConfig : LawfulPlacement.Accepts P config)
    (hBucket : bucket < 2 ^ 64) (hRun : insertInto config bucket payload h = .ok id h') :
    ∃ r new, Inserted config L bucket payload id h h' r new := by
  obtain ⟨⟨off, number⟩, g, hAllocRun, hRun⟩ := bind_eq_ok.mp hRun
  obtain ⟨t, hAlloc, rfl⟩ := onPlaced_eq_ok.mp hAllocRun
  obtain ⟨_, g, hRecordRun, hRun⟩ := bind_eq_ok.mp hRun
  obtain ⟨u, hRecord, rfl⟩ := onStore_eq_ok.mp hRecordRun
  obtain ⟨_, g, hSlotRun, hRun⟩ := bind_eq_ok.mp hRun
  obtain ⟨v, hSlot, rfl⟩ := onStore_eq_ok.mp hSlotRun
  obtain ⟨_, g, hAfter, hRun⟩ := bind_eq_ok.mp hRun
  cases hRun
  have hId : id < 2 ^ 64 := by
    obtain ⟨_, _, hOffset, -⟩ := bind_eq_ok.mp hSlot
    have hOffset := (slotOffset_ok hOffset).2.2
    rw [Slot.fileOffset, SLOT_SIZE] at hOffset
    omega
  obtain ⟨hReserved, hFresh, new, hKeeps⟩ :=
    LawfulPlacement.alloc hSound.placed hConfig hBucket hId hAlloc
      (DataFile.record_fills (dataFile P config) off bucket id 1 payload) rfl
  obtain ⟨hWrote, hSound'⟩ := hSound.wrote hReserved hKeeps hBucket (by decide) hRecord hSlot
  obtain ⟨hSame, hConcluded⟩ := afterWrite_concluded hAfter hSound'.coherent
  refine ⟨_, new, ⟨off, rfl⟩, ⟨t, hAlloc⟩, hFresh, ⟨v, hWrote, hConcluded⟩, ?_⟩
  rw [hSame]
  exact hSound'.concluded hConcluded

/-- A completed update: a record of the same number and bucket, with the next version. -/
structure Updated (config : HeapConfig) (L : Ledger) (id : Nat) (payload : Bytes) (h h' : Heap P)
    (old r : Record) (new : List RegistryRow) : Prop where
  mem : old ∈ L.log
  identity : old.header.id = id
  live : L.slots id = .live (old.slot (Placement.withBucket P))
  record : ∃ off, r = (dataFile P config).record off old.header.bucket id
    ((old.header.version + 1) % 2 ^ 16) payload
  placed : ∃ g g' t, liveSlot id h = .ok (old.slot (Placement.withBucket P)) g ∧
    onStore ((dataFile P config).readHeader old.off id) g = .ok old.header g' ∧
    Placement.allocUpdate config old.header.bucket
      ((dataFile P config).recordHeaderLen + payload.length) g'.placed = .ok r.off t
  stores : ∃ s₁ s₂ t, Flushed .index h.store s₁ ∧ Flushed .data s₁ s₂ ∧
    Wrote (Placement.withBucket P) r s₂ t ∧ Concluded (Placement.withBucket P) t h'.store
  sound : Sound config (L.put (Placement.withBucket P) r new) h'.placed

theorem update_ok (hSound : Sound config L h.placed)
    (hRun : update config id payload h = .ok () h') :
    ∃ old r new, Updated config L id payload h h' old r new := by
  obtain ⟨slot, g, hLookup, hRun⟩ := bind_eq_ok.mp hRun
  obtain ⟨hLive, s₁, hIndex, rfl⟩ := liveSlot_ok hSound hLookup
  have hSound₁ := hSound.refreshed (.flushed hIndex)
  obtain ⟨old, hOld, hOldId, rfl, -⟩ := hSound.record_of_live hLive
  obtain ⟨header, g, hHeaderRun, hRun⟩ := bind_eq_ok.mp hRun
  obtain ⟨s₂, hHeader, rfl⟩ := onStore_eq_ok.mp hHeaderRun
  obtain ⟨rfl, -, hData⟩ := DataFile.readHeader_ok (d := dataFile P config)
    (hSound₁.coherent .data) hSound₁.data hOld hHeader
  have hSound₂ := hSound₁.refreshed (.flushed hData)
  obtain ⟨off, g, hAllocRun, hRun⟩ := bind_eq_ok.mp hRun
  obtain ⟨t, hAlloc, rfl⟩ := onPlaced_eq_ok.mp hAllocRun
  obtain ⟨_, g, hRecordRun, hRun⟩ := bind_eq_ok.mp hRun
  obtain ⟨u, hRecord, rfl⟩ := onStore_eq_ok.mp hRecordRun
  obtain ⟨_, g, hSlotRun, hRun⟩ := bind_eq_ok.mp hRun
  obtain ⟨v, hSlot, rfl⟩ := onStore_eq_ok.mp hSlotRun
  have hBucket := (hSound.data.formed old hOld).range.bucket
  obtain ⟨hReserved, new, hKeeps⟩ :=
    LawfulPlacement.allocUpdate hSound₂.placed hOld hBucket hAlloc
      (DataFile.record_fills (dataFile P config) off old.header.bucket id
        ((old.header.version + 1) % 2 ^ 16) payload) hOldId.symm
  obtain ⟨hWrote, hSound'⟩ := hSound₂.wrote hReserved hKeeps hBucket
    (Nat.mod_lt _ (by decide)) hRecord hSlot
  obtain ⟨hSame, hConcluded⟩ := afterWrite_concluded hRun hSound'.coherent
  refine ⟨old, _, new, hOld, hOldId, hLive, ⟨off, rfl⟩, ⟨_, _, t, hLookup, hHeaderRun, hAlloc⟩,
    ⟨s₁, s₂, v, hIndex, hData, hWrote, hConcluded⟩, ?_⟩
  rw [hSame]
  exact hSound'.concluded hConcluded

/-- A completed delete: the live slot becomes a tombstone. -/
structure Deleted (config : HeapConfig) (L : Ledger) (id : Nat) (h h' : Heap P) (slot : Slot) :
    Prop where
  live : L.slots id = .live slot
  stores : ∃ s₁ t, Flushed .index h.store s₁ ∧
    Staged .index (Slot.fileOffset id) slot.tombstone.encode s₁ t ∧
    Concluded (Placement.withBucket P) t h'.store
  sound : Sound config (L.bury id slot) h'.placed

theorem delete_ok (hSound : Sound config L h.placed) (hRun : delete config id h = .ok () h') :
    ∃ slot, Deleted config L id h h' slot := by
  obtain ⟨slot, g, hLookup, hRun⟩ := bind_eq_ok.mp hRun
  obtain ⟨hLive, s₁, hIndex, rfl⟩ := liveSlot_ok hSound hLookup
  have hSound₁ := hSound.refreshed (.flushed hIndex)
  obtain ⟨_, g, hStageRun, hAfter⟩ := bind_eq_ok.mp hRun
  obtain ⟨t, hStage, rfl⟩ := onStore_eq_ok.mp hStageRun
  have hStaged := (stageTombstone_ok (hSound₁.coherent .index) hStage).1
  have hSound' := hSound₁.bury hLive hStaged
  obtain ⟨hSame, hConcluded⟩ := afterWrite_concluded hAfter hSound'.coherent
  refine ⟨slot, hLive, ⟨s₁, t, hIndex, hStaged, hConcluded⟩, ?_⟩
  rw [hSame]
  exact hSound'.concluded hConcluded

/-- A completed flush: everything is written and synced. -/
theorem flush_ok (hSound : Sound config L h.placed) (hRun : flush h = .ok () h') :
    FlushedAll (Placement.withBucket P) h.store h'.store ∧ Sound config L h'.placed := by
  obtain ⟨u, hFiles, rfl⟩ := onStore_eq_ok.mp hRun
  have hAll := flushFiles_ok hSound.coherent hFiles
  exact ⟨hAll, hSound.refreshed (.flushedAll hAll)⟩

end Heap

end HeapStore
