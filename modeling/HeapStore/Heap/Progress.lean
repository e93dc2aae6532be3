import HeapStore.Heap.Answers

/-! Progress: with block requests that succeed, and everything staged within the
kernel's file offsets, commits, flushes and record operations complete. -/
namespace HeapStore

open Effect PagedFile IndexFile

/-- The end that reserving up to an offset leaves. -/
def PagedFile.grownEnd (allocatedEnd upto chunk : Nat) : Nat :=
  if upto ≤ allocatedEnd then allocatedEnd else pageUp (max upto (allocatedEnd + chunk))

theorem PagedFile.ensureAlloc_run (upto chunk : Nat) {s : Store} (hPlan : s.plan = [])
    (hRange : grownEnd (s.paged .data).allocatedEnd upto chunk < 2 ^ 63) :
    ∃ t, ensureAlloc .data upto chunk s = .ok () t ∧
      (t.paged .data).allocatedEnd = grownEnd (s.paged .data).allocatedEnd upto chunk := by
  rw [grownEnd] at hRange ⊢
  by_cases hEnough : upto ≤ (s.paged .data).allocatedEnd
  · rw [if_pos hEnough] at hRange ⊢
    exact ⟨s, ensureAlloc_enough (by omega) hEnough, rfl⟩
  · rw [if_neg hEnough] at hRange ⊢
    have hUp := le_pageUp (max upto ((s.paged .data).allocatedEnd + chunk))
    rw [ensureAlloc_more (Nat.not_le.mp hEnough) (fits_of_pageUp hRange),
      bind_of_ok (fallocate_run hPlan (by omega))]
    exact ⟨_, rfl, by simp⟩

namespace Heap

variable {P : Type} [Placement P] {s : Store}

/-- Everything that is staged lies within the kernel's file offsets. -/
def AllInReach (s : Store) : Prop := ∀ n, InReach n s

theorem AllInReach.refreshed {t : Store} (h : AllInReach s) (hRefreshed : Refreshed s t) :
    AllInReach t := fun n => hRefreshed.reach n (h n)

theorem flush_refreshed (n : FileName) (hCoherent : ∀ n, Coherent n s) (hPlan : s.plan = [])
    (hReach : AllInReach s) : ∃ t, PagedFile.flush n s = .ok () t ∧ Refreshed s t := by
  obtain ⟨t, hRun⟩ := PagedFile.flush_run (hCoherent n) hPlan (hReach n)
  exact ⟨t, hRun, .flushed (PagedFile.flush_ok (hCoherent n) hRun)⟩

theorem sync_refreshed (n : FileName) (hPlan : s.plan = []) :
    ∃ t, sync n s = .ok () t ∧ Refreshed s t :=
  ⟨_, sync_run hPlan, .synced (sync_synced (sync_run hPlan))⟩

theorem commitFiles_run (hCoherent : ∀ n, Coherent n s) (hPlan : s.plan = [])
    (hReach : AllInReach s) : ∃ t, commitFiles P s = .ok () t ∧ Refreshed s t := by
  have hFirst : ∃ a, commitRegistry P s = .ok () a ∧ Refreshed s a := by
    rw [commitRegistry]
    split
    · rw [flushPending, bind_of_ok (getPaged_apply .registry s)]
      split
      · obtain ⟨a, hFlush, hA⟩ := flush_refreshed .registry hCoherent hPlan hReach
        obtain ⟨b, hSync, hB⟩ := sync_refreshed .registry (hA.plan hPlan)
        exact ⟨b, by rw [bind_of_ok hFlush, hSync], hA.trans hB⟩
      · exact ⟨s, rfl, .refl s⟩
    · exact ⟨s, rfl, .refl s⟩
  obtain ⟨a, hRegistry, hA⟩ := hFirst
  obtain ⟨b, hData, hB⟩ := flush_refreshed .data (hA.coherent hCoherent) (hA.plan hPlan)
    (hReach.refreshed hA)
  have hAB := hA.trans hB
  obtain ⟨c, hSync, hC⟩ := sync_refreshed .data (hAB.plan hPlan)
  have hABC := hAB.trans hC
  obtain ⟨d, hIndex, hD⟩ := flush_refreshed .index (hABC.coherent hCoherent) (hABC.plan hPlan)
    (hReach.refreshed hABC)
  exact ⟨d, by rw [commitFiles, bind_of_ok hRegistry, bind_of_ok hData, bind_of_ok hSync, hIndex],
    hABC.trans hD⟩

theorem flushFiles_run (hCoherent : ∀ n, Coherent n s) (hPlan : s.plan = [])
    (hReach : AllInReach s) : ∃ t, flushFiles P s = .ok () t ∧ Refreshed s t := by
  obtain ⟨a, hCommit, hA⟩ := commitFiles_run (P := P) hCoherent hPlan hReach
  obtain ⟨b, hIndex, hB⟩ := flush_refreshed .index (hA.coherent hCoherent) (hA.plan hPlan)
    (hReach.refreshed hA)
  have hAB := hA.trans hB
  obtain ⟨c, hSync, hC⟩ := sync_refreshed .index (hAB.plan hPlan)
  have hABC := hAB.trans hC
  have hLast : ∃ d, (if Placement.withBucket P then sync .registry else return () : StoreM Unit) c =
      .ok () d ∧ Refreshed c d := by
    split
    · exact sync_refreshed .registry (hABC.plan hPlan)
    · exact ⟨c, rfl, .refl c⟩
  obtain ⟨d, hRegistry, hD⟩ := hLast
  exact ⟨d, by rw [flushFiles, bind_of_ok hCommit, bind_of_ok hIndex, bind_of_ok hSync, hRegistry],
    hABC.trans hD⟩

variable {config : HeapConfig} {h h' : Heap P} {L : Ledger} {bucket id off : Nat} {payload : Bytes}

theorem flush_run (hCoherent : ∀ n, Coherent n h.store) (hPlan : h.store.plan = [])
    (hReach : AllInReach h.store) :
    ∃ u, flush h = .ok () (h.withStore u) ∧ Refreshed h.store u := by
  obtain ⟨u, hRun, hRefreshed⟩ := flushFiles_run (P := P) hCoherent hPlan hReach
  exact ⟨u, onStore_eq_ok.mpr ⟨u, hRun, rfl⟩, hRefreshed⟩

theorem afterWrite_run (hCoherent : ∀ n, Coherent n h.store) (hPlan : h.store.plan = [])
    (hReach : AllInReach h.store) :
    ∃ u, afterWrite config h = .ok () (h.counted.withStore u) ∧ Refreshed h.store u := by
  have hEither : afterWrite config h = (if commits config h.counted then commit else pure ()) h.counted := by
    rw [commits]
    change (if due config h.counted = true then commit else _) h.counted = _
    cases due config h.counted with
    | true => rfl
    | false =>
        simp only [Bool.false_or, decide_eq_true_eq, Bool.false_eq_true, if_false]
        rfl
  rw [hEither]
  split
  · obtain ⟨u, hRun, hRefreshed⟩ := commitFiles_run (P := P) hCoherent hPlan hReach
    exact ⟨u, onStore_eq_ok.mpr ⟨u, hRun, rfl⟩, hRefreshed⟩
  · exact ⟨h.store, rfl, .refl _⟩

variable [LawfulPlacement P]

/-- The placement makes room for one more record, wherever the heap's store is
refreshed to. -/
def HasRoom (h : Heap P) (x : PlaceM P Nat) (off : Nat) (p : P) (allocatedEnd : Nat) : Prop :=
  ∀ u, Refreshed h.store u → ∃ v, x ⟨h.placement, u⟩ = .ok off ⟨p, v⟩ ∧ AllInReach v ∧
    (v.paged .data).allocatedEnd = allocatedEnd

theorem AllInReach.frame {n : FileName} {t : Store} (h : AllInReach s) (hFrame : Frame n s t)
    (hReach : InReach n t) : AllInReach t := fun m => by
  by_cases hm : m = n
  · exact hm ▸ hReach
  · rw [InReach, hFrame.paged m hm]
    exact h m

/-- With room for the record, the record and its slot are staged and what is due
is committed. -/
theorem wrote_run {s t : Placed P} {new : List RegistryRow} {version : Nat}
    (hSound : Sound config L s) (hReserved : Reserved s.store t.store)
    (hKeeps : LawfulPlacement.Keeps config t
      (L.log ++ [(dataFile P config).record off bucket id version payload]) (L.rows ++ new))
    (hReach : AllInReach t.store) (hId : Addressable id) :
    ∃ u v, (dataFile P config).stageRecord off bucket id version payload t.store = .ok () u ∧
      stageSlot id (some ⟨off, (dataFile P config).recordHeaderLen + payload.length⟩) u = .ok () v ∧
      AllInReach v ∧ v.plan = [] ∧
      (v.paged .data).allocatedEnd = (t.store.paged .data).allocatedEnd ∧ (Snug t.store → Snug v) := by
  have hRoomy := LawfulPlacement.roomy hKeeps
  have hBounds := LawfulPlacement.bounds hKeeps (List.mem_append_right _ (List.mem_singleton_self _))
  have hStop : pageUp (off + ((dataFile P config).recordHeaderLen + payload.length)) < 2 ^ 63 :=
    Nat.lt_of_le_of_lt (pageUp_le_of_mod hRoomy.whole.pages (hBounds.2.trans hRoomy.reserved))
      hRoomy.whole.range
  have hLength : [((dataFile P config).header bucket id version payload).encode
      (dataFile P config).withBucket, payload].flatten.length =
        (dataFile P config).recordHeaderLen + payload.length := by
    simp [DataFile.recordHeaderLen]
  have hCoherent := hReserved.coherent_data (hSound.coherent .data)
  obtain ⟨u, hRecord⟩ := stage_run hCoherent (hReserved.plan hSound.plan) (hReach .data)
    (by rw [hLength]; exact hStop)
  have hStaged := DataFile.stageRecord_ok (d := dataFile P config) hCoherent hRecord
  have hReachU := hReach.frame hStaged.frame (hStaged.reach (hReach .data) (by
    rw [DataFile.record_bytes, hLength]
    exact hStop))
  have hPlanU := hStaged.frame.plan (hReserved.plan hSound.plan)
  have hIndex := Refreshed.coherent_congr (hReserved.coherent_index (hSound.coherent .index))
    (hStaged.frame.paged .index (by decide)) (hStaged.frame.disk .index (by decide))
  have hSlotLength : [slotBytes (some (⟨off, (dataFile P config).recordHeaderLen + payload.length⟩ :
      Slot))].flatten.length = SLOT_SIZE := by
    simp [slotBytes]
  obtain ⟨v, hSlot⟩ := stage_run hIndex hPlanU (hReachU .index) (by rw [hSlotLength]; exact hId)
  have hSlotRun : stageSlot id (some ⟨off, (dataFile P config).recordHeaderLen + payload.length⟩) u =
      .ok () v := by
    rw [stageSlot, bind_of_ok (slotOffset_run hId.fileOffset_lt)]
    exact hSlot
  have hSlotStaged := (stageSlot_ok hIndex hSlotRun).1
  refine ⟨u, v, hRecord, hSlotRun, hReachU.frame hSlotStaged.frame (hSlotStaged.reach (hReachU .index) ?_),
    hSlotStaged.frame.plan hPlanU, ?_, fun hSnug => ?_⟩
  · rw [Slot.length_encode]
    exact hId
  · rw [hSlotStaged.frame.paged .data (by decide), hStaged.frame.allocated]
  · refine (hStaged.snug hCoherent hSnug ?_).congr (hSlotStaged.frame.disk .data (by decide))
      (hSlotStaged.frame.paged .data (by decide))
    rw [DataFile.record_bytes, hLength, ← hSnug.size]
    exact pageUp_le_of_mod hRoomy.whole.pages (hBounds.2.trans hRoomy.reserved)

/-- An insert completes where the placement makes room for it. -/
theorem insertInto_run {t : Placed P} (hSound : Sound config L h.placed)
    (hConfig : LawfulPlacement.Accepts P config) (hBucket : bucket < 2 ^ 64)
    (hAlloc : Placement.alloc config bucket ((dataFile P config).recordHeaderLen + payload.length)
      h.placed = .ok (off, id) t) (hReach : AllInReach t.store) (hId : Addressable id) :
    ∃ h', insertInto config bucket payload h = .ok id h' ∧ h'.placement = t.placement ∧
      AllInReach h'.store ∧
      (h'.store.paged .data).allocatedEnd = (t.store.paged .data).allocatedEnd ∧
      (Snug t.store → Snug h'.store) := by
  have hLt : id < 2 ^ 64 := by
    have hOffset := hId.fileOffset_lt
    rw [Slot.fileOffset, SLOT_SIZE] at hOffset
    omega
  obtain ⟨hReserved, -, new, hKeeps⟩ :=
    LawfulPlacement.alloc hSound.placed hConfig hBucket hLt hAlloc
      (DataFile.record_fills (dataFile P config) off bucket id 1 payload) rfl
  obtain ⟨u, v, hRecord, hSlot, hReachV, hPlan, hEnd, hSnug⟩ :=
    wrote_run hSound hReserved hKeeps hReach hId
  obtain ⟨-, hSound'⟩ := hSound.wrote hReserved hKeeps hBucket (by decide) hRecord hSlot
  obtain ⟨w, hAfter, hRefreshed⟩ := afterWrite_run
    (h := (⟨⟨t.placement, v⟩, h.operationsSinceSync⟩ : Heap P)) hSound'.coherent hPlan hReachV
  refine ⟨(⟨⟨t.placement, v⟩, h.operationsSinceSync⟩ : Heap P).counted.withStore w, ?_, rfl,
    hReachV.refreshed hRefreshed, (hRefreshed.upkeep hSound'.coherent).allocated.trans hEnd,
    fun hBefore => hRefreshed.snug hSound'.coherent (hSnug hBefore)⟩
  refine (bind_of_ok (onPlaced_eq_ok.mpr ⟨t, hAlloc, rfl⟩)).trans ?_
  refine (bind_of_ok (onStore_eq_ok.mpr ⟨u, hRecord, rfl⟩)).trans ?_
  refine (bind_of_ok (onStore_eq_ok.mpr ⟨v, hSlot, rfl⟩)).trans ?_
  rw [bind_of_ok hAfter]
  rfl

/-- An update completes where the placement makes room for the next version. -/
theorem update_run {old : Record} {q : P} {allocatedEnd : Nat} (hSound : Sound config L h.placed) (hReach : AllInReach h.store)
    (hOld : old ∈ L.log) (hOldId : old.header.id = id) (hId : Addressable id)
    (hLive : L.slots id = .live (old.slot (Placement.withBucket P)))
    (hRoom : HasRoom h (Placement.allocUpdate config old.header.bucket
      ((dataFile P config).recordHeaderLen + payload.length)) off q allocatedEnd) :
    ∃ h', update config id payload h = .ok () h' ∧ h'.placement = q ∧ AllInReach h'.store ∧
      (h'.store.paged .data).allocatedEnd = allocatedEnd := by
  obtain ⟨s₁, hIndex, hLookup⟩ := liveSlot_live hSound ⟨hReach .data, hReach .index⟩ hId hLive
  have hSound₁ := hSound.refreshed (.flushed hIndex)
  have hReach₁ := hReach.refreshed (.flushed hIndex)
  obtain ⟨s₂, hHeader, hData⟩ := DataFile.readHeader_run (d := dataFile P config)
    (hSound₁.coherent .data) hSound₁.plan (hReach₁ .data) hSound₁.data hOld hOldId (hSound.stop_lt hOld)
  have hSound₂ := hSound₁.refreshed (.flushed hData)
  obtain ⟨t, hAlloc, hReachT, hEndT⟩ := hRoom s₂ ((Refreshed.flushed hIndex).trans (.flushed hData))
  have hBucket := (hSound.data.formed old hOld).range.bucket
  obtain ⟨hReserved, new, hKeeps⟩ :=
    LawfulPlacement.allocUpdate hSound₂.placed hOld hBucket hAlloc
      (DataFile.record_fills (dataFile P config) off old.header.bucket id
        ((old.header.version + 1) % 2 ^ 16) payload) hOldId.symm
  obtain ⟨u, v, hRecord, hSlot, hReachV, hPlan, hEnd, -⟩ :=
    wrote_run hSound₂ hReserved hKeeps hReachT hId
  obtain ⟨-, hSound'⟩ := hSound₂.wrote hReserved hKeeps hBucket (Nat.mod_lt _ (by decide)) hRecord hSlot
  obtain ⟨w, hAfter, hRefreshed⟩ := afterWrite_run
    (h := (⟨⟨q, v⟩, h.operationsSinceSync⟩ : Heap P)) hSound'.coherent hPlan hReachV
  refine ⟨(⟨⟨q, v⟩, h.operationsSinceSync⟩ : Heap P).counted.withStore w, ?_, rfl,
    hReachV.refreshed hRefreshed, ((hRefreshed.upkeep hSound'.coherent).allocated.trans hEnd).trans hEndT⟩
  rw [update, bind_of_ok hLookup, bind_of_ok (onStore_eq_ok.mpr ⟨s₂, hHeader, rfl⟩),
    bind_of_ok (onPlaced_eq_ok.mpr ⟨⟨q, t⟩, hAlloc, rfl⟩),
    bind_of_ok (onStore_eq_ok.mpr ⟨u, hRecord, rfl⟩), bind_of_ok (onStore_eq_ok.mpr ⟨v, hSlot, rfl⟩)]
  exact hAfter

/-- A delete of a live number completes. -/
theorem delete_run {slot : Slot} (hSound : Sound config L h.placed) (hReach : AllInReach h.store)
    (hId : Addressable id) (hLive : L.slots id = .live slot) :
    ∃ h', delete config id h = .ok () h' ∧ h'.placement = h.placement ∧ AllInReach h'.store ∧
      (h'.store.paged .data).allocatedEnd = (h.store.paged .data).allocatedEnd := by
  obtain ⟨s₁, hIndex, hLookup⟩ := liveSlot_live hSound ⟨hReach .data, hReach .index⟩ hId hLive
  have hSound₁ := hSound.refreshed (.flushed hIndex)
  have hReach₁ := hReach.refreshed (.flushed hIndex)
  have hLength : [slot.tombstone.encode].flatten.length = SLOT_SIZE := by simp
  obtain ⟨t, hStage⟩ := stage_run (hSound₁.coherent .index) hSound₁.plan (hReach₁ .index)
    (by rw [hLength]; exact hId)
  have hRun : stageTombstone id slot s₁ = .ok () t := by
    rw [stageTombstone, bind_of_ok (slotOffset_run hId.fileOffset_lt)]
    exact hStage
  have hStaged := (stageTombstone_ok (hSound₁.coherent .index) hRun).1
  have hSound' := hSound₁.bury hLive hStaged
  have hReachT := hReach₁.frame hStaged.frame (hStaged.reach (hReach₁ .index) (by
    rw [Slot.length_encode]
    exact hId))
  obtain ⟨w, hAfter, hRefreshed⟩ := afterWrite_run
    (h := (⟨⟨h.placement, t⟩, h.operationsSinceSync⟩ : Heap P)) hSound'.coherent hSound'.plan hReachT
  have hEnd : (t.paged .data).allocatedEnd = (h.store.paged .data).allocatedEnd := by
    rw [hStaged.frame.paged .data (by decide)]
    exact ((Refreshed.flushed hIndex).upkeep hSound.coherent).allocated
  refine ⟨(⟨⟨h.placement, t⟩, h.operationsSinceSync⟩ : Heap P).counted.withStore w, ?_, rfl,
    hReachT.refreshed hRefreshed, (hRefreshed.upkeep hSound'.coherent).allocated.trans hEnd⟩
  rw [delete, bind_of_ok hLookup, bind_of_ok (onStore_eq_ok.mpr ⟨t, hRun, rfl⟩)]
  exact hAfter

/-! Opening without files. -/

omit [Placement P] [LawfulPlacement P] in
theorem create_run {n : FileName} {kind layout : UInt8} (hPlan : s.plan = []) :
    ∃ t, PagedFile.create n kind layout s = .ok () t ∧ t.plan = [] := by
  have hTruncate : truncate n s = .ok () (s.setDisk n .empty) := by
    simp only [truncate, s.outcome_of_plan hPlan, s.tick_of_plan hPlan]
  have hPlan' : ((s.setDisk n .empty).setPaged n .fresh).plan = [] := hPlan
  have hLength : (FileHeader.encode ⟨kind, layout⟩).length = PAGE := FileHeader.length_encode _
  have hRange : ∀ r ∈ [(0, FileHeader.encode ⟨kind, layout⟩)], r.1 + r.2.length < 2 ^ 63 := by
    intro r hr
    rw [List.mem_singleton] at hr
    subst hr
    rw [hLength]
    change 0 + PAGE < 2 ^ 63
    decide
  have hWrite := writeVec_run (n := n) hPlan' hRange
  rw [PagedFile.create, bind_of_ok hTruncate, bind_of_ok (modifyPaged_apply n _ _), bind_of_ok hWrite]
  generalize hWritten : ((((s.setDisk n .empty).setPaged n .fresh).noteIssued n
    [(0, FileHeader.encode ⟨kind, layout⟩)]).setDisk n
    ((((s.setDisk n .empty).setPaged n .fresh).file n).writes
      [(0, FileHeader.encode ⟨kind, layout⟩)])) = written
  have hPlan'' : written.plan = [] := by
    rw [← hWritten]
    exact hPlan
  rw [bind_of_ok (sync_run hPlan'')]
  exact ⟨_, rfl, hPlan''⟩

omit [LawfulPlacement P] in
theorem createFiles_run (hPlan : s.plan = []) : ∃ t, createFiles P s = .ok () t := by
  obtain ⟨a, hData, hA⟩ : ∃ a, PagedFile.create .data 'D'.toUInt8 (Placement.layout P) s = .ok () a ∧
      a.plan = [] := create_run hPlan
  obtain ⟨b, hIndex, hB⟩ : ∃ b, PagedFile.create .index 'I'.toUInt8 (Placement.layout P) a = .ok () b ∧
      b.plan = [] := create_run hA
  rw [createFiles, bind_of_ok hData, bind_of_ok hIndex]
  split
  · obtain ⟨c, hRegistry, -⟩ : ∃ c, PagedFile.create .registry 'R'.toUInt8 (Placement.layout P) b =
        .ok () c ∧ c.plan = [] := create_run hB
    exact ⟨c, hRegistry⟩
  · exact ⟨b, rfl⟩

omit [LawfulPlacement P] in
/-- A heap is opened without files if its placement can reserve what it needs. -/
theorem open_blank_run (order : HashOrder) (p : P) (left : Store → Prop) (hBlank : Blank s)
    (hRoom : ∀ t, CreatedAll P t → ∃ restored u,
      Placement.open order config true t = .ok (p, restored) u ∧ left u) :
    ∃ h : Heap P, OpenedOn config s h ∧ h.placement = p ∧ left h.store := by
  obtain ⟨t, hCreate⟩ := createFiles_run (P := P) hBlank.plan
  obtain ⟨restored, u, hOpen, hLeft⟩ := hRoom t (createFiles_ok hBlank hCreate)
  refine ⟨⟨⟨p, u⟩, 0⟩, ⟨⟨order, ⟨false, restored, .none⟩, ?_⟩, rfl⟩, rfl, hLeft⟩
  have hAbsent : fileExists .data s = .ok false s := by
    rw [fileExists, hBlank.disk]
    rfl
  rw [Heap.open, bind_of_ok hAbsent]
  simp only [Bool.false_eq_true, if_false]
  rw [bind_of_ok hCreate, openPlacement, hOpen]
  rfl

omit [LawfulPlacement P] in
theorem CreatedAll.inReach {t : Store} (h : CreatedAll P t) : AllInReach t := fun n w hw => by
  rw [(h.files n).staged] at hw
  cases hw

/-- Reserving space in the data file stages nothing. -/
theorem AllInReach.ensureAlloc {t : Store} {upto chunk : Nat} (h : AllInReach s)
    (hRun : PagedFile.ensureAlloc .data upto chunk s = .ok () t) : AllInReach t := fun n => by
  obtain ⟨hReserved, hRegistry, -⟩ := ensureAlloc_ok hRun
  cases n with
  | data => exact hReserved.reach_data (h .data)
  | index => exact hReserved.reach_index (h .index)
  | registry =>
      rw [InReach, hRegistry]
      exact h .registry

end Heap

end HeapStore
