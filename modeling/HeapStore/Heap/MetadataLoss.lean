import HeapStore.Heap.Damage

/-! A store whose metadata is missing or broken: opening rebuilds it from the
data file, and goes on with the history in which nothing was ever deleted. -/
namespace HeapStore

open Effect PagedFile IndexFile

/-! The history without its deletes. -/

/-- A delete leaves no trace in the data file. -/
def Event.undeleted : Event → Event
  | .deleted _ => .observed
  | e => e

def undeleted (events : List Event) : List Event := events.map Event.undeleted

section Undeleted

variable {events : List Event} {id : Nat}

theorem undeleted_concat (events : List Event) (e : Event) :
    undeleted (events ++ [e]) = undeleted events ++ [e.undeleted] := by simp [undeleted]

theorem writes_undeleted (events : List Event) :
    (undeleted events).filterMap Event.write = events.filterMap Event.write := by
  rw [undeleted, List.filterMap_map]
  congr 1
  funext e
  cases e <;> rfl

theorem issued_undeleted (events : List Event) :
    (undeleted events).filterMap Event.issued = events.filterMap Event.issued := by
  rw [undeleted, List.filterMap_map]
  congr 1
  funext e
  cases e <;> rfl

theorem updateCount_undeleted (events : List Event) (id : Nat) :
    updateCount (undeleted events) id = updateCount events id := by
  rw [updateCount, undeleted, List.countP_map, updateCount]
  congr 1
  funext e
  cases e <;> rfl

theorem deleted_not_mem_undeleted : .deleted id ∉ undeleted events := by
  intro hMem
  obtain ⟨e, -, hSame⟩ := List.mem_map.mp hMem
  cases e <;> cases hSame

/-- Without deletes a number stands for the payload that was written last. -/
theorem values_undeleted (events : List Event) (id : Nat) :
    values (undeleted events) id = latest events id := by
  induction events using List.reverseRecOn with
  | nil => rfl
  | append_singleton events e ih =>
      rw [undeleted_concat, values_concat, latest_concat]
      cases e with
      | inserted k bucket payload => simp [Event.undeleted, Event.apply, Event.write, Function.update_apply, ih, eq_comm]
      | updated k payload => simp [Event.undeleted, Event.apply, Event.write, Function.update_apply, ih, eq_comm]
      | deleted k => exact ih
      | observed => exact ih

end Undeleted

/-- The ledger of the same records in which every number is live. -/
def Ledger.revived (withBucket : Bool) (L : Ledger) (rows : List RegistryRow) : Ledger :=
  ⟨L.log, newestSlots withBucket L.log, rows⟩

section Revived

variable {withBucket integrity : Bool} {L : Ledger} {rows : List RegistryRow} {events : List Event}

theorem newestSlots_ne_empty {log : List Record} {id : Nat} :
    newestSlots withBucket log id ≠ .empty ↔ ∃ r ∈ log, r.header.id = id := by
  rw [newestSlots]
  cases hNewest : newest log id with
  | none =>
      rw [newest_eq_none] at hNewest
      simpa using hNewest
  | some r =>
      obtain ⟨hr, hId⟩ := newest_eq_some hNewest
      simp only [ne_eq, reduceCtorEq, not_false_eq_true, true_iff]
      exact ⟨r, hr, hId⟩

theorem newestSlots_place {log : List Record} {id : Nat} {slot : Slot}
    (h : (newestSlots withBucket log id).place = some slot) :
    ∃ r, newest log id = some r ∧ r.slot withBucket = slot := by
  rw [newestSlots] at h
  cases hNewest : newest log id with
  | none =>
      rw [hNewest] at h
      cases h
  | some r =>
      rw [hNewest] at h
      exact ⟨r, rfl, Option.some.inj h⟩

theorem Ledger.Faithful.revived (h : L.Faithful withBucket integrity) :
    (L.revived withBucket rows).Faithful withBucket integrity where
  intact := h.intact
  written _ := newestSlots_ne_empty
  named id slot hPlace := by
    obtain ⟨r, hNewest, hSlot⟩ := newestSlots_place hPlace
    obtain ⟨hr, hId⟩ := newest_eq_some hNewest
    exact ⟨r, hr, hId, hSlot⟩

/-- The revived ledger is one of the history without deletes. -/
theorem Ledger.Historic.revived (h : L.Historic withBucket events) :
    (L.revived withBucket rows).Historic withBucket (undeleted events) where
  writes := by rw [writes_undeleted]; exact h.writes
  written _ := newestSlots_ne_empty
  newest _ _ hPlace := newestSlots_place hPlace
  version := h.version
  deleted id := by
    refine ⟨fun ⟨slot, hSlot⟩ => ?_, fun hIn => absurd hIn deleted_not_mem_undeleted⟩
    change newestSlots withBucket L.log id = .deleted slot at hSlot
    rw [newestSlots] at hSlot
    split at hSlot <;> cases hSlot
  count id := by rw [updateCount_undeleted]; exact h.count id
  value id := by
    rw [values_undeleted, ← h.newest_latest]
    simp only [Ledger.revived, newestSlots]
    cases HeapStore.newest L.log id <;> rfl

end Revived

namespace Heap

variable {P : Type} [Placement P] {s t : Store} {n : FileName}

/-! Files that are not accepted. -/

/-- A file that is missing or does not start with the expected header. -/
def Unreadable (P : Type) [Placement P] (n : FileName) (s : Store) : Prop :=
  s.disk n = none ∨
    FileHeader.decode (Image.read (s.file n).bytes 0 PAGE) ≠ some ⟨fileKind n, Placement.layout P⟩

/-- A file without the expected header is not opened. -/
theorem open_unreadable (hPlan : s.plan = []) (hPresent : (s.disk n).isSome)
    (hHeader : FileHeader.decode (Image.read (s.file n).bytes 0 PAGE) ≠
      some ⟨fileKind n, Placement.layout P⟩) :
    PagedFile.open n (fileKind n) (Placement.layout P) s =
      .error (.error (.corrupt "file header" 0)) (s.setPaged n .fresh) := by
  have hDirect : openDirect n s = .ok () s := by rw [openDirect, if_pos hPresent]
  have hRead := readOne_run (n := n) (s := s.setPaged n .fresh) hPlan (show 0 + PAGE < 2 ^ 63 by decide)
  have hPage : FileHeader.decode (Image.read ((s.setPaged n .fresh).file n).bytes 0 PAGE) =
      FileHeader.decode (Image.read (s.file n).bytes 0 PAGE) := rfl
  rw [PagedFile.open, bind_of_ok hDirect, bind_of_ok (modifyPaged_apply n _ _), bind_of_ok hRead, hPage]
  cases hDecode : FileHeader.decode (Image.read (s.file n).bytes 0 PAGE) with
  | none => rfl
  | some header =>
      rw [hDecode] at hHeader
      have hNot : ¬ (header.kind = fileKind n ∧ header.layout = Placement.layout P) := by
        rintro ⟨hKind, hLayout⟩
        apply hHeader
        rw [← hKind, ← hLayout]
      simp only [hNot, if_false]
      rfl

/-- Whether a metadata file is broken can be told without a change of any file. -/
theorem metadataIsBroken_eq (P : Type) [Placement P] (n : FileName) {s : Store} (hPlan : s.plan = []) :
    ∃ broken t, metadataIsBroken P n (fileKind n) s = .ok broken t ∧ t.disk = s.disk ∧ t.plan = [] ∧
      (∀ m, s.paged m = .fresh → t.paged m = .fresh) ∧ (broken = true ↔ Unreadable P n s) := by
  have hExists : fileExists n s = .ok (s.disk n).isSome s := rfl
  rw [metadataIsBroken, bind_of_ok hExists]
  cases hDisk : s.disk n with
  | none => exact ⟨true, s, rfl, rfl, hPlan, fun _ => id, iff_of_true rfl (Or.inl hDisk)⟩
  | some f =>
      have hPresent : (s.disk n).isSome := by rw [hDisk]; rfl
      have hFresh : ∀ m, s.paged m = .fresh → (s.setPaged n .fresh).paged m = .fresh := fun m hm => by
        by_cases hSame : m = n
        · exact hSame ▸ Function.update_self ..
        · exact (Function.update_of_ne hSame ..).trans hm
      by_cases hHeader : FileHeader.decode (Image.read (s.file n).bytes 0 PAGE) =
          some ⟨fileKind n, Placement.layout P⟩
      · have hOpen : PagedFile.open n (fileKind n) (Placement.layout P) s = .ok () (s.setPaged n .fresh) :=
          PagedFile.open_of_decode hPlan hPresent hHeader
        refine ⟨false, s.setPaged n .fresh, ?_, rfl, hPlan, hFresh, ?_⟩
        · simp only [Option.isSome_some, if_true]
          rw [bind_of_ok (attempt_of_ok hOpen)]
          rfl
        · refine iff_of_false (by decide) ?_
          rintro (hNone | hOther)
          · rw [hDisk] at hNone
            cases hNone
          · exact hOther hHeader
      · refine ⟨true, s.setPaged n .fresh, ?_, rfl, hPlan, hFresh, iff_of_true rfl (Or.inr hHeader)⟩
        simp only [Option.isSome_some, if_true]
        rw [bind_of_ok (attempt_of_error (open_unreadable hPlan hPresent hHeader))]
        rfl

/-- Metadata that opening rebuilds. -/
def MetadataLost (P : Type) [Placement P] (s : Store) : Prop :=
  Unreadable P .index s ∨ Placement.withBucket P = true ∧ Unreadable P .registry s

/-- Lost metadata is noticed, and no file is changed by looking. -/
theorem needsRebuild_of_lost (hPlan : s.plan = []) (hLost : MetadataLost P s) :
    ∃ t, needsRebuild P s = .ok true t ∧ t.disk = s.disk ∧ t.plan = [] ∧
      ∀ m, s.paged m = .fresh → t.paged m = .fresh := by
  obtain ⟨indexBroken, a, hIndex, hDisk, hPlanA, hFresh, hBroken⟩ := metadataIsBroken_eq P .index hPlan
  rw [fileKind] at hIndex
  rw [needsRebuild, bind_of_ok hIndex]
  cases indexBroken with
  | true => exact ⟨a, rfl, hDisk, hPlanA, hFresh⟩
  | false =>
      have hReadable : ¬ Unreadable P .index s := fun h => absurd (hBroken.mpr h) (by decide)
      obtain ⟨hBucket, hRegistry⟩ := hLost.resolve_left hReadable
      obtain ⟨broken, b, hRun, hDiskB, hPlanB, hFreshB, hSame⟩ :=
        metadataIsBroken_eq P .registry hPlanA
      have hHere : Unreadable P .registry a := by rwa [Unreadable, Store.file, hDisk]
      obtain rfl := hSame.mpr hHere
      simp only [Bool.false_eq_true, if_false, hBucket, if_true]
      exact ⟨b, hRun, hDiskB.trans hDisk, hPlanB, fun m hm => hFreshB m (hFresh m hm)⟩

variable [LawfulPlacement P] {config : HeapConfig} {h h' : Heap P} {L : Ledger} {events : List Event}

/-- The files of a dropped heap of which metadata was lost, as opening finds them. -/
structure MetadataGone (h : Heap P) (s : Store) : Prop where
  plan : s.plan = []
  handles : ∀ n, s.paged n = .fresh
  data : s.disk .data = (close h).disk .data
  others : ∀ n, ¬ HasFile P n → s.disk n = (close h).disk n
  lost : MetadataLost P s

/-- A record that an image holds is there now as it was written. -/
theorem map_now_eq {withBucket : Bool} {log : List Record} {image : Nat → UInt8}
    (h : Laid withBucket log image) : log.map (Record.now withBucket image) = log := by
  conv_rhs => rw [← List.map_id log]
  refine List.map_congr_left fun r hr => ?_
  rw [Record.now, h.read_payload hr]
  rfl

theorem MetadataGone.damaged (hGone : MetadataGone h s) (hSound : Sound config L h.placed)
    (hReach : AllInReach h.store) : Damaged h L s where
  plan := hGone.plan
  present := by
    obtain ⟨u, hClosed, hFlushed, -⟩ := hSound.dropped hReach
    rw [hGone.data, hClosed]
    exact hFlushed.present .data (hasFile_data P)
  payloads := by
    have hFile : s.file .data = (close h).file .data := by rw [Store.file, Store.file, hGone.data]
    rw [hFile]
    exact .refl _ _ _

theorem MetadataGone.archive [NamedLayout P] (hGone : MetadataGone h s) (hSound : Sound config L h.placed)
    (hReach : AllInReach h.store) : Archive (Placement.layout P) L.log s := by
  have hArchive := (hGone.damaged hSound hReach).archive hSound hReach
  have hLaid := hSound.laid_dropped hReach
  rw [Store.file, ← hGone.data] at hLaid
  have hNow : recordsNow P L s = L.log := map_now_eq hLaid
  rwa [hNow] at hArchive

/-- Rebuilt metadata next to the data file that it was rebuilt from. -/
structure Restored (P : Type) [Placement P] (log : List Record) (rows : List RegistryRow) (s v : Store) :
    Prop where
  rest : AtRest P v
  data : v.disk .data = s.disk .data
  slots : SlotsAt (newestSlots (Placement.withBucket P) log) (v.file .index).bytes
  rows : Placement.withBucket P = true → Rows rows (v.file .registry).bytes

omit [LawfulPlacement P] in
/-- What a rebuild leaves is at rest once its handles are fresh. -/
theorem Restored.of_rebuilt [NamedLayout P] {log : List Record} {rows : List RegistryRow} {u v : Store}
    (h : Rebuilt (Placement.layout P) (newestSlots (Placement.withBucket P) log) rows u t)
    (hArchive : Archive (Placement.layout P) log u) (hOther : ∀ n, ¬ HasFile P n → (u.file n).Whole)
    (hDisk : v.disk = t.disk) (hPlan : v.plan = []) (hHandles : ∀ n, v.paged n = .fresh) :
    Restored P log rows u v := by
  have hBucket : Placement.withBucket P = true → Placement.layout P = LAYOUT_BUCKET := fun hBucket => by
    rw [← NamedLayout.layout] at hBucket
    exact eq_of_beq hBucket
  have hFile : ∀ n, v.file n = t.file n := fun n => by rw [Store.file, Store.file, hDisk]
  have hData : t.file .data = u.file .data := by rw [Store.file, Store.file, h.data]
  refine ⟨⟨hPlan, hHandles, fun n => ?_, fun n hn => ?_, fun n hn => ?_⟩, ?_, ?_, fun hHas => ?_⟩
  · rw [hFile]
    cases n with
    | data => exact hData ▸ hArchive.whole
    | index => exact h.index.whole
    | registry =>
        by_cases hHas : Placement.withBucket P = true
        · exact (h.registry (hBucket hHas)).1.whole
        · have hOld : t.file .registry = u.file .registry := by
            rw [Store.file, Store.file, (h.unbucketed ?_).1]
            intro hLayout
            exact hHas (by rw [← NamedLayout.layout, hLayout]; rfl)
          rw [hOld]
          exact hOther _ fun hFileOf => hHas (hFileOf rfl)
  · rw [hDisk]
    cases n with
    | data => exact h.data ▸ hArchive.present
    | index => exact h.index.present
    | registry => exact (h.registry (hBucket (hn rfl))).1.present
  · rw [hFile]
    cases n with
    | data => exact hData ▸ hArchive.header
    | index => exact h.index.header
    | registry => exact (h.registry (hBucket (hn rfl))).1.header
  · rw [hDisk, h.data]
  · rw [hFile]
    exact h.slots
  · rw [hFile]
    exact (h.registry (hBucket hHas)).2

omit [LawfulPlacement P] in
/-- Opening the files of a rebuilt store. -/
theorem Restored.openFiles_run [NamedLayout P] {log : List Record} {rows : List RegistryRow} {u : Store}
    (h : Rebuilt (Placement.layout P) (newestSlots (Placement.withBucket P) log) rows u t)
    (hArchive : Archive (Placement.layout P) log u) (hOther : ∀ n, ¬ HasFile P n → (u.file n).Whole)
    (hHandle : u.paged .registry = .fresh) :
    ∃ v, openFiles P t = .ok () v ∧ Restored P log rows u v := by
  have hFile : t.file .data = u.file .data := by rw [Store.file, Store.file, h.data]
  have hData : PagedFile.open .data 'D'.toUInt8 (Placement.layout P) t = .ok () (t.setPaged .data .fresh) :=
    PagedFile.open_run h.plan (by rw [h.data]; exact hArchive.present) (by rw [hFile]; exact hArchive.header)
  have hIndex : PagedFile.open .index 'I'.toUInt8 (Placement.layout P) (t.setPaged .data .fresh) =
      .ok () ((t.setPaged .data .fresh).setPaged .index .fresh) :=
    PagedFile.open_run h.plan h.index.present h.index.header
  rw [openFiles, bind_of_ok hData, bind_of_ok hIndex]
  by_cases hHas : Placement.withBucket P = true
  · have hLayout : Placement.layout P = LAYOUT_BUCKET := by
      rw [← NamedLayout.layout] at hHas
      exact eq_of_beq hHas
    obtain ⟨hRegistry, -⟩ := h.registry hLayout
    rw [if_pos hHas]
    refine ⟨_, PagedFile.open_run h.plan hRegistry.present hRegistry.header, ?_⟩
    refine Restored.of_rebuilt h hArchive hOther rfl h.plan fun n => ?_
    cases n <;> rfl
  · have hLayout : Placement.layout P ≠ LAYOUT_BUCKET := fun hLayout =>
      hHas (by rw [← NamedLayout.layout, hLayout]; rfl)
    rw [if_neg hHas]
    refine ⟨_, rfl, ?_⟩
    refine Restored.of_rebuilt h hArchive hOther rfl h.plan fun n => ?_
    cases n with
    | data => rfl
    | index => rfl
    | registry => exact (h.unbucketed hLayout).2.trans hHandle

/-- Opening rebuilds lost metadata from the data file alone. -/
theorem MetadataGone.openExisting_run [NamedLayout P] (hGone : MetadataGone h s)
    (hSound : Sound config L h.placed) (hReach : AllInReach h.store)
    (hHistoric : L.Historic (Placement.withBucket P) events) (hCount : ∀ id, updateCount events id ≤ 65534)
    (hRegion : 0 < config.regionSlots)
    (hSize : Placement.withBucket P = true → (s.file .data).size ≤ 2 ^ 61) (order : HashOrder) :
    ∃ stats v, openExisting P order config s = .ok ⟨true, 0, stats⟩ v ∧ stats.records = L.log.length ∧
      stats.badPayload = 0 ∧
      Restored P L.log (rebuiltRows order config (Placement.layout P) config.integrity L.log) s v := by
  have hArchive := hGone.archive hSound hReach
  obtain ⟨a, hNeeds, hDisk, hPlan, hFresh⟩ := needsRebuild_of_lost hGone.plan hGone.lost
  have hFile : ∀ n, a.file n = s.file n := fun n => by rw [Store.file, Store.file, hDisk]
  have hThere : Archive (Placement.layout P) L.log a :=
    ⟨hPlan, hFile .data ▸ hArchive.whole, hDisk ▸ hArchive.present, hFile .data ▸ hArchive.header,
      hFile .data ▸ hArchive.laid, hFile .data ▸ hArchive.inside⟩
  have hIds : ∀ r ∈ L.log, r.intact config.integrity = true → Addressable r.header.id := fun r hr _ =>
    hSound.addressable hReach hr
  have hRange : Placement.layout P = LAYOUT_BUCKET → pageUp (PAGE + REGISTRY_ROW_SIZE *
      (rebuiltRows order config (Placement.layout P) config.integrity L.log).length) < 2 ^ 63 := by
    intro hBucket
    refine rows_range hThere order config.integrity ?_ hBucket
    rw [hFile]
    apply hSize
    rw [← NamedLayout.layout, hBucket]
    rfl
  obtain ⟨stats, t, hRun, hRecords, hBad, hRebuilt⟩ :=
    rebuild_run order config config.integrity hThere hRegion hIds hRange
  have hIntact : intactOf config.integrity L.log = L.log :=
    List.filter_eq_self.mpr hSound.faithful.intact
  rw [rebuiltSlots_eq (hHistoric.ascending hCount), hIntact, NamedLayout.layout] at hRebuilt
  have hOther : ∀ n, ¬ HasFile P n → (a.file n).Whole := fun n hn => by
    obtain ⟨u, hClosed, hFlushed, -⟩ := hSound.dropped hReach
    rw [hFile, Store.file, hGone.others n hn, hClosed]
    exact hFlushed.whole n
  obtain ⟨v, hOpen, hRestored⟩ := Restored.openFiles_run hRebuilt hThere hOther
    (hFresh .registry (hGone.handles .registry))
  refine ⟨stats, v, ?_, hRecords, ?_, hRestored.rest, by rw [hRestored.data, hDisk], hRestored.slots,
    hRestored.rows⟩
  · rw [openExisting, bind_of_ok hNeeds]
    simp only [if_true]
    rw [bind_of_ok hRun, bind_of_ok hOpen]
    rfl
  · rw [hBad, List.length_eq_zero_iff, List.filter_eq_nil_iff]
    intro r hr
    simp [hSound.faithful.intact r hr]

/-! An append heap goes on from its rebuilt index. -/

/-- The rebuilt files present the revived ledger to the placement that wrote the data. -/
theorem Restored.sound {h : Heap AppendPlacement} {rows : List RegistryRow} {s v : Store}
    (hRestored : Restored AppendPlacement L.log rows s v) (hData : s.disk .data = (close h).disk .data)
    (hSound : Sound config L h.placed) (hReach : AllInReach h.store) :
    Sound config (L.revived false []) (⟨h.placement, IndexWork.noted v (v.file .data).size⟩ : Placed AppendPlacement) ∧
      closed (IndexWork.noted v (v.file .data).size) = v := by
  obtain ⟨u, hClosed, hFlushed, -⟩ := hSound.dropped hReach
  have hRest := hRestored.rest
  have hFile : v.file .data = (close h).file .data := by
    rw [Store.file, Store.file, hRestored.data, hData]
  have hSize : (u.paged .data).allocatedEnd ≤ (v.file .data).size := by
    rw [hFile, hClosed]
    exact hFlushed.placed.roomy.reserved
  have hAllocated : ((IndexWork.noted v (v.file .data).size).paged .data).allocatedEnd =
      (v.file .data).size := by
    change max (v.paged .data).allocatedEnd _ = _
    rw [hRest.handles]
    exact Nat.max_eq_right (Nat.zero_le _)
  have hHolding : Holding True True (v.file .data).bytes (newestSlots false L.log) v :=
    hRest.holding hRestored.slots
  constructor
  · refine hRest.sound (hFile ▸ hSound.laid_dropped hReach) (hHolding.noted _) (.refl _)
      hSound.faithful.revived
      { chain := hFlushed.placed.chain
        reserved := ?_
        roomy := ⟨hRest.whole .data, hAllocated.le⟩
        numbers := hFlushed.placed.numbers
        rows := rfl }
    exact (hFlushed.placed.reserved.trans hSize).trans hAllocated.ge
  · have hHandles : v.paged = fun _ => .fresh := funext hRest.handles
    change ({ v with paged := fun _ => .fresh } : Store) = v
    rw [← hHandles]

/-- An append heap whose index file is missing or broken opens with its cursor and
next number, alive after its history without the deletions. -/
theorem MetadataGone.revived {start : Store} {h h' : Heap AppendPlacement} (hGone : MetadataGone h' s)
    (hBlank : Blank start) (hConfig : config.Usable) (hOpened : OpenedOn config start h) (hReach : AllInReach h.store)
    (hLife : Lifetime config h events h') (hCount : ∀ id, updateCount events id ≤ 65534) (order : HashOrder) :
    ∃ report t L, Heap.open AppendPlacement order config s = .ok (h'.placement, report) t ∧
      report.rebuilt = true ∧ report.rebuild.records = (events.filterMap Event.write).length ∧
      report.rebuild.badPayload = 0 ∧
      Alive config (undeleted events) (⟨⟨h'.placement, t⟩, 0⟩ : Heap AppendPlacement) L := by
  obtain ⟨L, hAlive⟩ := hLife.alive hConfig (hOpened.alive hBlank hConfig hReach) hCount
  have hHistoric : L.Historic false events := hAlive.historic
  obtain ⟨stats, v, hExisting, hRecords, hBad, hRestored⟩ := hGone.openExisting_run hAlive.sound
    hAlive.reach hHistoric hCount hConfig.regionSlots (fun hBucket => absurd hBucket (by decide)) order
  obtain ⟨hSound, hClosed⟩ := hRestored.sound hGone.data hAlive.sound hAlive.reach
  have hCountUndeleted : ∀ id, updateCount (undeleted events) id ≤ 65534 := fun id => by
    rw [updateCount_undeleted]
    exact hCount id
  have hStaged : ∀ n, HasFile AppendPlacement n →
      ((IndexWork.noted v (v.file .data).size).paged n).stagedWrites = [] := fun n _ => by
    have hFresh := hRestored.rest.handles n
    cases n with
    | data => exact congrArg PagedFile.stagedWrites hFresh
    | index => exact congrArg PagedFile.stagedWrites hFresh
    | registry => exact congrArg PagedFile.stagedWrites hFresh
  obtain ⟨restored, t, hPlaced, hReopened, hReachT, -⟩ :=
    hSound.reopens hHistoric.revived hCountUndeleted hStaged order
  rw [hClosed] at hPlaced
  refine ⟨⟨true, restored, stats⟩, t, L.revived false [], ?_, rfl, ?_, hBad,
    hReopened, hHistoric.revived, hReachT, by rw [issued_undeleted]; exact hAlive.once⟩
  · have hExists : fileExists .data s = .ok true s := by
      rw [fileExists, (hGone.damaged hAlive.sound hAlive.reach).present]
    have hPlacement : Placement.open (P := AppendPlacement) order config false v =
        .ok (h'.placement, restored) t := hPlaced
    rw [Heap.open, bind_of_ok hExists]
    simp only [if_true]
    rw [bind_of_ok hExisting, openPlacement, hPlacement]
  · rw [hRecords, ← hHistoric.writes, List.length_map]

/-- An append heap whose index file is missing or broken opens with its cursor
and next number, and from then on is the map of its history without the deletes. -/
theorem append_metadata_loss {start : Store} {h h' : Heap AppendPlacement} (hBlank : Blank start)
    (hConfig : config.Usable) (hOpened : OpenedOn config start h) (hReach : AllInReach h.store)
    (hLife : Lifetime config h events h') (hCount : ∀ id, updateCount events id ≤ 65534)
    (hGone : MetadataGone h' s) (order : HashOrder) :
    ∃ report t, Heap.open AppendPlacement order config s = .ok (h'.placement, report) t ∧
      report.rebuilt = true ∧ report.rebuild.records = (events.filterMap Event.write).length ∧
      report.rebuild.badPayload = 0 ∧
      ∀ more h'', Lifetime config ⟨⟨h'.placement, t⟩, 0⟩ more h'' →
        (∀ id, updateCount (events ++ more) id ≤ 65534) →
        (∀ id < 2 ^ 58, ∃ u, Heap.read config id h'' = match values (undeleted events ++ more) id with
          | some payload => .ok payload u
          | none => .error (.error (.notFound id)) u) ∧
        ((events ++ more).filterMap Event.issued).Nodup := by
  obtain ⟨report, t, L, hRun, hRebuilt, hRecords, hBad, hRevived⟩ :=
    hGone.revived hBlank hConfig hOpened hReach hLife hCount order
  refine ⟨report, t, hRun, hRebuilt, hRecords, hBad, fun more h'' hMore hBound => ?_⟩
  have hBoth : ∀ id, updateCount (undeleted events ++ more) id ≤ 65534 := fun id => by
    rw [updateCount_append, updateCount_undeleted, ← updateCount_append]
    exact hBound id
  obtain ⟨M, hFinal⟩ := hMore.alive hConfig hRevived hBoth
  refine ⟨fun id hId => hFinal.read (addressable_of_lt hId), ?_⟩
  have hOnce := hFinal.once
  rwa [List.filterMap_append, issued_undeleted, ← List.filterMap_append] at hOnce

/-- Two records are written and the first one is deleted. Without the index it is
there again; a deletion after that stays. -/
theorem append_metadata_loss_undeleted :
    ∃ (first h g u v : Heap AppendPlacement) (s t : Store) (report : RecoveryReport),
      OpenedOn ⟨.none, true, 2 ^ 20, 2 ^ 20, PAGE, 1, 2 ^ 20⟩ .empty first ∧
      Lifetime ⟨.none, true, 2 ^ 20, 2 ^ 20, PAGE, 1, 2 ^ 20⟩ first
        [.inserted 0 0 [7], .inserted 1 0 [8], .deleted 0] h ∧
      s.disk .data = (close h).disk .data ∧ s.disk .index = none ∧
      Heap.open AppendPlacement ⟨id, fun _ => .refl _⟩ ⟨.none, true, 2 ^ 20, 2 ^ 20, PAGE, 1, 2 ^ 20⟩ s =
        .ok (h.placement, report) t ∧
      Performed ⟨.none, true, 2 ^ 20, 2 ^ 20, PAGE, 1, 2 ^ 20⟩ ⟨⟨h.placement, t⟩, 0⟩ (.deleted 1) g ∧
      Heap.read ⟨.none, true, 2 ^ 20, 2 ^ 20, PAGE, 1, 2 ^ 20⟩ 0 g = .ok [7] u ∧
      Heap.read ⟨.none, true, 2 ^ 20, 2 ^ 20, PAGE, 1, 2 ^ 20⟩ 1 g = .error (.error (.notFound 1)) v := by
  have hBlank : Blank .empty := ⟨fun _ => rfl, fun _ => rfl, rfl⟩
  have hUsable : HeapConfig.Usable ⟨.none, true, 2 ^ 20, 2 ^ 20, PAGE, 1, 2 ^ 20⟩ :=
    ⟨by decide, by decide, by decide⟩
  obtain ⟨first, hOpened, hPlacement, hFirst⟩ := exists_opened
    ⟨.none, true, 2 ^ 20, 2 ^ 20, PAGE, 1, 2 ^ 20⟩ hBlank (by decide)
  obtain ⟨one, _, hInsert, hMoved, hOne⟩ := hFirst.insert 0 [7]
    (by decide) (by rw [hPlacement]; decide) (by rw [hPlacement]; exact addressable_of_lt (by decide))
  rw [hPlacement] at hInsert hOne hMoved
  obtain ⟨two, _, hSecond, -, hTwo⟩ := hOne.insert 0 [8]
    (by decide) (by rw [hMoved]; decide) (by rw [hMoved]; exact addressable_of_lt (by decide))
  rw [hMoved] at hSecond hTwo
  obtain ⟨h, _, hDelete, -, hEnd⟩ := hTwo.delete 0
    (show values [.inserted 0 0 [7], .inserted 1 0 [8]] 0 = some [7] from rfl)
  have hLife : Lifetime _ first [.inserted 0 0 [7], .inserted 1 0 [8], .deleted 0] h :=
    ((Runs.Steps.refl.step ⟨.performed hInsert, hOne.reach⟩).step ⟨.performed hSecond, hTwo.reach⟩).step
      ⟨.performed hDelete, hEnd.reach⟩
  have hCount : ∀ id, updateCount [.inserted 0 0 [7], .inserted 1 0 [8], .deleted 0] id ≤ 65534 :=
    fun id => Nat.zero_le _
  obtain ⟨u, hClosed, hFlushed, -⟩ := hEnd.sound.dropped hEnd.reach
  let s : Store := { close h with disk := Function.update (close h).disk .index none }
  have hGone : MetadataGone h s := by
    refine ⟨?_, ?_, rfl, ?_, Or.inl (Or.inl rfl)⟩
    · change (close h).plan = []
      rw [hClosed]
      exact hFlushed.plan
    · intro n
      change (close h).paged n = .fresh
      rw [hClosed]
      rfl
    · intro n hNone
      cases n with
      | data => exact absurd (hasFile_data _) hNone
      | index => exact absurd (hasFile_index _) hNone
      | registry => rfl
  obtain ⟨_, t', _, hAgain, -, -, -, hRevived⟩ :=
    hGone.revived hBlank hUsable hOpened hFirst.reach hLife hCount ⟨id, fun _ => .refl _⟩
  obtain ⟨report, t, hRun, -, -, -, hRest⟩ := append_metadata_loss hBlank hUsable
    hOpened hFirst.reach hLife hCount hGone ⟨id, fun _ => .refl _⟩
  obtain rfl : t' = t := by
    rw [hRun] at hAgain
    cases hAgain
    rfl
  obtain ⟨g, hGoneNow, -, hReach⟩ := hRevived.delete
    (show values (undeleted [.inserted 0 0 [7], .inserted 1 0 [8], .deleted 0]) 1 = some [8] from rfl)
    (addressable_of_lt (by decide))
  obtain ⟨hReads, -⟩ := hRest [.deleted 1] g (Runs.Steps.refl.step ⟨.performed hGoneNow, hReach⟩)
    fun id => Nat.zero_le _
  obtain ⟨u, hReadFirst⟩ := hReads 0 (by decide)
  obtain ⟨v, hReadSecond⟩ := hReads 1 (by decide)
  exact ⟨first, h, g, u, v, s, t', report, hOpened, hLife, rfl, rfl, hRun, hGoneNow, hReadFirst, hReadSecond⟩

end Heap

end HeapStore
