import HeapStore.Recovery.RebuildScan
import HeapStore.Heap.Reopen
import HeapStore.Heap.Progress

/-! What a rebuild writes: an index in which every number has the slot of its
newest intact record, and, where there are buckets, a registry with the rows of
the runs and regions that it saw. The data file is only read. -/
namespace HeapStore

open Effect PagedFile IndexFile

/-- In a calm schedule, on clean files, there is an outcome. -/
theorem exists_of_meets {α : Type} {post : α → Store → Prop} {x : StoreM α} {s : Store}
    (h : Meets (Refuses True True) post x s) : ∃ a t, x s = .ok a t ∧ post a t := by
  cases hRun : x s with
  | ok a t => exact ⟨a, t, rfl, h.ok hRun⟩
  | error e t => exact absurd (h.failsOnly e t hRun) not_refuses

/-! Staging the slots of found records. -/

/-- The slots after those of found records were written. -/
def putSlots (found : List FoundRecord) (slots : Nat → SlotState) : Nat → SlotState :=
  found.foldl (fun slots f => Function.update slots f.id (.live f.slot)) slots

/-- The slots that a table of found records makes. -/
def slotsOf (table : NewestTable) (id : Nat) : SlotState :=
  match table.lookup id with
  | some f => .live f.slot
  | none => .empty

section Slots

variable {found : List FoundRecord} {slots : Nat → SlotState} {f : FoundRecord} {id : Nat}

theorem putSlots_of_not_mem (h : ∀ f ∈ found, f.id ≠ id) : putSlots found slots id = slots id := by
  induction found generalizing slots with
  | nil => rfl
  | cons f rest ih =>
      rw [putSlots, List.foldl_cons, ← putSlots, ih fun g hg => h g (List.mem_cons_of_mem _ hg)]
      exact Function.update_of_ne (Ne.symm (h f (List.mem_cons_self ..))) _ _

theorem putSlots_of_mem (hOnce : (found.map FoundRecord.id).Nodup) (hf : f ∈ found) :
    putSlots found slots f.id = .live f.slot := by
  induction found generalizing slots with
  | nil => cases hf
  | cons g rest ih =>
      rw [List.map_cons, List.nodup_cons] at hOnce
      rw [putSlots, List.foldl_cons, ← putSlots]
      rcases List.mem_cons.mp hf with rfl | hRest
      · rw [putSlots_of_not_mem fun g hg hSame => hOnce.1 (List.mem_map.mpr ⟨g, hg, hSame⟩)]
        exact Function.update_self ..
      · exact ih hOnce.2 hRest

theorem mem_latestInOrder {table : NewestTable} :
    f ∈ latestInOrder table ↔ ∃ id, table.lookup id = some f := by
  rw [latestInOrder, (List.mergeSort_perm _ _).mem_iff, List.mem_map]
  constructor
  · rintro ⟨⟨id, g⟩, hEntry, rfl⟩
    exact ⟨id, AList.mem_lookup_iff.mpr hEntry⟩
  · rintro ⟨id, hLookup⟩
    exact ⟨⟨id, f⟩, AList.mem_lookup_iff.mp hLookup, rfl⟩

/-- Where entries stand under their own numbers, writing them makes the slots of the table. -/
theorem putSlots_latest {table : NewestTable} (h : ∀ id f, table.lookup id = some f → f.id = id) :
    putSlots (latestInOrder table) (fun _ => .empty) = slotsOf table := by
  have hIds : (table.entries.map Sigma.snd).map FoundRecord.id = table.keys := by
    rw [List.map_map, AList.keys, List.keys]
    refine List.map_congr_left fun entry hEntry => ?_
    exact h entry.1 entry.2 (AList.mem_lookup_iff.mpr hEntry)
  have hOnce : ((latestInOrder table).map FoundRecord.id).Nodup := by
    have hPerm := (List.mergeSort_perm (table.entries.map Sigma.snd) fun a b =>
      decide (a.id ≤ b.id)).map FoundRecord.id
    rw [latestInOrder, hPerm.nodup_iff, hIds]
    exact table.keys_nodup
  refine funext fun id => ?_
  rw [slotsOf]
  cases hLookup : table.lookup id with
  | some f =>
      obtain rfl := h id f hLookup
      exact putSlots_of_mem hOnce (mem_latestInOrder.mpr ⟨f.id, hLookup⟩)
  | none =>
      refine putSlots_of_not_mem fun f hf hSame => ?_
      obtain ⟨k, hk⟩ := mem_latestInOrder.mp hf
      rw [← hSame, h k f hk, hk] at hLookup
      cases hLookup

end Slots

section Staging

variable {image : Nat → UInt8} {slots : Nat → SlotState} {s t : Store}

theorem flushIndex_run (h : Holding True True image slots s) :
    ∃ t, PagedFile.flush .index s = .ok () t ∧ Flushed .index s t := by
  obtain ⟨t, hRun⟩ := PagedFile.flush_run h.coherent (h.settled.plan trivial) (h.reach trivial)
  exact ⟨t, hRun, flush_ok h.coherent hRun⟩

theorem flushLarge_run (h : Holding True True image slots s) :
    ∃ t, flushLarge s = .ok () t ∧ Holding True True image slots t ∧ IndexWork s t := by
  rw [flushLarge, bind_of_ok (getPaged_apply .index s)]
  split
  · obtain ⟨t, hRun, hFlushed⟩ := flushIndex_run h
    exact ⟨t, hRun, h.flushed hFlushed, .flushed hFlushed⟩
  · exact ⟨s, rfl, h, .refl s⟩

/-- The slots of found records are staged one after the other. -/
theorem stageLatest_run (found : List FoundRecord) (h : Holding True True image slots s)
    (hFound : ∀ f ∈ found, Addressable f.id ∧ Slot.state f.slot.encode = .live f.slot) :
    ∃ t, stageLatest found s = .ok () t ∧ Holding True True image (putSlots found slots) t ∧
      IndexWork s t := by
  induction found generalizing s slots with
  | nil => exact ⟨s, rfl, h, .refl s⟩
  | cons f rest ih =>
      obtain ⟨hId, hSlot⟩ := hFound f (List.mem_cons_self ..)
      obtain ⟨_, u, hStage, hHolding, hWork⟩ :=
        exists_of_meets (@Holding.stageSlot_meets _ _ _ _ _ f.id f.slot h fun _ => hId)
      rw [hSlot] at hHolding
      obtain ⟨v, hFlush, hFlushed, hMore⟩ := flushLarge_run hHolding
      obtain ⟨t, hRest, hDone, hLast⟩ := ih hFlushed fun g hg => hFound g (List.mem_cons_of_mem _ hg)
      rw [stageLatest, bind_of_ok hStage, bind_of_ok hFlush]
      exact ⟨t, hRest, hDone, (hWork.trans hMore).trans hLast⟩

end Staging

/-! Appending the rows of a rebuilt registry. -/

/-- The registry handle after these rows were appended to a created file. -/
structure Logged (rows : List RegistryRow) (s t : Store) : Prop where
  frame : Frame .registry s t
  disk : t.disk = s.disk
  coherent : Coherent .registry t
  tail : OpenTail .registry (PAGE + REGISTRY_ROW_SIZE * rows.length) t
  reach : InReach .registry t
  holds : Rows rows (t.logical .registry)
  head : ∀ i, i < PAGE → t.logical .registry i = s.logical .registry i

theorem stageRows_run {rows : List RegistryRow} (new : List RegistryRow) {s t : Store}
    (h : Logged rows s t) (hPlan : t.plan = [])
    (hRange : pageUp (PAGE + REGISTRY_ROW_SIZE * (rows ++ new).length) < 2 ^ 63) :
    ∃ u, stageRows (PAGE + REGISTRY_ROW_SIZE * rows.length) new t =
        .ok (PAGE + REGISTRY_ROW_SIZE * (rows ++ new).length) u ∧ Logged (rows ++ new) s u := by
  induction new generalizing rows t with
  | nil =>
      rw [List.append_nil]
      exact ⟨t, rfl, h⟩
  | cons row rest ih =>
      have hBytes : [row.encode].flatten = row.encode := List.flatten_singleton
      have hLength : [row.encode].flatten.length = REGISTRY_ROW_SIZE := by
        rw [hBytes, RegistryRow.length_encode]
      have hNext : PAGE + REGISTRY_ROW_SIZE * rows.length + REGISTRY_ROW_SIZE =
          PAGE + REGISTRY_ROW_SIZE * (rows ++ [row]).length := by
        rw [List.length_append, List.length_singleton, Nat.mul_succ, Nat.add_assoc]
      have hMore : (rows ++ row :: rest) = rows ++ [row] ++ rest := List.append_cons rows row rest
      have hHere : pageUp (PAGE + REGISTRY_ROW_SIZE * rows.length + REGISTRY_ROW_SIZE) < 2 ^ 63 := by
        refine (pageUp_mono ?_).trans_lt hRange
        have hLe : (rows ++ [row]).length ≤ (rows ++ [row] ++ rest).length := by simp
        rw [hNext, hMore]
        exact Nat.add_le_add_left (Nat.mul_le_mul_left _ hLe) _
      have hRow : pageUp (PAGE + REGISTRY_ROW_SIZE * rows.length + [row.encode].flatten.length) < 2 ^ 63 := by
        rw [hLength]
        exact hHere
      obtain ⟨u, hStage⟩ := PagedFile.stage_run h.coherent hPlan h.reach hRow
      obtain ⟨hTook, hTail⟩ := stage_append h.coherent h.tail
        (by rw [hLength, REGISTRY_ROW_SIZE]; omega) hStage
      rw [hLength, hNext] at hTail
      rw [hBytes] at hTook
      have hLogged : Logged (rows ++ [row]) s u :=
        { frame := h.frame.trans hTook.frame
          disk := hTook.disk.trans h.disk
          coherent := hTook.coherent
          tail := hTail
          reach := hTook.reach h.reach (by rw [RegistryRow.length_encode]; exact hHere)
          holds := by
            rw [hTook.logical]
            exact h.holds.concat row
          head := fun i hi => by
            rw [hTook.logical, Image.write_apply_lt _ _ (by omega)]
            exact h.head i hi }
      obtain ⟨v, hRest, hDone⟩ := ih hLogged (hTook.frame.plan hPlan) (hMore ▸ hRange)
      rw [stageRows, bind_of_ok hStage, hNext, hMore]
      exact ⟨v, hRest, hDone⟩

/-! The rebuild as a whole. -/

/-- A data file at rest: whole pages, a header, and these records behind it. -/
structure Archive (layout : UInt8) (log : List Record) (s : Store) : Prop where
  plan : s.plan = []
  whole : (s.file .data).Whole
  present : (s.disk .data).isSome
  header : Image.Holds (s.file .data).bytes 0 (FileHeader.encode ⟨'D'.toUInt8, layout⟩)
  laid : Laid (layout == LAYOUT_BUCKET) log (s.file .data).bytes
  inside : ∀ r ∈ log, r.stop (layout == LAYOUT_BUCKET) ≤ (s.file .data).size

/-- A file that was written as a whole and made durable. -/
structure Finished (n : FileName) (kind layout : UInt8) (t : Store) : Prop where
  present : (t.disk n).isSome
  whole : (t.file n).Whole
  header : Image.Holds (t.file n).bytes 0 (FileHeader.encode ⟨kind, layout⟩)
  durable : t.durable n = t.disk n

/-- What a rebuild leaves: an index with these slots and, where there are
buckets, a registry with these rows. -/
structure Rebuilt (layout : UInt8) (slots : Nat → SlotState) (rows : List RegistryRow) (s t : Store) :
    Prop where
  plan : t.plan = []
  data : t.disk .data = s.disk .data
  index : Finished .index 'I'.toUInt8 layout t
  slots : SlotsAt slots (t.file .index).bytes
  registry : layout = LAYOUT_BUCKET → Finished .registry 'R'.toUInt8 layout t ∧
    Rows rows (t.file .registry).bytes
  unbucketed : layout ≠ LAYOUT_BUCKET →
    t.disk .registry = s.disk .registry ∧ t.paged .registry = s.paged .registry

/-- A file with the expected header is opened with a fresh handle. -/
theorem PagedFile.open_of_decode {n : FileName} {kind layout : UInt8} {s : Store} (hPlan : s.plan = [])
    (hPresent : (s.disk n).isSome)
    (hDecode : FileHeader.decode (Image.read (s.file n).bytes 0 PAGE) = some ⟨kind, layout⟩) :
    PagedFile.open n kind layout s = .ok () (s.setPaged n .fresh) := by
  have hDirect : openDirect n s = .ok () s := by rw [openDirect, if_pos hPresent]
  have hRead := readOne_run (n := n) (s := s.setPaged n .fresh) hPlan (show 0 + PAGE < 2 ^ 63 by decide)
  have hPage : FileHeader.decode (Image.read ((s.setPaged n .fresh).file n).bytes 0 PAGE) =
      some ⟨kind, layout⟩ := hDecode
  rw [PagedFile.open, bind_of_ok hDirect, bind_of_ok (modifyPaged_apply n _ _), bind_of_ok hRead, hPage]
  simp only [and_self, if_true]
  rfl

theorem PagedFile.open_run {n : FileName} {kind layout : UInt8} {s : Store} (hPlan : s.plan = [])
    (hPresent : (s.disk n).isSome)
    (hHeader : Image.Holds (s.file n).bytes 0 (FileHeader.encode ⟨kind, layout⟩)) :
    PagedFile.open n kind layout s = .ok () (s.setPaged n .fresh) := by
  have hPage := (Image.holds_iff_read _ _ _).mp hHeader
  rw [FileHeader.length_encode] at hPage
  exact PagedFile.open_of_decode hPlan hPresent (by rw [hPage, FileHeader.decode_encode])

theorem CreatedFile.rows {kind layout : UInt8} {s t : Store} (h : CreatedFile .registry kind layout s t) :
    Rows [] (t.logical .registry) where
  holds i hi := by cases hi
  blank i hi := h.blank (by simpa using hi)

/-- The file of a created handle, once what was staged for it is written and synced. -/
theorem Finished.of_created {n : FileName} {kind layout : UInt8} {s t u v w : Store}
    (hCreated : CreatedFile n kind layout s t) (hFlushed : Flushed n u v) (hSynced : Synced n v w)
    (hPresent : (u.disk n).isSome) (hWhole : (v.file n).Whole)
    (hHead : ∀ i, i < PAGE → u.logical n i = t.logical n i) : Finished n kind layout w where
  present := by
    rw [hSynced.disk]
    exact hFlushed.frame.present hPresent
  whole := by rwa [Store.file, hSynced.disk]
  header i hi := by
    have hLength : (FileHeader.encode ⟨kind, layout⟩).length = PAGE := FileHeader.length_encode _
    have hBytes : (w.file n).bytes = u.logical n := by
      rw [Store.file, hSynced.disk]
      exact hFlushed.bytes
    rw [hBytes, hHead _ (by omega)]
    exact hCreated.headed i hi
  durable := by
    rw [hSynced.durable, Function.update_self, hSynced.disk]

section Run

variable {layout : UInt8} {log : List Record} {s : Store}

theorem Archive.settled (h : Archive layout log s) :
    Settled True (s.file .data).bytes (s.setPaged .data .fresh) where
  staged := by simp [PagedFile.fresh]
  bytes := rfl
  plan _ := h.plan

theorem Archive.readable (h : Archive layout log s) : Readable True (s.file .data).size := by
  have hRange := h.whole.range
  refine ⟨by rw [PAGE]; omega, fun _ => ?_⟩
  rw [pageUp_of_mod h.whole.pages]
  exact hRange

/-- The table of the newest intact records, and the runs of intact records. -/
def surveyed (layout : UInt8) (integrity : Bool) (log : List Record) : RebuildState :=
  (inFileOrder log).foldl (fun st r =>
    (rebuildVisitor (headerLen (layout == LAYOUT_BUCKET)) st r.off r.header (r.intact integrity)).1) ⟨∅, []⟩

/-- The walk of a rebuild counts every record, and those with damaged payloads. -/
theorem Archive.walk_run (h : Archive layout log s) (integrity : Bool) :
    ∃ stats t, walk ⟨layout == LAYOUT_BUCKET, integrity, (s.file .data).size, true⟩ PAGE
        (rebuildVisitor (headerLen (layout == LAYOUT_BUCKET))) ⟨∅, []⟩ (s.setPaged .data .fresh) =
          .ok (stats, surveyed layout integrity log) t ∧ Quiet (s.setPaged .data .fresh) t ∧
      stats.records = log.length ∧
      stats.badPayload = (log.filter fun r => !r.intact integrity).length := by
  have hRange := h.whole.range
  obtain ⟨hSeen, hRecords, hBad, hOver⟩ := WalkRange.scanFrom_laid
    (w := ⟨layout == LAYOUT_BUCKET, integrity, (s.file .data).size, true⟩) h.laid
    (rebuildVisitor_onward (headerLen (layout == LAYOUT_BUCKET))) rfl h.inside
    (show (s.file .data).size < 2 ^ 64 by omega) ⟨∅, []⟩
  have hMeets := walk_settled_meets ⟨layout == LAYOUT_BUCKET, integrity, (s.file .data).size, true⟩ PAGE
    (rebuildVisitor (headerLen (layout == LAYOUT_BUCKET))) ⟨∅, []⟩ h.settled h.readable
  rw [hOver] at hMeets
  cases hRun : walk ⟨layout == LAYOUT_BUCKET, integrity, (s.file .data).size, true⟩ PAGE
      (rebuildVisitor (headerLen (layout == LAYOUT_BUCKET))) ⟨∅, []⟩ (s.setPaged .data .fresh) with
  | ok out t =>
      obtain ⟨hOut, hQuiet⟩ := hMeets.ok hRun
      refine ⟨_, t, ?_, hQuiet, hRecords, hBad⟩
      rw [hOut, hSeen, surveyed]
  | error e t =>
      rcases hMeets.failsOnly e t hRun with hFail | ⟨-, hFalse⟩
      · exact absurd trivial hFail.2
      · cases hFalse

end Run

/-- The rows that a rebuild writes where there are buckets. -/
def rebuiltRows (order : HashOrder) (config : HeapConfig) (layout : UInt8) (integrity : Bool)
    (log : List Record) : List RegistryRow :=
  (surveyed layout integrity log).bucketRuns.map runRow ++
    regionRows order config.regionSlots (surveyed layout integrity log).latestRecords

/-- The slots that a rebuild writes. -/
def rebuiltSlots (layout : UInt8) (integrity : Bool) (log : List Record) : Nat → SlotState :=
  slotsOf (surveyed layout integrity log).latestRecords

theorem surveyed_latest (layout : UInt8) (integrity : Bool) (log : List Record) :
    (surveyed layout integrity log).latestRecords =
      ((intactOf integrity (inFileOrder log)).map (Record.found (layout == LAYOUT_BUCKET))).foldl
        keepNewest ∅ := by
  rw [surveyed, foldl_rebuildVisitor, foldl_rebuildVisitor_latest]

theorem surveyed_runs (layout : UInt8) (integrity : Bool) (log : List Record) :
    (surveyed layout integrity log).bucketRuns =
      runsOf (layout == LAYOUT_BUCKET) (intactOf integrity (inFileOrder log)) := by
  rw [surveyed, foldl_rebuildVisitor, foldl_rebuildVisitor_runs, runsOf]

/-- Every entry of the table is an intact record under its own number. -/
theorem surveyed_entry {layout : UInt8} {integrity : Bool} {log : List Record} {id : Nat} {f : FoundRecord}
    (h : (surveyed layout integrity log).latestRecords.lookup id = some f) :
    ∃ r ∈ log, r.intact integrity = true ∧ f = r.found (layout == LAYOUT_BUCKET) ∧ r.header.id = id := by
  have hTable := lookup_foldl_keepNewest_max
    ((intactOf integrity (inFileOrder log)).map (Record.found (layout == LAYOUT_BUCKET))) id
  rw [← surveyed_latest, h] at hTable
  obtain ⟨hMem, hId, -⟩ := hTable
  obtain ⟨r, hr, rfl⟩ := List.mem_map.mp hMem
  obtain ⟨hr, hIntact⟩ := mem_intactOf.mp hr
  exact ⟨r, (inFileOrder_perm log).mem_iff.mp hr, hIntact, rfl, hId⟩

/-- The slots in which every number of a log names its newest record. -/
def newestSlots (withBucket : Bool) (log : List Record) (id : Nat) : SlotState :=
  match newest log id with
  | some r => .live (r.slot withBucket)
  | none => .empty

/-- Where versions ascend, each number gets the slot of its newest intact record. -/
theorem rebuiltSlots_eq {layout : UInt8} {integrity : Bool} {log : List Record}
    (hAscending : Ascending log) :
    rebuiltSlots layout integrity log =
      newestSlots (layout == LAYOUT_BUCKET) (intactOf integrity log) := by
  have hPerm : (intactOf integrity (inFileOrder log)).Perm (intactOf integrity log) :=
    (inFileOrder_perm log).filter _
  have hAscends : Ascending (intactOf integrity log) := hAscending.filter _
  funext id
  rw [rebuiltSlots, slotsOf, newestSlots, surveyed_latest, lookup_keepNewest_perm hPerm hAscends]
  cases newest (intactOf integrity log) id with
  | none => rfl
  | some r => exact congrArg SlotState.live (Record.found_slot _ r)

section Run

variable {layout : UInt8} {log : List Record} {s : Store}

/-- Creating a file makes it durable as it is, and no other. -/
theorem create_durable {n : FileName} {kind layout : UInt8} {s t : Store}
    (hRun : PagedFile.create n kind layout s = .ok () t) :
    t.durable = Function.update s.durable n (t.disk n) := by
  obtain ⟨_, a, hTruncate, hRun⟩ := bind_eq_ok.mp hRun
  obtain ⟨_, b, hFresh, hRun⟩ := bind_eq_ok.mp hRun
  obtain ⟨_, c, hWrite, hRun⟩ := bind_eq_ok.mp hRun
  obtain ⟨_, d, hSync, hRun⟩ := bind_eq_ok.mp hRun
  have hA : a.durable = s.durable := by
    unfold truncate at hTruncate
    split at hTruncate
    · cases hTruncate
    · cases hTruncate
      rfl
  have hB : b.durable = a.durable := by
    cases hFresh
    rfl
  have hC : c.durable = b.durable := by
    rw [writeVec_ok hWrite]
    rfl
  cases hRun
  have hSynced := sync_synced hSync
  change d.durable = Function.update s.durable n (d.disk n)
  rw [hSynced.durable, hSynced.disk, hC, hB, hA]

/-- The registry of a rebuilt store. -/
theorem rebuildRegistry_run (order : HashOrder) (config : HeapConfig) (integrity : Bool)
    {t : Store} (hPlan : t.plan = []) (hRegion : 0 < config.regionSlots)
    (hRange : pageUp (PAGE + REGISTRY_ROW_SIZE * (rebuiltRows order config layout integrity log).length) < 2 ^ 63) :
    ∃ u, rebuildRegistry order layout config (surveyed layout integrity log) t = .ok () u ∧
      u.plan = [] ∧ Finished .registry 'R'.toUInt8 layout u ∧
      Rows (rebuiltRows order config layout integrity log) (u.file .registry).bytes ∧
      (∀ m, m ≠ .registry → u.disk m = t.disk m) ∧ ∀ m, m ≠ .registry → u.durable m = t.durable m := by
  obtain ⟨a, hCreate, hPlanA⟩ := @Heap.create_run _ .registry 'R'.toUInt8 layout hPlan
  have hCreated := create_ok hCreate
  have hLogged : Logged [] a a :=
    { frame := .refl _ _
      disk := rfl
      coherent := hCreated.coherent
      tail := Or.inl (by rw [hCreated.handle]; rfl)
      reach := fun w hw => by rw [hCreated.handle] at hw; cases hw
      holds := hCreated.rows
      head := fun _ _ => rfl }
  have hSplit : PAGE + REGISTRY_ROW_SIZE *
      ([] ++ (surveyed layout integrity log).bucketRuns.map runRow).length ≤
      PAGE + REGISTRY_ROW_SIZE * (rebuiltRows order config layout integrity log).length := by
    rw [rebuiltRows, List.nil_append, List.length_append]
    exact Nat.add_le_add_left (Nat.mul_le_mul_left _ (Nat.le_add_right ..)) _
  obtain ⟨b, hRuns, hLoggedB⟩ := stageRows_run _ hLogged hPlanA ((pageUp_mono hSplit).trans_lt hRange)
  rw [List.length_nil, Nat.mul_zero, Nat.add_zero] at hRuns
  obtain ⟨c, hRegions, hLoggedC⟩ := stageRows_run
    (regionRows order config.regionSlots (surveyed layout integrity log).latestRecords) hLoggedB
    (hLoggedB.frame.plan hPlanA) hRange
  have hPlanC := hLoggedC.frame.plan hPlanA
  obtain ⟨d, hFlush⟩ := PagedFile.flush_run hLoggedC.coherent hPlanC hLoggedC.reach
  have hFlushed := flush_ok hLoggedC.coherent hFlush
  have hPlanD := hFlushed.frame.plan hPlanC
  have hSync := sync_run (n := .registry) hPlanD
  have hSynced := sync_synced hSync
  generalize hE : ({ d with durable := Function.update d.durable .registry (d.disk .registry) } : Store) = e
    at hSync hSynced
  refine ⟨e, ?_, hSynced.plan hPlanD, ?_, ?_, fun m hm => ?_, fun m hm => ?_⟩
  · rw [rebuildRegistry, bind_of_ok hCreate, bind_of_ok hRuns, if_neg fun h => hRegion.ne' h.1,
      bind_of_ok hRegions, bind_of_ok hFlush]
    exact hSync
  · refine Finished.of_created hCreated hFlushed hSynced ?_ ?_ hLoggedC.head
    · exact hLoggedC.frame.present (by rw [hCreated.disk]; rfl)
    · refine hFlushed.whole hLoggedC.coherent ?_
      rw [Store.file, hLoggedC.disk]
      exact hCreated.whole
  · have hBytes : (d.file .registry).bytes = c.logical .registry := hFlushed.bytes
    rw [Store.file, hSynced.disk]
    change Rows _ (d.file .registry).bytes
    rw [hBytes]
    exact hLoggedC.holds
  · rw [hSynced.disk, hFlushed.frame.disk m hm, hLoggedC.disk, hCreated.otherDisk m hm]
  · rw [hSynced.durable, Function.update_of_ne hm, hFlushed.frame.durable, hLoggedC.frame.durable, create_durable hCreate,
      Function.update_of_ne hm]

/-- What a rebuild has done before it turns to the registry. -/
structure IndexRebuilt (layout : UInt8) (slots : Nat → SlotState) (s t : Store) : Prop where
  plan : t.plan = []
  index : Finished .index 'I'.toUInt8 layout t
  slots : SlotsAt slots (t.file .index).bytes
  disk : ∀ m, m ≠ .index → t.disk m = s.disk m
  registry : t.paged .registry = s.paged .registry

/-- A rebuild of a data file at rest writes the index of what it found. It counts
every record and every damaged one, and then turns to the registry, if there is one. -/
theorem rebuild_index_run (order : HashOrder) (config : HeapConfig) (integrity : Bool)
    (h : Archive layout log s) (hIds : ∀ r ∈ log, r.intact integrity = true → Addressable r.header.id) :
    ∃ stats t, stats.records = log.length ∧
      stats.badPayload = (log.filter fun r => !r.intact integrity).length ∧
      IndexRebuilt layout (rebuiltSlots layout integrity log) s t ∧
      rebuild order layout integrity config s =
        (if (layout == LAYOUT_BUCKET) = true then do
          rebuildRegistry order layout config (surveyed layout integrity log)
          return stats
        else return stats : StoreM WalkStats) t := by
  obtain ⟨stats, a, hWalk, hQuiet, hRecords, hBad⟩ := h.walk_run integrity
  obtain ⟨b, hCreate, hPlanB⟩ :=
    @Heap.create_run _ .index 'I'.toUInt8 layout (hQuiet.plan h.plan)
  have hCreated := create_ok hCreate
  have hFound : ∀ f ∈ latestInOrder (surveyed layout integrity log).latestRecords,
      Addressable f.id ∧ Slot.state f.slot.encode = .live f.slot := fun f hf => by
    obtain ⟨id, hLookup⟩ := mem_latestInOrder.mp hf
    obtain ⟨r, hr, hIntact, rfl, -⟩ := surveyed_entry hLookup
    refine ⟨hIds r hr hIntact, ?_⟩
    have hBase := h.laid.base r hr
    have hStop := (h.inside r hr).trans_lt h.whole.range
    rw [Record.found_slot]
    rw [Record.stop] at hStop
    refine Slot.state_live (PAGE_pos.trans_le hBase) ?_ ?_
    · change r.off < 2 ^ 63
      omega
    · change r.totalLen _ < 2 ^ 64
      omega
  have hHolding : Holding True True (s.file .data).bytes (fun _ => .empty) b :=
    { settled := ⟨by rw [hCreated.otherHandle _ (by decide), hQuiet.paged]; simp [PagedFile.fresh],
        by rw [Store.file, hCreated.otherDisk _ (by decide), hQuiet.disk]; rfl, fun _ => hPlanB⟩
      coherent := hCreated.coherent
      slots := SlotsAt.blank.congr fun i hi => hCreated.blank hi
      reach := fun _ w hw => by rw [hCreated.handle] at hw; cases hw }
  obtain ⟨c, hStage, hStaged, hWork⟩ := stageLatest_run _ hHolding hFound
  rw [putSlots_latest fun id f hLookup => by
    obtain ⟨r, -, -, rfl, hId⟩ := surveyed_entry hLookup
    exact hId] at hStaged
  obtain ⟨d, hFlush, hFlushed⟩ := flushIndex_run hStaged
  have hPlanD := hFlushed.frame.plan (hStaged.settled.plan trivial)
  have hSync := sync_run (n := .index) hPlanD
  have hSynced := sync_synced hSync
  generalize hE : ({ d with durable := Function.update d.durable .index (d.disk .index) } : Store) = e
    at hSync hSynced
  have hPlanE : e.plan = [] := hSynced.plan hPlanD
  have hDiskE : e.disk = d.disk := hSynced.disk
  have hIndex : Finished .index 'I'.toUInt8 layout e := by
    refine Finished.of_created hCreated hFlushed hSynced ?_ ?_ hWork.head
    · exact hWork.present (by rw [hCreated.disk]; rfl)
    · exact hFlushed.whole hStaged.coherent (hWork.whole hCreated.coherent hCreated.whole)
  have hSlots : SlotsAt (rebuiltSlots layout integrity log) (e.file .index).bytes := by
    rw [Store.file, hDiskE]
    change SlotsAt _ (d.file .index).bytes
    rw [hFlushed.bytes]
    exact hStaged.slots
  have hOther : ∀ m, m ≠ .index → e.disk m = s.disk m := fun m hm => by
    rw [hDiskE, hFlushed.frame.disk m hm, hWork.disk m hm, hCreated.otherDisk m hm, hQuiet.disk]
    rfl
  refine ⟨stats, e, hRecords, hBad, ⟨hPlanE, hIndex, hSlots, hOther, ?_⟩, ?_⟩
  · rw [hSynced.paged, hFlushed.frame.paged _ (by decide), hWork.registry,
      hCreated.otherHandle _ (by decide), hQuiet.paged]
    rfl
  · have hOpen := PagedFile.open_run h.plan h.present h.header
    have hSize : PagedFile.size .data (s.setPaged .data .fresh) =
        .ok (s.file .data).size (s.setPaged .data .fresh) := rfl
    rw [rebuild, bind_of_ok hOpen, bind_of_ok hSize, bind_of_ok hWalk]
    dsimp only
    rw [bind_of_ok hCreate, bind_of_ok hStage, bind_of_ok hFlush, bind_of_ok hSync]

/-- A rebuild of a data file at rest succeeds, where the registry that it writes
fits a file. -/
theorem rebuild_run (order : HashOrder) (config : HeapConfig) (integrity : Bool) (h : Archive layout log s)
    (hRegion : 0 < config.regionSlots)
    (hIds : ∀ r ∈ log, r.intact integrity = true → Addressable r.header.id)
    (hRange : layout = LAYOUT_BUCKET →
      pageUp (PAGE + REGISTRY_ROW_SIZE * (rebuiltRows order config layout integrity log).length) < 2 ^ 63) :
    ∃ stats t, rebuild order layout integrity config s = .ok stats t ∧
      stats.records = log.length ∧
      stats.badPayload = (log.filter fun r => !r.intact integrity).length ∧
      Rebuilt layout (rebuiltSlots layout integrity log) (rebuiltRows order config layout integrity log) s t := by
  obtain ⟨stats, e, hRecords, hBad, hIndex, hStart⟩ := rebuild_index_run order config integrity h hIds
  by_cases hBucket : layout = LAYOUT_BUCKET
  · obtain ⟨t, hRegistry, hPlanT, hDone, hRows, hDisk, hDurable⟩ :=
      rebuildRegistry_run order config integrity hIndex.plan hRegion (hRange hBucket)
    refine ⟨stats, t, ?_, hRecords, hBad, ?_⟩
    · rw [hStart, if_pos (by simp [hBucket]), bind_of_ok hRegistry]
      rfl
    · have hFile : t.file .index = e.file .index := by rw [Store.file, Store.file, hDisk _ (by decide)]
      exact {
        plan := hPlanT
        data := by rw [hDisk _ (by decide), hIndex.disk _ (by decide)]
        index := ⟨by rw [hDisk _ (by decide)]; exact hIndex.index.present,
          by rw [hFile]; exact hIndex.index.whole, by rw [hFile]; exact hIndex.index.header,
          by rw [hDisk _ (by decide), hDurable _ (by decide)]; exact hIndex.index.durable⟩
        slots := by rw [hFile]; exact hIndex.slots
        registry := fun _ => ⟨hDone, hRows⟩
        unbucketed := fun hNot => absurd hBucket hNot }
  · refine ⟨stats, e, ?_, hRecords, hBad, ?_⟩
    · rw [hStart, if_neg (by simpa using hBucket)]
      rfl
    · exact {
        plan := hIndex.plan
        data := hIndex.disk _ (by decide)
        index := hIndex.index
        slots := hIndex.slots
        registry := fun hYes => absurd hYes hBucket
        unbucketed := fun _ => ⟨hIndex.disk _ (by decide), hIndex.registry⟩ }

end Run

end HeapStore
