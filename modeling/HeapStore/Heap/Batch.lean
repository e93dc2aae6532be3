import HeapStore.Heap.Answers
import HeapStore.Storage.RecordBatch
import HeapStore.Storage.Shape
import HeapStore.Storage.SlotBatch

/-! A batched read answers what single reads answer, number by number, from
the same heap, also when the data file was damaged behind it. -/
namespace HeapStore

open Effect PagedFile IndexFile

/-- No request fails, and what is staged for slots and records can be written.
What the files hold does not matter. -/
structure Serving (s : Store) : Prop where
  plan : s.plan = []
  index : Shaped .index s
  data : Shaped .data s
  indexReach : InReach .index s
  dataReach : InReach .data s

/-- Damage of file contents does not stop a store from serving. -/
theorem Serving.damaged {s : Store} (h : Serving s) (disk : FileName → Option File) :
    Serving { s with disk } :=
  ⟨h.plan, ⟨h.index.heads, h.index.tails⟩, ⟨h.data.heads, h.data.tails⟩, h.indexReach, h.dataReach⟩

/-- The two flushes of a read. -/
structure ReadyFor (s u v : Store) : Prop where
  index : PagedFile.flush .index s = .ok () u
  indexPlan : u.plan = []
  data : PagedFile.flush .data u = .ok () v
  dataPlan : v.plan = []

theorem sealWrites_onlyPaged {n : FileName} {ws : List StagedWrite} {requests : List (Nat × Bytes)}
    {s t : Store} (hRun : PagedFile.sealWrites n ws s = .ok requests t) :
    ∀ m, m ≠ n → t.paged m = s.paged m := by
  induction ws generalizing s requests with
  | nil =>
      cases hRun
      exact fun _ _ => rfl
  | cons w rest ih =>
      obtain ⟨first, u, hFirst, hRun⟩ := bind_eq_ok.mp hRun
      obtain ⟨others, v, hOthers, hPure⟩ := bind_eq_ok.mp hRun
      cases hPure
      intro m hm
      rw [ih hOthers m hm]
      obtain ⟨suffix, z, hSuffix, hSeal⟩ := bind_eq_ok.mp hFirst
      cases hSeal
      have hKept : z.paged = s.paged := by
        unfold PagedFile.suffixPage at hSuffix
        split at hSuffix
        · obtain ⟨page, y, hPage, hPure⟩ := bind_eq_ok.mp hSuffix
          cases hPure
          rw [PagedFile.lastPage, bind_of_ok (getPaged_apply n s)] at hPage
          split at hPage
          · cases hPage
            rfl
          · cases hCached : (s.paged n).tailPages (pageDown w.endOffset) with
            | some cached =>
                simp only [hCached] at hPage
                cases hPage
                rfl
            | none =>
                simp only [hCached] at hPage
                obtain ⟨-, rfl⟩ := readOne_ok hPage
                rfl
        · cases hSuffix
          rfl
      change (z.setPaged n _).paged m = _
      rw [Store.setPaged_paged, Function.update_of_ne hm, hKept]

/-- A flush leaves the handles of the other files alone. -/
theorem flush_otherPaged {n m : FileName} {s t : Store} (hm : m ≠ n)
    (hRun : PagedFile.flush n s = .ok () t) : t.paged m = s.paged m := by
  rw [PagedFile.flush, bind_of_ok (getPaged_apply n s)] at hRun
  split at hRun
  · cases hRun
    rfl
  rw [bind_of_ok (modifyPaged_apply n _ s)] at hRun
  obtain ⟨requests, u, hSeal, hRun⟩ := bind_eq_ok.mp hRun
  obtain ⟨_, v, hWrite, hRun⟩ := bind_eq_ok.mp hRun
  cases hRun
  have hKept := sealWrites_onlyPaged hSeal m hm
  rw [Store.setPaged_paged, Function.update_of_ne hm] at hKept
  have hPaged : v.paged = u.paged := by
    unfold writeVec at hWrite
    split at hWrite
    · cases hWrite
    · simp only at hWrite
      split at hWrite
      · cases hWrite
        rfl
      · cases hWrite
  rw [Store.setPaged_paged, Function.update_of_ne hm, hPaged, hKept]

theorem Serving.readyFor {s : Store} (h : Serving s) : ∃ u v, ReadyFor s u v := by
  obtain ⟨u, hIndex, hIndexPlan⟩ := h.index.flush_run h.plan h.indexReach
  have hPaged : u.paged .data = s.paged .data := flush_otherPaged (by decide) hIndex
  have hShaped : Shaped .data u := ⟨by rw [hPaged]; exact h.data.heads, by rw [hPaged]; exact h.data.tails⟩
  have hReach : InReach .data u := by
    unfold InReach
    rw [hPaged]
    exact h.dataReach
  obtain ⟨v, hData, hDataPlan⟩ := hShaped.flush_run hIndexPlan hReach
  exact ⟨u, v, hIndex, hIndexPlan, hData, hDataPlan⟩

instance (off total : Nat) : Decidable (DataFile.InPages off total) :=
  inferInstanceAs (Decidable (_ < _))

/-- The payload that the files hold for a number. -/
def foundPayload (d : DataFile) (index data : Nat → UInt8) (id : Nat) : Option Bytes :=
  (Slot.decode (Image.read index (Slot.fileOffset id) SLOT_SIZE)).bind fun slot =>
    if DataFile.InPages slot.offset slot.totalLen then
      (d.storedRecord data slot.offset slot.totalLen id).map Prod.snd
    else none

namespace Heap

variable {P : Type} {config : HeapConfig} {h : Heap P} {u v : Store} {id : Nat} {ids : List Nat}

theorem onStore_run {α : Type} {x : StoreM α} {a : α} {g : Heap P} (hRun : x g.store = .ok a u) :
    onStore x g = .ok a (g.withStore u) :=
  onStore_eq_ok.mpr ⟨u, hRun, rfl⟩

/-- The slot of a number, read after the flush of the index. -/
theorem readSlot_flushed (hReady : ReadyFor h.store u v) (hId : Addressable id) :
    IndexFile.readSlot id h.store =
      .ok (Slot.decode (Image.read (u.file .index).bytes (Slot.fileOffset id) SLOT_SIZE)) u := by
  have hDown := pageDown_le (Slot.fileOffset id)
  have hUp := le_pageUp (Slot.fileOffset id + SLOT_SIZE)
  have hRange : pageUp (Slot.fileOffset id + SLOT_SIZE) < 2 ^ 63 := hId
  have hRead : readAligned .index (Slot.fileOffset id) SLOT_SIZE h.store =
      .ok (Image.read (u.file .index).bytes (pageDown (Slot.fileOffset id))
        (pageUp (Slot.fileOffset id + SLOT_SIZE) - pageDown (Slot.fileOffset id)),
        Slot.fileOffset id - pageDown (Slot.fileOffset id)) u := by
    rw [readAligned, bind_of_ok hReady.index, bind_of_ok (pageUpU64_run (fits_of_pageUp hRange) u)]
    exact (bind_of_ok (readOne_run hReady.indexPlan (by omega))).trans rfl
  have hBytes : readSlotBytes id h.store =
      .ok (Image.read (u.file .index).bytes (Slot.fileOffset id) SLOT_SIZE) u := by
    rw [readSlotBytes, bind_of_ok (slotOffset_run hId.fileOffset_lt), bind_of_ok hRead]
    refine congrArg (EStateM.Result.ok · u) ?_
    rw [field_read _ _ _ (by omega), Nat.add_sub_cancel' hDown]
  rw [IndexFile.readSlot, bind_of_ok hBytes]
  rfl

/-- The items of a batch are there when every number has a live slot. -/
theorem batchItems_ok {pairs : List (Nat × Option Slot)} {items : List DataFile.ReadItem}
    {g g' : Heap P} : batchItems pairs g = .ok items g' ↔
      pairs.map (fun pair => pair.2.map fun slot => (⟨slot.offset, slot.totalLen, pair.1⟩ : DataFile.ReadItem)) =
        items.map some ∧ g' = g := by
  induction pairs generalizing items with
  | nil =>
      constructor
      · intro hRun
        cases hRun
        exact ⟨rfl, rfl⟩
      · rintro ⟨hItems, rfl⟩
        obtain rfl : items = [] := List.map_eq_nil_iff.mp hItems.symm
        rfl
  | cons pair rest ih =>
      obtain ⟨id, slot⟩ := pair
      cases slot with
      | none =>
          constructor
          · intro hRun
            cases hRun
          · rintro ⟨hItems, -⟩
            cases items <;> cases hItems
      | some slot =>
          constructor
          · intro hRun
            obtain ⟨others, t, hOthers, hPure⟩ := bind_eq_ok.mp hRun
            cases hPure
            obtain ⟨hRest, rfl⟩ := ih.mp hOthers
            exact ⟨by simp [hRest], rfl⟩
          · rintro ⟨hItems, rfl⟩
            cases items with
            | nil => cases hItems
            | cons item others =>
                rw [List.map_cons, List.map_cons, List.cons.injEq] at hItems
                obtain ⟨hItem, hRest⟩ := hItems
                obtain rfl := Option.some.inj hItem
                rw [batchItems, bind_of_ok (ih.mpr ⟨hRest, rfl⟩)]
                rfl

/-- A batch in which a number has no live slot ends before the data file is read. -/
theorem batchItems_missing {pairs : List (Nat × Option Slot)} {g : Heap P}
    (hMissing : ∃ pair ∈ pairs, pair.2 = none) : ∃ e, batchItems pairs g = .error e g := by
  induction pairs with
  | nil =>
      obtain ⟨pair, hMem, -⟩ := hMissing
      cases hMem
  | cons pair rest ih =>
      obtain ⟨id, slot⟩ := pair
      cases slot with
      | none => exact ⟨_, rfl⟩
      | some slot =>
          obtain ⟨missing, hMem, hNone⟩ := hMissing
          rcases List.mem_cons.mp hMem with rfl | hRest
          · cases hNone
          · obtain ⟨e, hRun⟩ := ih ⟨missing, hRest, hNone⟩
            exact ⟨e, bind_of_error hRun⟩

theorem zip_items (ids : List Nat) (f : Nat → Option Slot) :
    (ids.zip (ids.map f)).map (fun pair => pair.2.map fun slot =>
      (⟨slot.offset, slot.totalLen, pair.1⟩ : DataFile.ReadItem)) =
      ids.map fun id => (f id).map fun slot => ⟨slot.offset, slot.totalLen, id⟩ := by
  induction ids with
  | nil => rfl
  | cons id rest ih => simp [ih]

variable [Placement P]

/-- A single read answers what the flushed files hold. -/
theorem read_iff (hReady : ReadyFor h.store u v) (hId : Addressable id) {payload : Bytes}
    {h' : Heap P} : read config id h = .ok payload h' ↔
      foundPayload (dataFile P config) (u.file .index).bytes (v.file .data).bytes id = some payload ∧
        h' = h.withStore v := by
  have hSlot := onStore_run (g := h) (readSlot_flushed hReady hId)
  rw [read, foundPayload, Option.bind_eq_some_iff]
  cases hState : Slot.decode (Image.read (u.file .index).bytes (Slot.fileOffset id) SLOT_SIZE) with
  | none =>
      rw [hState] at hSlot
      have hLive : liveSlot id h = .error (.error (.notFound id)) (h.withStore u) := by
        rw [liveSlot, bind_of_ok hSlot]
        rfl
      rw [bind_of_error hLive]
      simp
  | some slot =>
      rw [hState] at hSlot
      have hLive : liveSlot id h = .ok slot (h.withStore u) := by
        rw [liveSlot, bind_of_ok hSlot]
        rfl
      rw [bind_of_ok hLive]
      have hRecord : ∀ x t, onStore ((dataFile P config).readRecord slot.offset slot.totalLen id)
          (h.withStore u) = .ok x t ↔ DataFile.InPages slot.offset slot.totalLen ∧
            (dataFile P config).storedRecord (v.file .data).bytes slot.offset slot.totalLen id =
              some x ∧ t = h.withStore v := by
        intro x t
        have hStore : (dataFile P config).readRecord slot.offset slot.totalLen id u = .ok x v ↔ _ :=
          DataFile.readRecord_iff hReady.data hReady.dataPlan
        constructor
        · intro hRun
          obtain ⟨w, hStored, rfl⟩ := onStore_eq_ok.mp hRun
          obtain ⟨hPages, hFound, rfl⟩ :=
            (DataFile.readRecord_iff hReady.data hReady.dataPlan).mp hStored
          exact ⟨hPages, hFound, rfl⟩
        · rintro ⟨hPages, hFound, rfl⟩
          exact onStore_run (g := h.withStore u) (hStore.mpr ⟨hPages, hFound, rfl⟩)
      constructor
      · intro hRun
        obtain ⟨⟨header, found⟩, t, hRead, hPure⟩ := bind_eq_ok.mp hRun
        cases hPure
        obtain ⟨hPages, hFound, rfl⟩ := (hRecord _ _).mp hRead
        exact ⟨⟨slot, rfl, by rw [if_pos hPages, hFound]; rfl⟩, rfl⟩
      · rintro ⟨⟨other, hOther, hFound⟩, rfl⟩
        obtain rfl := Option.some.inj hOther
        split at hFound
        · rename_i hPages
          obtain ⟨⟨header, found⟩, hStored, rfl⟩ := Option.map_eq_some_iff.mp hFound
          rw [bind_of_ok ((hRecord _ _).mpr ⟨hPages, hStored, rfl⟩)]
          rfl
        · cases hFound

/-- A batched read answers what the flushed files hold, for all numbers at once. -/
theorem readBatch_iff (hReady : ReadyFor h.store u v) (hIds : ∀ id ∈ ids, Addressable id)
    {out : List Bytes} {h' : Heap P} : readBatch config ids h = .ok out h' ↔
      ids.map (foundPayload (dataFile P config) (u.file .index).bytes (v.file .data).bytes) =
        out.map some ∧ h' = h.withStore v := by
  have hSlots := onStore_run (g := h) (readSlots_run hReady.index hReady.indexPlan hIds)
  rw [readBatch, bind_of_ok hSlots]
  constructor
  · intro hRun
    obtain ⟨items, t, hBatch, hRun⟩ := bind_eq_ok.mp hRun
    obtain ⟨hZip, rfl⟩ := batchItems_ok.mp hBatch
    have hItems := (zip_items ids _).symm.trans hZip
    obtain ⟨w, hStored, rfl⟩ := onStore_eq_ok.mp hRun
    obtain ⟨hPages, hOut, rfl⟩ := (DataFile.readMany_iff hReady.data hReady.dataPlan).mp hStored
    refine ⟨?_, rfl⟩
    rw [← hOut]
    apply List.ext_getElem
    · have hLength := congrArg List.length hItems
      simpa using hLength
    · intro i hLeft hRight
      rw [List.length_map] at hLeft hRight
      have hItem : ((ids.map fun id => (Slot.decode (Image.read (u.file .index).bytes
          (Slot.fileOffset id) SLOT_SIZE)).map fun slot =>
            (⟨slot.offset, slot.totalLen, id⟩ : DataFile.ReadItem))[i]?) = some (some items[i]) := by
        rw [hItems]
        simp [hRight]
      simp only [List.getElem?_map, List.getElem?_eq_getElem hLeft, Option.map_some,
        Option.some.injEq, Option.map_eq_some_iff] at hItem
      obtain ⟨slot, hSlot, hEq⟩ := hItem
      have hInPages := hPages items[i] (List.getElem_mem hRight)
      rw [← hEq] at hInPages
      rw [List.getElem_map, List.getElem_map, ← hEq, foundPayload, hSlot, Option.bind_some,
        if_pos hInPages]
  · rintro ⟨hOut, rfl⟩
    -- every number has a live slot whose record is there
    have hEach : ∀ id ∈ ids, ∃ slot payload,
        Slot.decode (Image.read (u.file .index).bytes (Slot.fileOffset id) SLOT_SIZE) = some slot ∧
        DataFile.InPages slot.offset slot.totalLen ∧
        ((dataFile P config).storedRecord (v.file .data).bytes slot.offset slot.totalLen id).map
          Prod.snd = some payload := by
      intro id hId
      have hMem := List.mem_map_of_mem (f := foundPayload (dataFile P config) (u.file .index).bytes
        (v.file .data).bytes) hId
      rw [hOut] at hMem
      obtain ⟨payload, -, hFound⟩ := List.mem_map.mp hMem
      obtain ⟨slot, hSlot, hRest⟩ := Option.bind_eq_some_iff.mp hFound.symm
      split at hRest
      · rename_i hPages
        exact ⟨slot, payload, hSlot, hPages, hRest⟩
      · cases hRest
    have hItems : ∃ items : List DataFile.ReadItem, (ids.map fun id =>
        (Slot.decode (Image.read (u.file .index).bytes (Slot.fileOffset id) SLOT_SIZE)).map
          fun slot => (⟨slot.offset, slot.totalLen, id⟩ : DataFile.ReadItem)) = items.map some := by
      clear hOut hSlots hIds
      induction ids with
      | nil => exact ⟨[], rfl⟩
      | cons id rest ih =>
          obtain ⟨slot, -, hSlot, -, -⟩ := hEach id (by simp)
          obtain ⟨items, hRest⟩ := ih fun other hOther => hEach other (by simp [hOther])
          exact ⟨⟨slot.offset, slot.totalLen, id⟩ :: items, by simp [hSlot, hRest]⟩
    obtain ⟨items, hItems⟩ := hItems
    have hItem : ∀ i (hi : i < items.length), ∃ (hIn : i < ids.length) (slot : Slot),
        Slot.decode (Image.read (u.file .index).bytes (Slot.fileOffset ids[i]) SLOT_SIZE) = some slot ∧
        items[i] = ⟨slot.offset, slot.totalLen, ids[i]⟩ := by
      intro i hi
      have hLength : ids.length = items.length := by
        have hLength := congrArg List.length hItems
        simpa using hLength
      have hIn : i < ids.length := by omega
      have hGet := congrArg (fun l => l[i]?) hItems
      simp only [List.getElem?_map, List.getElem?_eq_getElem hIn, List.getElem?_eq_getElem hi,
        Option.map_some, Option.some.injEq, Option.map_eq_some_iff] at hGet
      obtain ⟨slot, hSlot, hEq⟩ := hGet
      exact ⟨hIn, slot, hSlot, hEq.symm⟩
    rw [bind_of_ok (batchItems_ok.mpr ⟨(zip_items ids _).trans hItems, rfl⟩)]
    apply onStore_run (g := h.withStore u)
    refine (DataFile.readMany_iff hReady.data hReady.dataPlan).mpr ⟨?_, ?_, rfl⟩
    · intro item hMem
      obtain ⟨i, hi, rfl⟩ := List.getElem_of_mem hMem
      obtain ⟨hIn, slot, hSlot, hEq⟩ := hItem i hi
      obtain ⟨other, -, hOther, hPages, -⟩ := hEach ids[i] (List.getElem_mem hIn)
      obtain rfl : slot = other := Option.some.inj (hSlot.symm.trans hOther)
      rw [hEq]
      exact hPages
    · rw [← hOut]
      apply List.ext_getElem
      · have hLength := congrArg List.length hItems
        simpa using hLength.symm
      · intro i hLeft hRight
        rw [List.length_map] at hLeft hRight
        obtain ⟨hIn, slot, hSlot, hEq⟩ := hItem i hLeft
        obtain ⟨other, -, hOther, hPages, -⟩ := hEach ids[i] (List.getElem_mem hIn)
        obtain rfl : slot = other := Option.some.inj (hSlot.symm.trans hOther)
        rw [List.getElem_map, List.getElem_map, hEq, foundPayload, hSlot, Option.bind_some,
          if_pos hPages]

/-- The batched read completes exactly when every single read does, and then
returns their payloads in the order of the numbers, repeated ones included. -/
theorem readBatch_eq_reads (hServing : Serving h.store) (hIds : ∀ id ∈ ids, id < 2 ^ 58) :
    ((∃ out h', readBatch config ids h = .ok out h') ↔
      ∀ id ∈ ids, ∃ payload h', read config id h = .ok payload h') ∧
    ∀ out h', readBatch config ids h = .ok out h' → out.length = ids.length ∧
      ∀ (i id : Nat) (payload : Bytes), ids[i]? = some id → out[i]? = some payload →
        ∃ t, read config id h = .ok payload t := by
  obtain ⟨u, v, hReady⟩ := hServing.readyFor
  have hAddressable : ∀ id ∈ ids, Addressable id := fun id hId => addressable_of_lt (hIds id hId)
  constructor
  · constructor
    · rintro ⟨out, h', hRun⟩ id hId
      obtain ⟨hOut, -⟩ := (readBatch_iff hReady hAddressable).mp hRun
      have hMem := List.mem_map_of_mem (f := foundPayload (dataFile P config) (u.file .index).bytes
        (v.file .data).bytes) hId
      rw [hOut] at hMem
      obtain ⟨payload, -, hFound⟩ := List.mem_map.mp hMem
      exact ⟨payload, _, (read_iff hReady (hAddressable id hId)).mpr ⟨hFound.symm, rfl⟩⟩
    · intro hReads
      have hOut : ∃ out : List Bytes, ids.map (foundPayload (dataFile P config) (u.file .index).bytes
          (v.file .data).bytes) = out.map some := by
        clear hIds
        induction ids with
        | nil => exact ⟨[], rfl⟩
        | cons id rest ih =>
            obtain ⟨payload, h', hRead⟩ := hReads id (by simp)
            obtain ⟨hFound, -⟩ := (read_iff hReady (hAddressable id (by simp))).mp hRead
            obtain ⟨out, hRest⟩ := ih (fun other hOther => hAddressable other (by simp [hOther]))
              fun other hOther => hReads other (by simp [hOther])
            exact ⟨payload :: out, by simp [hFound, hRest]⟩
      obtain ⟨out, hOut⟩ := hOut
      exact ⟨out, _, (readBatch_iff hReady hAddressable).mpr ⟨hOut, rfl⟩⟩
  · intro out h' hRun
    obtain ⟨hOut, -⟩ := (readBatch_iff hReady hAddressable).mp hRun
    refine ⟨by simpa using (congrArg List.length hOut).symm, ?_⟩
    intro i id payload hId hPayload
    have hGet := congrArg (fun l => l[i]?) hOut
    simp only [List.getElem?_map, hId, hPayload, Option.map_some, Option.some.injEq] at hGet
    have hMem := List.mem_of_getElem? hId
    exact ⟨_, (read_iff hReady (hAddressable id hMem)).mpr ⟨hGet, rfl⟩⟩

/-- A heap over a data file with one record and an index with its slot. -/
def oneSlotHeap : Heap AppendPlacement :=
  ⟨⟨⟨PAGE + 33, 10⟩,
    (Store.empty.setDisk .data (File.empty.write PAGE
      (RecordHeader.encode ⟨3, 0, 9, 1, crc32c [1, 2, 3]⟩ false ++ [1, 2, 3]))).setDisk .index
        (File.empty.write (Slot.fileOffset 9) (Slot.encode ⟨PAGE, 33⟩))⟩, 0⟩

theorem oneSlotHeap_serving : Serving oneSlotHeap.store :=
  ⟨rfl, ⟨nofun, nofun⟩, ⟨nofun, nofun⟩, nofun, nofun⟩

/-- Its only number is found with its record. -/
theorem oneSlotHeap_found : foundPayload
    (dataFile AppendPlacement ⟨.none, true, 2 ^ 20, 2 ^ 20, PAGE, 1, 2 ^ 20⟩)
    (oneSlotHeap.store.file .index).bytes (oneSlotHeap.store.file .data).bytes 9 = some [1, 2, 3] := by
  have hIndex := Image.read_write_same File.empty.bytes (Slot.fileOffset 9) (Slot.encode ⟨PAGE, 33⟩)
  rw [Slot.length_encode] at hIndex
  have hSlot : Slot.decode (Image.read (oneSlotHeap.store.file .index).bytes (Slot.fileOffset 9)
      SLOT_SIZE) = some ⟨PAGE, 33⟩ :=
    hIndex ▸ Slot.decode_eq_some.mpr (Slot.state_live (by decide) (by decide) (by decide))
  have hData := Image.read_write_same File.empty.bytes PAGE
    (RecordHeader.encode ⟨3, 0, 9, 1, crc32c [1, 2, 3]⟩ false ++ [1, 2, 3])
  rw [List.length_append, Image.read_add] at hData
  obtain ⟨hHeader, hPayload⟩ := List.append_inj hData (Image.length_read ..)
  rw [RecordHeader.length_encode] at hHeader hPayload
  have hStored : (dataFile AppendPlacement ⟨.none, true, 2 ^ 20, 2 ^ 20, PAGE, 1, 2 ^ 20⟩).storedRecord
      (oneSlotHeap.store.file .data).bytes PAGE 33 9 =
        some (⟨3, 0, 9, 1, crc32c [1, 2, 3]⟩, [1, 2, 3]) := by
    refine DataFile.storedRecord_eq_some.mpr ⟨?_, hPayload.symm, rfl, rfl, fun _ => rfl⟩
    have hRange : RecordHeader.InRange ⟨3, 0, 9, 1, crc32c [1, 2, 3]⟩ :=
      ⟨by decide, by decide, by decide, by decide⟩
    have hDecode := RecordHeader.decode_encode _ false hRange []
    rw [List.append_nil] at hDecode
    exact hHeader ▸ hDecode
  rw [foundPayload, hSlot, Option.bind_some, if_pos (by decide)]
  exact congrArg (Option.map Prod.snd) hStored

/-- No other number has a slot. -/
theorem oneSlotHeap_missed : foundPayload
    (dataFile AppendPlacement ⟨.none, true, 2 ^ 20, 2 ^ 20, PAGE, 1, 2 ^ 20⟩)
    (oneSlotHeap.store.file .index).bytes (oneSlotHeap.store.file .data).bytes 4 = none := by
  have hIndex : Image.read (Image.write File.empty.bytes (Slot.fileOffset 9) (Slot.encode ⟨PAGE, 33⟩))
      (Slot.fileOffset 4) SLOT_SIZE = Image.read File.empty.bytes (Slot.fileOffset 4) SLOT_SIZE :=
    Image.read_write_off _ _ (.inl (by decide))
  have hSlot : Slot.decode (Image.read (oneSlotHeap.store.file .index).bytes (Slot.fileOffset 4)
      SLOT_SIZE) = none := by
    change Slot.decode (Image.read (Image.write _ _ _) _ _) = none
    rw [hIndex]
    decide
  rw [foundPayload, hSlot, Option.bind_none]

theorem oneSlotHeap_ready : ReadyFor oneSlotHeap.store oneSlotHeap.store oneSlotHeap.store :=
  ⟨flush_of_staged_nil rfl, rfl, flush_of_staged_nil rfl, rfl⟩

/-- The one record is read as often as it is asked for, and no other number is read. -/
theorem readBatch_eq_reads_repeated :
    (∃ out h', readBatch ⟨.none, true, 2 ^ 20, 2 ^ 20, PAGE, 1, 2 ^ 20⟩ [9, 9] oneSlotHeap =
        .ok out h' ∧ out.length = 2) ∧
      ¬ ∃ out h', readBatch ⟨.none, true, 2 ^ 20, 2 ^ 20, PAGE, 1, 2 ^ 20⟩ [9, 4, 9] oneSlotHeap =
        .ok out h' := by
  have hFound : ∃ h', read ⟨.none, true, 2 ^ 20, 2 ^ 20, PAGE, 1, 2 ^ 20⟩ 9 oneSlotHeap =
      .ok [1, 2, 3] h' := ⟨_, (read_iff oneSlotHeap_ready (addressable_of_lt (by decide))).mpr
    ⟨oneSlotHeap_found, rfl⟩⟩
  constructor
  · obtain ⟨out, h', hRun⟩ : ∃ out h', readBatch ⟨.none, true, 2 ^ 20, 2 ^ 20, PAGE, 1, 2 ^ 20⟩ [9, 9]
        oneSlotHeap = .ok out h' := by
      apply (readBatch_eq_reads oneSlotHeap_serving (by decide)).1.mpr
      intro id hId
      have hSame : id = 9 := by simpa using hId
      exact hSame ▸ ⟨_, hFound⟩
    exact ⟨out, h', hRun, ((readBatch_eq_reads oneSlotHeap_serving (by decide)).2 out h' hRun).1⟩
  · intro hRun
    obtain ⟨payload, h', hRead⟩ := (readBatch_eq_reads oneSlotHeap_serving (by decide)).1.mp hRun 4 (by simp)
    have hMissed := ((read_iff oneSlotHeap_ready (addressable_of_lt (by decide))).mp hRead).1
    rw [oneSlotHeap_missed] at hMissed
    cases hMissed

variable [LawfulPlacement P] {L : Ledger}

/-- Every sound heap whose writes the kernel can address serves reads. -/
theorem Ready.serving (hReady : Ready h) (hSound : Sound config L h.placed) : Serving h.store :=
  ⟨hSound.plan, PagedFile.Coherent.shaped (hSound.coherent .index),
    PagedFile.Coherent.shaped (hSound.coherent .data), hReady.index,
    hReady.data⟩

/-- Whatever a read of a sound heap answers, the files present what they did. -/
theorem read_final (hSound : Sound config L h.placed) (hReady : Ready h) (hId : Addressable id) :
    ∃ u, Inspected h.store u ∧ final (read config id) h = h.withStore u := by
  cases hLive : liveOf (L.slots id) with
  | none =>
      obtain ⟨u, hInspected, hRun⟩ : ∃ u, Inspected h.store u ∧
          read config id h = .error (.error (.notFound id)) (h.withStore u) :=
        read_missing hSound hReady hId hLive
      exact ⟨u, hInspected, final_of_error hRun⟩
  | some slot =>
      have hSlot := liveOf_eq_some.mp hLive
      obtain ⟨r, hr, hSame, rfl, -⟩ := hSound.record_of_live hSlot
      obtain ⟨u, hInspected, hRun⟩ := read_live hSound hReady hId hr hSame hSlot
      exact ⟨u, hInspected, final_of_ok hRun⟩

/-- Whatever a batched read of a sound heap answers, the files present what they did. -/
theorem readBatch_final (hSound : Sound config L h.placed) (hReady : Ready h)
    (hIds : ∀ id ∈ ids, id < 2 ^ 58) :
    ∃ u, Inspected h.store u ∧ final (readBatch config ids) h = h.withStore u := by
  obtain ⟨u, v, hFlushes⟩ := (hReady.serving hSound).readyFor
  have hAddressable : ∀ id ∈ ids, Addressable id := fun id hId => addressable_of_lt (hIds id hId)
  have hIndex := Inspected.flushed (by decide) (PagedFile.flush_ok (hSound.coherent .index) hFlushes.index)
  have hData := Inspected.flushed (by decide)
    (PagedFile.flush_ok (hIndex.coherent hSound.coherent .data) hFlushes.data)
  by_cases hAll : ∀ id ∈ ids, ∃ slot,
      Slot.decode (Image.read (u.file .index).bytes (Slot.fileOffset id) SLOT_SIZE) = some slot
  · have hReads : ∀ id ∈ ids, ∃ payload h', read config id h = .ok payload h' := by
      intro id hId
      obtain ⟨slot, hSlot⟩ := hAll id hId
      have hFound := onStore_run (g := h) (readSlot_flushed hFlushes (hAddressable id hId))
      obtain ⟨w, -, hAnswer⟩ := readSlot_answers hSound hReady (hAddressable id hId)
      rw [hAnswer, hSlot] at hFound
      have hLive := liveOf_eq_some.mp (EStateM.Result.ok.inj hFound).1
      obtain ⟨r, hr, hSame, rfl, -⟩ := hSound.record_of_live hLive
      obtain ⟨x, -, hRun⟩ := read_live hSound hReady (hAddressable id hId) hr hSame hLive
      exact ⟨_, _, hRun⟩
    obtain ⟨out, h', hRun⟩ := (readBatch_eq_reads (hReady.serving hSound) hIds).1.mpr hReads
    obtain ⟨-, rfl⟩ := (readBatch_iff hFlushes hAddressable).mp hRun
    exact ⟨v, hIndex.trans hData, final_of_ok hRun⟩
  · push Not at hAll
    obtain ⟨id, hId, hNone⟩ := hAll
    have hMissing : Slot.decode (Image.read (u.file .index).bytes (Slot.fileOffset id) SLOT_SIZE) =
        none := Option.eq_none_iff_forall_ne_some.mpr hNone
    have hSlots := onStore_run (g := h) (readSlots_run hFlushes.index hFlushes.indexPlan hAddressable)
    have hPair : (id, (none : Option Slot)) ∈ ids.zip (ids.map fun id =>
        Slot.decode (Image.read (u.file .index).bytes (Slot.fileOffset id) SLOT_SIZE)) := by
      obtain ⟨i, hi, rfl⟩ := List.getElem_of_mem hId
      exact List.mem_iff_getElem.mpr ⟨i, by simpa using hi, by simp [hMissing]⟩
    obtain ⟨e, hItems⟩ := batchItems_missing (g := h.withStore u) ⟨_, hPair, rfl⟩
    have hRun : readBatch config ids h = .error e (h.withStore u) := by
      rw [readBatch, bind_of_ok hSlots]
      exact bind_of_error hItems
    exact ⟨u, hIndex, final_of_error hRun⟩

end Heap

end HeapStore
