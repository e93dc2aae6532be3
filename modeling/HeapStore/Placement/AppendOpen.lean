import HeapStore.Placement.Append
import HeapStore.Recovery.Supersede

/-! Opening an append store, as a function of the slots that the index presents
and of the records that a walk of the data file finds behind them. -/
namespace HeapStore

open Effect PagedFile IndexFile

namespace AppendPlacement

/-- One slot of the scan: the next free number and the greatest record end so far. -/
def noteSlot (slots : Nat → SlotState) (scan : SlotScan) (id : Nat) : SlotScan :=
  match (slots id).place with
  | some slot => ⟨id + 1, max scan.maxEnd (slot.offset + slot.totalLen)⟩
  | none => scan

/-- The scan of the first `count` slots. -/
def slotScan (slots : Nat → SlotState) (count : Nat) : SlotScan :=
  (List.range count).foldl (noteSlot slots) ⟨0, PAGE⟩

/-- The slots after the tail is restored, and what is left to do. -/
def tailSlots : List FoundRecord → (Nat → SlotState) → Restore → (Nat → SlotState) × Restore
  | [], slots, st => (slots, st)
  | f :: rest, slots, st =>
      if f.id = st.nextId then
        tailSlots rest (Function.update slots f.id (Slot.state f.slot.encode))
          { st with nextId := st.nextId + 1, restored := st.restored + 1 }
      else if f.id < st.nextId then
        tailSlots rest slots { st with updates := keepNewest st.updates f }
      else (slots, st)

/-- The slots after the updates of these numbers are restored. -/
def updatedSlots (d : DataFile) (image : Nat → UInt8) (updates : NewestTable) :
    List Nat → (Nat → SlotState) → (Nat → SlotState)
  | [], slots => slots
  | id :: rest, slots =>
      match updates.lookup id with
      | none => updatedSlots d image updates rest slots
      | some f =>
          if d.wins image f (slots id) then
            updatedSlots d image updates rest (Function.update slots id (Slot.state f.slot.encode))
          else updatedSlots d image updates rest slots

/-- The range of the walk behind the slots of the index. -/
def tailRange (config : HeapConfig) (dataEnd : Nat) : WalkRange :=
  ⟨false, config.integrity, dataEnd, false⟩

/-- The records behind the greatest record end that the slots name. -/
def tailOf (config : HeapConfig) (image : Nat → UInt8) (dataEnd maxEnd : Nat) : Tail :=
  ((tailRange config dataEnd).scanFrom image maxEnd (tailVisitor (headerLen false)) ⟨[], maxEnd⟩).seen

/-- How many whole slots an index file of this size has. -/
def slotCount (indexSize : Nat) : Nat := (indexSize - PAGE) / SLOT_SIZE

variable {calm clean : Prop} {image : Nat → UInt8} {slots : Nat → SlotState} {s : Store}
  {config : HeapConfig}

/-- Slots that name records end within 64 bits. -/
def SumsFit (slots : Nat → SlotState) : Prop :=
  ∀ id slot, (slots id).place = some slot → slot.offset + slot.totalLen < 2 ^ 64

theorem noteSlots_meets {bytesOf : Nat → Bytes} (hSlots : ∀ id, Slot.state (bytesOf id) = slots id)
    (hSums : clean → SumsFit slots) (id count : Nat) (scan : SlotScan) :
    Meets (Refuses calm clean)
      (fun out t => t = s ∧ out = (List.range' id count).foldl (noteSlot slots) scan)
      (noteSlots id ((List.range' id count).map bytesOf) scan) s := by
  induction count generalizing id scan with
  | zero => exact Meets.pure ⟨rfl, rfl⟩
  | succ count ih =>
      rw [List.range'_succ, List.map_cons, List.foldl_cons, noteSlots, hSlots, noteSlot]
      have hPlaced : ∀ slot, (slots id).place = some slot →
          Meets (Refuses calm clean) (fun out t => t = s ∧ out =
              (List.range' (id + 1) count).foldl (noteSlot slots)
                ⟨id + 1, max scan.maxEnd (slot.offset + slot.totalLen)⟩)
            (do
              let stop ← addU64 slot.offset slot.totalLen
              noteSlots (id + 1) ((List.range' (id + 1) count).map bytesOf)
                ⟨id + 1, max scan.maxEnd stop⟩ : StoreM SlotScan) s := by
        intro slot hPlace
        by_cases hOver : 2 ^ 64 ≤ slot.offset + slot.totalLen
        · refine Meets.of_error (bind_of_error (by rw [addU64, if_pos hOver]; rfl))
            (Refuses.panic fun hClean => ?_)
          exact absurd (hSums hClean id slot hPlace) (Nat.not_lt.mpr hOver)
        · rw [addU64, if_neg hOver]
          exact Meets.pure_bind (ih (id + 1) _)
      cases hState : slots id with
      | empty => exact ih (id + 1) scan
      | live slot => exact hPlaced slot (by rw [hState]; rfl)
      | deleted slot => exact hPlaced slot (by rw [hState]; rfl)

/-- The whole slots of a chunk of the index file, by their numbers. -/
theorem chunksExact_slots (image : Nat → UInt8) (id len : Nat) :
    chunksExact SLOT_SIZE (Image.read image (Slot.fileOffset id) len) =
      (List.range' id (len / SLOT_SIZE)).map fun j => Image.read image (Slot.fileOffset j) SLOT_SIZE := by
  rw [chunksExact, Image.length_read, List.range'_eq_map_range, List.map_map]
  refine List.map_congr_left fun i hi => ?_
  have hIn : (i + 1) * SLOT_SIZE ≤ len :=
    (Nat.mul_le_mul_right _ (List.mem_range.mp hi)).trans (Nat.div_mul_le_self _ _)
  rw [Nat.succ_mul] at hIn
  simp only [Function.comp_apply]
  rw [field_read _ _ _ hIn, Slot.fileOffset, Slot.fileOffset, Nat.add_mul, ← Nat.add_assoc]

/-- The scan reads the slots of the index file once each, in order. -/
theorem scanIndex_meets (indexSize fuel id : Nat) (scan : SlotScan)
    (h : Holding calm clean image slots s) (hStaged : (s.paged .index).stagedWrites = [])
    (hSums : clean → SumsFit slots) (hSize : pageUp indexSize < 2 ^ 63)
    (hFuel : indexSize < fuel + Slot.fileOffset id ∨ indexSize ≤ Slot.fileOffset id) :
    Meets (Refuses calm clean) (fun out t => Quiet s t ∧ out =
        (List.range' id ((indexSize - Slot.fileOffset id) / SLOT_SIZE)).foldl (noteSlot slots) scan)
      (scanIndex indexSize fuel (Slot.fileOffset id) scan) s := by
  induction fuel generalizing s id scan with
  | zero =>
      have hDone : indexSize - Slot.fileOffset id = 0 := by omega
      rw [hDone]
      exact Meets.pure ⟨Quiet.refl s, rfl⟩
  | succ fuel ih =>
      rw [scanIndex]
      split
      swap
      · have hDone : indexSize - Slot.fileOffset id = 0 := by omega
        rw [hDone]
        exact Meets.pure ⟨Quiet.refl s, rfl⟩
      rename_i hMore
      have hLogical : s.logical .index = (s.file .index).bytes := by rw [Store.logical, hStaged]; rfl
      have hChunk : min (indexSize - Slot.fileOffset id) (2 ^ 20) ≤ indexSize - Slot.fileOffset id :=
        Nat.min_le_left _ _
      have hReadable : Readable calm
          (Slot.fileOffset id + min (indexSize - Slot.fileOffset id) (2 ^ 20)) :=
        (readable_of_pageUp hSize).mono (by omega)
      refine Meets.bind ((readAligned_meets hStaged h.settled.plan hReadable).mono
        (fun _ hFail => hFail.refuses) fun _ _ hPost => hPost) ?_
      rintro ⟨buffer, bufferOffset⟩ t ⟨hOut, hQuiet⟩
      cases hOut
      have hNumber : (Slot.fileOffset id - PAGE) / SLOT_SIZE = id := by
        rw [Slot.fileOffset, Nat.add_sub_cancel_left, Nat.mul_div_cancel _ (by decide)]
      simp only [field_aligned, chunksExact_slots, hNumber]
      refine Meets.bind (noteSlots_meets (fun j => ?_) hSums id _ scan) ?_
      · rw [← hLogical]
        exact h.slots j
      rintro next u ⟨rfl, rfl⟩
      have hStaged' : (u.paged .index).stagedWrites = [] := by rw [hQuiet.paged, hStaged]
      rcases (Nat.lt_or_ge (indexSize - Slot.fileOffset id) (2 ^ 20)).symm with hLong | hShort
      · have hMin : min (indexSize - Slot.fileOffset id) (2 ^ 20) = 65536 * SLOT_SIZE := by
          rw [Nat.min_eq_right hLong]
          rfl
        have hNext : Slot.fileOffset id + 65536 * SLOT_SIZE = Slot.fileOffset (id + 65536) := by
          simp only [Slot.fileOffset, Nat.add_mul, Nat.add_assoc]
        rw [hMin, hNext, Nat.mul_div_cancel _ (by decide)]
        refine (ih _ _ (h.quiet hQuiet) hStaged' (by omega)).mono (fun _ hFail => hFail) ?_
        rintro out v ⟨hQuiet', rfl⟩
        refine ⟨hQuiet.trans hQuiet', ?_⟩
        have hCount : (indexSize - Slot.fileOffset id) / SLOT_SIZE =
            65536 + (indexSize - Slot.fileOffset (id + 65536)) / SLOT_SIZE := by
          rw [← hNext, SLOT_SIZE]
          omega
        rw [hCount, ← List.range'_append_1, List.foldl_append]
      · rw [Nat.min_eq_left hShort.le, Nat.add_sub_cancel' hMore.le]
        have hLast : scanIndex indexSize fuel indexSize
            ((List.range' id ((indexSize - Slot.fileOffset id) / SLOT_SIZE)).foldl (noteSlot slots)
              scan) u = .ok ((List.range' id ((indexSize - Slot.fileOffset id) / SLOT_SIZE)).foldl
                (noteSlot slots) scan) u := by
          cases fuel with
          | zero => rfl
          | succ fuel => rw [scanIndex, if_neg (Nat.lt_irrefl _)]; rfl
        exact Meets.of_ok hLast ⟨hQuiet, rfl⟩

theorem scanIndex_all_meets {indexSize : Nat} (h : Holding calm clean image slots s)
    (hStaged : (s.paged .index).stagedWrites = []) (hSums : clean → SumsFit slots)
    (hSize : pageUp indexSize < 2 ^ 63) :
    Meets (Refuses calm clean) (fun out t => Quiet s t ∧ out = slotScan slots (slotCount indexSize))
      (scanIndex indexSize indexSize PAGE ⟨0, PAGE⟩) s := by
  have hFirst : Slot.fileOffset 0 = PAGE := by simp [Slot.fileOffset]
  have hScan := scanIndex_meets indexSize indexSize 0 ⟨0, PAGE⟩ h hStaged hSums hSize
    (by rw [hFirst, PAGE]; omega)
  rw [hFirst] at hScan
  rw [slotScan, slotCount, List.range_eq_range']
  exact hScan

theorem restoreTail_meets {found : List FoundRecord} {st : Restore}
    (h : Holding calm clean image slots s) (hId : clean → ∀ f ∈ found, Addressable f.id) :
    Meets (Refuses calm clean) (fun out t => out = (tailSlots found slots st).2 ∧
        Holding calm clean image (tailSlots found slots st).1 t ∧ IndexWork s t)
      (restoreTail found st) s := by
  induction found generalizing s slots st with
  | nil => exact Meets.pure ⟨rfl, h, .refl s⟩
  | cons f rest ih =>
      have hRest : clean → ∀ g ∈ rest, Addressable g.id := fun hClean g hg =>
        hId hClean g (List.mem_cons_of_mem _ hg)
      rw [restoreTail, tailSlots]
      split
      · refine Meets.bind (h.stageSlot_meets fun hClean => hId hClean f (List.mem_cons_self ..)) ?_
        rintro _ t ⟨hNext, hWork⟩
        refine (ih hNext hRest).mono (fun _ hFail => hFail) ?_
        rintro out u ⟨rfl, hHolding, hWork'⟩
        exact ⟨rfl, hHolding, hWork.trans hWork'⟩
      · split
        · exact ih h hRest
        · exact Meets.pure ⟨rfl, h, .refl s⟩

theorem restoreUpdates_meets {d : DataFile} {updates : NewestTable} {ids : List Nat} {restored : Nat}
    (h : Holding calm clean image slots s) (hCalm : calm) (hId : clean → ∀ id ∈ ids, Addressable id) :
    Meets (Refuses calm clean) (fun _ t =>
        Holding calm clean image (updatedSlots d image updates ids slots) t ∧ IndexWork s t)
      (restoreUpdates d updates ids restored) s := by
  induction ids generalizing s slots restored with
  | nil => exact Meets.pure ⟨h, .refl s⟩
  | cons id rest ih =>
      have hRest : clean → ∀ k ∈ rest, Addressable k := fun hClean k hk =>
        hId hClean k (List.mem_cons_of_mem _ hk)
      rw [restoreUpdates, updatedSlots]
      cases hLookup : updates.lookup id with
      | none => exact ih h hRest
      | some f =>
          have hOwn : clean → Addressable id := fun hClean => hId hClean id (List.mem_cons_self ..)
          refine Meets.bind (h.readSlotState_meets hOwn) ?_
          rintro state t ⟨rfl, hFlushed⟩
          have hHolding := h.flushed hFlushed
          refine Meets.bind (DataFile.supersedes_meets d clean f hHolding.settled
            fun slot hLive => h.live_offset hLive) ?_
          rintro newer u ⟨hQuiet, hNewer⟩
          have hWork := (IndexWork.flushed hFlushed).trans (.quiet hQuiet)
          have hHolding := hHolding.quiet hQuiet
          rw [hNewer hCalm]
          cases hWins : d.wins image f (slots id)
          swap
          · simp only [if_true]
            refine Meets.bind (hHolding.stageSlot_meets hOwn) ?_
            rintro _ v ⟨hNext, hWork'⟩
            refine (ih hNext hRest).mono (fun _ hFail => hFail) ?_
            rintro _ w ⟨hLast, hWork''⟩
            refine ⟨?_, (hWork.trans hWork').trans hWork''⟩
            rw [if_pos hWins]
            exact hLast
          · simp only [Bool.false_eq_true, if_false]
            refine (ih hHolding hRest).mono (fun _ hFail => hFail) ?_
            rintro _ w ⟨hLast, hWork'⟩
            refine ⟨?_, hWork.trans hWork'⟩
            rw [hWins, if_neg Bool.false_ne_true]
            exact hLast

/-- What opening finds in the files, and the slots that it leaves. -/
structure Recovery where
  placement : AppendPlacement
  slots : Nat → SlotState

/-- Opening from a scan of the index on, as a function of the content of the files. -/
def recoveryFrom (order : HashOrder) (config : HeapConfig) (image : Nat → UInt8)
    (slots : Nat → SlotState) (dataSize : Nat) (scan : SlotScan) : Recovery :=
  let tail := tailOf config image dataSize scan.maxEnd
  let ended := tailSlots tail.found slots ⟨scan.nextId, 0, ∅⟩
  ⟨⟨tail.cursor, ended.2.nextId⟩,
    updatedSlots ⟨false, config.integrity⟩ image ended.2.updates
      (order.order ended.2.updates.keys) ended.1⟩

/-- Opening, as a function of the content of the files. -/
def recovery (order : HashOrder) (config : HeapConfig) (image : Nat → UInt8)
    (slots : Nat → SlotState) (indexSize dataSize : Nat) : Recovery :=
  recoveryFrom order config image slots dataSize (slotScan slots (slotCount indexSize))

/-- The content of the files does not lead into an overflow. -/
structure Sane (config : HeapConfig) (image : Nat → UInt8) (slots : Nat → SlotState)
    (dataSize : Nat) (scan : SlotScan) : Prop where
  sums : SumsFit slots
  walk : (tailRange config dataSize).scanOverflows image (tailVisitor (headerLen false))
    (dataSize - scan.maxEnd + 1) ⟨scan.maxEnd, ⟨0, 0, 0, scan.maxEnd⟩, ⟨[], scan.maxEnd⟩⟩ = false
  found : ∀ f ∈ (tailOf config image dataSize scan.maxEnd).found, Addressable f.id

theorem mem_keepNewest {table : NewestTable} {f : FoundRecord} {id : Nat}
    (h : id ∈ keepNewest table f) : id ∈ table ∨ id = f.id := by
  unfold keepNewest at h
  split at h
  · exact (AList.mem_insert _).mp h |>.symm
  · split at h
    · exact (AList.mem_insert _).mp h |>.symm
    · exact Or.inl h

/-- Only found records leave updates behind. -/
theorem mem_tailSlots {found : List FoundRecord} {st : Restore} {id : Nat}
    (h : id ∈ (tailSlots found slots st).2.updates) :
    id ∈ st.updates ∨ ∃ f ∈ found, f.id = id := by
  induction found generalizing slots st with
  | nil => exact Or.inl h
  | cons f rest ih =>
      rw [tailSlots] at h
      split at h
      · rcases ih h with hOld | ⟨g, hg, hSame⟩
        · exact Or.inl hOld
        · exact Or.inr ⟨g, List.mem_cons_of_mem _ hg, hSame⟩
      · split at h
        · rcases ih h with hOld | ⟨g, hg, hSame⟩
          · rcases mem_keepNewest hOld with hOlder | rfl
            · exact Or.inl hOlder
            · exact Or.inr ⟨f, List.mem_cons_self .., rfl⟩
          · exact Or.inr ⟨g, List.mem_cons_of_mem _ hg, hSame⟩
        · exact Or.inl h

/-- Opening an existing store does what its recovery says, and completes on sane files. -/
theorem open_meets (order : HashOrder) (config : HeapConfig) (h : Holding True clean image slots s)
    (hStaged : (s.paged .index).stagedWrites = [])
    (hIndex : pageUp (s.file .index).size < 2 ^ 63) (hData : pageUp (s.file .data).size < 2 ^ 63)
    (hSane : clean → Sane config image slots (s.file .data).size
      (slotScan slots (slotCount (s.file .index).size))) :
    Meets (Refuses True clean) (fun out t =>
      out.1 = (recovery order config image slots (s.file .index).size (s.file .data).size).placement ∧
      Holding True clean image
        (recovery order config image slots (s.file .index).size (s.file .data).size).slots t ∧
      IndexWork (IndexWork.noted s (s.file .data).size) t)
      (AppendPlacement.open order config false) s := by
  unfold AppendPlacement.open
  simp only [Bool.false_eq_true, if_false]
  refine (size_meets .index s).bind ?_
  rintro _ u ⟨rfl, hSame⟩
  subst u
  rw [recovery]
  refine (scanIndex_all_meets h hStaged (fun hClean => (hSane hClean).sums) hIndex).bind ?_
  generalize slotScan slots (slotCount (s.file .index).size) = scan at hSane ⊢
  rintro out t ⟨hQuiet, hOut⟩
  subst out
  refine (size_meets .data t).bind ?_
  rintro _ _ ⟨hSize, rfl⟩
  rw [hQuiet.file] at hSize
  subst hSize
  have hHolding := h.quiet hQuiet
  have hWalk := walk_settled_meets (tailRange config (s.file .data).size) scan.maxEnd
    (tailVisitor (headerLen false)) ⟨[], scan.maxEnd⟩ hHolding.settled
    (readable_of_pageUp hData)
  refine (hWalk.mono (fun e hFail => ?_) fun _ _ hPost => hPost).bind ?_
  · rcases hFail with hRead | ⟨rfl, hOver⟩
    · exact hRead.refuses
    · exact Refuses.panic fun hClean => absurd ((hSane hClean).walk.symm.trans hOver) (by decide)
  rintro ⟨stats, tail⟩ u ⟨hOut, hQuiet'⟩
  have hFound : clean → ∀ f ∈ (tailOf config image (s.file .data).size scan.maxEnd).found,
      Addressable f.id := fun hClean => (hSane hClean).found
  have hTail : tail = tailOf config image (s.file .data).size scan.maxEnd := by
    rw [tailOf]
    exact (Prod.mk.inj hOut).2
  rw [recoveryFrom]
  rw [← hTail] at hFound ⊢
  have hWork := (IndexWork.quiet hQuiet).trans (.quiet hQuiet')
  refine (restoreTail_meets (hHolding.quiet hQuiet') hFound).bind ?_
  rintro _ v ⟨rfl, hTail, hWork'⟩
  refine (restoreUpdates_meets (d := ⟨false, config.integrity⟩) hTail trivial fun hClean id hId => ?_).bind ?_
  · rcases mem_tailSlots (AList.mem_keys.mpr ((order.perm _).mem_iff.mp hId)) with hNone | ⟨f, hf, rfl⟩
    · exact absurd hNone (AList.notMem_empty id)
    · exact hFound hClean f hf
  rintro restored w ⟨hUpdates, hWork''⟩
  refine (publishRestored_meets hUpdates restored).bind ?_
  rintro _ x ⟨hPublished, hLast⟩
  have hAll := ((hWork.trans hWork').trans hWork'').trans hLast
  refine (size_meets .data x).bind ?_
  rintro _ y ⟨hSize, hSame⟩
  subst y
  rw [hAll.file (by decide)] at hSize
  subst hSize
  exact Meets.of_ok rfl ⟨rfl, hPublished.noted _, hAll.noted_noted _⟩

end AppendPlacement

end HeapStore
