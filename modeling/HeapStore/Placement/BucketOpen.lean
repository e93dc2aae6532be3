import HeapStore.Placement.Registry
import HeapStore.Recovery.Supersede

/-! Opening a bucket store, as a function of the registry rows, the slots that
the index presents and the records in the last extent of each bucket. -/
namespace HeapStore

open Effect PagedFile IndexFile

namespace BucketPlacement

/-- Note one slot of a region unless it is empty. -/
def noteSlot (slots : Nat → SlotState) (start : Nat) (acc : KnownSlots × Nat) (i : Nat) :
    KnownSlots × Nat :=
  match slots (start + i) with
  | .empty => acc
  | state => (acc.1.insert (start + i) state, i + 1)

/-- The slots of a region that are not empty, and the end of the last one. -/
def notedRegion (slots : Nat → SlotState) (region : Extent) (known : KnownSlots) : KnownSlots × Nat :=
  (List.range region.size).foldl (noteSlot slots region.start) (known, 0)

/-- The regions of a bucket with what is used of them, and the known slots. -/
def scannedRegions (slots : Nat → SlotState) : List Extent → KnownSlots → List Extent × KnownSlots
  | [], known => ([], known)
  | region :: rest, known =>
      let noted := notedRegion slots region known
      let after := scannedRegions slots rest noted.1
      ({ region with used := if rest.isEmpty then noted.2 else region.size } :: after.1, after.2)

/-- What the known slots make of the used bytes of an extent. -/
def slotsUsed (extent : Extent) (states : List SlotState) (used : Nat) : Nat :=
  states.foldl (fun used state =>
    match state.place with
    | some slot =>
        if extent.start ≤ slot.offset ∧ slot.offset + slot.totalLen ≤ extent.stop then
          max used (slot.offset + slot.totalLen - extent.start)
        else used
    | none => used) used

/-- The slots after the found records of these numbers are restored. -/
def restoredSlots (d : DataFile) (image : Nat → UInt8) (known : KnownSlots) (best : NewestTable) :
    List Nat → (Nat → SlotState) → (Nat → SlotState)
  | [], slots => slots
  | id :: rest, slots =>
      match best.lookup id with
      | none => restoredSlots d image known best rest slots
      | some f =>
          if d.wins image f ((known.lookup id).getD .empty) then
            restoredSlots d image known best rest
              (Function.update slots id (Slot.state f.slot.encode))
          else restoredSlots d image known best rest slots

/-- The range of the walk of an extent. -/
def extentRange (config : HeapConfig) (extent : Extent) : WalkRange :=
  ⟨true, config.integrity, extent.stop, false⟩

/-- The intact records at the front of an extent. -/
def extentScan (config : HeapConfig) (image : Nat → UInt8) (extent : Extent) : ExtentScan :=
  ((extentRange config extent).scanFrom image extent.start
    (extentVisitor (headerLen true) extent.start) ⟨[], 0⟩).seen

/-- A bucket and the slots of the index, after the recovery of the bucket. -/
structure BucketRecovery where
  state : BucketState
  slots : Nat → SlotState

/-- The recovery of one bucket, as a function of the content of the files. -/
def recoveredBucket (order : HashOrder) (config : HeapConfig) (image : Nat → UInt8)
    (slots : Nat → SlotState) (state : BucketState) : BucketRecovery :=
  let scanned := scannedRegions slots state.slots ∅
  match state.data.getLast? with
  | none => ⟨{ state with data := [], slots := scanned.1 }, slots⟩
  | some last =>
      let scan := extentScan config image last
      let best := scan.found.foldl keepNewest ∅
      let used := slotsUsed last (scanned.2.entries.map Sigma.snd) scan.used
      ⟨{ state with
          data := modifyLast (fun e => { e with used }) (fillEarlier state.data)
          slots := modifyLast (coverMaxId (maxId scanned.2 scan.found)) scanned.1 },
        restoredSlots ⟨true, config.integrity⟩ image scanned.2 best (order.order best.keys) slots⟩

/-- The recovery of buckets one after the other. -/
def recoveredBuckets (order : HashOrder) (config : HeapConfig) (image : Nat → UInt8) :
    List BucketState → (Nat → SlotState) → List BucketState × (Nat → SlotState)
  | [], slots => ([], slots)
  | state :: rest, slots =>
      let first := recoveredBucket order config image slots state
      let others := recoveredBuckets order config image rest first.slots
      (first.state :: others.1, others.2)

/-- A bucket with an extent, but without a region. -/
def Bare (state : BucketState) : Prop := state.data ≠ [] ∧ state.slots = []

/-- Opening may also meet a bucket without a region. -/
def OpenFailure (calm clean bare : Prop) (e : Failure) : Prop :=
  Refuses calm clean e ∨ e = .panic "called `Option::unwrap()` on a `None` value" ∧ bare

/-- The content of the files does not lead the recovery of a bucket into an overflow. -/
structure BucketSane (config : HeapConfig) (image : Nat → UInt8) (state : BucketState) : Prop where
  regions : ∀ region ∈ state.slots,
    pageUp (Slot.fileOffset region.start + region.size * SLOT_SIZE) < 2 ^ 63
  walk : ∀ last ∈ state.data.getLast?, (extentRange config last).scanOverflows image
    (extentVisitor (headerLen true) last.start) (last.stop - last.start + 1)
    ⟨last.start, ⟨0, 0, 0, last.start⟩, ⟨[], 0⟩⟩ = false
  found : ∀ last ∈ state.data.getLast?, ∀ f ∈ (extentScan config image last).found, Addressable f.id

/-- The slots of a bucket that name bytes behind the start of its last extent
name bytes within 64 bits. -/
def SlotsFit (slots : Nat → SlotState) (state : BucketState) : Prop :=
  ∀ last ∈ state.data.getLast?, ∀ region ∈ state.slots, ∀ id, region.Covers id →
    ∀ slot, (slots id).place = some slot → last.start ≤ slot.offset →
      slot.offset + slot.totalLen < 2 ^ 64

variable {calm clean : Prop} {image : Nat → UInt8} {slots : Nat → SlotState} {s t : Store}
  {config : HeapConfig}

theorem noteRegion_eq {bytesOf : Nat → Bytes} {start : Nat}
    (hSlots : ∀ i, Slot.state (bytesOf i) = slots (start + i)) (count i : Nat)
    (acc : KnownSlots × Nat) :
    noteRegion start i ((List.range' i count).map bytesOf) acc =
      (List.range' i count).foldl (noteSlot slots start) acc := by
  induction count generalizing i acc with
  | zero => rfl
  | succ count ih =>
      obtain ⟨known, lastUsed⟩ := acc
      rw [List.range'_succ, List.map_cons, List.foldl_cons, noteRegion, noteSlot, hSlots]
      cases slots (start + i) <;> exact ih _ _

/-- The slots of a region in the buffer that an aligned read of it returns. -/
theorem regionSlots_eq (image : Nat → UInt8) (region : Extent) :
    ((List.range region.size).map fun i =>
      field (Image.read image (pageDown (Slot.fileOffset region.start))
          (pageUp (Slot.fileOffset region.start + region.size * SLOT_SIZE) -
            pageDown (Slot.fileOffset region.start)))
        (Slot.fileOffset region.start - pageDown (Slot.fileOffset region.start) + i * SLOT_SIZE)
        SLOT_SIZE) =
      (List.range' 0 region.size).map fun i =>
        Image.read image (Slot.fileOffset (region.start + i)) SLOT_SIZE := by
  rw [List.range_eq_range']
  apply List.map_congr_left
  intro i hi
  have hLt : i < region.size := by simpa using hi
  have hDown := pageDown_le (Slot.fileOffset region.start)
  have hUp := le_pageUp (Slot.fileOffset region.start + region.size * SLOT_SIZE)
  have hMul : i * SLOT_SIZE + SLOT_SIZE ≤ region.size * SLOT_SIZE := by
    rw [← Nat.succ_mul]
    exact Nat.mul_le_mul_right _ hLt
  rw [field_read _ _ _ (by omega)]
  congr 1
  simp only [Slot.fileOffset, Nat.add_mul] at hDown ⊢
  omega

theorem lookup_noted (start count i id : Nat) (acc : KnownSlots × Nat) :
    ((List.range' i count).foldl (noteSlot slots start) acc).1.lookup id =
      if (start + i ≤ id ∧ id < start + i + count) ∧ slots id ≠ .empty then some (slots id)
      else acc.1.lookup id := by
  induction count generalizing i acc with
  | zero => rw [if_neg (by omega)]; rfl
  | succ count ih =>
      rw [List.range'_succ, List.foldl_cons, ih, noteSlot]
      by_cases hId : id = start + i
      · subst hId
        rw [if_neg (by omega)]
        cases h : slots (start + i) with
        | empty => rw [if_neg (by simp)]
        | live slot => rw [if_pos (by simp), AList.lookup_insert]
        | deleted slot => rw [if_pos (by simp), AList.lookup_insert]
      · have hIff : (start + (i + 1) ≤ id ∧ id < start + (i + 1) + count) ↔
            (start + i ≤ id ∧ id < start + i + (count + 1)) := by omega
        simp only [hIff]
        cases slots (start + i) with
        | empty => rfl
        | live slot => rw [AList.lookup_insert_ne hId]
        | deleted slot => rw [AList.lookup_insert_ne hId]

/-- A number is known when a region that was scanned covers it and its slot is not empty. -/
theorem lookup_scanned (slots : Nat → SlotState) (regions : List Extent) (known : KnownSlots) (id : Nat) :
    (scannedRegions slots regions known).2.lookup id =
      if (∃ region ∈ regions, region.Covers id) ∧ slots id ≠ .empty then some (slots id)
      else known.lookup id := by
  induction regions generalizing known with
  | nil => simp [scannedRegions]
  | cons region rest ih =>
      rw [scannedRegions, ih, notedRegion, List.range_eq_range', lookup_noted]
      by_cases hEmpty : slots id = .empty
      · simp [hEmpty]
      · simp only [List.exists_mem_cons_iff, Extent.Covers, Extent.stop, Nat.add_zero, ne_eq, hEmpty,
          not_false_eq_true, and_true]
        by_cases hRest : ∃ region ∈ rest, region.start ≤ id ∧ id < region.start + region.size
        · simp [hRest]
        · simp [hRest]

theorem mem_scanned {regions : List Extent} {entry : Sigma fun _ : Nat => SlotState}
    (h : entry ∈ (scannedRegions slots regions ∅).2.entries) :
    (∃ region ∈ regions, region.Covers entry.1) ∧ slots entry.1 = entry.2 ∧ entry.2 ≠ .empty := by
  have hLookup := lookup_scanned slots regions ∅ entry.1
  rw [AList.mem_lookup_iff.mpr h] at hLookup
  split at hLookup
  · rename_i hKnown
    have hSame : slots entry.1 = entry.2 := (Option.some.inj hLookup).symm
    exact ⟨hKnown.1, hSame, hSame ▸ hKnown.2⟩
  · cases hLookup

theorem readRegion_meets (h : Holding calm clean image slots s) {region : Extent}
    (hFits : clean → pageUp (Slot.fileOffset region.start + region.size * SLOT_SIZE) < 2 ^ 63) :
    Meets (Refuses calm clean) (fun out t => out =
        (Image.read (s.logical .index) (pageDown (Slot.fileOffset region.start))
          (pageUp (Slot.fileOffset region.start + region.size * SLOT_SIZE) -
            pageDown (Slot.fileOffset region.start)),
          Slot.fileOffset region.start - pageDown (Slot.fileOffset region.start)) ∧
        Flushed .index s t)
      (readAligned .index (Slot.fileOffset region.start) (region.size * SLOT_SIZE)) s := by
  refine meets_iff.mpr ⟨?_, fun e t hRun => ?_⟩
  · rintro ⟨buffer, bufferOffset⟩ t hRun
    obtain ⟨rfl, rfl, hFlushed, -⟩ := readAligned_ok h.coherent hRun
    exact ⟨rfl, hFlushed⟩
  rcases readAligned_error hRun with rfl | ⟨rfl, hOver⟩
  · refine Refuses.io fun hClean hCalm => ?_
    obtain ⟨u, hDone⟩ := readAligned_run h.coherent (h.settled.plan hCalm) (h.reach hClean)
      (hFits hClean)
    rw [hDone] at hRun
    cases hRun
  · refine Refuses.panic fun hClean => ?_
    have hRange := hFits hClean
    have hUp := le_pageUp (Slot.fileOffset region.start + region.size * SLOT_SIZE)
    rw [PAGE] at hOver
    omega

/-- The position of a region in the index file. -/
theorem regionOffset_meets {region : Extent}
    (hFits : clean → pageUp (Slot.fileOffset region.start + region.size * SLOT_SIZE) < 2 ^ 63)
    (s : Store) : Meets (Refuses calm clean)
      (fun off t => off = Slot.fileOffset region.start ∧ t = s) (slotOffset region.start) s := by
  refine meets_iff.mpr ⟨fun off t hRun => ?_, fun e t hRun => ?_⟩
  · obtain ⟨hOff, hSame, -⟩ := slotOffset_ok hRun
    exact ⟨hOff, hSame⟩
  · obtain ⟨message, rfl⟩ := slotOffset_error hRun
    refine Refuses.panic fun hClean => ?_
    have hRange := hFits hClean
    have hUp := le_pageUp (Slot.fileOffset region.start + region.size * SLOT_SIZE)
    rw [slotOffset_run (by omega)] at hRun
    cases hRun

theorem scanRegions_meets {regions : List Extent} {known : KnownSlots}
    (h : Holding calm clean image slots s) (hFits : clean → ∀ region ∈ regions,
      pageUp (Slot.fileOffset region.start + region.size * SLOT_SIZE) < 2 ^ 63) :
    Meets (Refuses calm clean) (fun out t => out = scannedRegions slots regions known ∧
        Holding calm clean image slots t ∧ IndexWork s t) (scanRegions regions known) s := by
  induction regions generalizing s known with
  | nil => exact Meets.pure ⟨rfl, h, .refl s⟩
  | cons region rest ih =>
      have hOwn : clean →
          pageUp (Slot.fileOffset region.start + region.size * SLOT_SIZE) < 2 ^ 63 :=
        fun hClean => hFits hClean region (List.mem_cons_self ..)
      have hRest : clean → ∀ region ∈ rest,
          pageUp (Slot.fileOffset region.start + region.size * SLOT_SIZE) < 2 ^ 63 :=
        fun hClean region hMem => hFits hClean region (List.mem_cons_of_mem _ hMem)
      rw [scanRegions]
      refine (regionOffset_meets hOwn s).bind ?_
      rintro _ v ⟨rfl, hSame⟩
      subst v
      split
      · rename_i hOver
        refine Meets.throw (Refuses.panic fun hClean => ?_)
        have hRange := hOwn hClean
        have hUp := le_pageUp (Slot.fileOffset region.start + region.size * SLOT_SIZE)
        omega
      refine (readRegion_meets h hOwn).bind ?_
      rintro _ t ⟨rfl, hFlushed⟩
      have hNoted : noteRegion region.start 0 ((List.range' 0 region.size).map fun i =>
          Image.read (s.logical .index) (Slot.fileOffset (region.start + i)) SLOT_SIZE) (known, 0) =
          notedRegion slots region known := by
        rw [noteRegion_eq (fun i => h.slots (region.start + i)), notedRegion, List.range_eq_range']
      simp only [regionSlots_eq, hNoted]
      refine (ih (h.flushed hFlushed) hRest).bind ?_
      rintro _ u ⟨rfl, hHolding, hWork⟩
      exact Meets.pure ⟨rfl, hHolding, (IndexWork.flushed hFlushed).trans hWork⟩

theorem usedBySlots_meets (extent : Extent) (states : List SlotState) (used : Nat)
    (hFit : clean → ∀ state ∈ states, ∀ slot, state.place = some slot →
      extent.start ≤ slot.offset → slot.offset + slot.totalLen < 2 ^ 64) (s : Store) :
    Meets (Refuses calm clean) (fun out t => out = slotsUsed extent states used ∧ t = s)
      (usedBySlots extent states used) s := by
  induction states generalizing used with
  | nil => exact Meets.pure ⟨rfl, rfl⟩
  | cons state rest ih =>
      have hRest : clean → ∀ state ∈ rest, ∀ slot, state.place = some slot →
          extent.start ≤ slot.offset → slot.offset + slot.totalLen < 2 ^ 64 :=
        fun hClean state hMem => hFit hClean state (List.mem_cons_of_mem _ hMem)
      have hNamed : ∀ slot, state.place = some slot → Meets (Refuses calm clean)
          (fun out t => out = slotsUsed extent (state :: rest) used ∧ t = s)
          (if extent.start ≤ slot.offset then do
            let stop ← addU64 slot.offset slot.totalLen
            usedBySlots extent rest
              (if stop ≤ extent.stop then max used (stop - extent.start) else used)
          else usedBySlots extent rest used) s := by
        intro slot hPlace
        have hStep : slotsUsed extent (state :: rest) used = slotsUsed extent rest
            (if extent.start ≤ slot.offset ∧ slot.offset + slot.totalLen ≤ extent.stop then
              max used (slot.offset + slot.totalLen - extent.start) else used) := by
          simp only [slotsUsed, List.foldl_cons, hPlace]
        rw [hStep]
        by_cases hStart : extent.start ≤ slot.offset
        swap
        · simp only [hStart, if_false, false_and]
          exact ih _ hRest
        simp only [hStart, if_true, true_and]
        by_cases hOver : 2 ^ 64 ≤ slot.offset + slot.totalLen
        · refine Meets.of_error (bind_of_error (by rw [addU64, if_pos hOver]; rfl))
            (Refuses.panic fun hClean => ?_)
          have hSum := hFit hClean state (List.mem_cons_self ..) slot hPlace hStart
          omega
        · rw [addU64, if_neg hOver]
          exact Meets.pure_bind (ih _ hRest)
      cases state with
      | empty => exact ih _ hRest
      | live slot => exact hNamed slot rfl
      | deleted slot => exact hNamed slot rfl

/-- Only found records are in the table of the newest ones. -/
theorem mem_newest {found : List FoundRecord} {table : NewestTable} {id : Nat} {f : FoundRecord}
    (h : (found.foldl keepNewest table).lookup id = some f) :
    table.lookup id = some f ∨ f ∈ found ∧ f.id = id := by
  induction found generalizing table with
  | nil => exact Or.inl h
  | cons g rest ih =>
      rcases ih h with hOld | ⟨hMem, hId⟩
      · have hInsert : (table.insert g.id g).lookup id = some f →
            table.lookup id = some f ∨ f ∈ g :: rest ∧ f.id = id := by
          intro hLookup
          by_cases hId : id = g.id
          · rw [hId, AList.lookup_insert] at hLookup
            cases hLookup
            exact Or.inr ⟨List.mem_cons_self .., hId.symm⟩
          · rw [AList.lookup_insert_ne hId] at hLookup
            exact Or.inl hLookup
        unfold keepNewest at hOld
        split at hOld
        · exact hInsert hOld
        · split at hOld
          · exact hInsert hOld
          · exact Or.inl hOld
      · exact Or.inr ⟨List.mem_cons_of_mem _ hMem, hId⟩

theorem restoreFound_meets (d : DataFile) (known : KnownSlots) (best : NewestTable) (ids : List Nat)
    (restored : Nat) {I : (Nat → SlotState) → Prop} (hI : I slots)
    (hKeep : ∀ id f slots, best.lookup id = some f → I slots →
      I (Function.update slots id (Slot.state f.slot.encode)))
    (h : Holding calm clean image slots s)
    (hKnown : ∀ id slot, known.lookup id = some (.live slot) → slot.offset < 2 ^ 63)
    (hId : clean → ∀ id ∈ ids, Addressable id) :
    Meets (Refuses calm clean) (fun _ t => ∃ slots', I slots' ∧ Holding calm clean image slots' t ∧
        IndexWork s t ∧ (calm → slots' = restoredSlots d image known best ids slots))
      (restoreFound d known best ids restored) s := by
  induction ids generalizing s slots restored with
  | nil => exact Meets.pure ⟨slots, hI, h, .refl s, fun _ => rfl⟩
  | cons id rest ih =>
      have hRest : clean → ∀ k ∈ rest, Addressable k := fun hClean k hk =>
        hId hClean k (List.mem_cons_of_mem _ hk)
      rw [restoreFound, restoredSlots]
      cases hLookup : best.lookup id with
      | none => exact ih _ hI h hRest
      | some f =>
          have hState : ∀ slot, (known.lookup id).getD .empty = .live slot → slot.offset < 2 ^ 63 := by
            intro slot hLive
            cases hEntry : known.lookup id with
            | none =>
                rw [hEntry] at hLive
                cases hLive
            | some state =>
                rw [hEntry] at hLive
                exact hKnown id slot (by rw [hEntry]; exact congrArg some hLive)
          refine (DataFile.supersedes_meets d clean f h.settled hState).bind ?_
          rintro newer t ⟨hQuiet, hNewer⟩
          cases newer with
          | true =>
              simp only [if_true]
              refine ((h.quiet hQuiet).stageSlot_meets fun hClean =>
                hId hClean id (List.mem_cons_self ..)).bind ?_
              rintro _ u ⟨hNext, hWork⟩
              refine (ih _ (hKeep id f slots hLookup hI) hNext hRest).mono (fun _ hFail => hFail) ?_
              rintro _ v ⟨slots', hI', hHolding, hWork', hSlots⟩
              refine ⟨slots', hI', hHolding, ((IndexWork.quiet hQuiet).trans hWork).trans hWork', ?_⟩
              intro hCalm
              rw [if_pos (hNewer hCalm).symm]
              exact hSlots hCalm
          | false =>
              simp only [Bool.false_eq_true, if_false]
              refine (ih _ hI (h.quiet hQuiet) hRest).mono (fun _ hFail => hFail) ?_
              rintro _ v ⟨slots', hI', hHolding, hWork, hSlots⟩
              refine ⟨slots', hI', hHolding, (IndexWork.quiet hQuiet).trans hWork, fun hCalm => ?_⟩
              rw [← hNewer hCalm, if_neg Bool.false_ne_true]
              exact hSlots hCalm

theorem getLast?_fillEarlier (data : List Extent) : (fillEarlier data).getLast? = data.getLast? := by
  rcases List.eq_nil_or_concat data with rfl | ⟨init, last, rfl⟩
  · rfl
  · simp [fillEarlier]

theorem scannedRegions_eq_nil {regions : List Extent} {known : KnownSlots} :
    (scannedRegions slots regions known).1 = [] ↔ regions = [] := by
  cases regions with
  | nil => simp [scannedRegions]
  | cons region rest => simp [scannedRegions]

/-- The walk of an extent finds what the plain scan finds. -/
theorem walkExtent_meets {last : Extent} (h : Settled calm image s) (hStop : pageUp last.stop < 2 ^ 63)
    (hWalk : clean → (extentRange config last).scanOverflows image
      (extentVisitor (headerLen true) last.start) (last.stop - last.start + 1)
      ⟨last.start, ⟨0, 0, 0, last.start⟩, ⟨[], 0⟩⟩ = false) :
    Meets (Refuses calm clean) (fun out t => out.2 = extentScan config image last ∧ Quiet s t)
      (walk (extentRange config last) last.start (extentVisitor (headerLen true) last.start)
        ⟨[], 0⟩) s := by
  have hMeets := walk_settled_meets (extentRange config last) last.start
    (extentVisitor (headerLen true) last.start) ⟨[], 0⟩ h
    (readable_of_pageUp hStop)
  refine hMeets.mono (fun e hFail => ?_) ?_
  · rcases hFail with hRead | ⟨rfl, hOver⟩
    · exact hRead.refuses
    · exact Refuses.panic fun hClean => absurd ((hWalk hClean).symm.trans hOver) (by decide)
  · rintro ⟨stats, scan⟩ t ⟨hOut, hQuiet⟩
    exact ⟨(Prod.mk.inj hOut).2, hQuiet⟩

theorem Refuses.opening {bare : Prop} {e : Failure} (h : Refuses calm clean e) :
    OpenFailure calm clean bare e := Or.inl h

/-- The recovery of one bucket. The slots that it leaves keep what every found
record keeps. -/
theorem recoverBucket_meets {order : HashOrder} {state : BucketState} {restored : Nat}
    {I : (Nat → SlotState) → Prop} (hI : I slots)
    (hKeep : ∀ last ∈ state.data.getLast?, ∀ f ∈ (extentScan config image last).found, ∀ slots,
      I slots → I (Function.update slots f.id (Slot.state f.slot.encode)))
    (h : Holding calm clean image slots s)
    (hStop : ∀ last ∈ state.data.getLast?, pageUp last.stop < 2 ^ 63)
    (hSane : clean → BucketSane config image state) (hFit : clean → SlotsFit slots state) :
    Meets (OpenFailure calm clean (Bare state)) (fun out t => ¬ Bare state ∧
        out.1 = (recoveredBucket order config image slots state).state ∧
        ∃ slots', I slots' ∧ Holding calm clean image slots' t ∧ IndexWork s t ∧
          (calm → slots' = (recoveredBucket order config image slots state).slots))
      (recoverBucket order ⟨true, config.integrity⟩ state restored) s := by
  rw [recoverBucket]
  refine ((scanRegions_meets h fun hClean => (hSane hClean).regions).mono
    (fun _ hFail => Refuses.opening hFail) fun _ _ hPost => hPost).bind ?_
  rintro _ t ⟨rfl, hHolding, hWork⟩
  simp only [getLast?_fillEarlier]
  cases hLast : state.data.getLast? with
  | none =>
      have hNone : state.data = [] := List.getLast?_eq_none_iff.mp hLast
      have hBare : ¬ Bare state := fun hBare => hBare.1 hNone
      refine Meets.pure ⟨hBare, ?_, slots, hI, hHolding, hWork, fun _ => ?_⟩
      · simp [recoveredBucket, hNone, fillEarlier]
      · simp [recoveredBucket, hNone]
  | some last =>
      rw [hLast] at hKeep hStop
      have hWalk := walkExtent_meets hHolding.settled (hStop last rfl) fun hClean =>
        (hSane hClean).walk last (by rw [hLast]; rfl)
      refine (hWalk.mono (fun _ hFail => Refuses.opening hFail) fun _ _ hPost => hPost).bind ?_
      rintro ⟨stats, scan⟩ u ⟨hScan, hQuiet⟩
      change scan = _ at hScan
      subst hScan
      have hFits : clean → ∀ known ∈ (scannedRegions slots state.slots ∅).2.entries.map Sigma.snd,
          ∀ slot, known.place = some slot → last.start ≤ slot.offset →
            slot.offset + slot.totalLen < 2 ^ 64 := by
        intro hClean known hMem slot hPlace hStart
        obtain ⟨entry, hEntry, rfl⟩ := List.mem_map.mp hMem
        obtain ⟨⟨region, hRegion, hCovers⟩, hState, -⟩ := mem_scanned hEntry
        exact hFit hClean last (by rw [hLast]; rfl) region hRegion entry.1 hCovers slot
          (hState ▸ hPlace) hStart
      refine ((usedBySlots_meets last _ _ hFits u).mono (fun _ hFail => Refuses.opening hFail)
        fun _ _ hPost => hPost).bind ?_
      rintro _ v ⟨rfl, hSame⟩
      subst v
      have hBest : ∀ id f, (List.foldl keepNewest ∅ (extentScan config image last).found).lookup id =
          some f → f ∈ (extentScan config image last).found ∧ f.id = id := by
        intro id f hLookup
        rcases mem_newest hLookup with hNone | hFound
        · rw [AList.lookup_empty] at hNone
          cases hNone
        · exact hFound
      have hRestore := restoreFound_meets (I := I) ⟨true, config.integrity⟩
        (scannedRegions slots state.slots ∅).2
        (List.foldl keepNewest ∅ (extentScan config image last).found)
        (order.order (List.foldl keepNewest ∅ (extentScan config image last).found).keys)
        restored hI
        (fun id f slots hLookup hSlots => by
          obtain ⟨hFound, rfl⟩ := hBest id f hLookup
          exact hKeep last rfl f hFound slots hSlots)
        (hHolding.quiet hQuiet)
        (fun id slot hLookup => by
          obtain ⟨-, hState, -⟩ := mem_scanned (AList.mem_lookup_iff.mp hLookup)
          exact h.live_offset hState)
        (fun hClean id hId => by
          have hKeys := AList.mem_keys.mpr ((order.perm _).mem_iff.mp hId)
          obtain ⟨f, hLookup⟩ := Option.isSome_iff_exists.mp (AList.lookup_isSome.mpr hKeys)
          obtain ⟨hFound, rfl⟩ := hBest id f hLookup
          exact (hSane hClean).found last (by rw [hLast]; rfl) f hFound)
      refine (hRestore.mono (fun _ hFail => Refuses.opening hFail) fun _ _ hPost => hPost).bind ?_
      rintro count w ⟨slots', hI', hHolding', hWork', hSlots'⟩
      have hEmptyIff : (scannedRegions slots state.slots ∅).1.isEmpty = true ↔ state.slots = [] := by
        rw [List.isEmpty_iff, scannedRegions_eq_nil]
      by_cases hEmpty : (scannedRegions slots state.slots ∅).1.isEmpty = true
      · simp only [hEmpty, if_true]
        refine Meets.throw (Or.inr ⟨rfl, ?_, hEmptyIff.mp hEmpty⟩)
        rintro hNil
        rw [hNil] at hLast
        cases hLast
      · simp only [hEmpty, Bool.false_eq_true, if_false]
        refine Meets.pure ⟨fun hBare => hEmpty (hEmptyIff.mpr hBare.2), ?_, slots', hI', hHolding',
          (hWork.trans (.quiet hQuiet)).trans hWork', fun hCalm => ?_⟩
        · simp only [recoveredBucket, hLast]
        · rw [hSlots' hCalm]
          simp only [recoveredBucket, hLast]

/-- The recovery of all buckets, while the slots keep what the sums need. -/
theorem recoverBuckets_meets {order : HashOrder} {states : List BucketState} {restored : Nat}
    {I : (Nat → SlotState) → Prop} (hI : I slots)
    (hKeep : ∀ state ∈ states, ∀ last ∈ state.data.getLast?,
      ∀ f ∈ (extentScan config image last).found, ∀ slots,
        I slots → I (Function.update slots f.id (Slot.state f.slot.encode)))
    (h : Holding calm clean image slots s)
    (hStop : ∀ state ∈ states, ∀ last ∈ state.data.getLast?, pageUp last.stop < 2 ^ 63)
    (hSane : clean → ∀ state ∈ states, BucketSane config image state)
    (hFit : clean → ∀ state ∈ states, ∀ slots, I slots → SlotsFit slots state) :
    Meets (OpenFailure calm clean (∃ state ∈ states, Bare state)) (fun out t =>
        (∀ state ∈ states, ¬ Bare state) ∧
        List.Forall₂ (fun state after => ∃ slots, I slots ∧
          after = (recoveredBucket order config image slots state).state) states out.1 ∧
        (calm → out.1 = (recoveredBuckets order config image states slots).1) ∧
        ∃ slots', I slots' ∧ Holding calm clean image slots' t ∧ IndexWork s t ∧
          (calm → slots' = (recoveredBuckets order config image states slots).2))
      (recoverBuckets order ⟨true, config.integrity⟩ states restored) s := by
  induction states generalizing s slots restored with
  | nil =>
      refine Meets.pure ⟨fun _ hMem => ?_, .nil, fun _ => rfl, slots, hI, h, .refl s, fun _ => rfl⟩
      cases hMem
  | cons state rest ih =>
      have hHead : state ∈ state :: rest := List.mem_cons_self ..
      rw [recoverBuckets]
      refine ((recoverBucket_meets hI (hKeep state hHead) h (hStop state hHead)
        (fun hClean => hSane hClean state hHead)
        fun hClean => hFit hClean state hHead slots hI).mono (fun e hFail => ?_)
          fun _ _ hPost => hPost).bind ?_
      · exact hFail.imp id fun hBare => ⟨hBare.1, state, hHead, hBare.2⟩
      rintro ⟨first, count⟩ t ⟨hNotBare, hFirst, slots', hI', hHolding, hWork, hSlots'⟩
      refine ((ih hI' (fun other hMem => hKeep other (List.mem_cons_of_mem _ hMem)) hHolding
        (fun other hMem => hStop other (List.mem_cons_of_mem _ hMem))
        (fun hClean other hMem => hSane hClean other (List.mem_cons_of_mem _ hMem))
        fun hClean other hMem => hFit hClean other (List.mem_cons_of_mem _ hMem)).mono
          (fun e hFail => ?_) fun _ _ hPost => hPost).bind ?_
      · refine hFail.imp id fun hBare => ⟨hBare.1, ?_⟩
        obtain ⟨other, hMem, hOther⟩ := hBare.2
        exact ⟨other, List.mem_cons_of_mem _ hMem, hOther⟩
      rintro ⟨others, count'⟩ u ⟨hNoneBare, hEach, hOthers, slots'', hI'', hHolding', hWork', hSlots''⟩
      refine Meets.pure ⟨?_, .cons ⟨slots, hI, hFirst⟩ hEach, fun hCalm => ?_, slots'', hI'', hHolding', hWork.trans hWork',
        fun hCalm => ?_⟩
      · intro other hMem
        rcases List.mem_cons.mp hMem with rfl | hMem
        · exact hNotBare
        · exact hNoneBare other hMem
      · rw [recoveredBuckets, ← hSlots' hCalm, ← hFirst]
        exact congrArg (first :: ·) (hOthers hCalm)
      · rw [recoveredBuckets, ← hSlots' hCalm]
        exact hSlots'' hCalm

/-! The replay of the registry. -/

/-- A row as the allocator or a rebuild writes it. -/
structure Replayable (row : RegistryRow) : Prop where
  kind : KnownKind row
  range : row.InRange

theorem decode_blank {chunk : Bytes} (h : ∀ byte ∈ chunk, byte = 0) :
    RegistryRow.decode chunk = none ∧ chunk.all (· == 0) = true := by
  constructor
  · cases hDecode : RegistryRow.decode chunk with
    | none => rfl
    | some row =>
        have hMagic := RegistryRow.magic_of_decode hDecode
        have hZero : fieldNat chunk 0 4 = 0 := by
          rw [fieldNat, field, List.eq_replicate_of_mem fun byte hByte =>
            h byte (List.mem_of_mem_drop (List.mem_of_mem_take hByte)),
            LittleEndian.decode_replicate_zero]
        rw [hZero] at hMagic
        cases hMagic
  · simpa using h

theorem replayRows_blank {chunks : List Bytes} (h : ∀ chunk ∈ chunks, ∀ byte ∈ chunk, byte = 0)
    (p : BucketPlacement) (s : Store) : replayRows chunks p s = .ok p s := by
  cases chunks with
  | nil => rfl
  | cons chunk rest =>
      obtain ⟨hNone, hAll⟩ := decode_blank (h chunk (List.mem_cons_self ..))
      simp only [replayRows, hNone, hAll, if_true]
      rfl

theorem replayRow_overflow {p : BucketPlacement} {row : RegistryRow} (hKind : KnownKind row)
    (hOver : 2 ^ 64 ≤ row.start + row.size) (s : Store) :
    replayRow p row s = .error (.panic "attempt to add with overflow") s := by
  rcases hKind with hKind | hKind
  · simp only [replayRow, hKind, if_true, addU64, if_pos hOver]
    rfl
  · have hNot : ¬ 'S'.toUInt8 = 'D'.toUInt8 := by decide
    simp only [replayRow, hKind, if_true, if_neg hNot, addU64, if_pos hOver]
    rfl

theorem replayRows_meets {rows : List RegistryRow} {blank : List Bytes}
    (hRows : ∀ row ∈ rows, Replayable row) (hBlank : ∀ chunk ∈ blank, ∀ byte ∈ chunk, byte = 0)
    (hFits : clean → ∀ row ∈ rows, row.start + row.size < 2 ^ 64) (p : BucketPlacement) (s : Store) :
    Meets (Refuses calm clean) (fun q t => q = rows.foldl applyRow p ∧ t = s)
      (replayRows (rows.map RegistryRow.encode ++ blank) p) s := by
  induction rows generalizing p with
  | nil => exact Meets.of_ok (replayRows_blank hBlank p s) ⟨rfl, rfl⟩
  | cons row rest ih =>
      have hRow := hRows row (List.mem_cons_self ..)
      rw [List.map_cons, List.cons_append, replayRows, RegistryRow.decode_encode hRow.range]
      simp only
      by_cases hOver : 2 ^ 64 ≤ row.start + row.size
      · refine Meets.of_error (bind_of_error (replayRow_overflow hRow.kind hOver s))
          (Refuses.panic fun hClean => ?_)
        exact absurd (hFits hClean row (List.mem_cons_self ..)) (Nat.not_lt.mpr hOver)
      · refine Meets.bind_of_ok (replayRow_eq hRow.kind (Nat.not_le.mp hOver) s) ?_
        exact ih (fun row hMem => hRows row (List.mem_cons_of_mem _ hMem))
          (fun hClean row hMem => hFits hClean row (List.mem_cons_of_mem _ hMem)) _

theorem chunksExact_read (image : Nat → UInt8) (size off len : Nat) :
    chunksExact size (Image.read image off len) =
      (List.range (len / size)).map fun i => Image.read image (off + i * size) size := by
  rw [chunksExact, Image.length_read]
  apply List.map_congr_left
  intro i hi
  have hIn : (i + 1) * size ≤ len :=
    (Nat.mul_le_mul_right _ (List.mem_range.mp hi)).trans (Nat.div_mul_le_self _ _)
  rw [Nat.succ_mul] at hIn
  rw [field_read _ _ _ hIn]

theorem read_rows {rows : List RegistryRow} {off : Nat}
    (h : Image.Holds image off (rows.flatMap RegistryRow.encode)) :
    ((List.range rows.length).map fun i =>
      Image.read image (off + i * REGISTRY_ROW_SIZE) REGISTRY_ROW_SIZE) =
      rows.map RegistryRow.encode := by
  induction rows generalizing off with
  | nil => rfl
  | cons row rest ih =>
      rw [List.flatMap_cons] at h
      have hFirst := (Image.holds_iff_read _ _ _).mp h.append_left
      have hRest := h.append_right
      rw [RegistryRow.length_encode] at hFirst hRest
      rw [List.length_cons, List.range_succ_eq_map, List.map_cons, List.map_map, List.map_cons,
        ← ih hRest]
      refine congrArg₂ List.cons (by simpa using hFirst) (List.map_congr_left fun i _ => ?_)
      simp only [Function.comp_apply, Nat.succ_mul]
      congr 1
      omega

/-- A registry is cut into its rows and blank chunks. -/
theorem chunks_of_rows {rows : List RegistryRow} (h : Rows rows image) (len : Nat)
    (hLen : REGISTRY_ROW_SIZE * rows.length ≤ len) :
    ∃ blank, chunksExact REGISTRY_ROW_SIZE (Image.read image PAGE len) =
        rows.map RegistryRow.encode ++ blank ∧ ∀ chunk ∈ blank, ∀ byte ∈ chunk, byte = 0 := by
  have hCount : rows.length ≤ len / REGISTRY_ROW_SIZE := by
    rw [Nat.le_div_iff_mul_le (by decide), Nat.mul_comm]
    exact hLen
  obtain ⟨more, hMore⟩ := Nat.exists_eq_add_of_le hCount
  refine ⟨(List.range more).map fun i => Image.read image
    (PAGE + (rows.length + i) * REGISTRY_ROW_SIZE) REGISTRY_ROW_SIZE, ?_, ?_⟩
  · rw [chunksExact_read, hMore, List.range_add, List.map_append, read_rows h.holds, List.map_map]
    rfl
  · intro chunk hChunk byte hByte
    obtain ⟨i, -, rfl⟩ := List.mem_map.mp hChunk
    obtain ⟨k, hk⟩ := List.mem_iff_getElem?.mp hByte
    rw [Image.getElem?_read] at hk
    split at hk
    · rw [h.blank _ (by rw [Nat.add_mul, Nat.mul_comm rows.length]; omega)] at hk
      exact (Option.some.inj hk).symm
    · cases hk

/-- The rows of a registry lie inside the file. -/
theorem rows_inside {rows : List RegistryRow} {f : File} (h : Rows rows f.bytes) (hWhole : f.Whole)
    (hBase : PAGE ≤ f.size) : PAGE + REGISTRY_ROW_SIZE * rows.length ≤ f.size := by
  rcases List.eq_nil_or_concat rows with rfl | ⟨init, row, rfl⟩
  · simpa using hBase
  have hHolds := h.holds
  rw [List.concat_eq_append, List.flatMap_append] at hHolds
  have hRow := hHolds.append_right
  rw [length_rows, List.flatMap_singleton, RegistryRow.encode, RegistryRow.body] at hRow
  have hMagic := hRow.append_left.append_left.append_left.append_left.append_left.append_left
  have hFirst : f.bytes (PAGE + REGISTRY_ROW_SIZE * init.length) ≠ 0 := by
    have hByte := hMagic 0 (by simp)
    rw [Nat.add_zero] at hByte
    rw [hByte]
    decide
  have hPages := hWhole.pages
  have hLt : PAGE + REGISTRY_ROW_SIZE * init.length < f.size := by
    by_contra hNot
    exact hFirst (f.zero_past _ (by omega))
  rw [List.concat_eq_append, List.length_append, List.length_singleton]
  rw [PAGE] at hPages hLt ⊢
  rw [REGISTRY_ROW_SIZE] at hLt ⊢
  omega

theorem replay_meets {rows : List RegistryRow} (hStaged : (s.paged .registry).stagedWrites = [])
    (hPlan : calm → s.plan = []) (hRange : pageUp (s.file .registry).size < 2 ^ 63)
    (hRows : Rows rows (s.file .registry).bytes)
    (hInside : PAGE + REGISTRY_ROW_SIZE * rows.length ≤ (s.file .registry).size)
    (hGood : ∀ row ∈ rows, Replayable row)
    (hFits : clean → ∀ row ∈ rows, row.start + row.size < 2 ^ 64) :
    Meets (Refuses calm clean) (fun p t => p = replayed config rows ∧ Quiet s t)
      (replay (fresh config)) s := by
  rw [replay]
  refine (size_meets .registry s).bind ?_
  rintro _ u ⟨rfl, hSame⟩
  subst u
  split
  swap
  · have hNone : rows = [] := by
      rw [← List.length_eq_zero_iff]
      rw [REGISTRY_ROW_SIZE] at hInside
      omega
    subst hNone
    exact Meets.pure ⟨rfl, Quiet.refl s⟩
  rename_i hMore
  have hEnd : PAGE + ((s.file .registry).size - PAGE) = (s.file .registry).size := by omega
  have hReadable : Readable calm (PAGE + ((s.file .registry).size - PAGE)) := by
    rw [hEnd]
    exact readable_of_pageUp hRange
  refine ((readAligned_meets hStaged hPlan hReadable).mono (fun _ hFail => hFail.refuses)
    fun _ _ hPost => hPost).bind ?_
  rintro _ t ⟨rfl, hQuiet⟩
  have hBase : pageDown PAGE = PAGE := by decide
  have hUp := le_pageUp (s.file .registry).size
  obtain ⟨blank, hChunks, hBlank⟩ := chunks_of_rows hRows
    (pageUp (s.file .registry).size - PAGE) (by omega)
  simp only [hEnd, hBase, Nat.sub_self, List.drop_zero, hChunks]
  refine (replayRows_meets hGood hBlank hFits _ t).mono (fun _ hFail => hFail) ?_
  rintro p u ⟨rfl, rfl⟩
  exact ⟨rfl, hQuiet⟩

/-- The allocator as the registry and the size of the data file describe it. -/
def reopened (config : HeapConfig) (rows : List RegistryRow) (dataSize : Nat) : BucketPlacement :=
  { replayed config rows with fileSize := max (replayed config rows).fileSize dataSize }

/-- The files of a store that is opened: a registry at rest with replayable rows. -/
structure Registered (rows : List RegistryRow) (s : Store) : Prop where
  staged : (s.paged .registry).stagedWrites = []
  range : pageUp (s.file .registry).size < 2 ^ 63
  holds : Rows rows (s.file .registry).bytes
  inside : PAGE + REGISTRY_ROW_SIZE * rows.length ≤ (s.file .registry).size
  replayable : ∀ row ∈ rows, Replayable row

/-- Opening an existing store does what its recovery says. On sane files it
fails only in a block request, or at a bucket without a region. -/
theorem open_meets (order : HashOrder) (config : HeapConfig) {rows : List RegistryRow} {I : (Nat → SlotState) → Prop}
    (hRegistered : Registered rows s)
    (hSums : clean → ∀ row ∈ rows, row.start + row.size < 2 ^ 64) (hI : I slots)
    (hKeep : ∀ state ∈ (replayed config rows).states, ∀ last ∈ state.data.getLast?,
      ∀ f ∈ (extentScan config image last).found, ∀ slots,
        I slots → I (Function.update slots f.id (Slot.state f.slot.encode)))
    (h : Holding calm clean image slots s)
    (hStop : ∀ state ∈ (replayed config rows).states, ∀ last ∈ state.data.getLast?,
      pageUp last.stop < 2 ^ 63)
    (hSane : clean → ∀ state ∈ (replayed config rows).states, BucketSane config image state)
    (hFit : clean → ∀ state ∈ (replayed config rows).states, ∀ slots, I slots → SlotsFit slots state) :
    Meets (OpenFailure calm clean (∃ state ∈ (replayed config rows).states, Bare state)) (fun out t =>
        (∀ state ∈ (replayed config rows).states, ¬ Bare state) ∧
        out.1 = { reopened config rows (s.file .data).size with states := out.1.states } ∧
        List.Forall₂ (fun state after => ∃ slots, I slots ∧
          after = (recoveredBucket order config image slots state).state)
          (replayed config rows).states out.1.states ∧
        (calm → out.1.states =
          (recoveredBuckets order config image (replayed config rows).states slots).1) ∧
        ∃ slots', I slots' ∧ Holding calm clean image slots' t ∧
          IndexWork (IndexWork.noted s (reopened config rows (s.file .data).size).fileSize) t ∧
          (calm → slots' =
            (recoveredBuckets order config image (replayed config rows).states slots).2))
      (BucketPlacement.open order config false) s := by
  unfold BucketPlacement.open
  simp only [Bool.false_eq_true, if_false]
  refine ((replay_meets hRegistered.staged h.settled.plan hRegistered.range hRegistered.holds
    hRegistered.inside hRegistered.replayable hSums).mono (fun _ hFail => Or.inl hFail)
    fun _ _ hPost => hPost).bind ?_
  rintro _ t ⟨rfl, hQuiet⟩
  refine (size_meets .data t).bind ?_
  rintro _ u ⟨hSize, hSame⟩
  subst u
  rw [hQuiet.file] at hSize
  subst hSize
  have hHolding := (h.quiet hQuiet).noted (reopened config rows (s.file .data).size).fileSize
  refine Meets.bind_of_ok (a := ()) (t := IndexWork.noted t
    (reopened config rows (s.file .data).size).fileSize) rfl ?_
  refine (recoverBuckets_meets hI hKeep hHolding hStop hSane hFit).bind ?_
  rintro ⟨states, restored⟩ u ⟨hNotBare, hEach, hStates, slots', hI', hHolding', hWork, hSlots'⟩
  refine ((publishRestored_meets hHolding' restored).mono (fun _ hFail => Or.inl hFail)
    fun _ _ hPost => hPost).bind ?_
  rintro _ v ⟨hPublished, hWork'⟩
  refine Meets.pure ⟨hNotBare, rfl, hEach, hStates, slots', hI', hPublished, ?_, hSlots'⟩
  exact ((IndexWork.quiet hQuiet).noted_noted _).trans (hWork.trans hWork')

end BucketPlacement

end HeapStore
