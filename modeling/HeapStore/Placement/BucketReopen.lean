import HeapStore.Placement.BucketOpen
import HeapStore.Recovery.Newest

/-! Opening a bucket store whose files hold the records of an allocator: each
bucket gets back the extents, the used bytes and the numbers that it had. -/
namespace HeapStore

open Effect PagedFile IndexFile WalkRange

theorem Extent.eq_of_full {e : Extent} (h : e.used = e.size) : { e with used := e.size } = e := by
  cases e
  cases h
  rfl

namespace BucketPlacement

/-- What the files hold when an allocator is opened again: its records, and an
index whose slots name some of them. -/
structure Reopening (config : HeapConfig) (p : BucketPlacement) (log : List Record)
    (image : Nat → UInt8) (slots : Nat → SlotState) : Prop where
  laid : Laid true log image
  intact : ∀ r ∈ log, r.intact config.integrity = true
  geometry : Geometry p log
  numbering : Numbering config p.books p.nextRegion log
  range : pageUp p.fileSize < 2 ^ 63
  named : ∀ id slot, (slots id).place = some slot →
    ∃ r ∈ log, r.header.id = id ∧ r.slot true = slot

/-- Every record has a slot. -/
def Complete (log : List Record) (slots : Nat → SlotState) : Prop :=
  ∀ r ∈ log, slots r.header.id ≠ .empty

/-- A bucket whose earlier extents all count as full. -/
def filled (state : BucketState) : BucketState := { state with data := fillEarlier state.data }

/-- The greatest end of the slots in use, as the scan of a region finds it. -/
theorem notedRegion_used {slots : Nat → SlotState} {start used : Nat} (acc : KnownSlots) (count : Nat)
    (h : ∀ i, i < count → (slots (start + i) ≠ .empty ↔ i < used)) :
    ((List.range count).foldl (noteSlot slots start) (acc, 0)).2 = min count used := by
  induction count with
  | zero => simp
  | succ count ih =>
      have hRest := ih fun i hi => h i (Nat.lt_succ_of_lt hi)
      have hOwn := h count (Nat.lt_succ_self count)
      rw [List.range_succ, List.foldl_append, List.foldl_cons, List.foldl_nil, noteSlot]
      cases hSlot : slots (start + count) with
      | empty =>
          have hNot : ¬ count < used := fun hLt => hOwn.mpr hLt hSlot
          simp only [hRest]
          omega
      | live slot =>
          have hLt := hOwn.mp (by simp [hSlot])
          simp only
          omega
      | deleted slot =>
          have hLt := hOwn.mp (by simp [hSlot])
          simp only
          omega

/-- A walk of intact records collects all of them, up to the end of the last one. -/
theorem visitAll_extent (integrity : Bool) (start : Nat) {lo hi : Nat} {recs : List Record}
    (hIntact : ∀ r ∈ recs, r.intact integrity = true) (hChain : Chain true lo hi recs)
    (found : List FoundRecord) :
    (visitAll (extentVisitor (headerLen true) start) integrity recs ⟨found, lo - start⟩).1 =
      ⟨found ++ recs.map (Record.found true), hi - start⟩ := by
  induction hChain generalizing found with
  | nil lo => simp [visitAll]
  | cons r tail ih =>
      have hEnd : r.off + r.header.len + headerLen true = r.stop true := by
        rw [Record.stop, Record.totalLen]
        omega
      rw [visitAll, hIntact r (List.mem_cons_self ..)]
      simp only [extentVisitor, if_true, hEnd]
      rw [ih (fun x hx => hIntact x (List.mem_cons_of_mem _ hx)), List.append_assoc]
      rfl

/-- What restoring a list of numbers makes of one slot. -/
theorem restoredSlots_apply {d : DataFile} {image : Nat → UInt8} {known : KnownSlots}
    {best : NewestTable} {ids : List Nat} (hOnce : ids.Nodup) (now : Nat → SlotState) (id : Nat) :
    restoredSlots d image known best ids now id =
      match best.lookup id with
      | none => now id
      | some f =>
          if id ∈ ids ∧ d.wins image f ((known.lookup id).getD .empty) = true then
            Slot.state f.slot.encode
          else now id := by
  induction ids generalizing now with
  | nil => cases best.lookup id <;> simp [restoredSlots]
  | cons k rest ih =>
      obtain ⟨hNot, hRest⟩ := List.nodup_cons.mp hOnce
      rw [restoredSlots]
      by_cases hId : id = k
      · subst hId
        cases hLookup : best.lookup id with
        | none =>
            simp only
            rw [ih hRest, hLookup]
        | some f =>
            simp only [List.mem_cons, true_or, true_and]
            split
            · rw [ih hRest, hLookup]
              simp [hNot]
            · rw [ih hRest, hLookup]
              simp [hNot]
      · have hMem : id ∈ k :: rest ↔ id ∈ rest := by simp [hId]
        cases best.lookup k with
        | none =>
            simp only [hMem]
            exact ih hRest now
        | some f =>
            simp only [hMem]
            split
            · rw [ih hRest, Function.update_of_ne hId]
            · exact ih hRest now

variable {config : HeapConfig} {p : BucketPlacement} {log : List Record} {image : Nat → UInt8}
  {slots : Nat → SlotState} {i : Nat} {state : BucketState} {last : Extent} {r : Record}

/-- The regions of an allocator lie within the kernel's file offsets. -/
def Spaced (p : BucketPlacement) : Prop := pageUp (Slot.fileOffset p.nextRegion) < 2 ^ 63

theorem addressable_of_covers {e : Extent} {id : Nat}
    (h : pageUp (Slot.fileOffset e.start + e.size * SLOT_SIZE) < 2 ^ 63) (hCovers : e.Covers id) :
    Addressable id := by
  have hLt := hCovers.2
  have hMul : (id + 1) * SLOT_SIZE ≤ (e.start + e.size) * SLOT_SIZE := Nat.mul_le_mul_right _ hLt
  rw [Addressable]
  refine (pageUp_mono ?_).trans_lt h
  simp only [Slot.fileOffset, Nat.add_mul] at hMul ⊢
  omega

namespace Reopening

theorem mem_last (hState : p.states[i]? = some state) (hLast : state.data.getLast? = some last) :
    last ∈ extents p.states :=
  mem_extents.mpr ⟨i, state, hState, List.mem_of_getLast? hLast⟩

/-- A last extent lies in the data file. -/
theorem stop_range (h : Reopening config p log image slots) (hState : p.states[i]? = some state)
    (hLast : state.data.getLast? = some last) : pageUp last.stop < 2 ^ 63 :=
  (pageUp_mono (h.geometry.plots i state hState last (List.mem_of_getLast? hLast)).stop).trans_lt h.range

/-- Behind the records of a last extent there is blank space, or its end. -/
theorem blank_last (h : Reopening config p log image slots) (hState : p.states[i]? = some state)
    (hLast : state.data.getLast? = some last) :
    image (last.start + last.used) = 0 ∨ last.stop < last.start + last.used + headerLen true := by
  have hMem := List.mem_of_getLast? hLast
  have hPlot := h.geometry.plots i state hState last hMem
  have hUsed := hPlot.used
  rcases Nat.lt_or_ge last.used last.size with hRoom | hFull
  swap
  · have := headerLen_ge true
    rw [Extent.stop]
    omega
  refine Or.inl (h.laid.blank _ (hPlot.base.trans (Nat.le_add_right _ _)) fun r hr => ?_)
  by_contra hInside
  obtain ⟨e, he, hCovers⟩ := h.geometry.home r hr
  obtain ⟨bucket, hOther⟩ := h.geometry.plot_of_mem he
  have hBounds := hOther.off_lt (mem_within.mpr ⟨hr, hCovers⟩)
  have hOtherUsed := hOther.used
  have hSame : e = last := h.geometry.eq_of_covers he (mem_last hState hLast)
    (show e.Covers (last.start + last.used) from
      ⟨by have := hCovers.1; omega, by rw [Extent.stop]; omega⟩)
    ⟨Nat.le_add_right _ _, by rw [Extent.stop]; omega⟩
  subst hSame
  omega

/-- The walk of a last extent finds its records. -/
theorem extentScan_eq (h : Reopening config p log image slots) (hState : p.states[i]? = some state)
    (hLast : state.data.getLast? = some last) :
    extentScan config image last = ⟨(within last log).map (Record.found true), last.used⟩ ∧
      (extentRange config last).scanOverflows image (extentVisitor (headerLen true) last.start)
        (last.stop - last.start + 1) ⟨last.start, ⟨0, 0, 0, last.start⟩, ⟨[], 0⟩⟩ = false := by
  have hPlot := h.geometry.plots i state hState last (List.mem_of_getLast? hLast)
  have hChain := h.geometry.lasts i state hState last hLast
  have hRange := h.stop_range hState hLast
  have hUp := le_pageUp last.stop
  have hUsed := hPlot.used
  have hScan := scan_chain (w := extentRange config last) h.laid hChain
    (fun r hr => (mem_within.mp hr).1) rfl
    (show last.start + last.used ≤ last.stop by rw [Extent.stop]; omega)
    (show last.stop < 2 ^ 64 by omega) (h.blank_last hState hLast)
    (extentVisitor (headerLen true) last.start) ⟨0, 0, 0, last.start⟩ ⟨[], 0⟩
    (show last.stop < last.stop - last.start + 1 + last.start by omega)
  refine ⟨hScan.1.trans ?_, hScan.2⟩
  have hVisit := visitAll_extent config.integrity last.start
    (fun r hr => h.intact r (mem_within.mp hr).1) hChain []
  rwa [Nat.sub_self, Nat.add_sub_cancel_left, List.nil_append] at hVisit

/-- Slots name nothing behind the records of a last extent. -/
theorem slotsUsed_eq (h : Reopening config p log image slots) (hState : p.states[i]? = some state)
    (hLast : state.data.getLast? = some last) {states : List SlotState}
    (hSlots : ∀ known ∈ states, ∃ id, slots id = known) :
    slotsUsed last states last.used = last.used := by
  induction states with
  | nil => rfl
  | cons known rest ih =>
      have hRest := ih fun other hMem => hSlots other (List.mem_cons_of_mem _ hMem)
      rw [slotsUsed, List.foldl_cons]
      rw [slotsUsed] at hRest
      obtain ⟨id, rfl⟩ := hSlots known (List.mem_cons_self ..)
      cases hPlace : (slots id).place with
      | none => exact hRest
      | some slot =>
          simp only
          split
          swap
          · exact hRest
          rename_i hIn
          obtain ⟨r, hr, -, rfl⟩ := h.named id slot hPlace
          have hPlot := h.geometry.plots i state hState last (List.mem_of_getLast? hLast)
          have hLt := r.off_lt_stop true
          have hStop : (r.slot true).offset + (r.slot true).totalLen = r.stop true := rfl
          have hStart : (r.slot true).offset = r.off := rfl
          rw [hStop, hStart] at hIn
          have hWithin := (hPlot.off_lt (mem_within.mpr ⟨hr, hIn.1, by omega⟩)).2
          rw [hStop, Nat.max_eq_left (by omega)]
          exact hRest

/-- A number of a region is issued when its slot is in use. -/
theorem issued_of_slot (h : Reopening config p log image slots) {e : Extent}
    (he : e ∈ regions p.books) {id : Nat} (hCovers : e.Covers id) (hSlot : slots id ≠ .empty) :
    e.Issued id := by
  obtain ⟨slot, hPlace⟩ : ∃ slot, (slots id).place = some slot := by
    cases hState : slots id with
    | empty => exact absurd hState hSlot
    | live slot => exact ⟨slot, rfl⟩
    | deleted slot => exact ⟨slot, rfl⟩
  obtain ⟨r, hr, hId, -⟩ := h.named id slot hPlace
  obtain ⟨b, hb, hBucket⟩ := h.numbering.homes r hr
  obtain ⟨other, hOther, hIssued⟩ := (h.numbering.issued b hb id).mpr ⟨r, hr, hId, hBucket.symm⟩
  have hMem : other ∈ regions p.books := List.mem_flatMap.mpr ⟨b, hb, hOther⟩
  have hUsed := h.numbering.used other hMem
  have hSame : other = e := h.numbering.eq_of_issued hMem he
    ⟨hIssued.1, by rw [Extent.stop]; have := hIssued.2; omega⟩ hCovers
  exact hSame ▸ hIssued

theorem book_mem (hState : p.states[i]? = some state) : book state ∈ p.books :=
  List.mem_map.mpr ⟨state, List.mem_of_getElem? hState, rfl⟩

theorem region_mem (hState : p.states[i]? = some state) {e : Extent} (he : e ∈ state.slots) :
    e ∈ regions p.books := List.mem_flatMap.mpr ⟨book state, book_mem hState, he⟩

/-- With a slot for every record the scan of a region finds what is used of it. -/
theorem notedRegion_eq (h : Reopening config p log image slots) (hComplete : Complete log slots)
    (hState : p.states[i]? = some state) {e : Extent} (he : e ∈ state.slots) (known : KnownSlots) :
    (notedRegion slots e known).2 = e.used := by
  have hRegion := region_mem hState he
  have hUsed := h.numbering.used e hRegion
  rw [notedRegion, notedRegion_used known e.size, Nat.min_eq_right hUsed]
  intro k hk
  constructor
  · intro hSlot
    have hIssued := h.issued_of_slot hRegion ⟨Nat.le_add_right _ _, by rw [Extent.stop]; omega⟩ hSlot
    have := hIssued.2
    omega
  · intro hLt
    obtain ⟨r, hr, hId, -⟩ := (h.numbering.issued _ (book_mem hState) (e.start + k)).mp
      ⟨e, he, Nat.le_add_right _ _, by omega⟩
    exact hId ▸ hComplete r hr

/-- With a slot for every record the scan finds the regions as they were. -/
theorem scannedRegions_eq (h : Reopening config p log image slots) (hComplete : Complete log slots)
    (hState : p.states[i]? = some state) (known : KnownSlots) :
    (scannedRegions slots (state.slots.map fun e => { e with used := 0 }) known).1 = state.slots := by
  have hScan : ∀ (l : List Extent) (known : KnownSlots), (∀ e ∈ l, e ∈ state.slots) →
      (∀ e ∈ l.dropLast, e.used = e.size) →
      (scannedRegions slots (l.map fun e => { e with used := 0 }) known).1 = l := by
    intro l
    induction l with
    | nil => exact fun _ _ _ => rfl
    | cons e rest ih =>
        intro known hMem hFull
        have hOwn : (notedRegion slots { e with used := 0 } known).2 = e.used :=
          h.notedRegion_eq hComplete hState (hMem e (List.mem_cons_self ..)) known
        rw [List.map_cons, scannedRegions]
        simp only [hOwn]
        cases rest with
        | nil => rfl
        | cons next others =>
            have hSize : e.used = e.size := hFull e (by simp)
            rw [ih _ (fun x hx => hMem x (List.mem_cons_of_mem _ hx))
              fun x hx => hFull x (by rw [List.dropLast_cons_cons]; exact List.mem_cons_of_mem _ hx)]
            simp only [List.map_cons, List.isEmpty_cons, Bool.false_eq_true, if_false]
            rw [Extent.eq_of_full hSize]
  exact hScan state.slots known (fun _ he => he) (h.numbering.full _ (book_mem hState))

/-- No number that the slots or the records of a bucket name lies behind those it has used. -/
theorem coverMaxId_eq (h : Reopening config p log image slots) (hState : p.states[i]? = some state)
    (hLast : state.data.getLast? = some last) (known : KnownSlots)
    (hKnown : ∀ id ∈ known.keys, ∃ e ∈ state.slots, e.Issued id) :
    modifyLast (coverMaxId (maxId known ((within last log).map (Record.found true)))) state.slots =
      state.slots := by
  rcases List.eq_nil_or_concat state.slots with hNil | ⟨init, region, hConcat⟩
  · rw [hNil]
    rfl
  rw [List.concat_eq_append] at hConcat
  rw [hConcat, modifyLast_concat]
  congr 2
  have hIssued : ∀ id ∈ known.keys ++ ((within last log).map (Record.found true)).map FoundRecord.id,
      ∃ e ∈ state.slots, e.Issued id := by
    intro id hId
    rcases List.mem_append.mp hId with hKey | hFound
    · exact hKnown id hKey
    · rw [List.map_map] at hFound
      obtain ⟨r, hr, rfl⟩ := List.mem_map.mp hFound
      have hPlot := h.geometry.plots i state hState last (List.mem_of_getLast? hLast)
      exact (h.numbering.issued _ (book_mem hState) r.header.id).mpr
        ⟨r, (mem_within.mp hr).1, rfl, hPlot.owner r hr⟩
  unfold coverMaxId
  split
  swap
  · rfl
  rename_i maxSeenId hMax
  split
  swap
  · rfl
  rename_i hStart
  obtain ⟨e, he, hCovered⟩ := hIssued maxSeenId (List.max?_mem hMax)
  have hAscending := h.numbering.ascending _ (book_mem hState)
  have hSame : e = region := by
    rw [hConcat] at he
    rcases List.mem_append.mp he with hInit | hLast
    · have hUsed := h.numbering.used e (region_mem hState (hConcat ▸ List.mem_append_left _ hInit))
      rw [show (book state).regions = init ++ [region] from hConcat] at hAscending
      have hBefore := (List.pairwise_append.mp hAscending).2.2 e hInit region (List.mem_singleton_self _)
      have := hCovered.2
      rw [Extent.stop] at hBefore
      omega
    · exact List.mem_singleton.mp hLast
  subst hSame
  have hLt := hCovered.2
  rw [Nat.max_eq_left (by omega)]

/-- A bucket gets back what it had, its earlier extents counting as full. -/
theorem recoveredBucket_eq (h : Reopening config p log image slots) (hComplete : Complete log slots)
    (order : HashOrder) (hState : p.states[i]? = some state) :
    (recoveredBucket order config image slots state.unused).state = filled state := by
  have hRegions := h.scannedRegions_eq hComplete hState ∅
  rcases List.eq_nil_or_concat state.data with hNil | ⟨init, last, hConcat⟩
  · simp only [recoveredBucket, BucketState.unused, hNil, List.map_nil, List.getLast?_nil, hRegions,
      filled, fillEarlier]
    rfl
  rw [List.concat_eq_append] at hConcat
  have hLast : state.data.getLast? = some last := by rw [hConcat, List.getLast?_concat]
  have hUnused : state.unused.data.getLast? = some { last with used := 0 } := by
    rw [BucketState.unused, hConcat, List.map_append, List.map_singleton, List.getLast?_concat]
  have hScan : extentScan config image { last with used := 0 } =
      ⟨(within last log).map (Record.found true), last.used⟩ := (h.extentScan_eq hState hLast).1
  have hEntries : ∀ entry ∈ (scannedRegions slots state.unused.slots ∅).2.entries,
      (∃ region ∈ state.slots, region.Covers entry.1) ∧ slots entry.1 = entry.2 ∧ entry.2 ≠ .empty := by
    intro entry hEntry
    obtain ⟨⟨region, hRegion, hCovers⟩, hRest⟩ := mem_scanned hEntry
    obtain ⟨e, he, rfl⟩ := List.mem_map.mp hRegion
    exact ⟨⟨e, he, hCovers⟩, hRest⟩
  have hUsed : slotsUsed { last with used := 0 }
      ((scannedRegions slots state.unused.slots ∅).2.entries.map Sigma.snd) last.used = last.used := by
    refine h.slotsUsed_eq hState hLast fun known hKnown => ?_
    obtain ⟨entry, hEntry, rfl⟩ := List.mem_map.mp hKnown
    exact ⟨entry.1, (hEntries entry hEntry).2.1⟩
  have hCover := h.coverMaxId_eq hState hLast (scannedRegions slots state.unused.slots ∅).2
    fun id hId => by
      rw [← AList.mem_keys, ← AList.lookup_isSome, Option.isSome_iff_exists] at hId
      obtain ⟨known, hLookup⟩ := hId
      obtain ⟨⟨e, he, hCovers⟩, hSlot, hSome⟩ := hEntries _ (AList.mem_lookup_iff.mp hLookup)
      exact ⟨e, he, h.issued_of_slot (region_mem hState he) hCovers (hSlot ▸ hSome)⟩
  simp only [recoveredBucket, hUnused, hScan, hUsed]
  rw [show (scannedRegions slots state.unused.slots ∅).1 = state.slots from hRegions, hCover]
  simp [BucketState.unused, filled, fillEarlier, hConcat]

theorem state_slot (h : Reopening config p log image slots) (hr : r ∈ log) :
    Slot.state (r.slot true).encode = .live (r.slot true) := by
  obtain ⟨hBase, hStop⟩ := h.geometry.bounds hr
  have hRange := h.range
  have hUp := le_pageUp p.fileSize
  rw [Record.stop] at hStop
  refine Slot.state_live ?_ ?_ ?_
  · exact PAGE_pos.trans_le hBase
  · change r.off < 2 ^ 63
    omega
  · change r.totalLen true < 2 ^ 64
    omega

/-- A record's slot leads to its header. -/
theorem headerAtSlot (h : Reopening config p log image slots) (hr : r ∈ log) :
    DataFile.headerAtSlot ⟨true, config.integrity⟩ image r.off r.header.id = some r.header := by
  have hHeader : r.off + headerLen true ≤ p.fileSize :=
    (Nat.add_le_add_left (Nat.le_add_right _ _) _).trans (h.geometry.bounds hr).2
  rw [DataFile.headerAtSlot, DataFile.recordHeaderLen,
    if_pos (Nat.lt_of_le_of_lt (pageUp_mono hHeader) h.range), h.laid.decode hr]
  simp [Option.filter]

/-- A restored record keeps the slots naming records. -/
theorem restore (h : Reopening config p log image slots) (hr : r ∈ log) :
    Reopening config p log image
      (Function.update slots r.header.id (Slot.state (r.found true).slot.encode)) where
  laid := h.laid
  intact := h.intact
  geometry := h.geometry
  numbering := h.numbering
  range := h.range
  named id slot hPlace := by
    rw [Record.found_slot, h.state_slot hr] at hPlace
    by_cases hId : id = r.header.id
    · subst hId
      rw [Function.update_self] at hPlace
      cases hPlace
      exact ⟨r, hr, rfl, rfl⟩
    · rw [Function.update_of_ne hId] at hPlace
      exact h.named id slot hPlace

theorem restore_complete (h : Reopening config p log image slots) (hr : r ∈ log)
    (hComplete : Complete log slots) :
    Complete log (Function.update slots r.header.id (Slot.state (r.found true).slot.encode)) := by
  intro x hx
  by_cases hId : x.header.id = r.header.id
  · rw [hId, Function.update_self, Record.found_slot, h.state_slot hr]
    nofun
  · rw [Function.update_of_ne hId]
    exact hComplete x hx

theorem unused_getLast? (hLast : state.data.getLast? = some last) :
    state.unused.data.getLast? = some { last with used := 0 } := by
  rw [BucketState.unused, List.getLast?_map, hLast]
  rfl

/-- The records of a bucket have numbers of its regions. -/
theorem covered_of_within (h : Reopening config p log image slots) (hState : p.states[i]? = some state)
    (hLast : state.data.getLast? = some last) (hr : r ∈ within last log) :
    ∃ region ∈ state.unused.slots, region.Covers r.header.id := by
  have hPlot := h.geometry.plots i state hState last (List.mem_of_getLast? hLast)
  obtain ⟨e, he, hStart, hLt⟩ := (h.numbering.issued _ (book_mem hState) r.header.id).mpr
    ⟨r, (mem_within.mp hr).1, rfl, hPlot.owner r hr⟩
  have hUsed := h.numbering.used e (region_mem hState he)
  refine ⟨{ e with used := 0 }, List.mem_map.mpr ⟨e, he, rfl⟩, hStart, ?_⟩
  change r.header.id < e.start + e.size
  omega

/-- What the recovery of a bucket makes of one slot, where versions ascend. -/
theorem recoveredBucket_slots (h : Reopening config p log image slots) (hAscending : Ascending log)
    (order : HashOrder) (hState : p.states[i]? = some state)
    (hLast : state.data.getLast? = some last) (id : Nat) :
    (recoveredBucket order config image slots state.unused).slots id =
      match newest (within last log) id with
      | none => slots id
      | some r =>
          if DataFile.wins ⟨true, config.integrity⟩ image (r.found true) (slots id) then
            .live (r.slot true)
          else slots id := by
  have hScan : extentScan config image { last with used := 0 } =
      ⟨(within last log).map (Record.found true), last.used⟩ := (h.extentScan_eq hState hLast).1
  have hWithin : Ascending (within last log) := hAscending.filter _
  simp only [recoveredBucket, unused_getLast? hLast, hScan]
  rw [restoredSlots_apply ((order.perm _).nodup_iff.mpr (AList.keys_nodup _)),
    lookup_foldl_keepNewest hWithin]
  cases hNewest : newest (within last log) id with
  | none => rfl
  | some r =>
      obtain ⟨hr, rfl⟩ := newest_eq_some hNewest
      have hKey : r.header.id ∈ order.order
          (((within last log).map (Record.found true)).foldl keepNewest ∅).keys := by
        rw [(order.perm _).mem_iff, ← AList.mem_keys, ← AList.lookup_isSome,
          lookup_foldl_keepNewest hWithin, hNewest]
        rfl
      have hKnown : ((scannedRegions slots state.unused.slots ∅).2.lookup r.header.id).getD .empty =
          slots r.header.id := by
        rw [lookup_scanned]
        by_cases hEmpty : slots r.header.id = .empty
        · rw [if_neg fun hBoth => hBoth.2 hEmpty, hEmpty, AList.lookup_empty]
          rfl
        · rw [if_pos ⟨h.covered_of_within hState hLast hr, hEmpty⟩]
          rfl
      simp only [Option.map_some, hKey, true_and, hKnown, Record.found_slot,
        h.state_slot (mem_within.mp hr).1]

/-- What a walk of a replayed extent finds are records of the allocator. -/
theorem found_of_mem (h : Reopening config p log image slots) (hState : state ∈ p.states)
    {replayedLast : Extent} (hLast : replayedLast ∈ state.unused.data.getLast?) {f : FoundRecord}
    (hf : f ∈ (extentScan config image replayedLast).found) :
    ∃ last ∈ state.data.getLast?, ∃ r ∈ within last log, f = r.found true := by
  obtain ⟨i, hi⟩ := List.mem_iff_getElem?.mp hState
  rw [BucketState.unused, List.getLast?_map] at hLast
  obtain ⟨last, hReal, rfl⟩ := Option.map_eq_some_iff.mp hLast
  have hScan : extentScan config image { last with used := 0 } =
      ⟨(within last log).map (Record.found true), last.used⟩ := (h.extentScan_eq hi hReal).1
  rw [hScan] at hf
  obtain ⟨r, hr, rfl⟩ := List.mem_map.mp hf
  exact ⟨last, hReal, r, hr, rfl⟩

/-- Where the slots name the newest records, recovery changes none of them. -/
theorem recoveredBucket_same (h : Reopening config p log image slots) (hComplete : Complete log slots)
    (hAscending : Ascending log) (hNewest : ∀ id slot, slots id = .live slot →
      ∃ r, newest log id = some r ∧ r.slot true = slot) (order : HashOrder)
    (hState : p.states[i]? = some state) :
    (recoveredBucket order config image slots state.unused).slots = slots := by
  rcases List.eq_nil_or_concat state.data with hNil | ⟨init, last, hConcat⟩
  · simp [recoveredBucket, BucketState.unused, hNil]
  have hLast : state.data.getLast? = some last := by
    rw [hConcat, List.concat_eq_append, List.getLast?_concat]
  funext id
  rw [h.recoveredBucket_slots hAscending order hState hLast]
  cases hWithin : newest (within last log) id with
  | none => rfl
  | some r =>
      obtain ⟨hr, rfl⟩ := newest_eq_some hWithin
      have hLog := (mem_within.mp hr).1
      simp only
      cases hSlot : slots r.header.id with
      | empty => exact absurd hSlot (hComplete r hLog)
      | deleted slot => rfl
      | live slot =>
          obtain ⟨top, hTop, rfl⟩ := hNewest _ _ hSlot
          obtain ⟨hMem, hId⟩ := newest_eq_some hTop
          have hKept : DataFile.wins ⟨true, config.integrity⟩ image (r.found true)
              (.live (top.slot true)) = false := by
            rcases hAscending.le_newest hTop hLog rfl with rfl | hVersion
            · rw [DataFile.wins, if_pos (show (r.slot true).offset = (r.found true).offset from rfl)]
            · rw [DataFile.wins]
              split
              · rfl
              rw [show (top.slot true).offset = top.off from rfl, Record.found_id, ← hId,
                h.headerAtSlot hMem]
              exact decide_eq_false (Nat.not_lt.mpr hVersion.le)
          rw [hKept, if_neg Bool.false_ne_true]

theorem unused_region {e : Extent} (he : e ∈ state.unused.slots) (hState : state ∈ p.states) :
    ∃ region ∈ regions p.books, e = { region with used := 0 } := by
  obtain ⟨region, hRegion, rfl⟩ := List.mem_map.mp he
  exact ⟨region, List.mem_flatMap.mpr ⟨book state, List.mem_map_of_mem hState, hRegion⟩, rfl⟩

theorem region_range (h : Reopening config p log image slots) (hSpaced : Spaced p) {e : Extent}
    (he : e ∈ regions p.books) :
    pageUp (Slot.fileOffset e.start + e.size * SLOT_SIZE) < 2 ^ 63 := by
  have hBelow : e.start + e.size ≤ p.nextRegion := h.numbering.below e he
  have hMul : (e.start + e.size) * SLOT_SIZE ≤ p.nextRegion * SLOT_SIZE := Nat.mul_le_mul_right _ hBelow
  refine (pageUp_mono ?_).trans_lt hSpaced
  simp only [Slot.fileOffset, Nat.add_mul] at hMul ⊢
  omega

/-- Files that hold the records of an allocator lead into no overflow. -/
theorem sane (h : Reopening config p log image slots) (hSpaced : Spaced p) (hState : state ∈ p.states) :
    BucketSane config image state.unused where
  regions region hRegion := by
    obtain ⟨e, he, rfl⟩ := unused_region hRegion hState
    change pageUp (Slot.fileOffset e.start + e.size * SLOT_SIZE) < 2 ^ 63
    exact h.region_range hSpaced he
  walk replayedLast hLast := by
    obtain ⟨i, hi⟩ := List.mem_iff_getElem?.mp hState
    rw [BucketState.unused, List.getLast?_map] at hLast
    obtain ⟨last, hReal, rfl⟩ := Option.map_eq_some_iff.mp hLast
    exact (h.extentScan_eq hi hReal).2
  found replayedLast hLast f hf := by
    obtain ⟨last, hReal, r, hr, rfl⟩ := h.found_of_mem hState hLast hf
    obtain ⟨i, hi⟩ := List.mem_iff_getElem?.mp hState
    obtain ⟨region, hRegion, hCovers⟩ := h.covered_of_within hi hReal hr
    obtain ⟨e, he, rfl⟩ := unused_region hRegion hState
    exact addressable_of_covers (h.region_range hSpaced he) hCovers

theorem slotsFit (h : Reopening config p log image slots) (state : BucketState) : SlotsFit slots state := by
  intro last _ region _ id _ slot hPlace _
  obtain ⟨r, hr, -, rfl⟩ := h.named id slot hPlace
  have hStop := (h.geometry.bounds hr).2
  have hUp := le_pageUp p.fileSize
  have hRange := h.range
  change r.stop true < 2 ^ 64
  omega

/-- The recovery of a bucket of the replayed allocator keeps its files fit for the others. -/
theorem keeps (h : Reopening config p log image slots) (hState : state ∈ p.states)
    {replayedLast : Extent} (hLast : replayedLast ∈ state.unused.data.getLast?) {f : FoundRecord}
    (hf : f ∈ (extentScan config image replayedLast).found)
    (hComplete : Complete log slots) :
    Reopening config p log image (Function.update slots f.id (Slot.state f.slot.encode)) ∧
      Complete log (Function.update slots f.id (Slot.state f.slot.encode)) := by
  obtain ⟨last, -, r, hr, rfl⟩ := h.found_of_mem hState hLast hf
  exact ⟨h.restore (mem_within.mp hr).1, h.restore_complete (mem_within.mp hr).1 hComplete⟩

/-- Where the slots name the newest records, recovery of all buckets changes none of them. -/
theorem recoveredBuckets_same (h : Reopening config p log image slots) (hComplete : Complete log slots)
    (hAscending : Ascending log) (hNewest : ∀ id slot, slots id = .live slot →
      ∃ r, newest log id = some r ∧ r.slot true = slot) (order : HashOrder)
    {states : List BucketState} (hStates : ∀ state ∈ states, state ∈ p.states) :
    (recoveredBuckets order config image (states.map BucketState.unused) slots).2 = slots := by
  induction states with
  | nil => rfl
  | cons state rest ih =>
      obtain ⟨i, hi⟩ := List.mem_iff_getElem?.mp (hStates state (List.mem_cons_self ..))
      rw [List.map_cons, recoveredBuckets]
      simp only [h.recoveredBucket_same hComplete hAscending hNewest order hi]
      exact ih fun other hMem => hStates other (List.mem_cons_of_mem _ hMem)

end Reopening

/-- The allocator that opening makes of the files of another: earlier extents
count as full, every row as one grant, and the file ends where it physically does. -/
def resumed (p : BucketPlacement) (rows : List RegistryRow) (dataSize : Nat) : BucketPlacement :=
  { p with
    states := p.states.map filled
    extentGrantCount := rows.length
    fileSize := dataSize }

theorem registryEnd_applyRow (p : BucketPlacement) (row : RegistryRow) :
    (p.applyRow row).registryEnd = p.registryEnd + REGISTRY_ROW_SIZE := by
  have hBucket : (p.rowBucket row.bucket).1.registryEnd = p.registryEnd := by
    unfold rowBucket
    split <;> rfl
  rw [← hBucket]
  unfold applyRow
  generalize p.rowBucket row.bucket = found
  obtain ⟨q, i⟩ := found
  simp only
  split <;> rfl

theorem fileSize_applyRow (p : BucketPlacement) (row : RegistryRow) :
    p.fileSize ≤ (p.applyRow row).fileSize ∧ p.nextRegion ≤ (p.applyRow row).nextRegion ∧
      (row.start + row.size ≤ (p.applyRow row).fileSize ∨
        row.start + row.size ≤ (p.applyRow row).nextRegion) := by
  have hBucket : (p.rowBucket row.bucket).1.fileSize = p.fileSize ∧
      (p.rowBucket row.bucket).1.nextRegion = p.nextRegion := by
    unfold rowBucket
    split <;> exact ⟨rfl, rfl⟩
  rw [← hBucket.1, ← hBucket.2]
  unfold applyRow
  generalize p.rowBucket row.bucket = found
  obtain ⟨q, i⟩ := found
  simp only
  split
  · exact ⟨Nat.le_max_left _ _, Nat.le_refl _, Or.inl (Nat.le_max_right _ _)⟩
  · exact ⟨Nat.le_refl _, Nat.le_max_left _ _, Or.inr (Nat.le_max_right _ _)⟩

/-- Every row ends below the end of the file or the end of the regions. -/
theorem row_end_le (rows : List RegistryRow) (p : BucketPlacement) :
    p.fileSize ≤ (rows.foldl applyRow p).fileSize ∧
      p.nextRegion ≤ (rows.foldl applyRow p).nextRegion ∧
      ∀ row ∈ rows, row.start + row.size ≤ (rows.foldl applyRow p).fileSize ∨
        row.start + row.size ≤ (rows.foldl applyRow p).nextRegion := by
  induction rows generalizing p with
  | nil => exact ⟨Nat.le_refl _, Nat.le_refl _, nofun⟩
  | cons row rest ih =>
      obtain ⟨hFile, hRegion, hRow⟩ := fileSize_applyRow p row
      obtain ⟨hFile', hRegion', hRows⟩ := ih (p.applyRow row)
      refine ⟨hFile.trans hFile', hRegion.trans hRegion', fun other hMem => ?_⟩
      rcases List.mem_cons.mp hMem with rfl | hMem
      · exact hRow.imp (fun hLe => hLe.trans hFile') fun hLe => hLe.trans hRegion'
      · exact hRows other hMem

/-- The rows of an allocator within the kernel's file offsets have no overflowing sums. -/
theorem Recorded.sums {rows : List RegistryRow} (h : Recorded config p rows)
    (hFile : pageUp p.fileSize < 2 ^ 63) (hSpaced : Spaced p) :
    ∀ row ∈ rows, row.start + row.size < 2 ^ 64 := by
  intro row hMem
  have hUp := le_pageUp p.fileSize
  have hUp' := le_pageUp (Slot.fileOffset p.nextRegion)
  have hSize := h.fileSize
  have hNext := h.nextRegion
  rw [Spaced] at hSpaced
  rw [Slot.fileOffset, SLOT_SIZE] at hUp' hSpaced
  rcases (row_end_le rows (BucketPlacement.fresh config)).2.2 row hMem with hLe | hLe
  · change row.start + row.size ≤ (replayed config rows).fileSize at hLe
    omega
  · change row.start + row.size ≤ (replayed config rows).nextRegion at hLe
    omega

theorem registryEnd_foldl (rows : List RegistryRow) (p : BucketPlacement) :
    (rows.foldl applyRow p).registryEnd = p.registryEnd + REGISTRY_ROW_SIZE * rows.length := by
  induction rows generalizing p with
  | nil => rfl
  | cons row rest ih =>
      rw [List.foldl_cons, ih, registryEnd_applyRow, List.length_cons, Nat.mul_succ]
      omega

theorem Recorded.reopened_eq {rows : List RegistryRow} (h : Recorded config p rows) {dataSize : Nat}
    (hData : p.fileSize ≤ dataSize) :
    { reopened config rows dataSize with states := p.states.map filled } = p.resumed rows dataSize := by
  have hEnd : (replayed config rows).registryEnd = p.registryEnd := by
    rw [replayed, registryEnd_foldl, h.registryEnd]
    rfl
  have hFile : max (replayed config rows).fileSize dataSize = dataSize :=
    Nat.max_eq_right (h.fileSize.trans hData)
  simp only [reopened, resumed, hFile, h.count, h.nextRegion, hEnd]

theorem eq_map_of_forall₂ {α β : Type} {R : α → β → Prop} {f : α → β} {l : List α} {l' : List β}
    (h : List.Forall₂ R l l') (hR : ∀ a ∈ l, ∀ b, R a b → b = f a) : l' = l.map f := by
  induction h with
  | nil => rfl
  | cons hHead _ ih =>
      rw [List.map_cons, hR _ (List.mem_cons_self ..) _ hHead,
        ih fun a ha => hR a (List.mem_cons_of_mem _ ha)]

theorem not_bare_unused (hState : p.states[i]? = some state) (hStocked : Stocked p) :
    ¬ Bare state.unused := fun hBare => by
  have hNil : state.slots = [] := List.map_eq_nil_iff.mp hBare.2
  exact hStocked.slots i state hState hNil

/-- Opening the files of an allocator gives every bucket its extents, its used
bytes and its numbers back, and keeps a slot for every record. -/
theorem reopen_meets {calm : Prop} {order : HashOrder} {rows : List RegistryRow} {s : Store}
    (h : Reopening config p log image slots) (hComplete : Complete log slots)
    (hRecorded : Recorded config p rows) (hStocked : Stocked p)
    (hRegistered : Registered rows s) (hHolding : Holding calm (Spaced p) image slots s)
    (hData : p.fileSize ≤ (s.file .data).size) :
    Meets (Refuses calm (Spaced p)) (fun out t => out.1 = p.resumed rows (s.file .data).size ∧
        ∃ slots', (Reopening config p log image slots' ∧ Complete log slots') ∧
          Holding calm (Spaced p) image slots' t ∧
          IndexWork (IndexWork.noted s (s.file .data).size) t ∧
          (calm → Ascending log → (∀ id slot, slots id = .live slot →
            ∃ r, newest log id = some r ∧ r.slot true = slot) → slots' = slots))
      (BucketPlacement.open order config false) s := by
  have hStates : ∀ state ∈ (replayed config rows).states,
      ∃ original ∈ p.states, state = original.unused := fun state hMem => by
    rw [hRecorded.states] at hMem
    obtain ⟨original, hOriginal, rfl⟩ := List.mem_map.mp hMem
    exact ⟨original, hOriginal, rfl⟩
  have hMeets := open_meets order config
    (I := fun slots => Reopening config p log image slots ∧ Complete log slots)
    hRegistered (hRecorded.sums h.range) ⟨h, hComplete⟩
    (fun state hMem last hLast f hf slots hSlots => by
      obtain ⟨original, hOriginal, rfl⟩ := hStates state hMem
      exact hSlots.1.keeps hOriginal hLast hf hSlots.2)
    hHolding
    (fun state hMem last hLast => by
      obtain ⟨original, hOriginal, rfl⟩ := hStates state hMem
      obtain ⟨i, hi⟩ := List.mem_iff_getElem?.mp hOriginal
      rw [BucketState.unused, List.getLast?_map] at hLast
      obtain ⟨real, hReal, rfl⟩ := Option.map_eq_some_iff.mp hLast
      change pageUp real.stop < 2 ^ 63
      exact h.stop_range hi hReal)
    (fun hSpaced state hMem => by
      obtain ⟨original, hOriginal, rfl⟩ := hStates state hMem
      exact h.sane hSpaced hOriginal)
    fun _ state _ slots hSlots => hSlots.1.slotsFit state
  refine hMeets.mono (fun e hFail => ?_) ?_
  · rcases hFail with hRefuses | ⟨-, state, hMem, hBare⟩
    · exact hRefuses
    · obtain ⟨original, hOriginal, rfl⟩ := hStates state hMem
      obtain ⟨i, hi⟩ := List.mem_iff_getElem?.mp hOriginal
      exact absurd hBare (not_bare_unused hi hStocked)
  rintro ⟨q, restored⟩ t ⟨-, hSelf, hEach, -, slots', hSlots', hHolding', hWork, hSame⟩
  rw [hRecorded.states, List.forall₂_map_left_iff] at hEach
  have hRecovered : q.states = p.states.map filled := by
    apply eq_map_of_forall₂ hEach
    rintro state hMem _ ⟨now, ⟨hNow, hNowComplete⟩, rfl⟩
    obtain ⟨i, hi⟩ := List.mem_iff_getElem?.mp hMem
    exact hNow.recoveredBucket_eq hNowComplete order hi
  simp only at hSelf hRecovered
  rw [hRecovered, hRecorded.reopened_eq hData] at hSelf
  have hFile : (reopened config rows (s.file .data).size).fileSize = (s.file .data).size :=
    Nat.max_eq_right (hRecorded.fileSize.trans hData)
  rw [hFile] at hWork
  refine ⟨hSelf, slots', hSlots', hHolding', hWork, fun hCalm hAscending hNewest => ?_⟩
  rw [hSame hCalm, hRecorded.states]
  exact h.recoveredBuckets_same hComplete hAscending hNewest order fun _ hMem => hMem

end BucketPlacement

end HeapStore
