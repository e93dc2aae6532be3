import HeapStore.Placement.Resumed

/-! Opening a bucket store whose index is older than its other files. The walks of
the last extents find what the index lacks, and every bucket has what it had. -/
namespace HeapStore

open Effect PagedFile IndexFile WalkRange

/-- A record that stays in a part of the log is the newest one there as well. -/
theorem newest_filter {log : List Record} {id : Nat} {r : Record} {keep : Record → Bool}
    (h : newest log id = some r) (hKeep : keep r = true) : newest (log.filter keep) id = some r := by
  induction log using List.reverseRecOn with
  | nil => cases h
  | append_singleton init x ih =>
      rw [newest_concat] at h
      rw [List.filter_append]
      by_cases hId : x.header.id = id
      · rw [if_pos hId] at h
        cases h
        rw [List.filter_cons_of_pos hKeep, List.filter_nil, newest_concat, if_pos hId]
      · rw [if_neg hId] at h
        cases hx : keep x with
        | true => rw [List.filter_cons_of_pos hx, List.filter_nil, newest_concat, if_neg hId, ih h]
        | false =>
            rw [List.filter_cons_of_neg (by simp [hx]), List.filter_nil, List.append_nil, ih h]

namespace BucketPlacement

/-- The slot of a number says that it was deleted, or names its newest record. -/
def Current (log : List Record) (slots : Nat → SlotState) (id : Nat) : Prop :=
  (∃ slot, slots id = .deleted slot) ∨ ∃ r, newest log id = some r ∧ slots id = .live (r.slot true)

/-- The newest record of a number lies in the last extent of this bucket. -/
def Recent (state : BucketState) (log : List Record) (id : Nat) : Prop :=
  ∃ last ∈ state.data.getLast?, ∃ r, newest log id = some r ∧ last.Covers r.off

/-- Where a slot is behind, the walk of a last extent finds the record. -/
def Lagging (p : BucketPlacement) (log : List Record) (slots : Nat → SlotState) : Prop :=
  ∀ r ∈ log, Current log slots r.header.id ∨ ∃ state ∈ p.states, Recent state log r.header.id

variable {config : HeapConfig} {p : BucketPlacement} {log : List Record} {image : Nat → UInt8}
  {slots : Nat → SlotState} {i id : Nat} {state : BucketState} {last : Extent} {r : Record}

namespace Reopening

/-- Recovery does not touch a current slot. -/
theorem recoveredBucket_current (h : Reopening config p log image slots)
    (hAscending : Ascending log) (order : HashOrder)
    (hState : p.states[i]? = some state) (hCurrent : Current log slots id) :
    (recoveredBucket order config image slots state.unused).slots id = slots id := by
  rcases List.eq_nil_or_concat state.data with hNil | ⟨init, last, hConcat⟩
  · simp [recoveredBucket, BucketState.unused, hNil]
  have hLast : state.data.getLast? = some last := by
    rw [hConcat, List.concat_eq_append, List.getLast?_concat]
  rw [h.recoveredBucket_slots hAscending order hState hLast]
  cases hWithin : newest (within last log) id with
  | none => rfl
  | some r =>
      obtain ⟨hr, hId⟩ := newest_eq_some hWithin
      have hLog := (mem_within.mp hr).1
      simp only
      rcases hCurrent with ⟨slot, hSlot⟩ | ⟨top, hTop, hSlot⟩
      · rw [hSlot]
        rfl
      · obtain ⟨hMem, hTopId⟩ := newest_eq_some hTop
        have hKept : DataFile.wins ⟨true, config.integrity⟩ image (r.found true)
            (.live (top.slot true)) = false := by
          rcases hAscending.le_newest hTop hLog hId with rfl | hVersion
          · rw [DataFile.wins, if_pos (show (r.slot true).offset = (r.found true).offset from rfl)]
          · rw [DataFile.wins]
            split
            · rfl
            rw [show (top.slot true).offset = top.off from rfl, Record.found_id, hId, ← hTopId,
              h.headerAtSlot hMem]
            exact decide_eq_false (Nat.not_lt.mpr hVersion.le)
        rw [hSlot, hKept, if_neg Bool.false_ne_true]

/-- Recovery makes the slots of a bucket's last extent current. -/
theorem recoveredBucket_recent (h : Reopening config p log image slots)
    (hAscending : Ascending log) (order : HashOrder)
    (hState : p.states[i]? = some state) (hRecent : Recent state log id) :
    Current log (recoveredBucket order config image slots state.unused).slots id := by
  obtain ⟨last, hLast, r, hNewest, hCovers⟩ := hRecent
  have hWithin : newest (within last log) id = some r :=
    newest_filter hNewest (by simpa using hCovers)
  have hSlots := h.recoveredBucket_slots hAscending order hState hLast id
  rw [hWithin] at hSlots
  obtain ⟨hr, hId⟩ := newest_eq_some hNewest
  unfold Current
  rw [hSlots]
  dsimp only
  by_cases hWins : DataFile.wins ⟨true, config.integrity⟩ image (r.found true) (slots id) = true
  · rw [if_pos hWins]
    exact .inr ⟨r, hNewest, rfl⟩
  rw [if_neg hWins]
  cases hSlot : slots id with
  | empty => exact absurd (by rw [hSlot]; rfl) hWins
  | deleted slot => exact .inl ⟨slot, rfl⟩
  | live slot =>
      obtain ⟨x, hx, hxId, rfl⟩ := h.named id slot (by rw [hSlot]; rfl)
      refine .inr ⟨r, hNewest, ?_⟩
      rcases hAscending.le_newest hNewest hx hxId with rfl | hVersion
      · rfl
      · exfalso
        apply hWins
        rw [hSlot, DataFile.wins]
        split
        · rename_i hSame
          have hEq := h.laid.eq_of_off hx hr hSame
          subst hEq
          exact absurd hVersion (Nat.lt_irrefl _)
        · rw [show (x.slot true).offset = x.off from rfl, Record.found_id, hId, ← hxId, h.headerAtSlot hx]
          exact decide_eq_true hVersion

/-! The regions, which slots and found records together give back. -/

/-- Two buckets have no region in common. -/
theorem book_eq_of_region {books : List Book} {nextRegion : Nat} (h : Numbering config books nextRegion log)
    {x y : Book} {e : Extent} (hx : x ∈ books) (hy : y ∈ books) (heX : e ∈ x.regions) (heY : e ∈ y.regions)
    (hPos : 0 < e.size) : x = y := by
  by_contra hNe
  have hApart : books.Pairwise fun a b => ∀ m ∈ a.regions, ∀ n ∈ b.regions, m.Apart n :=
    (List.pairwise_flatMap.mp h.apart).2
  have : Std.Symm fun a b : Book => ∀ m ∈ a.regions, ∀ n ∈ b.regions, m.Apart n :=
    ⟨fun a b hab m hm n hn => (hab n hn m hm).symm⟩
  have hSelf := hApart.forall hx hy hNe e heX e heY
  rcases hSelf with hLe | hLe
  · rw [Extent.stop] at hLe
    omega
  · rw [Extent.stop] at hLe
    omega

/-- All records of a number are in one bucket. -/
theorem bucket_unique (h : Reopening config p log image slots) {x : Record} (hr : r ∈ log) (hx : x ∈ log)
    (hId : x.header.id = r.header.id) : x.header.bucket = r.header.bucket := by
  obtain ⟨b, hb, hBucket⟩ := h.numbering.homes r hr
  obtain ⟨c, hc, hOther⟩ := h.numbering.homes x hx
  obtain ⟨e, he, hIssued⟩ := (h.numbering.issued b hb r.header.id).mpr ⟨r, hr, rfl, hBucket.symm⟩
  obtain ⟨m, hm, hTaken⟩ := (h.numbering.issued c hc r.header.id).mpr ⟨x, hx, hId, hOther.symm⟩
  have hRegion : e ∈ regions p.books := List.mem_flatMap.mpr ⟨b, hb, he⟩
  have hRegion' : m ∈ regions p.books := List.mem_flatMap.mpr ⟨c, hc, hm⟩
  have hUsed := h.numbering.used e hRegion
  have hUsed' := h.numbering.used m hRegion'
  have hSame : e = m := h.numbering.eq_of_issued hRegion hRegion'
    ⟨hIssued.1, by rw [Extent.stop]; have := hIssued.2; omega⟩
    ⟨hTaken.1, by rw [Extent.stop]; have := hTaken.2; omega⟩
  subst hSame
  have hPos : 0 < e.size := by
    have := hIssued.1
    have := hIssued.2
    omega
  rw [← hBucket, ← hOther, book_eq_of_region h.numbering hb hc he hm hPos]

/-- A bucket is known by its number. -/
theorem state_eq_of_id (h : Reopening config p log image slots) {x y : BucketState} (hx : x ∈ p.states)
    (hy : y ∈ p.states) (hId : x.id = y.id) : x = y := by
  have hDistinct : (p.states.map BucketState.id).Nodup := by
    have hBooks := h.numbering.distinct
    rwa [books, List.map_map] at hBooks
  exact List.inj_on_of_nodup_map hDistinct hx hy hId

/-- The scan of a region stops behind the last slot in use. -/
theorem notedRegion_le (h : Reopening config p log image slots) (hState : p.states[i]? = some state)
    {e : Extent} (he : e ∈ state.slots) (known : KnownSlots) : (notedRegion slots e known).2 ≤ e.used := by
  have hRegion := region_mem hState he
  have hUsed := h.numbering.used e hRegion
  have hScan : ∀ count ≤ e.size,
      ((List.range count).foldl (noteSlot slots e.start) (known, 0)).2 ≤ e.used := by
    intro count hCount
    induction count with
    | zero => exact Nat.zero_le _
    | succ count ih =>
        have hRest := ih (by omega)
        rw [List.range_succ, List.foldl_append, List.foldl_cons, List.foldl_nil, noteSlot]
        have hNext : slots (e.start + count) ≠ .empty → count + 1 ≤ e.used := fun hSlot => by
          have hIssued := h.issued_of_slot hRegion ⟨Nat.le_add_right _ _, by rw [Extent.stop]; omega⟩ hSlot
          have := hIssued.2
          omega
        cases hSlot : slots (e.start + count) with
        | empty => exact hRest
        | live slot => exact hNext (by simp [hSlot])
        | deleted slot => exact hNext (by simp [hSlot])
  exact hScan e.size (Nat.le_refl _)

end Reopening

/-- The scan of a region reaches every slot in use. -/
theorem lt_notedRegion {e : Extent} {k : Nat} (hk : k < e.size) (hSlot : slots (e.start + k) ≠ .empty)
    (known : KnownSlots) : k < (notedRegion slots e known).2 := by
  have hScan : ∀ count, k < count →
      k < ((List.range count).foldl (noteSlot slots e.start) (known, 0)).2 := by
    intro count hCount
    induction count with
    | zero => exact absurd hCount (Nat.not_lt_zero _)
    | succ count ih =>
        rw [List.range_succ, List.foldl_append, List.foldl_cons, List.foldl_nil, noteSlot]
        rcases Nat.lt_succ_iff_lt_or_eq.mp hCount with hLt | rfl
        · have hRest := ih hLt
          cases slots (e.start + count) with
          | empty => exact hRest
          | live slot => exact hLt.trans (Nat.lt_succ_self _)
          | deleted slot => exact hLt.trans (Nat.lt_succ_self _)
        · cases hState : slots (e.start + k) with
          | empty => exact absurd hState hSlot
          | live slot => exact Nat.lt_succ_self _
          | deleted slot => exact Nat.lt_succ_self _
  exact hScan e.size hk

namespace Reopening

/-- The scan gives all regions back but for what is used of the last one. -/
theorem scannedRegions_lagging (h : Reopening config p log image slots) (hState : p.states[i]? = some state)
    {init : List Extent} {region : Extent} (hRegions : state.slots = init ++ [region]) :
    ∃ known, (scannedRegions slots state.unused.slots ∅).1 =
      init ++ [{ region with used := (notedRegion slots region known).2 }] := by
  have hScan : ∀ (l : List Extent) (known : KnownSlots), (∀ e ∈ l, e.used = e.size) →
      ∃ known', (scannedRegions slots ((l ++ [region]).map fun e => { e with used := 0 }) known).1 =
        l ++ [{ region with used := (notedRegion slots region known').2 }] := by
    intro l
    induction l with
    | nil => exact fun known _ => ⟨known, rfl⟩
    | cons e rest ih =>
        intro known hFull
        have hSize : e.used = e.size := hFull e (List.mem_cons_self ..)
        rw [List.cons_append, List.map_cons, scannedRegions]
        obtain ⟨known', hRest⟩ := ih (notedRegion slots { e with used := 0 } known).1
          fun x hx => hFull x (List.mem_cons_of_mem _ hx)
        refine ⟨known', ?_⟩
        have hMore : ((rest ++ [region]).map fun e => { e with used := 0 }).isEmpty = false := by
          cases rest <;> rfl
        simp only [hMore, Bool.false_eq_true, if_false]
        rw [hRest, Extent.eq_of_full hSize, List.cons_append]
  have hFull := h.numbering.full _ (book_mem hState)
  rw [show (book state).regions = init ++ [region] from hRegions, List.dropLast_concat] at hFull
  rw [BucketState.unused, hRegions]
  exact hScan init ∅ hFull

/-- What the scan leaves open of the last region, the records of the last extent tell. -/
theorem coverMaxId_lagging (h : Reopening config p log image slots) (hLagging : Lagging p log slots)
    (hState : p.states[i]? = some state) (hLast : state.data.getLast? = some last) {init : List Extent}
    {region : Extent} (hRegions : state.slots = init ++ [region]) (known found : KnownSlots)
    (hFound : ∀ id ∈ found.keys, ∃ e ∈ state.slots, e.Issued id) :
    coverMaxId (maxId found ((within last log).map (Record.found true)))
      { region with used := (notedRegion slots region known).2 } = region := by
  have hRegion : region ∈ state.slots := by
    rw [hRegions]
    exact List.mem_append_right _ (List.mem_singleton_self _)
  have hNoted := h.notedRegion_le hState hRegion known
  have hUsed := h.numbering.used region (region_mem hState hRegion)
  have hExact : coverMaxId (maxId found ((within last log).map (Record.found true))) region = region := by
    have hSame := h.coverMaxId_eq hState hLast found hFound
    rw [hRegions, modifyLast_concat] at hSame
    exact List.singleton_injective (List.append_cancel_left hSame)
  by_cases hAll : region.used ≤ (notedRegion slots region known).2
  · rwa [show (notedRegion slots region known).2 = region.used by omega]
  -- The last number that was given out has no slot, so its record is in the last extent.
  have hIssued : region.Issued (region.start + (region.used - 1)) := ⟨Nat.le_add_right _ _, by omega⟩
  obtain ⟨r, hr, hId, hBucket⟩ := (h.numbering.issued _ (book_mem hState) _).mp ⟨region, hRegion, hIssued⟩
  have hEmpty : slots r.header.id = .empty := by
    by_contra hSlot
    rw [hId] at hSlot
    exact hAll (by
      have hReached := lt_notedRegion (k := region.used - 1) (by omega) hSlot known
      omega)
  obtain ⟨x, hx, hxId⟩ : ∃ x ∈ within last log, x.header.id = r.header.id := by
    rcases hLagging r hr with (⟨slot, hSlot⟩ | ⟨top, -, hSlot⟩) | ⟨other, hOther, end', hEnd, x, hNewest, hCovers⟩
    · rw [hEmpty] at hSlot
      cases hSlot
    · rw [hEmpty] at hSlot
      cases hSlot
    · obtain ⟨hx, hxId⟩ := newest_eq_some hNewest
      obtain ⟨j, hj⟩ := List.mem_iff_getElem?.mp hOther
      have hPlot := h.geometry.plots j other hj end' (List.mem_of_getLast? hEnd)
      have hOwner : x.header.bucket = other.id := hPlot.owner x (mem_within.mpr ⟨hx, hCovers⟩)
      have hSame : other = state := h.state_eq_of_id hOther (List.mem_of_getElem? hState) (by
        rw [← hOwner, h.bucket_unique hr hx hxId, hBucket]
        rfl)
      subst hSame
      obtain rfl : end' = last := Option.some.inj (hEnd.symm.trans hLast)
      exact ⟨x, mem_within.mpr ⟨hx, hCovers⟩, hxId⟩
  have hSeen : region.start + (region.used - 1) ∈
      found.keys ++ ((within last log).map (Record.found true)).map FoundRecord.id := by
    rw [← hId, ← hxId, List.map_map]
    exact List.mem_append_right _ (List.mem_map.mpr ⟨x, hx, rfl⟩)
  obtain ⟨top, hTop⟩ : ∃ top, maxId found ((within last log).map (Record.found true)) = some top := by
    cases hMax : maxId found ((within last log).map (Record.found true)) with
    | some top => exact ⟨top, rfl⟩
    | none =>
        rw [maxId, List.max?_eq_none_iff] at hMax
        rw [hMax] at hSeen
        cases hSeen
  have hReach : region.start + (region.used - 1) ≤ top :=
    (List.max?_eq_some_iff.mp hTop).2 _ hSeen
  rw [hTop, coverMaxId] at hExact ⊢
  simp only at hExact ⊢
  rw [if_pos (by omega)] at hExact ⊢
  have hMax : max region.used (top - region.start + 1) = region.used := congrArg Extent.used hExact
  rw [show max (notedRegion slots region known).2 (top - region.start + 1) = region.used by omega]

/-- A bucket gets back what it had, also with an index that is behind. -/
theorem recoveredBucket_lagging (h : Reopening config p log image slots) (hLagging : Lagging p log slots)
    (order : HashOrder) (hStocked : Stocked p) (hState : p.states[i]? = some state) :
    (recoveredBucket order config image slots state.unused).state = filled state := by
  have hData := hStocked.data i state hState
  have hSlots := hStocked.slots i state hState
  obtain ⟨before, last, hConcat⟩ := List.eq_nil_or_concat state.data |>.resolve_left hData
  obtain ⟨init, region, hRegions⟩ := List.eq_nil_or_concat state.slots |>.resolve_left hSlots
  rw [List.concat_eq_append] at hConcat hRegions
  have hLast : state.data.getLast? = some last := by rw [hConcat, List.getLast?_concat]
  have hUnused : state.unused.data.getLast? = some { last with used := 0 } := unused_getLast? hLast
  have hScan : extentScan config image { last with used := 0 } =
      ⟨(within last log).map (Record.found true), last.used⟩ := (h.extentScan_eq hState hLast).1
  have hEntries : ∀ entry ∈ (scannedRegions slots state.unused.slots ∅).2.entries,
      (∃ region ∈ state.slots, region.Covers entry.1) ∧ slots entry.1 = entry.2 ∧ entry.2 ≠ .empty := by
    intro entry hEntry
    obtain ⟨⟨region, hRegion, hCovers⟩, hRest⟩ := mem_scanned hEntry
    obtain ⟨e, he, rfl⟩ := List.mem_map.mp hRegion
    exact ⟨⟨e, he, hCovers⟩, hRest⟩
  have hUsed : slotsUsed { last with used := 0 }
      ((scannedRegions slots state.unused.slots ∅).2.entries.map Sigma.snd) last.used = last.used := by
    refine h.slotsUsed_eq hState hLast fun known hKnown => ?_
    obtain ⟨entry, hEntry, rfl⟩ := List.mem_map.mp hKnown
    exact ⟨entry.1, (hEntries entry hEntry).2.1⟩
  obtain ⟨known, hScanned⟩ := h.scannedRegions_lagging hState hRegions
  have hCover := h.coverMaxId_lagging hLagging hState hLast hRegions known
    (scannedRegions slots state.unused.slots ∅).2 fun id hId => by
      rw [← AList.mem_keys, ← AList.lookup_isSome, Option.isSome_iff_exists] at hId
      obtain ⟨found, hLookup⟩ := hId
      obtain ⟨⟨e, he, hCovers⟩, hSlot, hSome⟩ := hEntries _ (AList.mem_lookup_iff.mp hLookup)
      exact ⟨e, he, h.issued_of_slot (region_mem hState he) hCovers (hSlot ▸ hSome)⟩
  simp only [recoveredBucket, hUnused, hScan, hUsed]
  rw [hScanned, modifyLast_concat, hCover, ← hRegions]
  simp [BucketState.unused, filled, fillEarlier, hConcat]

/-- Recovery keeps the slot of a number, or makes it name one of its records in the last extent. -/
theorem recoveredBucket_slot (h : Reopening config p log image slots)
    (hAscending : Ascending log) (order : HashOrder) (hState : p.states[i]? = some state) (id : Nat) :
    (recoveredBucket order config image slots state.unused).slots id = slots id ∨
      ∃ last ∈ state.data.getLast?, ∃ r ∈ within last log, r.header.id = id ∧
        (recoveredBucket order config image slots state.unused).slots id = .live (r.slot true) := by
  rcases List.eq_nil_or_concat state.data with hNil | ⟨init, last, hConcat⟩
  · left
    simp [recoveredBucket, BucketState.unused, hNil]
  have hLast : state.data.getLast? = some last := by
    rw [hConcat, List.concat_eq_append, List.getLast?_concat]
  rw [h.recoveredBucket_slots hAscending order hState hLast]
  cases hWithin : newest (within last log) id with
  | none => exact .inl rfl
  | some r =>
      obtain ⟨hr, hId⟩ := newest_eq_some hWithin
      dsimp only
      split
      · exact .inr ⟨last, hLast, r, hr, hId, rfl⟩
      · exact .inl rfl

/-- Recovery leaves the slots naming records. -/
theorem recoveredBucket_reopening (h : Reopening config p log image slots)
    (hAscending : Ascending log) (order : HashOrder) (hState : p.states[i]? = some state) :
    Reopening config p log image (recoveredBucket order config image slots state.unused).slots where
  laid := h.laid
  intact := h.intact
  geometry := h.geometry
  numbering := h.numbering
  range := h.range
  named id slot hPlace := by
    rcases h.recoveredBucket_slot hAscending order hState id with hSame | ⟨_, -, r, hr, hId, hNew⟩
    · rw [hSame] at hPlace
      exact h.named id slot hPlace
    · rw [hNew] at hPlace
      cases hPlace
      exact ⟨r, (mem_within.mp hr).1, hId, rfl⟩

theorem recoveredBucket_keeps_lagging (h : Reopening config p log image slots)
    (hAscending : Ascending log) (order : HashOrder)
    (hLagging : Lagging p log slots) (hState : p.states[i]? = some state) :
    Lagging p log (recoveredBucket order config image slots state.unused).slots := by
  intro r hr
  rcases hLagging r hr with hCurrent | hRecent
  · left
    have hSame := h.recoveredBucket_current hAscending order hState hCurrent
    rwa [Current, hSame]
  · exact .inr hRecent

end Reopening

/-- What the recovery of some buckets makes of an index that is behind. -/
structure SlotsCaughtUp (log : List Record) (states : List BucketState)
    (slots slots' : Nat → SlotState) : Prop where
  current : ∀ id, Current log slots id → slots' id = slots id
  recent : ∀ state ∈ states, ∀ id, Recent state log id → Current log slots' id
  origin : ∀ id, slots' id = slots id ∨ ∃ state ∈ states, ∃ last ∈ state.data.getLast?,
    ∃ r ∈ within last log, r.header.id = id ∧ slots' id = .live (r.slot true)

/-- Recovery writes no tombstone. -/
theorem SlotsCaughtUp.deleted {states : List BucketState} {slots' : Nat → SlotState} {slot : Slot}
    (h : SlotsCaughtUp log states slots slots') (hDeleted : slots' id = .deleted slot) :
    slots id = .deleted slot := by
  rcases h.origin id with hSame | ⟨_, _, _, _, _, _, _, hNew⟩
  · rwa [hSame] at hDeleted
  · rw [hNew] at hDeleted
    cases hDeleted

namespace Reopening

/-- The slots catch up with the last extents. -/
theorem recoveredBuckets_caught_up (h : Reopening config p log image slots)
    (hAscending : Ascending log) (order : HashOrder) {states : List BucketState}
    (hStates : ∀ state ∈ states, state ∈ p.states) :
    SlotsCaughtUp log states slots
      (recoveredBuckets order config image (states.map BucketState.unused) slots).2 := by
  induction states generalizing slots with
  | nil => exact ⟨fun _ _ => rfl, fun _ hMem => absurd hMem List.not_mem_nil, fun _ => .inl rfl⟩
  | cons state rest ih =>
      obtain ⟨i, hi⟩ := List.mem_iff_getElem?.mp (hStates state (List.mem_cons_self ..))
      have hCaught := ih (h.recoveredBucket_reopening hAscending order hi)
        fun other hMem => hStates other (List.mem_cons_of_mem _ hMem)
      rw [List.map_cons, recoveredBuckets]
      constructor
      case current =>
        intro id hCurrent
        have hSame := h.recoveredBucket_current hAscending order hi hCurrent
        exact (hCaught.current id (by rwa [Current, hSame])).trans hSame
      case recent =>
        intro other hMem id hRecent
        rcases List.mem_cons.mp hMem with rfl | hMem
        · have hCurrent := h.recoveredBucket_recent hAscending order hi hRecent
          have hSame := hCaught.current id hCurrent
          rw [Current, hSame]
          exact hCurrent
        · exact hCaught.recent other hMem id hRecent
      case origin =>
        intro id
        rcases hCaught.origin id with hSame | ⟨other, hMem, last, hLast, r, hr, hId, hNew⟩
        · rcases h.recoveredBucket_slot hAscending order hi id with hOld | ⟨last, hLast, r, hr, hId, hNew⟩
          · exact .inl (hSame.trans hOld)
          · exact .inr ⟨state, List.mem_cons_self .., last, hLast, r, hr, hId, hSame.trans hNew⟩
        · exact .inr ⟨other, List.mem_cons_of_mem _ hMem, last, hLast, r, hr, hId, hNew⟩

/-- All buckets get back what they had. -/
theorem recoveredBuckets_filled (h : Reopening config p log image slots)
    (hAscending : Ascending log) (order : HashOrder)
    (hLagging : Lagging p log slots) (hStocked : Stocked p) {states : List BucketState}
    (hStates : ∀ state ∈ states, state ∈ p.states) :
    (recoveredBuckets order config image (states.map BucketState.unused) slots).1 =
      states.map filled := by
  induction states generalizing slots with
  | nil => rfl
  | cons state rest ih =>
      obtain ⟨i, hi⟩ := List.mem_iff_getElem?.mp (hStates state (List.mem_cons_self ..))
      have hFilled := ih (h.recoveredBucket_reopening hAscending order hi)
        (h.recoveredBucket_keeps_lagging hAscending order hLagging hi)
        fun other hMem => hStates other (List.mem_cons_of_mem _ hMem)
      rw [List.map_cons, recoveredBuckets, List.map_cons, ← hFilled,
        h.recoveredBucket_lagging hLagging order hStocked hi]

end Reopening

/-- Opening recovers the slots from the last extents, whatever the index lacks. -/
theorem reopen_recovers {rows : List RegistryRow} {s : Store} (h : Reopening config p log image slots)
    (hAscending : Ascending log) (order : HashOrder) (hRecorded : Recorded config p rows)
    (hStocked : Stocked p) (hSpaced : Spaced p) (hRegistered : Registered rows s)
    (hHolding : Holding True (Spaced p) image slots s) :
    ∃ out t slots', BucketPlacement.open order config false s = .ok out t ∧
      out.1 = { reopened config rows (s.file .data).size with
        states := (recoveredBuckets order config image (p.states.map BucketState.unused) slots).1 } ∧
      Reopening config p log image slots' ∧ SlotsCaughtUp log p.states slots slots' ∧
      Holding True (Spaced p) image slots' t ∧
      IndexWork (IndexWork.noted s (reopened config rows (s.file .data).size).fileSize) t := by
  have hStates : ∀ state ∈ (replayed config rows).states,
      ∃ original ∈ p.states, state = original.unused := fun state hMem => by
    rw [hRecorded.states] at hMem
    obtain ⟨original, hOriginal, rfl⟩ := List.mem_map.mp hMem
    exact ⟨original, hOriginal, rfl⟩
  have hMeets := open_meets order config (I := Reopening config p log image) hRegistered
    (hRecorded.sums h.range) h
    (fun state hMem last hLast f hf slots hSlots => by
      obtain ⟨original, hOriginal, rfl⟩ := hStates state hMem
      obtain ⟨_, -, r, hr, rfl⟩ := hSlots.found_of_mem hOriginal hLast hf
      exact hSlots.restore (mem_within.mp hr).1)
    hHolding
    (fun state hMem last hLast => by
      obtain ⟨original, hOriginal, rfl⟩ := hStates state hMem
      obtain ⟨i, hi⟩ := List.mem_iff_getElem?.mp hOriginal
      rw [BucketState.unused, List.getLast?_map] at hLast
      obtain ⟨real, hReal, rfl⟩ := Option.map_eq_some_iff.mp hLast
      change pageUp real.stop < 2 ^ 63
      exact h.stop_range hi hReal)
    (fun hSpaced state hMem => by
      obtain ⟨original, hOriginal, rfl⟩ := hStates state hMem
      exact h.sane hSpaced hOriginal)
    fun _ state _ slots hSlots => hSlots.slotsFit state
  cases hRun : BucketPlacement.open order config false s with
  | error e t =>
      rcases hMeets.failsOnly e t hRun with hRefuses | ⟨-, state, hMem, hBare⟩
      · exact absurd trivial (hRefuses.request hSpaced).2
      · obtain ⟨original, hOriginal, rfl⟩ := hStates state hMem
        obtain ⟨i, hi⟩ := List.mem_iff_getElem?.mp hOriginal
        exact absurd hBare (not_bare_unused hi hStocked)
  | ok out t =>
      obtain ⟨-, hSelf, -, hRecovered, slots', hSlots', hHolding', hWork, hSame⟩ := hMeets.ok hRun
      have hRecovered := hRecovered trivial
      have hCurrent := hSame trivial
      rw [hRecorded.states] at hRecovered hCurrent
      have hCaught := h.recoveredBuckets_caught_up hAscending order fun _ hMem => hMem
      rw [← hCurrent] at hCaught
      exact ⟨out, t, slots', rfl, by rw [hSelf, hRecovered], hSlots', hCaught, hHolding', hWork⟩

/-- Where the last extents hold what the index lacks, opening gives every bucket what it
had, too. -/
theorem reopen_catches_up {rows : List RegistryRow} {s : Store} (h : Reopening config p log image slots)
    (hAscending : Ascending log) (order : HashOrder)
    (hLagging : Lagging p log slots) (hRecorded : Recorded config p rows)
    (hStocked : Stocked p) (hSpaced : Spaced p) (hRegistered : Registered rows s)
    (hHolding : Holding True (Spaced p) image slots s) (hData : p.fileSize ≤ (s.file .data).size) :
    ∃ restored t slots', BucketPlacement.open order config false s =
        .ok (p.resumed rows (s.file .data).size, restored) t ∧
      Reopening config p log image slots' ∧ SlotsCaughtUp log p.states slots slots' ∧
      Holding True (Spaced p) image slots' t ∧ IndexWork (IndexWork.noted s (s.file .data).size) t := by
  obtain ⟨out, t, slots', hRun, hOut, hSlots', hCaught, hHolding', hWork⟩ :=
    reopen_recovers h hAscending order hRecorded hStocked hSpaced hRegistered hHolding
  have hFilled := h.recoveredBuckets_filled hAscending order hLagging hStocked fun _ hMem => hMem
  rw [hFilled, hRecorded.reopened_eq hData] at hOut
  have hFile : (reopened config rows (s.file .data).size).fileSize = (s.file .data).size :=
    Nat.max_eq_right (hRecorded.fileSize.trans hData)
  rw [hFile] at hWork
  exact ⟨out.2, t, slots', by rw [hRun, ← hOut], hSlots', hCaught, hHolding', hWork⟩

end BucketPlacement

end HeapStore
