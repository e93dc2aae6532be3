import HeapStore.Placement.Registry

/-! Allotment in a bucket store: a completed allocation hands out bytes and a
number that no record has, and keeps the whole invariant of the placement. -/
namespace HeapStore

open Effect Placed PagedFile

namespace BucketPlacement

variable {config : HeapConfig} {need i bucket : Nat} {s t : Placed BucketPlacement} {e : Extent}
  {log : List Record} {rows : List RegistryRow} {r : Record}

/-- The extents fit the records, and the registry holds the given rows. -/
structure Booked (s : Placed BucketPlacement) (log : List Record) (rows : List RegistryRow) :
    Prop where
  base : PAGE ≤ s.placement.fileSize
  geometry : Geometry s.placement log
  reserved : s.placement.fileSize ≤ (s.store.paged .data).allocatedEnd
  roomy : Roomy s.store
  coherent : Coherent .registry s.store
  tail : OpenTail .registry s.placement.registryEnd s.store
  registry : Rows rows (s.store.logical .registry)

/-! Whole pages. -/

/-- The sizes of the configuration are whole pages. -/
structure PageSized (config : HeapConfig) : Prop where
  initialSize : config.initialSize % PAGE = 0
  growth : config.growth % PAGE = 0
  minExtent : config.minExtent % PAGE = 0

/-- The file and all extents are whole pages. -/
structure Aligned (p : BucketPlacement) : Prop where
  fileSize : p.fileSize % PAGE = 0
  extents : ∀ e ∈ extents p.states, e.start % PAGE = 0 ∧ e.size % PAGE = 0

theorem mem_extents_modify {states : List BucketState} {g : BucketState → BucketState}
    (h : e ∈ extents (states.modify i g)) :
    e ∈ extents states ∨ ∃ state ∈ states, e ∈ (g state).data := by
  obtain ⟨state, hState, he⟩ := List.mem_flatMap.mp h
  obtain ⟨j, hj⟩ := List.mem_iff_getElem?.mp hState
  rw [List.getElem?_modify] at hj
  obtain ⟨old, hOld, rfl⟩ := Option.map_eq_some_iff.mp hj
  have hMem := List.mem_of_getElem? hOld
  by_cases hIndex : i = j
  · rw [if_pos hIndex] at he
    exact Or.inr ⟨old, hMem, he⟩
  · rw [if_neg hIndex] at he
    exact Or.inl (List.mem_flatMap.mpr ⟨old, hMem, he⟩)

/-- A change of the last element leaves the others alone. -/
theorem mem_modifyLast {f : Extent → Extent} {l : List Extent} (h : e ∈ modifyLast f l) :
    e ∈ l ∨ ∃ old, l.getLast? = some old ∧ e = f old := by
  rcases List.eq_nil_or_concat l with rfl | ⟨init, last, rfl⟩
  · simp at h
  · rw [List.concat_eq_append, modifyLast_concat] at h
    rcases List.mem_append.mp h with h | h
    · exact Or.inl (by simp [h])
    · exact Or.inr ⟨last, by simp, List.mem_singleton.mp h⟩

theorem requiredExtentSize_mod (hConfig : PageSized config) (totalLen : Nat) :
    requiredExtentSize config totalLen % PAGE = 0 := by
  have hUp := pageUp_mod totalLen
  have hMin := hConfig.minExtent
  rw [requiredExtentSize]
  rcases Nat.le_total (pageUp totalLen) config.minExtent with h | h
  · rwa [Nat.max_eq_right h]
  · rwa [Nat.max_eq_left h]

theorem TookExtent.aligned (h : TookExtent config need s t e) (hConfig : PageSized config)
    (hNeed : need % PAGE = 0) (hAligned : Aligned s.placement) :
    Aligned t.placement ∧ e.start % PAGE = 0 ∧ e.size % PAGE = 0 := by
  have hFile := hAligned.fileSize
  cases h with
  | whole _ hSize hExtent hAfter =>
      subst hExtent hAfter
      refine ⟨⟨hFile, hAligned.extents⟩, Nat.mod_self PAGE, ?_⟩
      simp only [PAGE] at *
      omega
  | grow next _ hExtent _ hAfter =>
      subst hExtent
      have hGrow : max need config.growth % PAGE = 0 := by
        have := hConfig.growth
        rcases Nat.le_total need config.growth with hLe | hLe
        · rwa [Nat.max_eq_right hLe]
        · rwa [Nat.max_eq_left hLe]
      refine ⟨⟨?_, ?_⟩, hFile, hGrow⟩
      · rw [hAfter]
        simp only [PAGE] at *
        omega
      · rw [hAfter]
        exact hAligned.extents
  | cut next i cut victim _ hVictim hCut hRoom hExtent hAfter =>
      subst hExtent hAfter
      obtain ⟨state, init, hState, hData⟩ := lastExtent?_eq_some.mp hVictim
      have hMem : victim ∈ extents s.placement.states :=
        mem_extents.mpr ⟨i, state, hState, by simp [hData]⟩
      obtain ⟨hStart, hSize⟩ := hAligned.extents victim hMem
      have hTail := freeTail_le victim
      have hWhole : cut % PAGE = 0 := by
        have hDown := pageDown_mod (victim.freeTail / 2)
        rw [hCut]
        rcases Nat.le_total (pageDown (victim.freeTail / 2)) need with hLe | hLe
        · rwa [Nat.max_eq_right hLe]
        · rwa [Nat.max_eq_left hLe]
      have hRest : (victim.size - cut) % PAGE = 0 := by
        simp only [PAGE] at *
        omega
      refine ⟨⟨hFile, fun x hx => ?_⟩, ?_, hWhole⟩
      · rcases mem_extents_modify hx with hx | ⟨other, hOther, hx⟩
        · exact hAligned.extents x hx
        · have hIn : ∀ y ∈ other.data, y ∈ extents s.placement.states := fun y hy =>
            List.mem_flatMap.mpr ⟨other, hOther, hy⟩
          rcases mem_modifyLast hx with hx | ⟨y, hy, rfl⟩
          · exact hAligned.extents x (hIn x hx)
          · exact ⟨(hAligned.extents y (hIn y (List.mem_of_getLast? hy))).1, hRest⟩
      · simp only [PAGE] at *
        omega

theorem GrantedExtent.aligned (h : GrantedExtent config i need s t e) (hConfig : PageSized config)
    (hNeed : need % PAGE = 0) (hAligned : Aligned s.placement) : Aligned t.placement := by
  obtain ⟨mid, pushed, hTook, hPushed, rfl⟩ := h.grant
  obtain ⟨hMid, he⟩ := hTook.aligned hConfig hNeed hAligned
  have hStates : pushed.placement.states = mid.placement.states := by rw [hPushed.placement]
  refine ⟨?_, fun x hx => ?_⟩
  · change pushed.placement.fileSize % PAGE = 0
    rw [hPushed.placement]
    exact hMid.fileSize
  · rcases mem_extents_modify hx with hx | ⟨other, hOther, hx⟩
    · exact hMid.extents x (hStates ▸ hx)
    · rcases List.mem_append.mp hx with hx | hx
      · exact hMid.extents x (List.mem_flatMap.mpr ⟨other, hStates ▸ hOther, hx⟩)
      · rw [List.mem_singleton] at hx
        exact hx ▸ he

/-- Only the extents and the file size matter. -/
theorem Aligned.congr {p q : BucketPlacement} (h : Aligned p) (hFile : q.fileSize = p.fileSize)
    (hStates : ∀ e ∈ HeapStore.extents q.states,
      ∃ old ∈ HeapStore.extents p.states, e.start = old.start ∧ e.size = old.size) :
    Aligned q := by
  refine ⟨hFile ▸ h.fileSize, fun e he => ?_⟩
  obtain ⟨old, hOld, hStart, hSize⟩ := hStates e he
  rw [hStart, hSize]
  exact h.extents old hOld

theorem Aligned.useExtent (h : Aligned s.placement) (i used : Nat) :
    Aligned (useExtent s i used).placement := by
  refine h.congr rfl fun x hx => ?_
  rcases mem_extents_modify hx with hx | ⟨other, hOther, hx⟩
  · exact ⟨x, hx, rfl, rfl⟩
  · have hIn : ∀ y ∈ other.data, y ∈ HeapStore.extents s.placement.states := fun y hy =>
      List.mem_flatMap.mpr ⟨other, hOther, hy⟩
    rcases mem_modifyLast hx with hx | ⟨y, hy, rfl⟩
    · exact ⟨x, hIn x hx, rfl, rfl⟩
    · exact ⟨y, hIn y (List.mem_of_getLast? hy), rfl, rfl⟩

theorem Aligned.sameData {p q : BucketPlacement} (h : Aligned p) (hFile : q.fileSize = p.fileSize)
    (hData : q.states.map BucketState.data = p.states.map BucketState.data) : Aligned q := by
  refine h.congr hFile fun x hx => ⟨x, ?_, rfl, rfl⟩
  simp only [HeapStore.extents, List.flatMap_def, hData] at hx ⊢
  exact hx

theorem GrantedRegion.aligned (h : GrantedRegion config i s t) (hAligned : Aligned s.placement) :
    Aligned t.placement := by
  refine hAligned.sameData h.fileSize ?_
  obtain ⟨pushed, hPushed, rfl⟩ := h.grant
  change (pushed.placement.states.modify i _).map _ = _
  rw [hPushed.placement]
  exact map_modify_same _ _ fun _ => rfl

theorem Indexed.aligned (h : Indexed config bucket need i s t) (hConfig : PageSized config)
    (hNeed : need % PAGE = 0) (hAligned : Aligned s.placement) : Aligned t.placement := by
  cases h with
  | known _ hAfter => exact hAfter ▸ hAligned
  | opened mid e _ _ hExtent hRegion =>
      have hNew : Aligned (withNew s bucket).placement :=
        ⟨hAligned.fileSize, fun x hx => hAligned.extents x (by
          simpa [HeapStore.extents, withNew] using hx)⟩
      exact hRegion.aligned (hExtent.aligned hConfig hNeed hNew)

theorem PlacedBytes.aligned {totalLen off : Nat} (h : PlacedBytes config i totalLen off s t)
    (hConfig : PageSized config) (hAligned : Aligned s.placement) : Aligned t.placement := by
  cases h with
  | fits _ _ _ _ hAfter => exact hAfter ▸ hAligned.useExtent i _
  | granted _ _ _ _ _ _ hExtent _ _ hAfter =>
      exact hAfter ▸ (hExtent.aligned hConfig (requiredExtentSize_mod hConfig _) hAligned).useExtent i _

theorem Numbered.aligned {id : Nat} (h : Numbered config i id s t) (hAligned : Aligned s.placement) :
    Aligned t.placement := by
  have hUse : ∀ (u : Placed BucketPlacement) (used : Nat), Aligned u.placement →
      Aligned (useRegion u i used).placement := fun u used hu =>
    hu.sameData rfl (map_modify_same _ _ fun _ => rfl)
  cases h with
  | fits _ _ _ _ hAfter => exact hAfter ▸ hUse s _ hAligned
  | granted _ _ mid _ _ hRegion _ _ hAfter => exact hAfter ▸ hUse mid _ (hRegion.aligned hAligned)

/-- The invariant of a bucket placement over the records and rows written. -/
structure Kept (config : HeapConfig) (s : Placed BucketPlacement) (log : List Record)
    (rows : List RegistryRow) : Prop extends Booked s log rows where
  stocked : Stocked s.placement
  numbering : Numbering config s.placement.books s.placement.nextRegion log
  recorded : Recorded config s.placement rows
  aligned : PageSized config → Aligned s.placement

/-- A row goes behind the others. -/
theorem PushedRow.appended {row : RegistryRow} (h : PushedRow row s t)
    (hCoherent : Coherent .registry s.store)
    (hTail : OpenTail .registry s.placement.registryEnd s.store)
    (hEnd : s.placement.registryEnd = PAGE + REGISTRY_ROW_SIZE * rows.length)
    (hRows : Rows rows (s.store.logical .registry)) :
    Reserved s.store t.store ∧ Coherent .registry t.store ∧
      OpenTail .registry t.placement.registryEnd t.store ∧
      Rows (rows ++ [row]) (t.store.logical .registry) ∧
      t.store.paged .data = s.store.paged .data ∧ t.store.disk = s.store.disk := by
  have hLength : ([row.encode].flatten).length = REGISTRY_ROW_SIZE := by simp
  obtain ⟨hTook, hTail'⟩ := stage_append hCoherent hTail
    (by rw [hLength]; decide) h.store
  refine ⟨hTook.reserved (by omega), hTook.coherent, ?_, ?_, hTook.frame.paged .data (by decide), hTook.disk⟩
  · rw [h.placement]
    rw [hLength] at hTail'
    exact hTail'
  · rw [hTook.logical, hEnd, List.flatten_singleton]
    exact hRows.concat row

/-- A granted extent, all that is said of it. -/
structure Granted (config : HeapConfig) (need i bucket : Nat) (s t : Placed BucketPlacement)
    (log : List Record) (rows : List RegistryRow) (e : Extent) : Prop where
  booked : Booked t log rows
  recorded : Recorded config t.placement rows
  store : Reserved s.store t.store
  books : t.placement.books = s.placement.books
  nextRegion : t.placement.nextRegion = s.placement.nextRegion
  last : lastExtent? t.placement.states i = some e
  unused : e.used = 0
  need_le : s.placement.extentGrantCount ≠ 0 → need ≤ e.size

theorem Booked.grantExtent (h : Booked s log rows) {state : BucketState}
    (hState : s.placement.states[i]? = some state)
    (hRecord : Recordable config s.placement bucket i rows) (hBucket : bucket < 2 ^ 64)
    (hNeed : 0 < need) (hGrant : GrantedExtent config i need s t e) :
    Granted config need i bucket s t log
      (rows ++ [⟨'D'.toUInt8, bucket, e.start, e.size⟩]) e := by
  obtain ⟨mid, pushed, hTook, hPushed, rfl⟩ := hGrant.grant
  obtain ⟨hGeometry, hUnowned⟩ := h.geometry.takeExtent h.base hTook
  obtain ⟨hStore, hRegistry, hReserved⟩ := hTook.reserved h.reserved
  have hRoomy := hStore.roomy h.roomy
  have hSize : mid.placement.fileSize < 2 ^ 63 :=
    Nat.lt_of_le_of_lt (hReserved.trans hRoomy.reserved) hRoomy.whole.range
  have hBooks := hTook.books
  have hId : mid.placement.bucketId i = bucket := by
    rw [bucketId_of_book hBooks, ← bucketId_of_book rfl, hRecord.id]
  have hFile := hStore.file (m := .registry) (by decide)
  have hMidState : ∃ state, mid.placement.states[i]? = some state := by
    have hLength := hTook.length_states
    have hLt := (List.getElem?_eq_some_iff.mp hState).1
    exact ⟨_, List.getElem?_eq_getElem (hLength ▸ hLt)⟩
  obtain ⟨midState, hMidState⟩ := hMidState
  have hCoherent : Coherent .registry mid.store := by
    refine ⟨hRegistry ▸ h.coherent.apart, ?_, ?_, hRegistry ▸ h.coherent.pending⟩
    · rw [hRegistry, hFile]
      exact h.coherent.captured
    · rw [hRegistry, hFile]
      exact h.coherent.tails
  have hTail : OpenTail .registry mid.placement.registryEnd mid.store := by
    rw [hTook.registryEnd, OpenTail, hRegistry]
    exact h.tail
  have hRows : Rows rows (mid.store.logical .registry) := by
    rw [Store.logical, hRegistry, hFile]
    exact h.registry
  have hEnd : mid.placement.registryEnd = PAGE + REGISTRY_ROW_SIZE * rows.length := by
    rw [hTook.registryEnd, hRecord.registryEnd]
  rw [hId] at hPushed
  obtain ⟨hStore', hCoherent', hTail', hRows', hPaged, hDisk⟩ :=
    hPushed.appended hCoherent hTail hEnd hRows
  have hPlacement := hPushed.placement
  have hPushedGeometry : Geometry pushed.placement log :=
    hGeometry.congr (by rw [hPlacement]) (by rw [hPlacement]) (by rw [hPlacement]; exact id)
  have hPushedUnowned : Unowned pushed.placement log e := by
    refine ⟨?_, hUnowned.base, ?_, hUnowned.used, hUnowned.vacant⟩
    · rw [hPlacement]
      exact hUnowned.apart
    · rw [hPlacement]
      exact hUnowned.stop
  have hPushedState : pushed.placement.states[i]? = some midState := by rw [hPlacement, hMidState]
  have hCount : 0 < pushed.placement.extentGrantCount := by
    rw [hPlacement]
    exact hTook.count_pos
  refine ⟨⟨?_, ?_, ?_, ?_, hCoherent', hTail', hRows'⟩, ?_, hStore.trans hStore', ?_, ?_, ?_,
    hTook.used_eq, fun hZero => hTook.need_le hZero⟩
  · change PAGE ≤ pushed.placement.fileSize
    rw [hPlacement]
    exact h.base.trans hTook.fileSize_le
  · exact hPushedGeometry.push hPushedState hPushedUnowned hCount
  · change pushed.placement.fileSize ≤ (pushed.store.paged .data).allocatedEnd
    rw [hPlacement, hPaged]
    exact hReserved
  · exact hStore'.roomy hRoomy
  · have hRecorded := hRecord.extent h.geometry hNeed hTook hUnowned.stop hBucket hSize
    rw [← hPlacement] at hRecorded
    exact hRecorded
  · rw [← hBooks]
    change (pushed.placement.states.modify i _).map book = mid.placement.states.map book
    rw [hPlacement]
    exact map_modify_same _ _ fun _ => rfl
  · change pushed.placement.nextRegion = _
    rw [hPlacement]
    exact hTook.nextRegion
  · exact lastExtent?_push hPushedState

/-- A granted region, all that is said of it. -/
theorem Booked.grantRegion (h : Booked s log rows)
    (hRecord : Recordable config s.placement bucket i rows) (hBucket : bucket < 2 ^ 64)
    (hStart : s.placement.nextRegion < 2 ^ 64) (hSlots : config.regionSlots < 2 ^ 64)
    (hGrant : GrantedRegion config i s t) :
    Booked t log (rows ++ [⟨'S'.toUInt8, bucket, s.placement.nextRegion, config.regionSlots⟩]) ∧
      Recorded config t.placement
        (rows ++ [⟨'S'.toUInt8, bucket, s.placement.nextRegion, config.regionSlots⟩]) ∧
      Reserved s.store t.store := by
  obtain ⟨pushed, hPushed, rfl⟩ := hGrant.grant
  rw [hRecord.id] at hPushed
  obtain ⟨hStore, hCoherent, hTail, hRows, hPaged, hDisk⟩ :=
    hPushed.appended h.coherent h.tail hRecord.registryEnd h.registry
  have hPlacement := hPushed.placement
  refine ⟨⟨?_, ?_, ?_, hStore.roomy h.roomy, hCoherent, hTail, hRows⟩, ?_, hStore⟩
  · change PAGE ≤ pushed.placement.fileSize
    rw [hPlacement]
    exact h.base
  · refine h.geometry.congr_data ?_ ?_ ?_
    · change (pushed.placement.states.modify i _).map _ = _
      rw [hPlacement]
      exact map_modify_same _ _ fun _ => rfl
    · change _ ≤ pushed.placement.fileSize
      rw [hPlacement]
    · change pushed.placement.extentGrantCount = 0 → _
      rw [hPlacement]
      exact id
  · change pushed.placement.fileSize ≤ (pushed.store.paged .data).allocatedEnd
    rw [hPlacement, hPaged]
    exact h.reserved
  · have hRecorded := hRecord.region hBucket hStart hSlots
    change Recorded config (pushed.placement.modifyState i _) _
    rw [hPlacement]
    exact hRecorded

/-- The books of a bucket change when it gets a region. -/
theorem GrantedRegion.books (h : GrantedRegion config i s t) :
    t.placement.books = s.placement.books.modify i fun b =>
      ⟨b.bucket, b.regions ++ [⟨s.placement.nextRegion, config.regionSlots, 0⟩]⟩ := by
  obtain ⟨pushed, hPushed, rfl⟩ := h.grant
  change (pushed.placement.states.modify i _).map book = (s.placement.states.map book).modify i _
  rw [hPushed.placement]
  exact map_modify_comm _ _ fun _ _ => rfl

theorem GrantedRegion.nextRegion (h : GrantedRegion config i s t) :
    t.placement.nextRegion = s.placement.nextRegion + config.regionSlots := by
  obtain ⟨pushed, hPushed, rfl⟩ := h.grant
  change pushed.placement.nextRegion = _
  rw [hPushed.placement]

theorem books_useExtent (s : Placed BucketPlacement) (i used : Nat) :
    (useExtent s i used).placement.books = s.placement.books :=
  map_modify_same _ _ fun _ => rfl

theorem books_useRegion (s : Placed BucketPlacement) (i used : Nat) :
    (useRegion s i used).placement.books = s.placement.books.modify i fun b =>
      ⟨b.bucket, modifyLast (fun e => { e with used }) b.regions⟩ :=
  map_modify_comm _ _ fun _ _ => rfl

/-- Numbers given out say nothing about extents. -/
theorem Booked.useRegion (h : Booked s log rows) (i used : Nat) : Booked (useRegion s i used) log rows where
  base := h.base
  geometry := h.geometry.congr_data (map_modify_same _ _ fun _ => rfl) (Nat.le_refl _) id
  reserved := h.reserved
  roomy := h.roomy
  coherent := h.coherent
  tail := h.tail
  registry := h.registry

/-- A record behind the used bytes of a bucket's last extent. -/
theorem Booked.useExtent {state : BucketState} {used : Nat} (h : Booked s log rows)
    (hLast : lastExtent? s.placement.states i = some e)
    (hState : s.placement.states[i]? = some state) (hBucket : r.header.bucket = state.id)
    (hOff : r.off = e.start + e.used) (hUsed : used = e.used + r.totalLen true)
    (hFits : used ≤ e.size) : Booked (useExtent s i used) (log ++ [r]) rows := by
  obtain ⟨state', init, hState', hData⟩ := lastExtent?_eq_some.mp hLast
  obtain rfl : state = state' := Option.some.inj (hState.symm.trans hState')
  exact {
    base := h.base
    geometry := h.geometry.use hState hData hOff hBucket hUsed hFits
    reserved := h.reserved
    roomy := h.roomy
    coherent := h.coherent
    tail := h.tail
    registry := h.registry }

/-! The books through the steps of a call. -/

theorem bucketIndices_of_books (p : BucketPlacement) (bucket : Nat) :
    p.bucketIndices bucket = p.books.findIdx? fun b => b.bucket == bucket := by
  rw [books, List.findIdx?_map]
  rfl

theorem lastRegion?_of_books (p : BucketPlacement) (i : Nat) :
    lastRegion? p.states i = (p.books[i]?).bind fun b => b.regions.getLast? := by
  rw [lastRegion?, books, List.getElem?_map, Option.bind_map]
  rfl

theorem GrantedExtent.books (h : GrantedExtent config i need s t e) :
    t.placement.books = s.placement.books ∧ t.placement.nextRegion = s.placement.nextRegion := by
  obtain ⟨mid, pushed, hTook, hPushed, rfl⟩ := h.grant
  constructor
  · rw [← hTook.books]
    change (pushed.placement.states.modify i _).map book = mid.placement.states.map book
    rw [hPushed.placement]
    exact map_modify_same _ _ fun _ => rfl
  · change pushed.placement.nextRegion = _
    rw [hPushed.placement]
    exact hTook.nextRegion

theorem PlacedBytes.books {totalLen off : Nat} (h : PlacedBytes config i totalLen off s t) :
    t.placement.books = s.placement.books ∧ t.placement.nextRegion = s.placement.nextRegion := by
  cases h with
  | fits _ _ _ _ hAfter => exact hAfter ▸ ⟨books_useExtent s i _, rfl⟩
  | granted _ _ _ mid _ _ hExtent _ _ hAfter =>
      obtain ⟨hBooks, hNext⟩ := hExtent.books
      exact hAfter ▸ ⟨(books_useExtent mid i _).trans hBooks, hNext⟩

/-- A number is not smaller than the start of the last region. -/
theorem Numbered.start_le {id : Nat} {region : Extent} (h : Numbered config i id s t)
    (hLast : lastRegion? s.placement.states i = some region)
    (hNext : region.start ≤ s.placement.nextRegion) : region.start ≤ id := by
  cases h with
  | fits other hOther hFits hId hAfter =>
      obtain rfl : region = other := Option.some.inj (hLast.symm.trans hOther)
      omega
  | granted old other mid hOld hFull hRegion hOther hId hAfter =>
      rw [lastRegion?_of_books, hRegion.books, List.getElem?_modify] at hOther
      rw [lastRegion?_of_books] at hLast
      cases hBook : s.placement.books[i]? with
      | none => simp [hBook] at hLast
      | some b =>
          simp only [hBook, if_true, Option.map_eq_map, Option.map_some, Option.bind_some,
            List.getLast?_concat, Option.some.injEq] at hOther
          rw [hId, ← hOther]
          exact hNext

/-- A bucket that is found or opened has its place, and its books are in order. -/
theorem Kept.index (h : Kept config s log rows) (hBucket : bucket < 2 ^ 64) (hNeed : 0 < need)
    (hPages : PageSized config → need % PAGE = 0)
    (hSlots : config.regionSlots < 2 ^ 64) (hIndexed : Indexed config bucket need i s t)
    (hStart : s.placement.bucketIndices bucket = none → s.placement.nextRegion < 2 ^ 64) :
    ∃ new, Kept config t log (rows ++ new) ∧ Reserved s.store t.store ∧
      t.placement.bucketIndices bucket = some i := by
  have hStocked := (hIndexed.stocked h.stocked).1
  have hAligned : PageSized config → Aligned t.placement := fun hConfig =>
    hIndexed.aligned hConfig (hPages hConfig) (h.aligned hConfig)
  cases hIndexed with
  | known hIndex hAfter =>
      subst hAfter
      exact ⟨[], by rwa [List.append_nil], Reserved.refl _, hIndex⟩
  | opened mid e hNew hIndex hExtent hRegion =>
      subst hIndex
      have hBooked : Booked (withNew s bucket) log rows :=
        ⟨h.base, h.geometry.withNew bucket, h.reserved, h.roomy, h.coherent, h.tail, h.registry⟩
      have hState : (withNew s bucket).placement.states[s.placement.states.length]? =
          some ⟨bucket, [], []⟩ := by simp [withNew]
      have hBooksNew : (withNew s bucket).placement.books = s.placement.books ++ [⟨bucket, []⟩] := by
        simp [BucketPlacement.books, withNew, book]
      have hGranted := hBooked.grantExtent hState (h.recorded.new hNew) hBucket hNeed hExtent
      have hAbsent : ∀ b ∈ s.placement.books, ¬ (b.bucket == bucket) = true := by
        rw [bucketIndices_of_books, List.findIdx?_eq_none_iff] at hNew
        simpa using hNew
      have hFound : mid.placement.bucketIndices bucket = some s.placement.states.length := by
        rw [bucketIndices_of_books, hGranted.books, hBooksNew, List.findIdx?_append,
          List.findIdx?_eq_none_iff.mpr (by simpa using hAbsent)]
        simp [BucketPlacement.books]
      have hNextMid : mid.placement.nextRegion = s.placement.nextRegion := hGranted.nextRegion
      obtain ⟨hBooked', hRecorded', hStore⟩ := hGranted.booked.grantRegion
        (hGranted.recorded.known hFound) hBucket (hNextMid ▸ hStart hNew) hSlots hRegion
      have hLength : s.placement.books.length = s.placement.states.length := by
        simp [BucketPlacement.books]
      have hBooksAfter : t.placement.books =
          s.placement.books ++ [⟨bucket, [⟨s.placement.nextRegion, config.regionSlots, 0⟩]⟩] := by
        rw [hRegion.books, hGranted.books, hBooksNew, hNextMid, ← hLength,
          modify_length_append]
        rfl
      rw [List.append_assoc] at hBooked' hRecorded'
      refine ⟨_, ⟨hBooked', hStocked, ?_, hRecorded', hAligned⟩, hGranted.store.trans hStore, ?_⟩
      · rw [hBooksAfter, hRegion.nextRegion, hNextMid]
        exact (h.numbering.concat fun b hb hSame => hAbsent b hb (by simp [hSame])).push (by simp)
      · rw [bucketIndices_of_books, hBooksAfter, List.findIdx?_append,
          List.findIdx?_eq_none_iff.mpr (by simpa using hAbsent)]
        simp [BucketPlacement.books]

/-- Bytes placed for a bucket are those of a new record of it. -/
theorem Kept.place {totalLen off : Nat} (h : Kept config s log rows)
    (hIndex : s.placement.bucketIndices bucket = some i) (hBucket : bucket < 2 ^ 64)
    (hPlaced : PlacedBytes config i totalLen off s t) (hr : r.off = off)
    (hLen : r.totalLen true = totalLen) (hrBucket : r.header.bucket = bucket) :
    ∃ new, Reserved s.store t.store ∧ Recorded config t.placement (rows ++ new) ∧
      Booked t (log ++ [r]) (rows ++ new) := by
  have hTotal : 0 < totalLen := by
    have := headerLen_ge true
    rw [← hLen, Record.totalLen]
    omega
  obtain ⟨state, hState, hId⟩ := bucketIndices_eq_some hIndex
  cases hPlaced with
  | fits e hLast hFits hOff hAfter =>
      subst hAfter
      refine ⟨[], Reserved.refl _, ?_, ?_⟩
      · rw [List.append_nil]
        exact h.recorded.useExtent i _
      · rw [List.append_nil]
        exact h.useExtent hLast hState (hrBucket.trans hId.symm) (hr.trans hOff)
          (by rw [hLen]) hFits
  | granted old e last mid hOld hFull hExtent hLast hOff hAfter =>
      have hNeed : totalLen ≤ requiredExtentSize config totalLen :=
        (le_pageUp totalLen).trans (Nat.le_max_left _ _)
      have hGranted := h.grantExtent hState (h.recorded.known hIndex) hBucket (by omega) hExtent
      obtain rfl : last = e := Option.some.inj (hLast.symm.trans hGranted.last)
      have hCount : s.placement.extentGrantCount ≠ 0 := fun hZero => by
        have hNone := h.geometry.fresh hZero
        obtain ⟨_, _, hOldState, hData⟩ := lastExtent?_eq_some.mp hOld
        have hMem : old ∈ extents s.placement.states :=
          mem_extents.mpr ⟨i, _, hOldState, by simp [hData]⟩
        simp [hNone] at hMem
      have hRoom := hGranted.need_le hCount
      have hFound : ∃ state, mid.placement.states[i]? = some state ∧ state.id = bucket := by
        refine bucketIndices_eq_some ?_
        rw [bucketIndices_of_books, hGranted.books, ← bucketIndices_of_books, hIndex]
      obtain ⟨midState, hMidState, hMidId⟩ := hFound
      subst hAfter
      refine ⟨_, hGranted.store, hGranted.recorded.useExtent i _, ?_⟩
      exact hGranted.booked.useExtent hGranted.last hMidState (hrBucket.trans hMidId.symm)
        (by rw [hr, hOff, hGranted.unused]; rfl) (by rw [hGranted.unused, hLen, Nat.zero_add])
        (by omega)

/-- A number given out is new, and belongs to the record that it is given to. -/
theorem Kept.number {id : Nat} (hBooked : Booked s (log ++ [r]) rows)
    (hRecorded : Recorded config s.placement rows)
    (hNumbering : Numbering config s.placement.books s.placement.nextRegion log)
    (hIndex : s.placement.bucketIndices bucket = some i) (hBucket : bucket < 2 ^ 64)
    (hPos : 0 < config.regionSlots) (hSlots : config.regionSlots < 2 ^ 64) (hId : id < 2 ^ 64)
    (hNumbered : Numbered config i id s t) (hr : r.header.id = id)
    (hrBucket : r.header.bucket = bucket) :
    (∀ old ∈ log, old.header.id ≠ id) ∧
      ∃ new, Reserved s.store t.store ∧ Recorded config t.placement (rows ++ new) ∧
        Booked t (log ++ [r]) (rows ++ new) ∧
        Numbering config t.placement.books t.placement.nextRegion (log ++ [r]) := by
  have hFind := hIndex
  rw [bucketIndices_of_books] at hFind
  obtain ⟨hLt, hBook, -⟩ := List.findIdx?_eq_some_iff_getElem.mp hFind
  obtain ⟨before, after, hBooks, hBefore⟩ := split_at (List.getElem?_eq_getElem hLt)
  have hName : s.placement.books[i].bucket = bucket := by simpa using hBook
  generalize hb : s.placement.books[i] = b at hBooks hName
  have hGet : s.placement.books[i]? = some b := by rw [List.getElem?_eq_getElem hLt, hb]
  rw [hBooks] at hNumbering
  cases hNumbered with
  | fits region hLast hFits hNumber hAfter =>
      rw [lastRegion?_of_books, hGet, Option.bind_some] at hLast
      obtain ⟨init, hRegions⟩ := List.getLast?_eq_some_iff.mp hLast
      have hIssue := hNumbering.issue hRegions hFits (hr.trans hNumber) (hrBucket.trans hName.symm)
      subst hAfter
      refine ⟨fun old hOld => hNumber ▸ hNumbering.fresh hRegions hFits hOld, [], Reserved.refl _,
        ?_, ?_, ?_⟩
      · rw [List.append_nil]
        exact hRecorded.useRegion i _
      · rw [List.append_nil]
        exact hBooked.useRegion i _
      · rw [books_useRegion, hBooks, ← hBefore, modify_length_append, hRegions, modifyLast_concat]
        exact hIssue
  | granted old region mid hOld hFull hRegion hLast hNumber hAfter =>
      have hBooksMid : mid.placement.books = before ++
          ⟨b.bucket, b.regions ++ [⟨s.placement.nextRegion, config.regionSlots, 0⟩]⟩ :: after := by
        rw [hRegion.books, hBooks, ← hBefore, modify_length_append]
      rw [lastRegion?_of_books, hGet, Option.bind_some] at hOld
      obtain ⟨init, hRegions⟩ := List.getLast?_eq_some_iff.mp hOld
      have hMine : b ∈ before ++ b :: after := by simp
      have hAllFull : ∀ e ∈ b.regions, e.used = e.size := by
        intro e he
        rw [hRegions] at he
        rcases List.mem_append.mp he with he | he
        · exact hNumbering.full b hMine e (by rw [hRegions]; simpa using he)
        · rw [List.mem_singleton] at he
          subst he
          have hUsed := hNumbering.used e (List.mem_flatMap.mpr ⟨b, hMine, by simp [hRegions]⟩)
          omega
      have hPush := hNumbering.push hAllFull
      have hMidGet : mid.placement.books[i]? = some
          ⟨b.bucket, b.regions ++ [⟨s.placement.nextRegion, config.regionSlots, 0⟩]⟩ := by
        rw [hBooksMid, ← hBefore]
        simp
      rw [lastRegion?_of_books, hMidGet, Option.bind_some, List.getLast?_concat,
        Option.some.injEq] at hLast
      subst hLast
      have hNumber' : r.header.id = s.placement.nextRegion + 0 := hr.trans hNumber
      have hIssue := hPush.issue rfl hPos hNumber' (hrBucket.trans hName.symm)
      obtain ⟨hBooked', hRecorded', hStore⟩ := hBooked.grantRegion (hRecorded.known hIndex) hBucket
        (show s.placement.nextRegion < 2 ^ 64 by omega) hSlots hRegion
      subst hAfter
      refine ⟨fun old' hOld' => ?_, _, hStore, hRecorded'.useRegion i _, hBooked'.useRegion i _, ?_⟩
      · have hFresh := hPush.fresh rfl hPos hOld'
        simp only at hFresh hNumber
        omega
      · rw [books_useRegion, hBooksMid, ← hBefore, modify_length_append, modifyLast_concat]
        change Numbering config _ mid.placement.nextRegion _
        rw [hRegion.nextRegion]
        exact hIssue

/-- A completed allocation: new bytes and a new number for one record. -/
theorem Kept.alloc {totalLen off id : Nat} (h : Kept config s log rows) (hBucket : bucket < 2 ^ 64)
    (hPos : 0 < config.regionSlots) (hSlots : config.regionSlots < 2 ^ 64) (hId : id < 2 ^ 64)
    (hRun : alloc config bucket totalLen s = .ok (off, id) t) (hOff : r.off = off)
    (hLen : r.totalLen true = totalLen) (hrBucket : r.header.bucket = bucket)
    (hrId : r.header.id = id) :
    Reserved s.store t.store ∧ (∀ old ∈ log, old.header.id ≠ id) ∧
      ∃ new, Kept config t (log ++ [r]) (rows ++ new) := by
  obtain ⟨i, u, v, hIndexed, hPlaced, hNumbered⟩ := alloc_ok hRun
  have hTotal : 0 < totalLen := by
    have := headerLen_ge true
    rw [← hLen, Record.totalLen]
    omega
  have hNeed : 0 < requiredExtentSize config totalLen :=
    hTotal.trans_le ((le_pageUp totalLen).trans (Nat.le_max_left _ _))
  have hStocked := hNumbered.stocked (hPlaced.stocked (hIndexed.stocked h.stocked).1)
  obtain ⟨hBooksV, hNextV⟩ := hPlaced.books
  have hStart : s.placement.bucketIndices bucket = none → s.placement.nextRegion < 2 ^ 64 := by
    intro hNew
    cases hIndexed with
    | known hIndex _ => simp [hNew] at hIndex
    | opened mid e hNone hIndex hExtent hRegion =>
        have hBooks : u.placement.books[i]? =
            some ⟨bucket, [⟨s.placement.nextRegion, config.regionSlots, 0⟩]⟩ := by
          rw [hRegion.books, hExtent.books.1, hExtent.books.2, hIndex]
          simp [BucketPlacement.books, withNew, book]
        have hLast : lastRegion? v.placement.states i =
            some ⟨s.placement.nextRegion, config.regionSlots, 0⟩ := by
          rw [lastRegion?_of_books, hBooksV, hBooks]
          rfl
        have hLe := hNumbered.start_le hLast (by
          rw [hNextV, hRegion.nextRegion, hExtent.books.2]
          exact Nat.le_add_right _ _)
        exact Nat.lt_of_le_of_lt hLe hId
  obtain ⟨rowsU, hKept, hStoreU, hIndex⟩ := h.index hBucket hNeed
    (fun hConfig => requiredExtentSize_mod hConfig totalLen) hSlots hIndexed hStart
  obtain ⟨rowsV, hStoreV, hRecordedV, hBookedV⟩ :=
    hKept.place hIndex hBucket hPlaced hOff hLen hrBucket
  have hIndexV : v.placement.bucketIndices bucket = some i := by
    rw [bucketIndices_of_books, hBooksV, ← bucketIndices_of_books, hIndex]
  have hNumberingV : Numbering config v.placement.books v.placement.nextRegion log := by
    rw [hBooksV, hNextV]
    exact hKept.numbering
  obtain ⟨hFresh, rowsT, hStoreT, hRecordedT, hBookedT, hNumberingT⟩ :=
    Kept.number hBookedV hRecordedV hNumberingV hIndexV hBucket hPos hSlots hId hNumbered hrId
      hrBucket
  refine ⟨(hStoreU.trans hStoreV).trans hStoreT, hFresh, rowsU ++ rowsV ++ rowsT, ?_⟩
  simp only [← List.append_assoc] at hBookedT hRecordedT ⊢
  exact ⟨hBookedT, hStocked, hNumberingT, hRecordedT, fun hConfig =>
    hNumbered.aligned (hPlaced.aligned hConfig (hKept.aligned hConfig))⟩

/-- Completed bytes for an update: a new place for another record of a known number. -/
theorem Kept.allocUpdate {totalLen off : Nat} {old : Record} (h : Kept config s log rows)
    (hBucket : bucket < 2 ^ 64) (hRun : allocUpdate config bucket totalLen s = .ok off t)
    (hOff : r.off = off) (hLen : r.totalLen true = totalLen) (hrBucket : r.header.bucket = bucket)
    (hOld : old ∈ log) (hSameId : r.header.id = old.header.id)
    (hSameBucket : r.header.bucket = old.header.bucket) :
    Reserved s.store t.store ∧ ∃ new, Kept config t (log ++ [r]) (rows ++ new) := by
  obtain ⟨i, hIndex, hPlaced⟩ := allocUpdate_ok hRun
  obtain ⟨new, hStore, hRecorded, hBooked⟩ := h.place hIndex hBucket hPlaced hOff hLen hrBucket
  obtain ⟨hBooks, hNext⟩ := hPlaced.books
  refine ⟨hStore, new, hBooked, hPlaced.stocked h.stocked, ?_, hRecorded,
    fun hConfig => hPlaced.aligned hConfig (h.aligned hConfig)⟩
  rw [hBooks, hNext]
  exact h.numbering.rewrite hOld hSameId hSameBucket

end BucketPlacement

end HeapStore
