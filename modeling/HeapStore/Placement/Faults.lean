import HeapStore.Placement.Lawful

/-! Allocation when requests fail. A call that fails or panics on its way may lose
space and numbers, but what was given out before stays apart from all that comes. -/
namespace HeapStore

open Effect Placed WalkRange

/-- A record that fills a place, with nothing said of its content. -/
def Record.filling (off bucket id len : Nat) : Record := ⟨off, ⟨len, bucket, id, 0, 0⟩, []⟩

theorem Record.filling_totalLen (withBucket : Bool) (off bucket id len : Nat) :
    (Record.filling off bucket id len).totalLen withBucket = headerLen withBucket + len := rfl

namespace BucketPlacement

/-- Extents over the places that were filled, and regions over the numbers that
were given out, after calls of which some failed. -/
structure Intact (config : HeapConfig) (p : BucketPlacement) (places numbers : List Record) : Prop where
  base : PAGE ≤ p.fileSize
  geometry : Geometry p places
  numbering : Numbering config p.books p.nextRegion numbers

variable {config : HeapConfig} {need i bucket : Nat} {s t : Placed BucketPlacement} {e : Extent}
  {p q : BucketPlacement} {places numbers : List Record} {f : Failure}

theorem Numbering.skip {books : List Book} {nextRegion next : Nat}
    (h : Numbering config books nextRegion numbers) (hNext : nextRegion ≤ next) :
    Numbering config books next numbers :=
  { h with below := fun e he => (h.below e he).trans hNext }

/-- A change of the counters alone. -/
theorem Intact.congr (h : Intact config p places numbers) (hStates : q.states = p.states)
    (hSize : p.fileSize ≤ q.fileSize) (hCount : q.extentGrantCount = 0 → p.extentGrantCount = 0)
    (hNext : p.nextRegion ≤ q.nextRegion) : Intact config q places numbers where
  base := h.base.trans hSize
  geometry := h.geometry.congr hStates hSize hCount
  numbering := by
    rw [books, hStates, ← books]
    exact h.numbering.skip hNext

/-! How calls end that do not complete. -/

theorem onStore_error {α : Type} {x : StoreM α} {P : Type} {s t : Placed P}
    (hRun : (onStore x : PlaceM P α) s = .error f t) : t.placement = s.placement := by
  obtain ⟨u, -, rfl⟩ := zoom_eq_error.mp hRun
  rfl

theorem pushRow_error {row : RegistryRow} (hRun : pushRow row s = .error f t) :
    t.placement = s.placement := by
  unfold pushRow at hRun
  rw [bind_of_ok (getPlacement_apply s)] at hRun
  rcases bind_eq_error.mp hRun with hStage | ⟨_, u, _, hModify⟩
  · exact onStore_error hStage
  · cases hModify

/-- A failed search for space moves the grant counter, and nothing else. -/
theorem takeExtent_error (hRun : takeExtent config need s = .error f t) :
    ∃ next, 0 < next ∧ t.placement = { s.placement with extentGrantCount := next } := by
  unfold takeExtent at hRun
  rw [bind_of_ok (getPlacement_apply s)] at hRun
  obtain ⟨grant, next, hSearch⟩ := searchVictim_ends s.placement.states need s.placement.extentGrantCount
  obtain ⟨last, -, -, hNext, hLast, -⟩ := searchVictim_eq_some hSearch
  rw [hSearch] at hRun
  dsimp only at hRun
  rw [bind_of_ok (modifyPlacement_apply _ s)] at hRun
  refine ⟨next, by omega, ?_⟩
  cases grant with
  | whole =>
      rcases bind_eq_error.mp hRun with hSub | ⟨_, u, _, hPure⟩
      · unfold subU64 at hSub
        split at hSub <;> cases hSub
        rfl
      · cases hPure
  | missing =>
      cases hRun
      rfl
  | grow =>
      rcases bind_eq_error.mp (show growFile config need _ = .error f t from hRun) with
        hGet | ⟨p, u, hGet, hRun⟩
      · cases hGet
      cases hGet
      rcases bind_eq_error.mp hRun with hAlloc | ⟨_, u, _, hRest⟩
      · exact onStore_error hAlloc
      · cases hRest
  | cut j =>
      obtain ⟨-, victim, hVictim, hRoom⟩ := examine_cut hLast
      obtain ⟨cut, -, -, hCut⟩ := cutVictim_eq (s := { s with placement :=
        { s.placement with extentGrantCount := next } }) hVictim hRoom
      have hEnd := hCut.symm.trans hRun
      cases hEnd

/-! Extents. -/

theorem Intact.took (h : Intact config s.placement places numbers)
    (hTook : TookExtent config need s t e) :
    Intact config t.placement places numbers ∧ Unowned t.placement places e := by
  obtain ⟨hGeometry, hUnowned⟩ := h.geometry.takeExtent h.base hTook
  refine ⟨⟨h.base.trans hTook.fileSize_le, hGeometry, ?_⟩, hUnowned⟩
  rw [hTook.books, hTook.nextRegion]
  exact h.numbering

theorem Intact.pushed {row : RegistryRow} (h : Intact config s.placement places numbers)
    (hPushed : PushedRow row s t) : Intact config t.placement places numbers := by
  rw [hPushed.placement]
  exact h.congr rfl (Nat.le_refl _) id (Nat.le_refl _)

theorem Intact.grantExtent_error (h : Intact config s.placement places numbers)
    (hRun : grantExtent config i need s = .error f t) : Intact config t.placement places numbers := by
  rcases bind_eq_error.mp hRun with hTake | ⟨e, u, hTake, hRun⟩
  · obtain ⟨next, hPos, hAfter⟩ := takeExtent_error hTake
    rw [hAfter]
    exact h.congr rfl (Nat.le_refl _) (fun hZero => absurd hZero (by dsimp only; omega)) (Nat.le_refl _)
  · rw [bind_of_ok (getPlacement_apply u)] at hRun
    rcases bind_eq_error.mp hRun with hPush | ⟨_, v, _, hModify⟩
    · rw [pushRow_error hPush]
      exact (h.took (takeExtent_ok hTake)).1
    · cases hModify

/-- An extent that was granted is the last of its bucket. -/
theorem Intact.grantExtent (h : Intact config s.placement places numbers) {state : BucketState}
    (hState : s.placement.states[i]? = some state) (hGrant : GrantedExtent config i need s t e) :
    Intact config t.placement places numbers ∧ lastExtent? t.placement.states i = some e := by
  obtain ⟨mid, pushed, hTook, hPushed, rfl⟩ := hGrant.grant
  obtain ⟨hMid, hUnowned⟩ := h.took hTook
  have hBooks := hMid.numbering
  have hPlacement := hPushed.placement
  have hIntact := hMid.pushed hPushed
  have hNobody : Unowned pushed.placement places e := by
    rw [hPlacement]
    exact ⟨hUnowned.apart, hUnowned.base, hUnowned.stop, hUnowned.used, hUnowned.vacant⟩
  have hCount : 0 < pushed.placement.extentGrantCount := by
    rw [hPlacement]
    exact hTook.count_pos
  have hLt : i < pushed.placement.states.length := by
    rw [hPlacement]
    change i < mid.placement.states.length
    rw [hTook.length_states]
    exact (List.getElem?_eq_some_iff.mp hState).1
  have hHere := List.getElem?_eq_getElem hLt
  refine ⟨⟨hIntact.base, hIntact.geometry.push hHere hNobody hCount, ?_⟩, lastExtent?_push hHere⟩
  have hSame : (pushed.placement.modifyState i fun state =>
      { state with data := state.data ++ [e] }).books = pushed.placement.books :=
    map_modify_same _ _ fun _ => rfl
  change Numbering config (pushed.placement.modifyState i _).books pushed.placement.nextRegion numbers
  rw [hSame]
  exact hIntact.numbering

/-! Regions. -/

theorem Intact.grantRegion_error (h : Intact config s.placement places numbers)
    (hRun : grantRegion config i s = .error f t) : Intact config t.placement places numbers := by
  unfold BucketPlacement.grantRegion at hRun
  rw [bind_of_ok (getPlacement_apply s)] at hRun
  dsimp only at hRun
  rcases bind_eq_error.mp hRun with hSum | ⟨next, u, hSum, hRow⟩
  · obtain ⟨-, rfl, -⟩ := addU64_error hSum
    exact h
  obtain ⟨rfl, rfl, -⟩ := addU64_ok hSum
  rw [bind_of_ok (modifyPlacement_apply _ u)] at hRow
  rcases bind_eq_error.mp hRow with hPush | ⟨_, v, _, hModify⟩
  · rw [pushRow_error hPush]
    exact h.congr rfl (Nat.le_refl _) id (Nat.le_add_right _ _)
  · cases hModify

/-- A region that was granted is the last of its bucket. -/
theorem Intact.grantRegion (h : Intact config s.placement places numbers) {before after : List Book}
    {b : Book} (hBooks : s.placement.books = before ++ b :: after) (hBefore : before.length = i)
    (hFull : ∀ e ∈ b.regions, e.used = e.size) (hGrant : GrantedRegion config i s t) :
    Intact config t.placement places numbers ∧ t.placement.books = before ++
      ⟨b.bucket, b.regions ++ [⟨s.placement.nextRegion, config.regionSlots, 0⟩]⟩ :: after := by
  have hAfter : t.placement.books = before ++
      ⟨b.bucket, b.regions ++ [⟨s.placement.nextRegion, config.regionSlots, 0⟩]⟩ :: after := by
    rw [hGrant.books, hBooks, ← hBefore, PagedFile.modify_length_append]
  have hNumbering := h.numbering
  rw [hBooks] at hNumbering
  have hPush := hNumbering.push hFull
  rw [← hAfter, ← hGrant.nextRegion] at hPush
  obtain ⟨pushed, hPushed, hEnd⟩ := hGrant.grant
  have hPlacement := hPushed.placement
  have hSame : t.placement.fileSize = s.placement.fileSize ∧
      t.placement.extentGrantCount = s.placement.extentGrantCount ∧
      t.placement.states.map (fun state => (state.id, state.data)) =
        s.placement.states.map fun state => (state.id, state.data) := by
    subst hEnd
    refine ⟨?_, ?_, ?_⟩
    · change pushed.placement.fileSize = _
      rw [hPlacement]
    · change pushed.placement.extentGrantCount = _
      rw [hPlacement]
    · change (pushed.placement.states.modify i _).map _ = _
      rw [hPlacement]
      exact map_modify_same _ _ fun _ => rfl
  obtain ⟨hSize, hCount, hData⟩ := hSame
  exact ⟨⟨hSize ▸ h.base, h.geometry.congr_data hData hSize.ge (fun hZero => hCount ▸ hZero), hPush⟩, hAfter⟩

/-! The steps of an allocation. -/

/-- The bucket at a position, in the middle of the books. -/
theorem exists_book (hIndex : p.bucketIndices bucket = some i) :
    ∃ before b after, p.books = before ++ b :: after ∧ before.length = i ∧ b.bucket = bucket := by
  rw [bucketIndices_of_books] at hIndex
  obtain ⟨hLt, hBook, -⟩ := List.findIdx?_eq_some_iff_getElem.mp hIndex
  obtain ⟨before, after, hBooks, hBefore⟩ := split_at (List.getElem?_eq_getElem hLt)
  exact ⟨before, _, after, hBooks, hBefore, by simpa using hBook⟩

/-- A bucket without extents and regions behind the others. -/
theorem Intact.withNew (h : Intact config s.placement places numbers)
    (hNew : s.placement.bucketIndices bucket = none) :
    Intact config (withNew s bucket).placement places numbers ∧
      (withNew s bucket).placement.books = s.placement.books ++ [⟨bucket, []⟩] := by
  have hBooks : (BucketPlacement.withNew s bucket).placement.books = s.placement.books ++ [⟨bucket, []⟩] := by
    simp [BucketPlacement.books, BucketPlacement.withNew, book]
  refine ⟨⟨h.base, h.geometry.withNew bucket, ?_⟩, hBooks⟩
  rw [hBooks]
  apply h.numbering.concat
  intro b hb hSame
  rw [bucketIndices_of_books, List.findIdx?_eq_none_iff] at hNew
  have hOther := hNew b hb
  simp [hSame] at hOther

theorem Intact.bucketIndex_error (h : Intact config s.placement places numbers)
    (hRun : bucketIndex config bucket need s = .error f t) : Intact config t.placement places numbers := by
  unfold BucketPlacement.bucketIndex at hRun
  rw [bind_of_ok (getPlacement_apply s)] at hRun
  cases hIndex : s.placement.bucketIndices bucket with
  | some i =>
      rw [hIndex] at hRun
      cases hRun
  | none =>
      rw [hIndex] at hRun
      dsimp only at hRun
      rw [bind_of_ok (modifyPlacement_apply _ s)] at hRun
      have hNew := (h.withNew hIndex).1
      rcases bind_eq_error.mp hRun with hExtent | ⟨_, u, hExtent, hRun⟩
      · exact hNew.grantExtent_error hExtent
      obtain ⟨e, hGrant⟩ := grantExtent_ok hExtent
      have hState : (BucketPlacement.withNew s bucket).placement.states[s.placement.states.length]? =
          some ⟨bucket, [], []⟩ := by simp [BucketPlacement.withNew]
      have hMid := (hNew.grantExtent hState hGrant).1
      rcases bind_eq_error.mp hRun with hRegion | ⟨_, v, _, hPure⟩
      · exact hMid.grantRegion_error hRegion
      · cases hPure

/-- A bucket that is found or opened has its place. -/
theorem Intact.bucketIndex (h : Intact config s.placement places numbers)
    (hIndexed : Indexed config bucket need i s t) :
    Intact config t.placement places numbers ∧ t.placement.bucketIndices bucket = some i := by
  cases hIndexed with
  | known hIndex hAfter =>
      subst hAfter
      exact ⟨h, hIndex⟩
  | opened mid e hNew hIndex hExtent hRegion =>
      subst hIndex
      obtain ⟨hIntact, hBooks⟩ := h.withNew hNew
      have hState : (BucketPlacement.withNew s bucket).placement.states[s.placement.states.length]? =
          some ⟨bucket, [], []⟩ := by simp [BucketPlacement.withNew]
      have hMid := (hIntact.grantExtent hState hExtent).1
      have hMidBooks : mid.placement.books = s.placement.books ++ ⟨bucket, []⟩ :: [] := by
        rw [hExtent.books.1, hBooks]
      have hLength : s.placement.books.length = s.placement.states.length := by
        simp [BucketPlacement.books]
      obtain ⟨hAfter, hBooksAfter⟩ := hMid.grantRegion hMidBooks hLength (by simp) hRegion
      refine ⟨hAfter, ?_⟩
      rw [bucketIndices_of_books, hBooksAfter, List.findIdx?_append]
      rw [bucketIndices_of_books] at hNew
      rw [hNew]
      simp [hLength]

theorem Intact.useExtent {state : BucketState} {r : Record} {used : Nat}
    (h : Intact config s.placement places numbers) (hState : s.placement.states[i]? = some state)
    (hLast : lastExtent? s.placement.states i = some e) (hBucket : r.header.bucket = state.id)
    (hOff : r.off = e.start + e.used) (hUsed : used = e.used + r.totalLen true) (hFits : used ≤ e.size) :
    Intact config (useExtent s i used).placement (places ++ [r]) numbers := by
  obtain ⟨here, init, hHere, hData⟩ := lastExtent?_eq_some.mp hLast
  obtain rfl : state = here := Option.some.inj (hState.symm.trans hHere)
  refine ⟨h.base, h.geometry.use hState hData hOff hBucket hUsed hFits, ?_⟩
  rw [books_useExtent]
  exact h.numbering

theorem Intact.placeBytes_error {totalLen : Nat} (h : Intact config s.placement places numbers)
    (hRun : placeBytes config i totalLen s = .error f t) : Intact config t.placement places numbers := by
  unfold BucketPlacement.placeBytes at hRun
  rw [bind_of_ok (getPlacement_apply s)] at hRun
  cases hLast : lastExtent? s.placement.states i with
  | none =>
      rw [hLast] at hRun
      cases hRun
      exact h
  | some old =>
      rw [hLast] at hRun
      dsimp only at hRun
      rcases bind_eq_error.mp hRun with hSum | ⟨stop, u, hSum, hFill⟩
      · obtain ⟨-, rfl, -⟩ := addU64_error hSum
        exact h
      obtain ⟨rfl, rfl, -⟩ := addU64_ok hSum
      split at hFill
      · cases hFill
      rcases bind_eq_error.mp hFill with hNeed | ⟨need, v, hNeed, hGrow⟩
      · obtain rfl := checkedExtentSize_error hNeed
        exact h
      obtain ⟨rfl, rfl, -⟩ := checkedExtentSize_ok hNeed
      rcases bind_eq_error.mp hGrow with hExtent | ⟨_, w, hExtent, hUse⟩
      · exact h.grantExtent_error hExtent
      obtain ⟨e, hGrant⟩ := grantExtent_ok hExtent
      obtain ⟨state, init, hState, -⟩ := lastExtent?_eq_some.mp hLast
      obtain ⟨hMid, hNew⟩ := h.grantExtent hState hGrant
      rw [bind_of_ok (getPlacement_apply w), hNew] at hUse
      cases hUse

/-- Bytes that were placed belong to a new record of the bucket. -/
theorem Intact.placeBytes {totalLen off : Nat} {r : Record}
    (h : Intact config s.placement places numbers) (hIndex : s.placement.bucketIndices bucket = some i)
    (hPlaced : PlacedBytes config i totalLen off s t) (hOff : r.off = off)
    (hLen : r.totalLen true = totalLen) (hBucket : r.header.bucket = bucket) :
    Intact config t.placement (places ++ [r]) numbers ∧ t.placement.bucketIndices bucket = some i := by
  have hFound : t.placement.bucketIndices bucket = some i := by
    rw [bucketIndices_of_books, hPlaced.books.1, ← bucketIndices_of_books, hIndex]
  refine ⟨?_, hFound⟩
  obtain ⟨state, hState, hId⟩ := bucketIndices_eq_some hIndex
  cases hPlaced with
  | fits e hLast hFits hStart hAfter =>
      subst hAfter
      exact h.useExtent hState hLast (hBucket.trans hId.symm) (hOff.trans hStart) (by rw [hLen]) hFits
  | granted old e last mid hOld hFull hExtent hLast hStart hAfter =>
      obtain ⟨hMid, hNew⟩ := h.grantExtent hState hExtent
      obtain rfl : last = e := Option.some.inj (hLast.symm.trans hNew)
      have hCount : s.placement.extentGrantCount ≠ 0 := fun hZero => by
        have hNone := h.geometry.fresh hZero
        obtain ⟨_, _, hOldState, hData⟩ := lastExtent?_eq_some.mp hOld
        have hMem : old ∈ extents s.placement.states :=
          mem_extents.mpr ⟨i, _, hOldState, by simp [hData]⟩
        simp [hNone] at hMem
      obtain ⟨taken, pushed, hTook, -, -⟩ := hExtent.grant
      have hRoom := hTook.need_le hCount
      have hNeed : totalLen ≤ requiredExtentSize config totalLen :=
        (le_pageUp totalLen).trans (Nat.le_max_left _ _)
      have hUnused := hTook.used_eq
      have hMidFound : mid.placement.bucketIndices bucket = some i := by
        rw [bucketIndices_of_books, hExtent.books.1, ← bucketIndices_of_books, hIndex]
      obtain ⟨midState, hMidState, hMidId⟩ := bucketIndices_eq_some hMidFound
      subst hAfter
      exact hMid.useExtent hMidState hNew (hBucket.trans hMidId.symm)
        (by rw [hOff, hStart, hUnused]; rfl) (by rw [hUnused, hLen, Nat.zero_add]) (by omega)

/-- All regions of a bucket whose last one is full. -/
theorem Intact.full {before after : List Book} {b : Book} {init : List Extent} {old : Extent}
    (h : Intact config p places numbers) (hBooks : p.books = before ++ b :: after)
    (hRegions : b.regions = init ++ [old]) (hFull : old.size ≤ old.used) :
    ∀ e ∈ b.regions, e.used = e.size := by
  have hMine : b ∈ p.books := by simp [hBooks]
  intro e he
  have hUsed := h.numbering.used e (List.mem_flatMap.mpr ⟨b, hMine, he⟩)
  rw [hRegions] at he
  rcases List.mem_append.mp he with he | he
  · exact h.numbering.full b hMine e (by rw [hRegions]; simpa using he)
  · rw [List.mem_singleton] at he
    subst he
    omega

theorem Intact.nextNumber_error (h : Intact config s.placement places numbers)
    (hRun : nextNumber config i s = .error f t) : Intact config t.placement places numbers := by
  rw [BucketPlacement.nextNumber, bind_of_ok (getPlacement_apply s)] at hRun
  cases hLast : lastRegion? s.placement.states i with
  | none =>
      rw [lastRegion?] at hLast
      simp only [hLast] at hRun
      cases hRun
      exact h
  | some old =>
      have hOld := hLast
      rw [lastRegion?] at hLast
      simp only [hLast] at hRun
      by_cases hFits : old.used < old.size
      · rw [if_pos hFits] at hRun
        cases hRun
      rw [if_neg hFits] at hRun
      rcases bind_eq_error.mp hRun with hRegion | ⟨_, u, hRegion, hRun⟩
      · exact h.grantRegion_error hRegion
      rw [bind_of_ok (getPlacement_apply u)] at hRun
      rw [lastRegion?_of_books] at hOld
      obtain ⟨b, hBook, hRegions⟩ := Option.bind_eq_some_iff.mp hOld
      obtain ⟨init, hRegions⟩ := List.getLast?_eq_some_iff.mp hRegions
      obtain ⟨before, after, hBooks, hBefore⟩ := split_at hBook
      have hAllFull := h.full hBooks hRegions (by omega)
      obtain ⟨hMid, -⟩ := h.grantRegion hBooks hBefore hAllFull (grantRegion_ok hRegion)
      cases hNew : lastRegion? u.placement.states i with
      | none =>
          rw [lastRegion?] at hNew
          simp only [hNew] at hRun
          cases hRun
          exact hMid
      | some new =>
          rw [lastRegion?] at hNew
          simp only [hNew] at hRun
          cases hRun

/-- A number that was given out is new. -/
theorem Intact.nextNumber {id : Nat} {r : Record} (h : Intact config s.placement places numbers)
    (hPos : 0 < config.regionSlots) (hIndex : s.placement.bucketIndices bucket = some i)
    (hNumbered : Numbered config i id s t) (hId : r.header.id = id) (hBucket : r.header.bucket = bucket) :
    Intact config t.placement places (numbers ++ [r]) ∧ ∀ old ∈ numbers, old.header.id ≠ id := by
  obtain ⟨before, b, after, hBooks, hBefore, hName⟩ := exists_book hIndex
  have hGet : s.placement.books[i]? = some b := by
    rw [hBooks, ← hBefore]
    simp
  have hNumbering := h.numbering
  rw [hBooks] at hNumbering
  cases hNumbered with
  | fits region hLast hFits hNumber hAfter =>
      rw [lastRegion?_of_books, hGet, Option.bind_some] at hLast
      obtain ⟨init, hRegions⟩ := List.getLast?_eq_some_iff.mp hLast
      have hIssue := hNumbering.issue hRegions hFits (hId.trans hNumber) (hBucket.trans hName.symm)
      subst hAfter
      refine ⟨⟨h.base, ?_, ?_⟩, fun old hOld => hNumber ▸ hNumbering.fresh hRegions hFits hOld⟩
      · exact h.geometry.congr_data (map_modify_same _ _ fun _ => rfl) (Nat.le_refl _) fun hZero => hZero
      · rw [books_useRegion, hBooks, ← hBefore, PagedFile.modify_length_append, hRegions, modifyLast_concat]
        exact hIssue
  | granted old region mid hOld hFull hRegion hLast hNumber hAfter =>
      rw [lastRegion?_of_books, hGet, Option.bind_some] at hOld
      obtain ⟨init, hRegions⟩ := List.getLast?_eq_some_iff.mp hOld
      have hAllFull := h.full hBooks hRegions hFull
      obtain ⟨hMid, hMidBooks⟩ := h.grantRegion hBooks hBefore hAllFull hRegion
      have hMidGet : mid.placement.books[i]? = some
          ⟨b.bucket, b.regions ++ [⟨s.placement.nextRegion, config.regionSlots, 0⟩]⟩ := by
        rw [hMidBooks, ← hBefore]
        simp
      rw [lastRegion?_of_books, hMidGet, Option.bind_some, List.getLast?_concat,
        Option.some.injEq] at hLast
      subst hLast
      have hMidNumbering := hMid.numbering
      rw [hMidBooks] at hMidNumbering
      have hNumber' : r.header.id = s.placement.nextRegion + 0 := hId.trans hNumber
      have hIssue := hMidNumbering.issue rfl hPos hNumber' (hBucket.trans hName.symm)
      subst hAfter
      refine ⟨⟨hMid.base, ?_, ?_⟩, fun old' hOld' => ?_⟩
      · exact hMid.geometry.congr_data (map_modify_same _ _ fun _ => rfl) (Nat.le_refl _) fun hZero => hZero
      · rw [books_useRegion, hMidBooks, ← hBefore, PagedFile.modify_length_append, modifyLast_concat]
        exact hIssue
      · have hFresh := hMidNumbering.fresh rfl hPos hOld'
        simp only at hFresh hNumber
        omega

/-! Allocations. -/

theorem Intact.alloc {totalLen off id : Nat} {r : Record} (h : Intact config s.placement places numbers)
    (hPos : 0 < config.regionSlots) (hRun : BucketPlacement.alloc config bucket totalLen s = .ok (off, id) t)
    (hr : r.Fills true off totalLen bucket) (hId : r.header.id = id) :
    Intact config t.placement (places ++ [r]) (numbers ++ [r]) ∧ ∀ old ∈ numbers, old.header.id ≠ id := by
  obtain ⟨i, u, v, hIndexed, hPlaced, hNumbered⟩ := alloc_ok hRun
  obtain ⟨hFound, hIndex⟩ := h.bucketIndex hIndexed
  obtain ⟨hFilled, hIndex⟩ := hFound.placeBytes hIndex hPlaced hr.off hr.length hr.bucket
  exact hFilled.nextNumber hPos hIndex hNumbered hId hr.bucket

/-- When the number is refused, the bytes that were placed for it are lost. -/
theorem Intact.alloc_error {totalLen : Nat} (h : Intact config s.placement places numbers)
    (hLen : headerLen true ≤ totalLen) (hRun : BucketPlacement.alloc config bucket totalLen s = .error f t) :
    ∃ lost, Intact config t.placement (places ++ lost) numbers := by
  rcases bind_eq_error.mp hRun with hNeed | ⟨need, r, hNeed, hFirst⟩
  · obtain rfl := checkedExtentSize_error hNeed
    exact ⟨[], by simpa using h⟩
  obtain ⟨rfl, rfl, -⟩ := checkedExtentSize_ok hNeed
  rcases bind_eq_error.mp hFirst with hIndex | ⟨i, u, hIndex, hSecond⟩
  · exact ⟨[], by simpa using h.bucketIndex_error hIndex⟩
  obtain ⟨hFound, hHere⟩ := h.bucketIndex (bucketIndex_ok hIndex)
  rcases bind_eq_error.mp hSecond with hPlace | ⟨off, v, hPlace, hThird⟩
  · exact ⟨[], by simpa using hFound.placeBytes_error hPlace⟩
  have hFilled := (hFound.placeBytes (r := .filling off bucket 0 (totalLen - headerLen true)) hHere
    (placeBytes_ok hPlace) rfl (by rw [Record.filling_totalLen]; omega) rfl).1
  rcases bind_eq_error.mp hThird with hNumber | ⟨id, w, _, hPure⟩
  · exact ⟨_, hFilled.nextNumber_error hNumber⟩
  · cases hPure

theorem Intact.allocUpdate {totalLen off : Nat} {r : Record} (h : Intact config s.placement places numbers)
    (hRun : BucketPlacement.allocUpdate config bucket totalLen s = .ok off t) (hr : r.Fills true off totalLen bucket) :
    Intact config t.placement (places ++ [r]) numbers := by
  obtain ⟨i, hIndex, hPlaced⟩ := allocUpdate_ok hRun
  exact (h.placeBytes hIndex hPlaced hr.off hr.length hr.bucket).1

theorem Intact.allocUpdate_error {totalLen : Nat} (h : Intact config s.placement places numbers)
    (hRun : BucketPlacement.allocUpdate config bucket totalLen s = .error f t) : Intact config t.placement places numbers := by
  rw [BucketPlacement.allocUpdate, bind_of_ok (getPlacement_apply s)] at hRun
  cases hIndex : s.placement.bucketIndices bucket with
  | none =>
      simp only [hIndex] at hRun
      cases hRun
      exact h
  | some i =>
      simp only [hIndex] at hRun
      exact h.placeBytes_error hRun

end BucketPlacement

/-! The contract that both placements meet. -/

/-- A placement that keeps what it gave out apart from what it gives out later,
also after calls that failed. The second list has the records whose numbers were
given out, the first one those whose places were. -/
class EnduringPlacement (P : Type) [Placement P] [LawfulPlacement P] where
  Endures : HeapConfig → P → List Record → List Record → Prop
  kept {config : HeapConfig} {s : Placed P} {log : List Record} {rows : List RegistryRow} :
    LawfulPlacement.Keeps config s log rows → Endures config s.placement log log
  bounds {config : HeapConfig} {p : P} {places numbers : List Record} {r : Record} :
    Endures config p places numbers → r ∈ places → PAGE ≤ r.off
  apart {config : HeapConfig} {p : P} {places numbers : List Record} {old r : Record} :
    Endures config p (places ++ [r]) numbers → old ∈ places →
      Record.Apart (Placement.withBucket P) old r
  alloc {config : HeapConfig} {s t : Placed P} {places numbers : List Record} {r : Record}
    {bucket totalLen off id : Nat} : Endures config s.placement places numbers →
      LawfulPlacement.Accepts P config → Placement.alloc config bucket totalLen s = .ok (off, id) t →
      r.Fills (Placement.withBucket P) off totalLen bucket → r.header.id = id →
      Endures config t.placement (places ++ [r]) (numbers ++ [r]) ∧ ∀ old ∈ numbers, old.header.id ≠ id
  allocFails {config : HeapConfig} {s t : Placed P} {places numbers : List Record}
    {bucket totalLen : Nat} {f : Failure} : Endures config s.placement places numbers →
      headerLen (Placement.withBucket P) ≤ totalLen →
      Placement.alloc config bucket totalLen s = .error f t →
      ∃ lost, Endures config t.placement (places ++ lost) numbers
  allocUpdate {config : HeapConfig} {s t : Placed P} {places numbers : List Record} {r : Record}
    {bucket totalLen off : Nat} : Endures config s.placement places numbers →
      Placement.allocUpdate config bucket totalLen s = .ok off t →
      r.Fills (Placement.withBucket P) off totalLen bucket →
      Endures config t.placement (places ++ [r]) numbers
  allocUpdateFails {config : HeapConfig} {s t : Placed P} {places numbers : List Record}
    {bucket totalLen : Nat} {f : Failure} : Endures config s.placement places numbers →
      Placement.allocUpdate config bucket totalLen s = .error f t →
      Endures config t.placement places numbers

instance : EnduringPlacement BucketPlacement where
  Endures := BucketPlacement.Intact
  kept h := ⟨h.base, h.geometry, h.numbering⟩
  bounds h hr := (h.geometry.bounds hr).1
  apart h hOld := h.geometry.apart_last hOld
  alloc h hConfig hRun hr hId := h.alloc hConfig.regionSlots hRun hr hId
  allocFails h hLen hRun := h.alloc_error hLen hRun
  allocUpdate h hRun hr := h.allocUpdate hRun hr
  allocUpdateFails h hRun := h.allocUpdate_error hRun

namespace AppendPlacement

/-- A chain of places up to the cursor, under numbers below the next one. -/
structure Intact (p : AppendPlacement) (places numbers : List Record) : Prop where
  chain : Chain false PAGE p.cursor places
  numbers : ∀ r ∈ numbers, r.header.id < p.nextId

variable {config : HeapConfig} {s t : Placed AppendPlacement} {places numbers : List Record}
  {r : Record} {bucket totalLen off id : Nat} {f : Failure}

/-- The cursor moves behind a place, and only when there is room for it. -/
theorem Intact.allocUpdate (h : Intact s.placement places numbers)
    (hRun : AppendPlacement.allocUpdate config bucket totalLen s = .ok off t) (hr : r.Fills false off totalLen bucket) :
    Intact t.placement (places ++ [r]) numbers := by
  obtain ⟨hOff, -, hPlacement, -⟩ := allocUpdate_ok hRun
  have hStop : r.stop false = t.placement.cursor := by
    rw [Record.stop, hr.off, hr.length, hOff, hPlacement]
  constructor
  case chain =>
    rw [← hStop]
    exact h.chain.concat (hr.off.trans hOff)
  case numbers =>
    rw [hPlacement]
    exact h.numbers

theorem allocUpdate_error (hRun : AppendPlacement.allocUpdate config bucket totalLen s = .error f t) :
    t.placement = s.placement := by
  rw [AppendPlacement.allocUpdate, bind_of_ok (getPlacement_apply s)] at hRun
  rcases bind_eq_error.mp hRun with hAlloc | ⟨_, u, _, hRest⟩
  · obtain ⟨u, -, rfl⟩ := zoom_eq_error.mp hAlloc
    rfl
  · cases hRest

theorem alloc_error (hRun : AppendPlacement.alloc config bucket totalLen s = .error f t) :
    t.placement = s.placement := by
  rcases bind_eq_error.mp hRun with hUpdate | ⟨off, u, _, hRest⟩
  · exact allocUpdate_error hUpdate
  · cases hRest

theorem Intact.alloc (h : Intact s.placement places numbers)
    (hRun : AppendPlacement.alloc config bucket totalLen s = .ok (off, id) t) (hr : r.Fills false off totalLen bucket)
    (hId : r.header.id = id) :
    Intact t.placement (places ++ [r]) (numbers ++ [r]) ∧ ∀ old ∈ numbers, old.header.id ≠ id := by
  obtain ⟨hOff, hNumber, -, hPlacement, -⟩ := alloc_ok hRun
  have hStop : r.stop false = t.placement.cursor := by
    rw [Record.stop, hr.off, hr.length, hOff, hPlacement]
  constructor
  · constructor
    case chain =>
      rw [← hStop]
      exact h.chain.concat (hr.off.trans hOff)
    case numbers =>
      intro old hOld
      rw [hPlacement]
      rcases List.mem_append.mp hOld with hOld | hOld
      · exact Nat.lt_succ_of_lt (h.numbers old hOld)
      · rw [List.mem_singleton.mp hOld, hId, hNumber]
        exact Nat.lt_succ_self _
  · intro old hOld hSame
    have hBelow := h.numbers old hOld
    omega

instance : EnduringPlacement AppendPlacement where
  Endures _ := Intact
  kept h := ⟨h.chain, fun r hr => (h.numbers r.header.id).mp ⟨r, hr, rfl⟩⟩
  bounds h hr := (h.chain.bounds hr).1
  apart h hOld := Or.inl (h.chain.before hOld)
  alloc h _ hRun hr hId := h.alloc hRun hr hId
  allocFails h _ hRun := ⟨[], by rw [alloc_error hRun, List.append_nil]; exact h⟩
  allocUpdate h hRun hr := h.allocUpdate hRun hr
  allocUpdateFails h hRun := by rw [allocUpdate_error hRun]; exact h

end AppendPlacement

end HeapStore
