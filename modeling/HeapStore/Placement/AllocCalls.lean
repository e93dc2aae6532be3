import HeapStore.Placement.NoPanic
import HeapStore.Placement.Replay
import HeapStore.Storage.Untouched
import Mathlib.Logic.Relation

/-! When a call of the bucket allocator panics: a bucket that is being opened
owns no extent yet and the victim search may come to it, and the sums of the
allocator may leave 64 bits. In every other state that completed calls lead to,
a call fails in a block request only. -/
namespace HeapStore

open Effect Placed

namespace BucketPlacement

variable {config : HeapConfig} {need i bucket totalLen : Nat} {s t start : Placed BucketPlacement}
  {e : Extent}

/-! What grants leave alone. -/

/-- The regions of all buckets, and where the next one starts. -/
structure SameRegions (s t : Placed BucketPlacement) : Prop where
  slots : t.placement.states.map BucketState.slots = s.placement.states.map BucketState.slots
  next : t.placement.nextRegion = s.placement.nextRegion

theorem TookExtent.sameRegions (h : TookExtent config need s t e) : SameRegions s t := by
  cases h with
  | whole _ _ _ hAfter => exact ⟨by rw [hAfter], by rw [hAfter]⟩
  | grow _ _ _ _ hAfter => exact ⟨by rw [hAfter], by rw [hAfter]⟩
  | cut next i cut victim _ _ _ _ _ hAfter =>
      subst hAfter
      exact ⟨map_modify_same _ _ fun _ => rfl, rfl⟩

theorem GrantedExtent.sameRegions (h : GrantedExtent config i need s t e) : SameRegions s t := by
  obtain ⟨mid, pushed, hTook, hPushed, rfl⟩ := h.grant
  have hMid := hTook.sameRegions
  constructor
  · change (pushed.placement.states.modify i _).map BucketState.slots = _
    have hSame : (pushed.placement.states.modify i fun state =>
        { state with data := state.data ++ [e] }).map BucketState.slots =
          pushed.placement.states.map BucketState.slots := map_modify_same _ _ fun _ => rfl
    rw [hSame, hPushed.placement]
    exact hMid.slots
  · change pushed.placement.nextRegion = _
    rw [hPushed.placement]
    exact hMid.next

theorem PlacedBytes.sameRegions {off : Nat} (h : PlacedBytes config i totalLen off s t) :
    SameRegions s t := by
  cases h with
  | fits _ _ _ _ hAfter =>
      subst hAfter
      exact ⟨map_modify_same _ _ fun _ => rfl, rfl⟩
  | granted _ _ _ mid _ _ hExtent _ _ hAfter =>
      subst hAfter
      have hMid := hExtent.sameRegions
      have hSame : (useExtent mid i totalLen).placement.states.map BucketState.slots =
          mid.placement.states.map BucketState.slots := map_modify_same _ _ fun _ => rfl
      exact ⟨hSame.trans hMid.slots, hMid.next⟩

theorem SameRegions.lastRegion? (h : SameRegions s t) :
    lastRegion? t.placement.states i = lastRegion? s.placement.states i := by
  have hSlots (states : List BucketState) : BucketPlacement.lastRegion? states i =
      ((states.map BucketState.slots)[i]?).bind List.getLast? := by
    rw [BucketPlacement.lastRegion?, List.getElem?_map]
    cases states[i]? <;> rfl
  rw [hSlots, hSlots, h.slots]

/-- A grant takes one row of the registry. -/
theorem GrantedExtent.registryEnd (h : GrantedExtent config i need s t e) :
    t.placement.registryEnd = s.placement.registryEnd + REGISTRY_ROW_SIZE := by
  obtain ⟨mid, pushed, hTook, hPushed, rfl⟩ := h.grant
  change pushed.placement.registryEnd = _
  rw [hPushed.placement, ← hTook.registryEnd]

theorem GrantedRegion.registryEnd (h : GrantedRegion config i s t) :
    t.placement.registryEnd = s.placement.registryEnd + REGISTRY_ROW_SIZE := by
  obtain ⟨pushed, hPushed, rfl⟩ := h.grant
  change pushed.placement.registryEnd = _
  rw [hPushed.placement]

theorem PlacedBytes.registryEnd_le {off : Nat} (h : PlacedBytes config i totalLen off s t) :
    t.placement.registryEnd ≤ s.placement.registryEnd + REGISTRY_ROW_SIZE := by
  cases h with
  | fits _ _ _ _ hAfter =>
      subst hAfter
      exact Nat.le_add_right _ _
  | granted _ _ _ mid _ _ hExtent _ _ hAfter =>
      subst hAfter
      exact Nat.le_of_eq hExtent.registryEnd

theorem RowRoom.later {count : Nat} (h : RowRoom count s) (more left : Nat)
    (hEnd : t.placement.registryEnd ≤ s.placement.registryEnd + more * REGISTRY_ROW_SIZE)
    (hLeft : left + more ≤ count) : RowRoom left t := by
  have hRows := Nat.mul_le_mul_right REGISTRY_ROW_SIZE hLeft
  rw [Nat.add_mul] at hRows
  rw [RowRoom] at h ⊢
  omega

/-- Every grant counts at least one attempt. -/
theorem TookExtent.counts (h : TookExtent config need s t e) :
    s.placement.extentGrantCount < t.placement.extentGrantCount := by
  cases h with
  | whole hCount _ _ hAfter =>
      rw [hAfter, hCount]
      exact Nat.one_pos
  | grow _ hNext _ _ hAfter =>
      rw [hAfter]
      exact hNext
  | cut _ _ _ _ hNext _ _ _ _ hAfter =>
      rw [hAfter]
      exact hNext

theorem GrantedExtent.counts (h : GrantedExtent config i need s t e) :
    s.placement.extentGrantCount < t.placement.extentGrantCount := by
  obtain ⟨mid, pushed, hTook, hPushed, rfl⟩ := h.grant
  change _ < pushed.placement.extentGrantCount
  rw [hPushed.placement]
  exact hTook.counts

theorem GrantedRegion.count (h : GrantedRegion config i s t) :
    t.placement.extentGrantCount = s.placement.extentGrantCount := by
  obtain ⟨pushed, hPushed, rfl⟩ := h.grant
  change pushed.placement.extentGrantCount = _
  rw [hPushed.placement]

theorem PlacedBytes.counts {off : Nat} (h : PlacedBytes config i totalLen off s t) :
    s.placement.extentGrantCount ≤ t.placement.extentGrantCount := by
  cases h with
  | fits _ _ _ _ hAfter =>
      subst hAfter
      exact Nat.le_refl _
  | granted _ _ _ mid _ _ hExtent _ _ hAfter =>
      subst hAfter
      exact hExtent.counts.le

/-! Placing a record and giving it a number. -/

/-- The sums of placing a record in a bucket fit, in its last extent and, when
the record does not fit there, in the grant of a new one. -/
def PlaceFits (config : HeapConfig) (i totalLen : Nat) (s : Placed BucketPlacement) : Prop :=
  ∀ e, lastExtent? s.placement.states i = some e → e.used + totalLen < 2 ^ 64 ∧
    (e.size < e.used + totalLen →
      totalLen + PAGE < 2 ^ 64 ∧ GrowthFits config (requiredExtentSize config totalLen) s)

/-- Where the last region of a bucket is full, the end of a further one fits. -/
def NumberFits (config : HeapConfig) (i : Nat) (s : Placed BucketPlacement) : Prop :=
  ∀ region, lastRegion? s.placement.states i = some region → region.size ≤ region.used →
    s.placement.nextRegion + config.regionSlots < 2 ^ 64

theorem SameRegions.numberFits (h : SameRegions s t) : NumberFits config i t ↔ NumberFits config i s := by
  rw [NumberFits, NumberFits, h.lastRegion?, h.next]

theorem placeBytes_failsOnly (h : Stocked s.placement) (hi : i < s.placement.states.length)
    (hFits : PlaceFits config i totalLen s) (hRoom : RowRoom 1 s) :
    FailsOnly IoFailure (placeBytes config i totalLen) s := by
  obtain ⟨e, hLast⟩ := lastExtent?_isSome h.data hi
  obtain ⟨hSum, hGrant⟩ := hFits e hLast
  rw [placeBytes]
  refine FailsOnly.bind (fun _ _ hGet => by cases hGet) fun p u hGet => ?_
  cases hGet
  simp only [hLast]
  refine FailsOnly.bind (fun _ _ hAdd => ?_) fun stop u hAdd => ?_
  · rw [addU64_run hSum s] at hAdd
    cases hAdd
  obtain ⟨rfl, rfl, -⟩ := addU64_ok hAdd
  split
  · exact fun _ _ hPure => by cases hPure
  · rename_i hFull
    obtain ⟨hUp, hGrowth⟩ := hGrant (Nat.not_le.mp hFull)
    refine FailsOnly.bind (fun _ _ hNeed => ?_) fun need v hNeed => ?_
    · rw [checkedExtentSize_run hUp u] at hNeed
      cases hNeed
    obtain ⟨rfl, rfl, -⟩ := checkedExtentSize_ok hNeed
    refine FailsOnly.bind (grantExtent_failsOnly h.base h.not_stranded hGrowth hRoom)
      fun _ mid hGrant => ?_
    obtain ⟨new, hGranted⟩ := grantExtent_ok hGrant
    refine FailsOnly.bind (fun _ _ hGet => by cases hGet) fun p w hGet => ?_
    cases hGet
    obtain ⟨last, hLast'⟩ := lastExtent?_isSome (i := i) (hGranted.stocked h).data
      (by rwa [hGranted.length_states])
    simp only [hLast']
    exact fun _ _ hPure => by cases hPure

theorem placeBytes_fits {off : Nat} (hRun : placeBytes config i totalLen s = .ok off t) :
    PlaceFits config i totalLen s := by
  intro e hLast
  rw [placeBytes, bind_of_ok (getPlacement_apply s)] at hRun
  simp only [hLast] at hRun
  obtain ⟨stop, u, hAdd, hRest⟩ := bind_eq_ok.mp hRun
  obtain ⟨rfl, rfl, hSum⟩ := addU64_ok hAdd
  refine ⟨hSum, fun hFull => ?_⟩
  rw [if_neg (Nat.not_le.mpr hFull)] at hRest
  obtain ⟨need, v, hNeed, hGrow⟩ := bind_eq_ok.mp hRest
  obtain ⟨rfl, rfl, hUp⟩ := checkedExtentSize_ok hNeed
  obtain ⟨_, mid, hGrant, -⟩ := bind_eq_ok.mp hGrow
  obtain ⟨new, w, hTake, -⟩ := bind_eq_ok.mp hGrant
  exact ⟨hUp, takeExtent_fits hTake⟩

theorem nextNumber_failsOnly (h : Stocked s.placement) (hi : i < s.placement.states.length)
    (hFits : NumberFits config i s) (hRoom : RowRoom 1 s) :
    FailsOnly IoFailure (nextNumber config i) s := by
  obtain ⟨region, hLast⟩ := lastRegion?_isSome h.slots hi
  have hNext := hFits region hLast
  rw [lastRegion?] at hLast
  rw [nextNumber]
  refine FailsOnly.bind (fun _ _ hGet => by cases hGet) fun p u hGet => ?_
  cases hGet
  simp only [hLast]
  split
  · exact fun _ _ hPure => by cases hPure
  · rename_i hFull
    refine FailsOnly.bind (grantRegion_failsOnly (hNext (Nat.not_lt.mp hFull)) hRoom)
      fun _ mid hGrant => ?_
    have hGranted := grantRegion_ok hGrant
    refine FailsOnly.bind (fun _ _ hGet => by cases hGet) fun p u hGet => ?_
    cases hGet
    obtain ⟨last, hLast'⟩ := lastRegion?_isSome (i := i) (hGranted.stocked h).slots
      (by rwa [hGranted.length_states])
    rw [lastRegion?] at hLast'
    simp only [hLast']
    exact fun _ _ hPure => by cases hPure

theorem nextNumber_fits {id : Nat} (hRun : nextNumber config i s = .ok id t) :
    NumberFits config i s := by
  intro region hLast hFull
  rw [lastRegion?] at hLast
  rw [nextNumber, bind_of_ok (getPlacement_apply s)] at hRun
  simp only [hLast, if_neg (Nat.not_lt.mpr hFull)] at hRun
  obtain ⟨_, mid, hGrant, -⟩ := bind_eq_ok.mp hRun
  exact grantRegion_fits hGrant

/-! Opening a bucket. -/

/-- A bucket that is not there yet can be opened: the search ends before it comes
to the new bucket, and the sums of its extent and of its region fit. -/
structure OpenFits (config : HeapConfig) (bucket need : Nat) (s : Placed BucketPlacement) : Prop where
  room : RoomBeforeNew s.placement need
  growth : GrowthFits config need (withNew s bucket)
  region : s.placement.nextRegion + config.regionSlots < 2 ^ 64

theorem bucketIndex_known {bucket : Nat} (h : s.placement.bucketIndices bucket = some i) :
    bucketIndex config bucket need s = .ok i s := by
  rw [bucketIndex, bind_of_ok (getPlacement_apply s)]
  simp only [h]
  rfl

theorem bucketIndex_new {bucket : Nat} (h : s.placement.bucketIndices bucket = none) :
    bucketIndex config bucket need s = (do
      grantExtent config s.placement.states.length need
      grantRegion config s.placement.states.length
      return s.placement.states.length : PlaceM BucketPlacement Nat) (withNew s bucket) := by
  rw [bucketIndex, bind_of_ok (getPlacement_apply s)]
  simp only [h]
  rw [bind_of_ok (modifyPlacement_apply _ s)]
  rfl

theorem bucketIndex_failsOnly (h : Stocked s.placement)
    (hFits : s.placement.bucketIndices bucket = none → OpenFits config bucket need s)
    (hRoom : RowRoom 2 s) : FailsOnly IoFailure (bucketIndex config bucket need) s := by
  cases hIndex : s.placement.bucketIndices bucket with
  | some j =>
      rw [FailsOnly.congr (y := pure j) (bucketIndex_known hIndex)]
      exact FailsOnly.pure _ _ _
  | none =>
      have hOpen := hFits hIndex
      rw [FailsOnly.congr (bucketIndex_new hIndex)]
      have hFree : ¬ Stranded (withNew s bucket).placement.states need
          (withNew s bucket).placement.extentGrantCount := fun hStuck =>
        (stranded_concat_iff h.data rfl).mp hStuck hOpen.room
      have hRows : RowRoom 2 (withNew s bucket) := hRoom
      refine FailsOnly.bind (grantExtent_failsOnly (s := withNew s bucket) h.base hFree hOpen.growth
        (hRows.later 0 1 (by simp) (by decide))) fun _ mid hGrant => ?_
      obtain ⟨e, hGranted⟩ := grantExtent_ok hGrant
      have hNext : mid.placement.nextRegion = s.placement.nextRegion := hGranted.sameRegions.next
      refine FailsOnly.bind (grantRegion_failsOnly (by rw [hNext]; exact hOpen.region)
        (hRows.later 1 1 (by rw [Nat.one_mul]; exact hGranted.registryEnd.le) (by decide)))
        fun _ _ _ => ?_
      exact FailsOnly.pure _ _ _

/-- The very first grant takes what the file has behind its header page. -/
theorem takeExtent_whole (hCount : s.placement.extentGrantCount = 0)
    (hRun : takeExtent config need s = .ok e t) :
    e = ⟨PAGE, s.placement.fileSize - PAGE, 0⟩ ∧ t = counted s 1 := by
  have hSearch : searchVictim s.placement.states need (searchFuel s.placement.states)
      s.placement.extentGrantCount = some (.whole, 1) := by
    rw [hCount]
    rfl
  rw [takeExtent, bind_of_ok (getPlacement_apply s)] at hRun
  simp only [hSearch] at hRun
  rw [bind_of_ok (modifyPlacement_apply _ s)] at hRun
  simp only [subU64] at hRun
  split at hRun
  · cases hRun
  · cases hRun
    exact ⟨rfl, rfl⟩

/-- A bucket that was just opened: its extent and region are unused, and the
extent has the size that was asked for unless it is the first of the store. -/
structure Opened (config : HeapConfig) (need i : Nat) (s t : Placed BucketPlacement) (e : Extent) :
    Prop where
  last : lastExtent? t.placement.states i = some e
  unused : e.used = 0
  enough : s.placement.extentGrantCount ≠ 0 → need ≤ e.size
  size : s.placement.extentGrantCount = 0 → e.size = s.placement.fileSize - PAGE
  count : s.placement.extentGrantCount = 0 → t.placement.extentGrantCount = 1
  fileSize : s.placement.extentGrantCount = 0 → t.placement.fileSize = s.placement.fileSize
  allocated : s.placement.extentGrantCount = 0 →
    (t.store.paged .data).allocatedEnd = (s.store.paged .data).allocatedEnd
  buckets : t.placement.states.length = s.placement.states.length + 1
  region : ∃ region, lastRegion? t.placement.states i = some region ∧ region.used = 0 ∧
    region.size = config.regionSlots

theorem PushedRow.handle {row : RegistryRow} (h : PushedRow row s t) :
    t.store.paged .data = s.store.paged .data :=
  ((Only.stage .registry _ _).ok h.store).paged .data (by decide)

theorem lastRegion?_push {states : List BucketState} (hi : i < states.length) :
    lastRegion? (states.modify i fun state => { state with slots := state.slots ++ [e] }) i = some e := by
  rw [lastRegion?, List.getElem?_modify, List.getElem?_eq_getElem hi]
  simp

theorem lastExtent?_pushRegion (states : List BucketState) (i : Nat) (region : Extent) :
    lastExtent? (states.modify i fun state => { state with slots := state.slots ++ [region] }) i =
      lastExtent? states i := by
  rw [lastExtent?, lastExtent?, List.getElem?_modify]
  cases states[i]? <;> simp

/-- A bucket is opened only where it can be. -/
theorem bucketIndex_opened (h : Stocked s.placement) (hIndex : s.placement.bucketIndices bucket = none)
    (hRun : bucketIndex config bucket need s = .ok i t) :
    OpenFits config bucket need s ∧ ∃ e, Opened config need i s t e := by
  rw [bucketIndex_new hIndex] at hRun
  obtain ⟨_, mid, hGrant, hRest⟩ := bind_eq_ok.mp hRun
  obtain ⟨_, u, hRegion, hPure⟩ := bind_eq_ok.mp hRest
  cases hPure
  obtain ⟨e, taken, hTake, hPush⟩ := bind_eq_ok.mp hGrant
  rw [bind_of_ok (getPlacement_apply taken)] at hPush
  obtain ⟨_, pushed, hRow, hGive⟩ := bind_eq_ok.mp hPush
  cases hGive
  have hTook := takeExtent_ok hTake
  have hPushed := pushRow_pushed hRow
  have hLength : s.placement.states.length < pushed.placement.states.length := by
    rw [hPushed.placement]
    change _ < taken.placement.states.length
    rw [hTook.length_states]
    simp [withNew]
  have hGranted := grantRegion_ok hRegion
  have hBuckets := hGranted.length_states
  obtain ⟨row, hRowPushed, rfl⟩ := hGranted.grant
  have hNext : pushed.placement.nextRegion = s.placement.nextRegion := by
    rw [hPushed.placement]
    exact hTook.nextRegion
  constructor
  · constructor
    case room =>
      by_contra hNoRoom
      have hMissing : ∃ v, takeExtent config need (withNew s bucket) =
          .error (.panic "bucket without extent") v :=
        takeExtent_stranded ((stranded_concat_iff h.data rfl).mpr hNoRoom)
      obtain ⟨v, hPanic⟩ := hMissing
      rw [hTake] at hPanic
      cases hPanic
    case growth => exact takeExtent_fits hTake
    case region =>
      have hSum := grantRegion_fits hRegion
      change pushed.placement.nextRegion + config.regionSlots < 2 ^ 64 at hSum
      rwa [hNext] at hSum
  · refine ⟨e, ?_⟩
    constructor
    case last =>
      change lastExtent? (row.placement.states.modify _ _) _ = some e
      rw [lastExtent?_pushRegion, hRowPushed.placement]
      exact lastExtent?_push (List.getElem?_eq_getElem hLength)
    case unused => exact hTook.used_eq
    case enough =>
      intro hCount
      cases hTook with
      | whole hZero _ _ _ => exact absurd hZero hCount
      | grow _ _ hExtent _ _ =>
          rw [hExtent]
          exact Nat.le_max_left _ _
      | cut _ _ _ _ _ _ hCut _ hExtent _ =>
          rw [hExtent, hCut]
          exact Nat.le_max_right _ _
    case size =>
      intro hCount
      rw [(takeExtent_whole (s := withNew s bucket) hCount hTake).1]
      rfl
    case count =>
      intro hCount
      have hTaken := (takeExtent_whole (s := withNew s bucket) hCount hTake).2
      change row.placement.extentGrantCount = 1
      rw [hRowPushed.placement]
      change pushed.placement.extentGrantCount = 1
      rw [hPushed.placement, hTaken]
    case fileSize =>
      intro hCount
      have hTaken := (takeExtent_whole (s := withNew s bucket) hCount hTake).2
      change row.placement.fileSize = _
      rw [hRowPushed.placement]
      change pushed.placement.fileSize = _
      rw [hPushed.placement, hTaken]
      rfl
    case allocated =>
      intro hCount
      have hTaken := (takeExtent_whole (s := withNew s bucket) hCount hTake).2
      change (row.store.paged .data).allocatedEnd = _
      rw [hRowPushed.handle]
      change (pushed.store.paged .data).allocatedEnd = _
      rw [hPushed.handle, hTaken]
      rfl
    case buckets =>
      rw [hBuckets]
      change (pushed.placement.states.modify _ _).length = _
      rw [List.length_modify, hPushed.placement]
      change taken.placement.states.length = _
      rw [hTook.length_states]
      simp [withNew]
    case region =>
      refine ⟨⟨pushed.placement.nextRegion, config.regionSlots, 0⟩, ?_, rfl, rfl⟩
      change lastRegion? (row.placement.states.modify _ _) _ = _
      refine lastRegion?_push ?_
      rw [hRowPushed.placement]
      change _ < (pushed.placement.states.modify _ _).length
      rwa [List.length_modify]

/-- The first record of a store may not fit the first extent; then the file has
to grow for it at once. -/
def FirstFits (config : HeapConfig) (totalLen : Nat) (s : Placed BucketPlacement) : Prop :=
  s.placement.extentGrantCount = 0 → s.placement.fileSize - PAGE < totalLen →
    ReserveFits (s.store.paged .data).allocatedEnd
      (s.placement.fileSize + max (requiredExtentSize config totalLen) config.growth)
      (max (requiredExtentSize config totalLen) config.growth)

/-- As long as no grant was tried there is no bucket. -/
def Untried (p : BucketPlacement) : Prop := p.extentGrantCount = 0 → p.states = []

/-- A single bucket whose extent is too short makes the file grow. -/
theorem settles_grow_single {states : List BucketState} (hOne : states.length = 1)
    (hLast : lastExtent? states 0 = some e) (hShort : e.freeTail < need) :
    Settles states need 1 .grow := by
  have hOwn : victimIndex 1 = 0 ∧ victimIndex 2 = 0 ∧ victimIndex 3 = 1 := by decide
  refine ⟨3, by decide, ?_, fun k hLo hHi => ?_⟩
  · rw [examine, if_neg (by decide), if_pos (by rw [hOwn.2.2, hOne])]
  · have hVictim : victimIndex k = 0 := by
      obtain rfl | rfl : k = 1 ∨ k = 2 := by omega
      · exact hOwn.1
      · exact hOwn.2.1
    rw [examine, if_neg (by omega), if_neg (by rw [hVictim, hOne]; decide), hVictim]
    simp only [hLast, if_neg (Nat.not_le.mpr hShort)]

theorem Opened.placeFits_iff (hOpened : Opened config (requiredExtentSize config totalLen) i s t e)
    (hIndex : i = s.placement.states.length) (hUntried : Untried s.placement)
    (hUp : totalLen + PAGE < 2 ^ 64) : PlaceFits config i totalLen t ↔ FirstFits config totalLen s := by
  have hPages : totalLen ≤ requiredExtentSize config totalLen :=
    (le_pageUp totalLen).trans (Nat.le_max_left _ _)
  have hSum : e.used + totalLen = totalLen := by rw [hOpened.unused, Nat.zero_add]
  constructor
  · intro hFits hCount hShort
    obtain ⟨-, hGrant⟩ := hFits e hOpened.last
    rw [hSum, hOpened.size hCount] at hGrant
    obtain ⟨-, hGrowth⟩ := hGrant hShort
    have hNone := hUntried hCount
    rw [GrowthFits, hOpened.count hCount, hOpened.fileSize hCount, hOpened.allocated hCount] at hGrowth
    refine hGrowth (settles_grow_single (e := e) ?_ ?_ ?_)
    · rw [hOpened.buckets, hNone]
      rfl
    · have hLast := hOpened.last
      rwa [hIndex, hNone] at hLast
    · rw [Extent.freeTail, hOpened.size hCount]
      omega
  · intro hFirst last hLast
    obtain rfl : e = last := Option.some.inj (hOpened.last.symm.trans hLast)
    rw [hSum]
    refine ⟨by omega, fun hShort => ⟨hUp, fun _ => ?_⟩⟩
    have hCount : s.placement.extentGrantCount = 0 := by
      by_contra hSome
      have hEnough := hOpened.enough hSome
      omega
    rw [hOpened.fileSize hCount, hOpened.allocated hCount]
    exact hFirst hCount (by rwa [hOpened.size hCount] at hShort)

theorem Opened.numberFits (hOpened : Opened config need i s t e) (hRegion : 0 < config.regionSlots) :
    NumberFits config i t := by
  obtain ⟨region, hLast, hUsed, hSize⟩ := hOpened.region
  intro other hOther hFull
  obtain rfl : region = other := Option.some.inj (hLast.symm.trans hOther)
  omega

inductive AllocCall where
  | alloc (bucket totalLen : Nat)
  | allocUpdate (bucket totalLen : Nat)

namespace AllocCall

def run (config : HeapConfig) : AllocCall → PlaceM BucketPlacement Unit
  | alloc bucket totalLen => do
      let _ ← BucketPlacement.alloc config bucket totalLen
      return ()
  | allocUpdate bucket totalLen => do
      let _ ← BucketPlacement.allocUpdate config bucket totalLen
      return ()

/-- Updates are of buckets that exist. -/
def Known (p : BucketPlacement) : AllocCall → Prop
  | alloc _ _ => True
  | allocUpdate bucket _ => p.bucketIndices bucket ≠ none

/-- The bucket that the call opens, if it opens one, has room before it, and all
sums that the call computes are 64-bit numbers. -/
def Fits (config : HeapConfig) (s : Placed BucketPlacement) : AllocCall → Prop
  | alloc bucket totalLen => totalLen + PAGE < 2 ^ 64 ∧
      match s.placement.bucketIndices bucket with
      | some i => PlaceFits config i totalLen s ∧ NumberFits config i s
      | none => OpenFits config bucket (requiredExtentSize config totalLen) s ∧
          FirstFits config totalLen s
  | allocUpdate bucket totalLen =>
      ∀ i, s.placement.bucketIndices bucket = some i → PlaceFits config i totalLen s

end AllocCall

/-- One completed call. -/
def AllocStep (config : HeapConfig) (s t : Placed BucketPlacement) : Prop :=
  ∃ call : AllocCall, call.Known s.placement ∧ call.run config s = .ok () t

/-- The allocator of a store that was just created. -/
def Created (config : HeapConfig) (s : Placed BucketPlacement) : Prop :=
  ∃ order before, BucketPlacement.open order config true before = .ok (s.placement, 0) s.store

theorem Created.placement (h : Created config s) : s.placement = fresh config := by
  obtain ⟨order, before, hOpen⟩ := h
  rw [BucketPlacement.open, if_pos rfl] at hOpen
  obtain ⟨_, u, -, hOpen⟩ := bind_eq_ok.mp hOpen
  rw [pure_apply, EStateM.Result.ok.injEq, Prod.mk.injEq] at hOpen
  exact hOpen.1.1.symm

theorem AllocStep.stocked (h : AllocStep config s t) (hStocked : Stocked s.placement) :
    Stocked t.placement := by
  obtain ⟨call, -, hRun⟩ := h
  cases call with
  | alloc bucket totalLen =>
      obtain ⟨⟨off, id⟩, u, hAlloc, hPure⟩ := bind_eq_ok.mp hRun
      cases hPure
      obtain ⟨i, u, v, hIndexed, hPlaced, hNumbered⟩ := alloc_ok hAlloc
      exact hNumbered.stocked (hPlaced.stocked (hIndexed.stocked hStocked).1)
  | allocUpdate bucket totalLen =>
      obtain ⟨off, u, hAlloc, hPure⟩ := bind_eq_ok.mp hRun
      cases hPure
      obtain ⟨i, -, hPlaced⟩ := allocUpdate_ok hAlloc
      exact hPlaced.stocked hStocked

/-- The grant counter never falls, and it counts before a bucket is there. -/
theorem Indexed.untried (h : Indexed config bucket need i s t) (hUntried : Untried s.placement) :
    Untried t.placement := by
  cases h with
  | known _ hAfter => exact hAfter ▸ hUntried
  | opened mid e _ _ hExtent hRegion =>
      intro hCount
      have hSome := hExtent.counts
      rw [hRegion.count] at hCount
      omega

theorem PlacedBytes.untried {off : Nat} (h : PlacedBytes config i totalLen off s t)
    (hUntried : Untried s.placement) : Untried t.placement := by
  intro hCount
  have hLe := h.counts
  have hNone := hUntried (by omega)
  rw [← List.length_eq_zero_iff, h.length_states, hNone]
  rfl

theorem Numbered.untried {id : Nat} (h : Numbered config i id s t) (hUntried : Untried s.placement) :
    Untried t.placement := by
  cases h with
  | fits region hLast _ _ hAfter =>
      subst hAfter
      intro hCount
      have hNone := hUntried hCount
      rw [lastRegion?, hNone] at hLast
      cases hLast
  | granted old region mid hOld _ hRegion _ _ hAfter =>
      subst hAfter
      intro hCount
      have hNone := hUntried (by rw [← hRegion.count]; exact hCount)
      rw [lastRegion?, hNone] at hOld
      cases hOld

theorem AllocStep.untried (h : AllocStep config s t) (hUntried : Untried s.placement) :
    Untried t.placement := by
  obtain ⟨call, -, hRun⟩ := h
  cases call with
  | alloc bucket totalLen =>
      obtain ⟨⟨off, id⟩, u, hAlloc, hPure⟩ := bind_eq_ok.mp hRun
      cases hPure
      obtain ⟨i, u, v, hIndexed, hPlaced, hNumbered⟩ := alloc_ok hAlloc
      exact hNumbered.untried (hPlaced.untried (hIndexed.untried hUntried))
  | allocUpdate bucket totalLen =>
      obtain ⟨off, u, hAlloc, hPure⟩ := bind_eq_ok.mp hRun
      cases hPure
      obtain ⟨i, -, hPlaced⟩ := allocUpdate_ok hAlloc
      exact hPlaced.untried hUntried

/-- What completed calls keep on the way from a new store. -/
theorem stocked_of_run (hSize : PAGE ≤ config.initialSize) (hCreated : Created config start)
    (hRun : Relation.ReflTransGen (AllocStep config) start s) :
    Stocked s.placement ∧ Untried s.placement := by
  induction hRun with
  | refl =>
      rw [hCreated.placement]
      exact ⟨⟨fun j _ h => by simp [fresh] at h, fun j _ h => by simp [fresh] at h, hSize⟩,
        fun _ => rfl⟩
  | tail _ hStep ih => exact ⟨hStep.stocked ih.1, hStep.untried ih.2⟩

/-! The calls. -/

/-- A call whose condition holds fails in a block request only. -/
theorem AllocCall.Fits.failsOnly {call : AllocCall} (h : call.Fits config s)
    (hRegion : 0 < config.regionSlots) (hStocked : Stocked s.placement)
    (hUntried : Untried s.placement) (hKnown : call.Known s.placement) (hRoom : RowRoom 4 s) :
    FailsOnly IoFailure (call.run config) s := by
  cases call with
  | alloc bucket totalLen =>
      obtain ⟨hUp, hRest⟩ := h
      refine FailsOnly.bind ?_ fun _ _ _ => FailsOnly.pure _ _ _
      rw [BucketPlacement.alloc]
      rw [FailsOnly.congr (bind_of_ok (checkedExtentSize_run hUp s))]
      refine FailsOnly.bind (bucketIndex_failsOnly hStocked (fun hNone => ?_)
        (hRoom.later 0 2 (by simp) (by decide))) fun i v hIndex => ?_
      · rw [hNone] at hRest
        exact hRest.1
      have hIndexed := bucketIndex_ok hIndex
      obtain ⟨hStocked', hi⟩ := hIndexed.stocked hStocked
      have hLeft : (PlaceFits config i totalLen v ∧ NumberFits config i v) ∧ RowRoom 2 v := by
        cases hIndexed with
        | known hFound hAfter =>
            subst hAfter
            rw [hFound] at hRest
            exact ⟨hRest, hRoom.later 0 2 (by simp) (by decide)⟩
        | opened mid e hNone hPosition hExtent hRegionRow =>
            rw [hNone] at hRest
            obtain ⟨-, first, hOpened⟩ := bucketIndex_opened hStocked hNone hIndex
            have hRows : v.placement.registryEnd = s.placement.registryEnd + 2 * REGISTRY_ROW_SIZE := by
              rw [hRegionRow.registryEnd, hExtent.registryEnd, Nat.two_mul, ← Nat.add_assoc]
              rfl
            exact ⟨⟨(hOpened.placeFits_iff hPosition hUntried hUp).mpr hRest.2,
              hOpened.numberFits hRegion⟩, hRoom.later 2 2 hRows.le (by decide)⟩
      obtain ⟨⟨hPlace, hNumber⟩, hRows⟩ := hLeft
      refine FailsOnly.bind (placeBytes_failsOnly hStocked' hi hPlace
        (hRows.later 0 1 (by simp) (by decide))) fun off w hPlaceRun => ?_
      have hPlaced := placeBytes_ok hPlaceRun
      refine FailsOnly.bind (nextNumber_failsOnly (hPlaced.stocked hStocked')
        (by rwa [hPlaced.length_states]) (hPlaced.sameRegions.numberFits.mpr hNumber)
        (hRows.later 1 1 (by rw [Nat.one_mul]; exact hPlaced.registryEnd_le) (by decide)))
        fun _ _ _ => ?_
      exact FailsOnly.pure _ _ _
  | allocUpdate bucket totalLen =>
      refine FailsOnly.bind ?_ fun _ _ _ => FailsOnly.pure _ _ _
      rw [BucketPlacement.allocUpdate]
      refine FailsOnly.bind (fun _ _ hGet => by cases hGet) fun p u hGet => ?_
      cases hGet
      cases hIndex : s.placement.bucketIndices bucket with
      | none => exact absurd hIndex hKnown
      | some i =>
          exact placeBytes_failsOnly hStocked (bucketIndices_lt hIndex) (h i hIndex)
            (hRoom.later 0 1 (by simp) (by decide))

/-- A call that returns met its condition. -/
theorem AllocCall.fits_of_ok {call : AllocCall} (hStocked : Stocked s.placement)
    (hUntried : Untried s.placement) (hRun : call.run config s = .ok () t) : call.Fits config s := by
  cases call with
  | alloc bucket totalLen =>
      obtain ⟨⟨off, id⟩, _, hAlloc, -⟩ := bind_eq_ok.mp hRun
      obtain ⟨need, r, hNeed, hFirst⟩ := bind_eq_ok.mp hAlloc
      obtain ⟨rfl, rfl, hUp⟩ := checkedExtentSize_ok hNeed
      obtain ⟨i, u, hIndex, hSecond⟩ := bind_eq_ok.mp hFirst
      obtain ⟨off', v, hPlace, hThird⟩ := bind_eq_ok.mp hSecond
      obtain ⟨id', w, hNumber, -⟩ := bind_eq_ok.mp hThird
      have hPlaceFits := placeBytes_fits hPlace
      have hNumberFits := (placeBytes_ok hPlace).sameRegions.numberFits.mp (nextNumber_fits hNumber)
      refine ⟨hUp, ?_⟩
      cases hFound : r.placement.bucketIndices bucket with
      | some j =>
          rw [bucketIndex_known hFound] at hIndex
          cases hIndex
          exact ⟨hPlaceFits, hNumberFits⟩
      | none =>
          obtain ⟨hOpenFits, first, hOpened⟩ := bucketIndex_opened hStocked hFound hIndex
          have hPosition : i = r.placement.states.length := by
            cases bucketIndex_ok hIndex with
            | known hKnown _ => cases hFound.symm.trans hKnown
            | opened _ _ _ hPosition _ _ => exact hPosition
          exact ⟨hOpenFits, (hOpened.placeFits_iff hPosition hUntried hUp).mp hPlaceFits⟩
  | allocUpdate bucket totalLen =>
      obtain ⟨off, _, hAlloc, -⟩ := bind_eq_ok.mp hRun
      rw [BucketPlacement.allocUpdate, bind_of_ok (getPlacement_apply s)] at hAlloc
      intro i hFound
      simp only [hFound] at hAlloc
      exact placeBytes_fits hAlloc

/-- After any run of completed calls on a new store, a call that no block request
fails returns exactly when a bucket that it opens has room before it and all sums
that it computes are 64-bit numbers. -/
theorem alloc_returns_iff (hSize : PAGE < config.initialSize) (hRegion : 0 < config.regionSlots)
    (hCreated : Created config start) (hRun : Relation.ReflTransGen (AllocStep config) start s)
    {call : AllocCall} (hKnown : call.Known s.placement) (hRoom : RowRoom 4 s)
    (hIo : ∀ t, call.run config s ≠ .error (.error .io) t) :
    (∃ t, call.run config s = .ok () t) ↔ call.Fits config s := by
  obtain ⟨hStocked, hUntried⟩ := stocked_of_run hSize.le hCreated hRun
  constructor
  · rintro ⟨t, hOk⟩
    exact AllocCall.fits_of_ok hStocked hUntried hOk
  · intro hFits
    have hFails := hFits.failsOnly hRegion hStocked hUntried hKnown hRoom
    cases hResult : call.run config s with
    | ok _ t => exact ⟨t, rfl⟩
    | error e t =>
        obtain rfl : e = .error .io := hFails e t hResult
        exact absurd hResult (hIo t)

/-- Two pages, one of them for records, and no room to spare. -/
def twoPages : HeapConfig := ⟨.none, true, 2 * PAGE, PAGE, PAGE, 1, 0⟩

/-- The allocator of a new two-page store, and the store. -/
def twoPagesCreated : Placed BucketPlacement :=
  match BucketPlacement.open ⟨id, fun _ => .refl _⟩ twoPages true .empty with
  | .ok (placement, _) store => ⟨placement, store⟩
  | .error _ store => ⟨fresh twoPages, store⟩

theorem twoPagesCreated_created : Created twoPages twoPagesCreated :=
  ⟨⟨id, fun _ => .refl _⟩, .empty, rfl⟩

/-- Four pages, three of them for records. -/
def fourPages : HeapConfig := ⟨.none, true, 4 * PAGE, PAGE, PAGE, 8, 0⟩

/-- The allocator of a new four-page store, and the store. -/
def fourPagesCreated : Placed BucketPlacement :=
  match BucketPlacement.open ⟨id, fun _ => .refl _⟩ fourPages true .empty with
  | .ok (placement, _) store => ⟨placement, store⟩
  | .error _ store => ⟨fresh fourPages, store⟩

set_option maxRecDepth 20000 in
/-- The first bucket has three pages; opening a second one then cuts its tail. -/
theorem alloc_returns_second :
    ∃ s, Relation.ReflTransGen (AllocStep fourPages) fourPagesCreated s ∧
      s.placement.states.length = 1 ∧ (AllocCall.alloc 1 100).Fits fourPages s := by
  have hFirst : (AllocCall.alloc 0 100).run fourPages fourPagesCreated =
      .ok () (final ((AllocCall.alloc 0 100).run fourPages) fourPagesCreated) := rfl
  have hSecond : (AllocCall.alloc 1 100).run fourPages
      (final ((AllocCall.alloc 0 100).run fourPages) fourPagesCreated) =
      .ok () (final ((AllocCall.alloc 1 100).run fourPages)
        (final ((AllocCall.alloc 0 100).run fourPages) fourPagesCreated)) := rfl
  have hRun : Relation.ReflTransGen (AllocStep fourPages) fourPagesCreated _ :=
    .single ⟨.alloc 0 100, trivial, hFirst⟩
  have hRows : (final ((AllocCall.alloc 0 100).run fourPages) fourPagesCreated).placement.registryEnd =
      PAGE + 2 * REGISTRY_ROW_SIZE := rfl
  have hCreated : Created fourPages fourPagesCreated := ⟨⟨id, fun _ => .refl _⟩, .empty, rfl⟩
  have hRoom : RowRoom 4 (final ((AllocCall.alloc 0 100).run fourPages) fourPagesCreated) := by
    rw [RowRoom, hRows]
    decide
  refine ⟨_, hRun, rfl, ?_⟩
  have hKnown : (AllocCall.alloc 1 100).Known
      (final ((AllocCall.alloc 0 100).run fourPages) fourPagesCreated).placement := trivial
  refine (alloc_returns_iff (by decide) (by decide) hCreated hRun hKnown hRoom fun t hIo => ?_).mp
    ⟨_, hSecond⟩
  cases hSecond.symm.trans hIo

/-- The first bucket fills the two pages; opening a second one then panics. -/
theorem alloc_second_bucket_panics :
    Created twoPages twoPagesCreated ∧
      ∃ s, Relation.ReflTransGen (AllocStep twoPages) twoPagesCreated s ∧
        ∃ t, alloc twoPages 1 100 s = .error (.panic "bucket without extent") t := by
  have hFirst : (AllocCall.alloc 0 100).run twoPages twoPagesCreated =
      .ok () (final ((AllocCall.alloc 0 100).run twoPages) twoPagesCreated) := rfl
  exact ⟨twoPagesCreated_created, _, .single ⟨.alloc 0 100, trivial, hFirst⟩, _, rfl⟩

end BucketPlacement

end HeapStore
