import HeapStore.Placement.Search
import HeapStore.Storage.Stage

/-! What the allocator's steps do when they complete, and how they can fail. -/
namespace HeapStore

open Effect Placed

section ModifyLast

variable {α : Type} (f : α → α)

@[simp] theorem modifyLast_nil : modifyLast f [] = [] := rfl

@[simp] theorem modifyLast_concat (init : List α) (last : α) :
    modifyLast f (init ++ [last]) = init ++ [f last] := by
  rw [modifyLast, List.length_append, List.length_singleton, Nat.add_sub_cancel]
  exact PagedFile.modify_length_append init [] last f

@[simp] theorem length_modifyLast (l : List α) : (modifyLast f l).length = l.length :=
  List.length_modify ..

theorem modifyLast_ne_nil {l : List α} (h : l ≠ []) : modifyLast f l ≠ [] := by
  rw [← List.length_pos_iff_ne_nil, length_modifyLast]
  exact List.length_pos_iff_ne_nil.mpr h

end ModifyLast

namespace Placed

variable {P α : Type} {x : StoreM α} {s t : Placed P} {a : α}

@[simp] theorem getPlacement_apply (s : Placed P) : getPlacement s = .ok s.placement s := rfl

@[simp] theorem modifyPlacement_apply (f : P → P) (s : Placed P) :
    modifyPlacement f s = .ok () { s with placement := f s.placement } := rfl

theorem onStore_eq_ok : onStore x s = .ok a t ↔
    ∃ u, x s.store = .ok a u ∧ t = { s with store := u } := zoom_eq_ok

end Placed

namespace BucketPlacement

variable {config : HeapConfig} {need i : Nat} {s t : Placed BucketPlacement} {e : Extent}

/-- The last extent of a bucket, after a change of one bucket's last extent. -/
theorem lastExtent?_eq_some {states : List BucketState} {victim : Extent} :
    lastExtent? states i = some victim ↔
      ∃ (state : BucketState) (init : List Extent), states[i]? = some state ∧
        state.data = init ++ [victim] := by
  unfold lastExtent?
  constructor
  · intro h
    obtain ⟨state, hState, hLast⟩ := Option.bind_eq_some_iff.mp h
    exact ⟨state, state.data.dropLast, hState, (List.dropLast_append_getLast? _ hLast).symm⟩
  · rintro ⟨state, init, hState, hData⟩
    simp [hState, hData]

/-- How an extent for a need is found. -/
inductive TookExtent (config : HeapConfig) (need : Nat) (s t : Placed BucketPlacement)
    (e : Extent) : Prop where
  | whole (hCount : s.placement.extentGrantCount = 0) (hSize : PAGE ≤ s.placement.fileSize)
      (hExtent : e = ⟨PAGE, s.placement.fileSize - PAGE, 0⟩)
      (hAfter : t = { s with placement := { s.placement with extentGrantCount := 1 } })
  | grow (next : Nat) (hNext : s.placement.extentGrantCount < next)
      (hExtent : e = ⟨s.placement.fileSize, max need config.growth, 0⟩)
      (hAlloc : PagedFile.ensureAlloc .data (s.placement.fileSize + max need config.growth)
        (max need config.growth) s.store = .ok () t.store)
      (hAfter : t.placement = { s.placement with
        extentGrantCount := next
        fileSize := s.placement.fileSize + max need config.growth })
  | cut (next i cut : Nat) (victim : Extent) (hNext : s.placement.extentGrantCount < next)
      (hVictim : lastExtent? s.placement.states i = some victim)
      (hCut : cut = max (pageDown (victim.freeTail / 2)) need) (hRoom : cut ≤ victim.freeTail)
      (hExtent : e = ⟨victim.start + (victim.size - cut), cut, 0⟩)
      (hAfter : t = { s with placement :=
        { s.placement with extentGrantCount := next }.modifyState i fun state =>
          { state with data := modifyLast (fun e => { e with size := victim.size - cut }) state.data } })

theorem freeTail_le (e : Extent) : e.freeTail ≤ e.size := Nat.sub_le _ _

theorem lastExtent?_push {states : List BucketState} {state : BucketState}
    (hState : states[i]? = some state) :
    lastExtent? (states.modify i fun state => { state with data := state.data ++ [e] }) i =
      some e := by
  simp [lastExtent?, hState]

theorem cutVictim_eq {victim : Extent} (hVictim : lastExtent? s.placement.states i = some victim)
    (hRoom : need ≤ victim.freeTail) :
    ∃ cut, cut = max (pageDown (victim.freeTail / 2)) need ∧ cut ≤ victim.freeTail ∧
      cutVictim i need s = .ok ⟨victim.start + (victim.size - cut), cut, 0⟩
        { s with placement := s.placement.modifyState i fun state =>
          { state with data := modifyLast (fun e => { e with size := victim.size - cut }) state.data } } := by
  have hHalf := pageDown_le (victim.freeTail / 2)
  have hSize := freeTail_le victim
  refine ⟨_, rfl, by omega, ?_⟩
  rw [cutVictim, bind_of_ok (getPlacement_apply s)]
  have hSub : ¬ victim.size < max (pageDown (victim.freeTail / 2)) need := by omega
  simp only [hVictim, subU64, if_neg hSub]
  rfl

theorem takeExtent_ok (hRun : takeExtent config need s = .ok e t) : TookExtent config need s t e := by
  rw [takeExtent, bind_of_ok (getPlacement_apply s)] at hRun
  obtain ⟨grant, next, hSearch⟩ :=
    searchVictim_ends s.placement.states need s.placement.extentGrantCount
  obtain ⟨last, hLo, -, rfl, hExamine, -⟩ := searchVictim_eq_some hSearch
  simp only [hSearch] at hRun
  rw [bind_of_ok (modifyPlacement_apply _ s)] at hRun
  cases grant with
  | whole =>
      have hCount : s.placement.extentGrantCount = 0 := by
        have := examine_whole hExamine
        omega
      obtain rfl : last = 0 := examine_whole hExamine
      simp only [subU64] at hRun
      split at hRun
      · cases hRun
      · rename_i hSize
        cases hRun
        exact .whole hCount (by omega) rfl rfl
  | grow =>
      rw [growFile] at hRun
      simp only [bind_of_ok (getPlacement_apply _)] at hRun
      obtain ⟨_, u, hAlloc, hRun⟩ := bind_eq_ok.mp hRun
      obtain ⟨v, hGrown, rfl⟩ := onStore_eq_ok.mp hAlloc
      cases hRun
      exact .grow (last + 1) (by omega) rfl hGrown rfl
  | cut i =>
      obtain ⟨rfl, victim, hVictim, hRoom⟩ := examine_cut hExamine
      obtain ⟨cut, hCut, hTail, hEq⟩ := cutVictim_eq
        (s := { s with placement := { s.placement with extentGrantCount := last + 1 } }) hVictim hRoom
      simp only [hEq] at hRun
      cases hRun
      exact .cut (last + 1) (victimIndex last) cut victim (by omega) hVictim hCut hTail rfl rfl
  | missing => cases hRun

theorem pushRow_ok {row : RegistryRow} (hRun : pushRow row s = .ok () t) :
    ∃ u, PagedFile.stage .registry s.placement.registryEnd [row.encode] s.store = .ok () u ∧
      t = { placement := { s.placement with
              registryEnd := s.placement.registryEnd + REGISTRY_ROW_SIZE }
            store := u } := by
  rw [pushRow, bind_of_ok (getPlacement_apply s)] at hRun
  obtain ⟨_, v, hStage, hRun⟩ := bind_eq_ok.mp hRun
  obtain ⟨u, hRow, rfl⟩ := onStore_eq_ok.mp hStage
  cases hRun
  exact ⟨u, hRow, rfl⟩

/-- A row is staged at the registry end, which moves behind it. -/
structure PushedRow (row : RegistryRow) (s t : Placed BucketPlacement) : Prop where
  store : PagedFile.stage .registry s.placement.registryEnd [row.encode] s.store = .ok () t.store
  placement : t.placement =
    { s.placement with registryEnd := s.placement.registryEnd + REGISTRY_ROW_SIZE }

theorem pushRow_pushed {row : RegistryRow} (hRun : pushRow row s = .ok () t) :
    PushedRow row s t := by
  obtain ⟨u, hStage, rfl⟩ := pushRow_ok hRun
  exact ⟨hStage, rfl⟩

/-- An extent is taken, recorded as a row, and given to a bucket. -/
structure GrantedExtent (config : HeapConfig) (i need : Nat) (s t : Placed BucketPlacement)
    (e : Extent) : Prop where
  intro ::
  grant : ∃ mid pushed, TookExtent config need s mid e ∧
    PushedRow ⟨'D'.toUInt8, mid.placement.bucketId i, e.start, e.size⟩ mid pushed ∧
    t = { pushed with placement := pushed.placement.modifyState i fun state =>
      { state with data := state.data ++ [e] } }

theorem grantExtent_ok (hRun : grantExtent config i need s = .ok () t) :
    ∃ e, GrantedExtent config i need s t e := by
  obtain ⟨e, mid, hTake, hRun⟩ := bind_eq_ok.mp hRun
  rw [bind_of_ok (getPlacement_apply mid)] at hRun
  obtain ⟨_, pushed, hPush, hRun⟩ := bind_eq_ok.mp hRun
  cases hRun
  exact ⟨e, ⟨mid, pushed, takeExtent_ok hTake, pushRow_pushed hPush, rfl⟩⟩

/-- The next region is recorded as a row and given to a bucket. -/
structure GrantedRegion (config : HeapConfig) (i : Nat) (s t : Placed BucketPlacement) : Prop where
  intro ::
  grant : ∃ pushed, PushedRow
      ⟨'S'.toUInt8, s.placement.bucketId i, s.placement.nextRegion, config.regionSlots⟩
      { s with placement := { s.placement with
        nextRegion := s.placement.nextRegion + config.regionSlots } } pushed ∧
    t = { pushed with placement := pushed.placement.modifyState i fun state =>
      { state with slots := state.slots ++ [⟨s.placement.nextRegion, config.regionSlots, 0⟩] } }

theorem grantRegion_ok (hRun : grantRegion config i s = .ok () t) : GrantedRegion config i s t := by
  rw [grantRegion, bind_of_ok (getPlacement_apply s)] at hRun
  obtain ⟨nextRegion, u, hSum, hRest⟩ := bind_eq_ok.mp hRun
  obtain ⟨rfl, rfl, -⟩ := addU64_ok hSum
  rw [bind_of_ok (modifyPlacement_apply _ u)] at hRest
  obtain ⟨_, pushed, hPush, hEnd⟩ := bind_eq_ok.mp hRest
  cases hEnd
  exact ⟨pushed, pushRow_pushed hPush, rfl⟩

/-- A bucket that is not there yet, behind the others. -/
def withNew (s : Placed BucketPlacement) (bucket : Nat) : Placed BucketPlacement :=
  { s with placement := { s.placement with states := s.placement.states ++ [⟨bucket, [], []⟩] } }

/-- A bucket is found, or it is put behind the others and gets an extent and a region. -/
inductive Indexed (config : HeapConfig) (bucket need i : Nat) (s t : Placed BucketPlacement) :
    Prop where
  | known (hIndex : s.placement.bucketIndices bucket = some i) (hAfter : t = s)
  | opened (mid : Placed BucketPlacement) (e : Extent)
      (hNew : s.placement.bucketIndices bucket = none) (hIndex : i = s.placement.states.length)
      (hExtent : GrantedExtent config i need (withNew s bucket) mid e)
      (hRegion : GrantedRegion config i mid t)

theorem bucketIndex_ok {bucket : Nat} (hRun : bucketIndex config bucket need s = .ok i t) :
    Indexed config bucket need i s t := by
  rw [bucketIndex, bind_of_ok (getPlacement_apply s)] at hRun
  cases hIndex : s.placement.bucketIndices bucket with
  | some j =>
      simp only [hIndex] at hRun
      cases hRun
      exact .known hIndex rfl
  | none =>
      simp only [hIndex] at hRun
      rw [bind_of_ok (modifyPlacement_apply _ s)] at hRun
      obtain ⟨_, mid, hExtent, hRun⟩ := bind_eq_ok.mp hRun
      obtain ⟨_, u, hRegion, hRun⟩ := bind_eq_ok.mp hRun
      cases hRun
      obtain ⟨e, hGranted⟩ := grantExtent_ok (s := withNew s bucket) hExtent
      exact .opened mid e hIndex rfl hGranted (grantRegion_ok hRegion)

/-- Set the used bytes of the last extent of a bucket. -/
def useExtent (s : Placed BucketPlacement) (i used : Nat) : Placed BucketPlacement :=
  { s with placement := s.placement.modifyState i fun state =>
    { state with data := modifyLast (fun e => { e with used }) state.data } }

/-- Bytes go behind the used bytes of the last extent, or into a new extent. -/
inductive PlacedBytes (config : HeapConfig) (i totalLen off : Nat) (s t : Placed BucketPlacement) :
    Prop where
  | fits (e : Extent) (hLast : lastExtent? s.placement.states i = some e)
      (hFits : e.used + totalLen ≤ e.size) (hOff : off = e.start + e.used)
      (hAfter : t = useExtent s i (e.used + totalLen))
  | granted (old e last : Extent) (mid : Placed BucketPlacement)
      (hOld : lastExtent? s.placement.states i = some old) (hFull : old.size < old.used + totalLen)
      (hExtent : GrantedExtent config i (requiredExtentSize config totalLen) s mid e)
      (hLast : lastExtent? mid.placement.states i = some last) (hOff : off = last.start)
      (hAfter : t = useExtent mid i totalLen)

/-- Only the bucket at the position matters for a change of it. -/
theorem modifyState_congr {p : BucketPlacement} {f g : BucketState → BucketState}
    (h : ∀ state, p.states[i]? = some state → f state = g state) :
    p.modifyState i f = p.modifyState i g := by
  have hStates : p.states.modify i f = p.states.modify i g := by
    apply List.ext_getElem?
    intro j
    rw [List.getElem?_modify, List.getElem?_modify]
    by_cases hIndex : i = j
    · subst hIndex
      cases hState : p.states[i]? with
      | none => rfl
      | some state => simp [h state hState]
    · simp [hIndex]
  rw [modifyState, hStates, modifyState]

theorem checkedExtentSize_ok {σ : Type} {totalLen need : Nat} {s t : σ}
    (hRun : checkedExtentSize config totalLen s = .ok need t) :
    need = requiredExtentSize config totalLen ∧ t = s ∧ totalLen + PAGE < 2 ^ 64 := by
  obtain ⟨pages, u, hUp, hPure⟩ := bind_eq_ok.mp hRun
  obtain ⟨rfl, rfl, hFits⟩ := pageUpU64_ok hUp
  cases hPure
  exact ⟨rfl, rfl, hFits⟩

theorem checkedExtentSize_run {σ : Type} {totalLen : Nat} (hFits : totalLen + PAGE < 2 ^ 64) (s : σ) :
    checkedExtentSize config totalLen s = .ok (requiredExtentSize config totalLen) s := by
  rw [checkedExtentSize, bind_of_ok (pageUpU64_run hFits s)]
  rfl

theorem checkedExtentSize_error {σ : Type} {totalLen : Nat} {f : Failure} {s t : σ}
    (hRun : checkedExtentSize config totalLen s = .error f t) : t = s := by
  rcases bind_eq_error.mp hRun with hUp | ⟨_, _, _, hPure⟩
  · exact (pageUpU64_error hUp).2.1
  · cases hPure

theorem placeBytes_ok {totalLen off : Nat} (hRun : placeBytes config i totalLen s = .ok off t) :
    PlacedBytes config i totalLen off s t := by
  rw [placeBytes, bind_of_ok (getPlacement_apply s)] at hRun
  cases hLast : lastExtent? s.placement.states i with
  | none =>
      simp only [hLast] at hRun
      cases hRun
  | some e =>
      simp only [hLast] at hRun
      obtain ⟨stop, u, hSum, hRest⟩ := bind_eq_ok.mp hRun
      obtain ⟨rfl, rfl, -⟩ := addU64_ok hSum
      split at hRest
      · rename_i hFits
        cases hRest
        obtain ⟨state, init, hState, hData⟩ := lastExtent?_eq_some.mp hLast
        have hUse : (useExtent u i (e.used + totalLen)).placement =
            u.placement.modifyState i fun state => { state with
              data := modifyLast (fun e => { e with used := e.used + totalLen }) state.data } :=
          modifyState_congr fun other hOther => by
            obtain rfl : state = other := Option.some.inj (hState.symm.trans hOther)
            simp [hData]
        exact .fits e hLast hFits rfl (congrArg (Placed.mk · u.store) hUse.symm)
      · rename_i hFull
        obtain ⟨need, v, hNeed, hGrow⟩ := bind_eq_ok.mp hRest
        obtain ⟨rfl, rfl, -⟩ := checkedExtentSize_ok hNeed
        obtain ⟨_, mid, hGrant, hUse⟩ := bind_eq_ok.mp hGrow
        obtain ⟨new, hGranted⟩ := grantExtent_ok hGrant
        rw [bind_of_ok (getPlacement_apply mid)] at hUse
        cases hLast' : lastExtent? mid.placement.states i with
        | none =>
            simp only [hLast'] at hUse
            cases hUse
        | some last =>
            simp only [hLast'] at hUse
            cases hUse
            exact .granted e new last mid hLast (by omega) hGranted hLast' rfl rfl

/-- The last region of a bucket. -/
def lastRegion? (states : List BucketState) (i : Nat) : Option Extent :=
  (states[i]?).bind fun state => state.slots.getLast?

theorem lastRegion?_eq_some {states : List BucketState} {region : Extent} :
    lastRegion? states i = some region ↔
      ∃ (state : BucketState) (init : List Extent), states[i]? = some state ∧
        state.slots = init ++ [region] := by
  unfold lastRegion?
  constructor
  · intro h
    obtain ⟨state, hState, hLast⟩ := Option.bind_eq_some_iff.mp h
    exact ⟨state, state.slots.dropLast, hState, (List.dropLast_append_getLast? _ hLast).symm⟩
  · rintro ⟨state, init, hState, hSlots⟩
    simp [hState, hSlots]

/-- Set the used numbers of the last region of a bucket. -/
def useRegion (s : Placed BucketPlacement) (i used : Nat) : Placed BucketPlacement :=
  { s with placement := s.placement.modifyState i fun state =>
    { state with slots := modifyLast (fun e => { e with used }) state.slots } }

/-- The number comes from the last region, or from a new one when that is full. -/
inductive Numbered (config : HeapConfig) (i id : Nat) (s t : Placed BucketPlacement) : Prop where
  | fits (region : Extent) (hLast : lastRegion? s.placement.states i = some region)
      (hFits : region.used < region.size) (hId : id = region.start + region.used)
      (hAfter : t = useRegion s i (region.used + 1))
  | granted (old region : Extent) (mid : Placed BucketPlacement)
      (hOld : lastRegion? s.placement.states i = some old) (hFull : old.size ≤ old.used)
      (hRegion : GrantedRegion config i s mid)
      (hLast : lastRegion? mid.placement.states i = some region) (hId : id = region.start)
      (hAfter : t = useRegion mid i 1)

theorem nextNumber_ok {id : Nat} (hRun : nextNumber config i s = .ok id t) :
    Numbered config i id s t := by
  rw [nextNumber, bind_of_ok (getPlacement_apply s)] at hRun
  cases hLast : lastRegion? s.placement.states i with
  | none =>
      rw [lastRegion?] at hLast
      simp only [hLast] at hRun
      cases hRun
  | some region =>
      have hLast' := hLast
      rw [lastRegion?] at hLast'
      simp only [hLast'] at hRun
      split at hRun
      · rename_i hFits
        cases hRun
        obtain ⟨state, init, hState, hSlots⟩ := lastRegion?_eq_some.mp hLast
        have hUse : (useRegion s i (region.used + 1)).placement =
            s.placement.modifyState i fun state => { state with
              slots := modifyLast (fun e => { e with used := e.used + 1 }) state.slots } :=
          modifyState_congr fun other hOther => by
            obtain rfl : state = other := Option.some.inj (hState.symm.trans hOther)
            simp [hSlots]
        exact .fits region hLast hFits rfl (congrArg (Placed.mk · s.store) hUse.symm)
      · rename_i hFull
        obtain ⟨_, mid, hGrant, hRun⟩ := bind_eq_ok.mp hRun
        rw [bind_of_ok (getPlacement_apply mid)] at hRun
        cases hNew : lastRegion? mid.placement.states i with
        | none =>
            rw [lastRegion?] at hNew
            simp only [hNew] at hRun
            cases hRun
        | some new =>
            have hNew' := hNew
            rw [lastRegion?] at hNew'
            simp only [hNew'] at hRun
            cases hRun
            exact .granted region new mid hLast (by omega) (grantRegion_ok hGrant) hNew rfl rfl

theorem alloc_ok {bucket totalLen off id : Nat}
    (hRun : alloc config bucket totalLen s = .ok (off, id) t) :
    ∃ i u v, Indexed config bucket (requiredExtentSize config totalLen) i s u ∧
      PlacedBytes config i totalLen off u v ∧ Numbered config i id v t := by
  obtain ⟨need, r, hNeed, hFirst⟩ := bind_eq_ok.mp hRun
  obtain ⟨rfl, rfl, -⟩ := checkedExtentSize_ok hNeed
  obtain ⟨i, u, hIndex, hSecond⟩ := bind_eq_ok.mp hFirst
  obtain ⟨off', v, hPlace, hThird⟩ := bind_eq_ok.mp hSecond
  obtain ⟨id', w, hNumber, hPure⟩ := bind_eq_ok.mp hThird
  cases hPure
  exact ⟨i, u, v, bucketIndex_ok hIndex, placeBytes_ok hPlace, nextNumber_ok hNumber⟩

theorem allocUpdate_ok {bucket totalLen off : Nat}
    (hRun : allocUpdate config bucket totalLen s = .ok off t) :
    ∃ i, s.placement.bucketIndices bucket = some i ∧ PlacedBytes config i totalLen off s t := by
  rw [allocUpdate, bind_of_ok (getPlacement_apply s)] at hRun
  cases hIndex : s.placement.bucketIndices bucket with
  | none =>
      simp only [hIndex] at hRun
      cases hRun
  | some i =>
      simp only [hIndex] at hRun
      exact ⟨i, rfl, placeBytes_ok hRun⟩

end BucketPlacement

end HeapStore
