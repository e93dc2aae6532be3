import HeapStore.Placement.Grants
import HeapStore.Placement.Bucket
import Mathlib.Logic.Relation

/-! When the bucket allocator panics. An allocator whose buckets all own space
fails with I/O errors only; a bucket that is being opened owns none yet, and
the victim search may come to it. -/
namespace HeapStore

open Effect Placed

namespace BucketPlacement

variable {config : HeapConfig} {need i g : Nat} {s t start : Placed BucketPlacement} {e : Extent}

/-- A property of every bucket and its position. -/
def Each (Q : Nat → BucketState → Prop) (p : BucketPlacement) : Prop :=
  ∀ j state, p.states[j]? = some state → Q j state

/-- Every bucket owns an extent and a region, and the file has its header page. -/
structure Stocked (p : BucketPlacement) : Prop where
  data : Each (fun _ state => state.data ≠ []) p
  slots : Each (fun _ state => state.slots ≠ []) p
  base : PAGE ≤ p.fileSize

theorem Each.congr {Q : Nat → BucketState → Prop} {p q : BucketPlacement} (h : Each Q p)
    (hStates : q.states = p.states) : Each Q q := by
  intro j state hState
  rw [hStates] at hState
  exact h j state hState

/-- A change of one bucket keeps a property of all when it keeps that bucket's. -/
theorem Each.modifyState {Q : Nat → BucketState → Prop} {p : BucketPlacement}
    {f : BucketState → BucketState} (h : Each Q p) (hf : ∀ state, Q i state → Q i (f state)) :
    Each Q (p.modifyState i f) := by
  intro j state hState
  rw [BucketPlacement.modifyState, List.getElem?_modify] at hState
  obtain ⟨old, hOld, rfl⟩ := Option.map_eq_some_iff.mp hState
  by_cases hIndex : i = j
  · subst hIndex
    simpa using hf old (h i old hOld)
  · simpa [hIndex] using h j old hOld

theorem lastExtent?_isSome {p : BucketPlacement} (h : Each (fun _ state => state.data ≠ []) p)
    (hi : i < p.states.length) : ∃ e, lastExtent? p.states i = some e := by
  have hSome := h i _ (List.getElem?_eq_getElem hi)
  rw [lastExtent?, List.getElem?_eq_getElem hi, Option.bind_some]
  exact ⟨_, List.getLast?_eq_some_getLast hSome⟩

theorem lastRegion?_isSome {p : BucketPlacement} (h : Each (fun _ state => state.slots ≠ []) p)
    (hi : i < p.states.length) : ∃ e, lastRegion? p.states i = some e := by
  have hSome := h i _ (List.getElem?_eq_getElem hi)
  rw [lastRegion?, List.getElem?_eq_getElem hi, Option.bind_some]
  exact ⟨_, List.getLast?_eq_some_getLast hSome⟩

/-! How each step fails. -/

/-- The first grant number from here on that settles the search settles it so. -/
def Settles (states : List BucketState) (need g : Nat) (grant : Grant) : Prop :=
  ∃ last, g ≤ last ∧ examine states need last = some grant ∧
    ∀ k, g ≤ k → k < last → examine states need k = none

/-- The search comes to a bucket without extent before anything settles it. -/
def Stranded (states : List BucketState) (need g : Nat) : Prop := Settles states need g .missing

theorem Settles.search {states : List BucketState} {grant : Grant} (h : Settles states need g grant) :
    ∃ next, searchVictim states need (searchFuel states) g = some (grant, next) := by
  obtain ⟨last, hLo, hLast, hBefore⟩ := h
  obtain ⟨found, next, hSearch⟩ := searchVictim_ends states need g
  obtain ⟨first, hFirstLo, -, -, hFirst, hFirstBefore⟩ := searchVictim_eq_some hSearch
  rcases Nat.lt_trichotomy first last with hLt | rfl | hGt
  · simp [hBefore first hFirstLo hLt] at hFirst
  · rw [hLast, Option.some.injEq] at hFirst
    exact ⟨next, by rw [hSearch, hFirst]⟩
  · simp [hFirstBefore last hLo hGt] at hLast

/-- The sums of a reservation are 64-bit numbers: the end that is asked for and,
when the space reserved so far does not reach it, the rounded new end. -/
def ReserveFits (allocatedEnd upto chunk : Nat) : Prop :=
  upto < 2 ^ 64 ∧ (allocatedEnd < upto →
    allocatedEnd + chunk < 2 ^ 64 ∧ max upto (allocatedEnd + chunk) + PAGE < 2 ^ 64)

theorem ensureAlloc_failsOnly {n : FileName} {upto chunk : Nat} {u : Store}
    (h : ReserveFits (u.paged n).allocatedEnd upto chunk) :
    FailsOnly IoFailure (PagedFile.ensureAlloc n upto chunk) u := by
  intro failure v hRun
  rw [PagedFile.ensureAlloc, bind_of_ok (getPaged_apply n u), if_neg (Nat.not_le.mpr h.1)] at hRun
  split at hRun
  · cases hRun
  rename_i hMore
  obtain ⟨hChunk, hRound⟩ := h.2 (Nat.not_le.mp hMore)
  rw [bind_of_ok (addU64_run hChunk u), bind_of_ok (pageUpU64_run hRound u)] at hRun
  rcases bind_eq_error.mp hRun with hAlloc | ⟨_, _, _, hRest⟩
  · exact fallocate_error hAlloc
  · cases hRest

theorem ensureAlloc_fits {n : FileName} {upto chunk : Nat} {u v : Store}
    (h : PagedFile.ensureAlloc n upto chunk u = .ok () v) :
    ReserveFits (u.paged n).allocatedEnd upto chunk := by
  obtain ⟨hUpto, ⟨hEnough, -⟩ | ⟨-, hFits, -, -⟩⟩ := PagedFile.ensureAlloc_cases h
  · exact ⟨hUpto, fun hMore => absurd hEnough (Nat.not_le.mpr hMore)⟩
  · exact ⟨hUpto, fun _ => ⟨by omega, hFits⟩⟩

/-- Where a grant has to extend the file, the sums of the extension fit. -/
def GrowthFits (config : HeapConfig) (need : Nat) (s : Placed BucketPlacement) : Prop :=
  Settles s.placement.states need s.placement.extentGrantCount .grow →
    ReserveFits (s.store.paged .data).allocatedEnd
      (s.placement.fileSize + max need config.growth) (max need config.growth)

/-- The registry has room for this many further rows. -/
def RowRoom (count : Nat) (s : Placed BucketPlacement) : Prop :=
  s.placement.registryEnd + count * REGISTRY_ROW_SIZE + PAGE < 2 ^ 64

theorem RowRoom.congr {count : Nat} (h : RowRoom count s)
    (hEnd : t.placement.registryEnd = s.placement.registryEnd) : RowRoom count t := by
  rw [RowRoom, hEnd]
  exact h

theorem takeExtent_failsOnly (hBase : PAGE ≤ s.placement.fileSize)
    (h : ¬ Stranded s.placement.states need s.placement.extentGrantCount)
    (hGrowth : GrowthFits config need s) : FailsOnly IoFailure (takeExtent config need) s := by
  intro failure u hRun
  rw [takeExtent, bind_of_ok (getPlacement_apply s)] at hRun
  obtain ⟨grant, next, hSearch⟩ :=
    searchVictim_ends s.placement.states need s.placement.extentGrantCount
  obtain ⟨last, hLo, -, rfl, hExamine, hBefore⟩ := searchVictim_eq_some hSearch
  simp only [hSearch] at hRun
  rw [bind_of_ok (modifyPlacement_apply _ s)] at hRun
  cases grant with
  | whole =>
      simp only [subU64, if_neg (Nat.not_lt.mpr hBase)] at hRun
      cases hRun
  | grow =>
      rw [growFile] at hRun
      simp only [bind_of_ok (getPlacement_apply _)] at hRun
      rcases bind_eq_error.mp hRun with hAlloc | ⟨_, _, _, hRun⟩
      · obtain ⟨_, hAlloc, -⟩ := zoom_eq_error.mp hAlloc
        exact ensureAlloc_failsOnly (hGrowth ⟨last, hLo, hExamine, hBefore⟩) _ _ hAlloc
      · cases hRun
  | cut i =>
      obtain ⟨rfl, victim, hVictim, hRoom⟩ := examine_cut hExamine
      obtain ⟨cut, -, -, hEq⟩ := cutVictim_eq
        (s := { s with placement := { s.placement with extentGrantCount := last + 1 } }) hVictim hRoom
      simp only [hEq] at hRun
      cases hRun
  | missing => exact absurd ⟨last, hLo, hExamine, hBefore⟩ h

theorem takeExtent_stranded
    (h : Stranded s.placement.states need s.placement.extentGrantCount) :
    ∃ t, takeExtent config need s = .error (.panic "bucket without extent") t := by
  obtain ⟨next, hSearch⟩ := Settles.search h
  rw [takeExtent, bind_of_ok (getPlacement_apply s)]
  simp only [hSearch]
  exact ⟨_, rfl⟩

/-- The state in which the search has left its grant counter. -/
abbrev counted (s : Placed BucketPlacement) (next : Nat) : Placed BucketPlacement :=
  { s with placement := { s.placement with extentGrantCount := next } }

theorem takeExtent_grow {next : Nat}
    (hSearch : searchVictim s.placement.states need (searchFuel s.placement.states)
      s.placement.extentGrantCount = some (.grow, next)) :
    takeExtent config need s = growFile config need (counted s next) := by
  rw [takeExtent, bind_of_ok (getPlacement_apply s)]
  simp only [hSearch]
  rw [bind_of_ok (modifyPlacement_apply _ s)]

/-- A grant that completes has extended the file within 64 bits. -/
theorem takeExtent_fits (hRun : takeExtent config need s = .ok e t) : GrowthFits config need s := by
  intro hSettles
  obtain ⟨next, hSearch⟩ := hSettles.search
  rw [takeExtent_grow hSearch, growFile, bind_of_ok (getPlacement_apply _)] at hRun
  obtain ⟨_, u, hAlloc, -⟩ := bind_eq_ok.mp hRun
  obtain ⟨v, hReserved, -⟩ := onStore_eq_ok.mp hAlloc
  exact ensureAlloc_fits hReserved

theorem pushRow_failsOnly (row : RegistryRow) (hRoom : RowRoom 1 s) :
    FailsOnly IoFailure (pushRow row) s := by
  rw [pushRow]
  refine FailsOnly.bind (fun _ _ h => by cases h) fun p t hGet => ?_
  cases hGet
  refine FailsOnly.bind (FailsOnly.zoom fun e u h => ?_) fun _ _ _ => ?_
  · rcases PagedFile.stage_error h with hIo | ⟨-, hOver⟩
    · exact hIo
    · have hLength : [row.encode].flatten.length = REGISTRY_ROW_SIZE := by simp
      rw [hLength] at hOver
      rw [RowRoom] at hRoom
      omega
  · exact fun _ _ h => by cases h

theorem TookExtent.registryEnd (h : TookExtent config need s t e) :
    t.placement.registryEnd = s.placement.registryEnd := by
  cases h with
  | whole _ _ _ hAfter => rw [hAfter]
  | grow _ _ _ _ hAfter => rw [hAfter]
  | cut _ _ _ _ _ _ _ _ _ hAfter =>
      rw [hAfter]
      rfl

theorem grantExtent_failsOnly (hBase : PAGE ≤ s.placement.fileSize)
    (h : ¬ Stranded s.placement.states need s.placement.extentGrantCount)
    (hGrowth : GrowthFits config need s) (hRoom : RowRoom 1 s) :
    FailsOnly IoFailure (grantExtent config i need) s := by
  rw [grantExtent]
  refine FailsOnly.bind (takeExtent_failsOnly hBase h hGrowth) fun e mid hTook => ?_
  refine FailsOnly.bind (fun _ _ h => by cases h) fun p t hGet => ?_
  cases hGet
  refine FailsOnly.bind (pushRow_failsOnly _ (hRoom.congr (takeExtent_ok hTook).registryEnd))
    fun _ _ _ => ?_
  exact fun _ _ h => by cases h

theorem grantRegion_failsOnly (hNext : s.placement.nextRegion + config.regionSlots < 2 ^ 64)
    (hRoom : RowRoom 1 s) : FailsOnly IoFailure (grantRegion config i) s := by
  rw [grantRegion]
  refine FailsOnly.bind (fun _ _ h => by cases h) fun p t hGet => ?_
  cases hGet
  refine FailsOnly.bind (fun _ _ h => ?_) fun next t hSum => ?_
  · rw [addU64_run hNext s] at h
    cases h
  obtain ⟨-, rfl, -⟩ := addU64_ok hSum
  refine FailsOnly.bind (fun _ _ h => by cases h) fun _ u hModify => ?_
  cases hModify
  refine FailsOnly.bind (pushRow_failsOnly _ hRoom) fun _ _ _ => ?_
  exact fun _ _ h => by cases h

theorem grantRegion_fits (hRun : grantRegion config i s = .ok () t) :
    s.placement.nextRegion + config.regionSlots < 2 ^ 64 := by
  rw [grantRegion, bind_of_ok (getPlacement_apply s)] at hRun
  obtain ⟨next, u, hSum, -⟩ := bind_eq_ok.mp hRun
  exact (addU64_ok hSum).2.2

theorem Stocked.not_stranded (h : Stocked s.placement) :
    ¬ Stranded s.placement.states need g := by
  rintro ⟨last, -, hLast, -⟩
  obtain ⟨hIn, hNone⟩ := examine_missing hLast
  obtain ⟨e, hSome⟩ := lastExtent?_isSome h.data hIn
  simp [hNone] at hSome

/-! What completed steps keep. -/

theorem TookExtent.each {Q : Nat → BucketState → Prop} (h : TookExtent config need s t e)
    (hQ : Each Q s.placement)
    (hKeep : ∀ j state size, Q j state → Q j { state with
      data := modifyLast (fun e => { e with size }) state.data }) : Each Q t.placement := by
  cases h with
  | whole _ _ _ hAfter => exact hQ.congr (by rw [hAfter])
  | grow _ _ _ _ hAfter => exact hQ.congr (by rw [hAfter])
  | cut next i cut victim _ _ _ _ _ hAfter =>
      subst hAfter
      exact Each.modifyState (p := { s.placement with extentGrantCount := next }) hQ
        fun state hState => hKeep i state _ hState

theorem TookExtent.length_states (h : TookExtent config need s t e) :
    t.placement.states.length = s.placement.states.length := by
  cases h with
  | whole _ _ _ hAfter => rw [hAfter]
  | grow _ _ _ _ hAfter => rw [hAfter]
  | cut _ _ _ _ _ _ _ _ _ hAfter =>
      rw [hAfter]
      exact List.length_modify ..

theorem TookExtent.fileSize_le (h : TookExtent config need s t e) :
    s.placement.fileSize ≤ t.placement.fileSize := by
  cases h with
  | whole _ _ _ hAfter => rw [hAfter]
  | grow _ _ _ _ hAfter =>
      rw [hAfter]
      exact Nat.le_add_right _ _
  | cut _ _ _ _ _ _ _ _ _ hAfter =>
      rw [hAfter]
      rfl

/-- Granting keeps what is kept by shrinking and by adding a last extent. -/
theorem GrantedExtent.each {Q : Nat → BucketState → Prop} (h : GrantedExtent config i need s t e)
    (hQ : Each Q s.placement)
    (hKeep : ∀ j state size, Q j state → Q j { state with
      data := modifyLast (fun e => { e with size }) state.data })
    (hPush : ∀ state, Q i state → Q i { state with data := state.data ++ [e] }) :
    Each Q t.placement := by
  obtain ⟨mid, pushed, hTook, hPushed, rfl⟩ := h.grant
  refine Each.modifyState ?_ hPush
  exact (hTook.each hQ hKeep).congr (by rw [hPushed.placement])

theorem GrantedExtent.fileSize_le (h : GrantedExtent config i need s t e) :
    s.placement.fileSize ≤ t.placement.fileSize := by
  obtain ⟨mid, pushed, hTook, hPushed, rfl⟩ := h.grant
  change _ ≤ pushed.placement.fileSize
  rw [hPushed.placement]
  exact hTook.fileSize_le

theorem GrantedExtent.length_states (h : GrantedExtent config i need s t e) :
    t.placement.states.length = s.placement.states.length := by
  obtain ⟨mid, pushed, hTook, hPushed, rfl⟩ := h.grant
  change (pushed.placement.states.modify i _).length = _
  rw [List.length_modify, hPushed.placement]
  exact hTook.length_states

theorem GrantedExtent.stocked (h : GrantedExtent config i need s t e) (hStocked : Stocked s.placement) :
    Stocked t.placement where
  data := h.each hStocked.data (fun _ _ _ hData => modifyLast_ne_nil _ hData)
    (fun _ _ => List.append_ne_nil_of_right_ne_nil _ (by simp))
  slots := h.each hStocked.slots (fun _ _ _ hSlots => hSlots) (fun _ hSlots => hSlots)
  base := hStocked.base.trans h.fileSize_le

/-! Opening a bucket. -/

/-- While a bucket that is not there yet is opened, the search meets an extent
with enough room, or a position past all buckets, before the new bucket's. -/
def RoomBeforeNew (p : BucketPlacement) (need : Nat) : Prop :=
  p.extentGrantCount = 0 ∨
    ∃ g, p.extentGrantCount ≤ g ∧
      (p.states.length < victimIndex g ∨
        ∃ victim, lastExtent? p.states (victimIndex g) = some victim ∧ need ≤ victim.freeTail) ∧
      ∀ k, p.extentGrantCount ≤ k → k < g → victimIndex k ≠ p.states.length

theorem lastExtent?_concat {states : List BucketState} {new : BucketState} (h : new.data = []) :
    lastExtent? (states ++ [new]) i = lastExtent? states i := by
  unfold lastExtent?
  rcases Nat.lt_trichotomy i states.length with hLt | rfl | hGt
  · rw [List.getElem?_append_left hLt]
  · simp [h]
  · rw [List.getElem?_eq_none (by simp; omega), List.getElem?_eq_none (by omega)]

/-- The search over the buckets with a new one runs into the new one exactly
when there is no room before it. -/
theorem stranded_concat_iff {p : BucketPlacement} {new : BucketState}
    (hData : Each (fun _ state => state.data ≠ []) p) (hNew : new.data = []) :
    Stranded (p.states ++ [new]) need p.extentGrantCount ↔ ¬ RoomBeforeNew p need := by
  constructor
  · rintro ⟨last, hLo, hLast, hBefore⟩ hRoom
    obtain ⟨hIn, hNone⟩ := examine_missing hLast
    have hPos : 0 < last := by
      rcases Nat.eq_zero_or_pos last with rfl | hPos
      · simp [examine] at hLast
      · exact hPos
    -- only the new bucket has no extent
    have hIndex : victimIndex last = p.states.length := by
      rw [lastExtent?_concat hNew] at hNone
      by_contra hOther
      obtain ⟨e, hSome⟩ := lastExtent?_isSome (i := victimIndex last) hData
        (by simp at hIn; omega)
      simp [hNone] at hSome
    rcases hRoom with hZero | ⟨g, hg, hSettles, hClear⟩
    · have hFirst := hBefore p.extentGrantCount (Nat.le_refl _) (by omega)
      simp [hZero, examine] at hFirst
    rcases Nat.lt_trichotomy g last with hLt | rfl | hGt
    · have hPass := hBefore g hg hLt
      obtain ⟨hgPos, hgIn⟩ := victimIndex_lt_of_examine hPass
      rw [List.length_append, List.length_singleton] at hgIn
      rcases hSettles with hPast | ⟨victim, hVictim, hEnough⟩
      · omega
      · simp only [examine, lastExtent?_concat hNew, hVictim, hEnough, if_true,
          List.length_append, List.length_singleton] at hPass
        rw [if_neg (by omega), if_neg (by omega)] at hPass
        cases hPass
    · rcases hSettles with hPast | ⟨victim, hVictim, -⟩
      · omega
      · simp [hIndex, lastExtent?] at hVictim
    · exact hClear last hLo hGt hIndex
  · intro hNoRoom
    obtain ⟨grant, next, hSearch⟩ := searchVictim_ends (p.states ++ [new]) need p.extentGrantCount
    obtain ⟨last, hLo, -, -, hLast, hBefore⟩ := searchVictim_eq_some hSearch
    have hClear : ∀ k, p.extentGrantCount ≤ k → k < last → victimIndex k ≠ p.states.length := by
      intro k hk hkLast hIndex
      have hPass := hBefore k hk hkLast
      obtain ⟨hkPos, -⟩ := victimIndex_lt_of_examine hPass
      have hNone : lastExtent? p.states p.states.length = none := by simp [lastExtent?]
      simp only [examine, lastExtent?_concat hNew, hIndex, hNone, List.length_append,
        List.length_singleton] at hPass
      rw [if_neg (by omega), if_neg (by omega)] at hPass
      cases hPass
    cases grant with
    | missing => exact ⟨last, hLo, hLast, hBefore⟩
    | whole =>
        have hZero := examine_whole hLast
        exact absurd (Or.inl (by omega)) hNoRoom
    | grow =>
        refine absurd (Or.inr ⟨last, hLo, Or.inl ?_, hClear⟩) hNoRoom
        unfold examine at hLast
        split at hLast
        · cases hLast
        split at hLast
        · rename_i hPast
          rw [List.length_append, List.length_singleton] at hPast
          omega
        split at hLast
        · cases hLast
        split at hLast <;> cases hLast
    | cut j =>
        obtain ⟨rfl, victim, hVictim, hEnough⟩ := examine_cut hLast
        rw [lastExtent?_concat hNew] at hVictim
        exact absurd (Or.inr ⟨last, hLo, Or.inr ⟨victim, hVictim, hEnough⟩, hClear⟩) hNoRoom

theorem bucketIndices_lt {p : BucketPlacement} {bucket : Nat}
    (h : p.bucketIndices bucket = some i) : i < p.states.length := by
  obtain ⟨hLt, -⟩ := List.findIdx?_eq_some_iff_getElem.mp h
  exact hLt

theorem GrantedRegion.each {Q : Nat → BucketState → Prop} (h : GrantedRegion config i s t)
    (hQ : Each Q s.placement)
    (hPush : ∀ state region, Q i state → Q i { state with slots := state.slots ++ [region] }) :
    Each Q t.placement := by
  obtain ⟨pushed, hPushed, rfl⟩ := h.grant
  refine Each.modifyState ?_ fun state => hPush state _
  exact hQ.congr (by rw [hPushed.placement])

theorem GrantedRegion.length_states (h : GrantedRegion config i s t) :
    t.placement.states.length = s.placement.states.length := by
  obtain ⟨pushed, hPushed, rfl⟩ := h.grant
  change (pushed.placement.states.modify i _).length = _
  rw [List.length_modify, hPushed.placement]

theorem GrantedRegion.fileSize (h : GrantedRegion config i s t) :
    t.placement.fileSize = s.placement.fileSize := by
  obtain ⟨pushed, hPushed, rfl⟩ := h.grant
  change pushed.placement.fileSize = _
  rw [hPushed.placement]

theorem GrantedRegion.stocked (h : GrantedRegion config i s t) (hStocked : Stocked s.placement) :
    Stocked t.placement where
  data := h.each hStocked.data fun _ _ hData => hData
  slots := h.each hStocked.slots fun _ _ _ => List.append_ne_nil_of_right_ne_nil _ (by simp)
  base := hStocked.base.trans (Nat.le_of_eq h.fileSize.symm)

/-- A grant gives the new extent to the bucket that asked for it. -/
theorem GrantedExtent.data_ne_nil (h : GrantedExtent config i need s t e) {state : BucketState}
    (hState : t.placement.states[i]? = some state) : state.data ≠ [] := by
  obtain ⟨mid, pushed, -, -, rfl⟩ := h.grant
  change (pushed.placement.states.modify i _)[i]? = some state at hState
  rw [List.getElem?_modify] at hState
  obtain ⟨old, -, rfl⟩ := Option.map_eq_some_iff.mp hState
  simp

theorem GrantedRegion.slots_ne_nil (h : GrantedRegion config i s t) {state : BucketState}
    (hState : t.placement.states[i]? = some state) : state.slots ≠ [] := by
  obtain ⟨pushed, -, rfl⟩ := h.grant
  change (pushed.placement.states.modify i _)[i]? = some state at hState
  rw [List.getElem?_modify] at hState
  obtain ⟨old, -, rfl⟩ := Option.map_eq_some_iff.mp hState
  simp

/-- The old buckets keep their space, and the new one has been given some. -/
theorem Indexed.stocked {bucket : Nat} (h : Indexed config bucket need i s t)
    (hStocked : Stocked s.placement) : Stocked t.placement ∧ i < t.placement.states.length := by
  cases h with
  | known hIndex hAfter =>
      subst hAfter
      exact ⟨hStocked, bucketIndices_lt hIndex⟩
  | opened mid e hNew hIndex hExtent hRegion =>
      have hOld : ∀ {R : BucketState → Prop}, Each (fun _ state => R state) s.placement →
          Each (fun j state => j ≠ i → R state) (withNew s bucket).placement := by
        intro R hR j state hState hj
        change (s.placement.states ++ [⟨bucket, [], []⟩])[j]? = some state at hState
        have hLt : j < s.placement.states.length := by
          obtain ⟨hLt, -⟩ := List.getElem?_eq_some_iff.mp hState
          rw [List.length_append, List.length_singleton] at hLt
          omega
        rw [List.getElem?_append_left hLt] at hState
        exact hR j state hState
      have hData : Each (fun j state => j ≠ i → state.data ≠ []) mid.placement :=
        hExtent.each (hOld hStocked.data) (fun _ _ _ h hj => modifyLast_ne_nil _ (h hj))
          (fun _ _ hj => absurd rfl hj)
      have hSlots : Each (fun j state => j ≠ i → state.slots ≠ []) mid.placement :=
        hExtent.each (hOld hStocked.slots) (fun _ _ _ h => h) (fun _ _ hj => absurd rfl hj)
      have hDataAll : Each (fun _ state => state.data ≠ []) mid.placement := by
        intro j state hState
        by_cases hj : j = i
        · subst hj
          exact hExtent.data_ne_nil hState
        · exact hData j state hState hj
      refine ⟨⟨hRegion.each hDataAll fun _ _ h => h, ?_, ?_⟩, ?_⟩
      · intro j state hState
        by_cases hj : j = i
        · subst hj
          exact hRegion.slots_ne_nil hState
        · exact hRegion.each hSlots (fun _ _ _ hj => absurd rfl hj) j state hState hj
      · rw [hRegion.fileSize]
        exact hStocked.base.trans hExtent.fileSize_le
      · rw [hRegion.length_states, hExtent.length_states, hIndex, withNew]
        simp

theorem Stocked.useExtent (h : Stocked s.placement) (i used : Nat) :
    Stocked (useExtent s i used).placement where
  data := Each.modifyState h.data fun _ hData => modifyLast_ne_nil _ hData
  slots := Each.modifyState h.slots fun _ hSlots => hSlots
  base := h.base

theorem Stocked.useRegion (h : Stocked s.placement) (i used : Nat) :
    Stocked (useRegion s i used).placement where
  data := Each.modifyState h.data fun _ hData => hData
  slots := Each.modifyState h.slots fun _ hSlots => modifyLast_ne_nil _ hSlots
  base := h.base

theorem PlacedBytes.stocked {totalLen off : Nat} (h : PlacedBytes config i totalLen off s t)
    (hStocked : Stocked s.placement) : Stocked t.placement := by
  cases h with
  | fits _ _ _ _ hAfter => exact hAfter ▸ hStocked.useExtent i _
  | granted _ _ _ _ _ _ hExtent _ _ hAfter => exact hAfter ▸ (hExtent.stocked hStocked).useExtent i _

theorem PlacedBytes.length_states {totalLen off : Nat} (h : PlacedBytes config i totalLen off s t) :
    t.placement.states.length = s.placement.states.length := by
  cases h with
  | fits _ _ _ _ hAfter =>
      rw [hAfter]
      exact List.length_modify ..
  | granted _ _ _ _ _ _ hExtent _ _ hAfter =>
      rw [hAfter]
      exact (List.length_modify ..).trans hExtent.length_states

theorem Numbered.stocked {id : Nat} (h : Numbered config i id s t) (hStocked : Stocked s.placement) :
    Stocked t.placement := by
  cases h with
  | fits _ _ _ _ hAfter => exact hAfter ▸ hStocked.useRegion i _
  | granted _ _ _ _ _ hRegion _ _ hAfter => exact hAfter ▸ (hRegion.stocked hStocked).useRegion i _

end BucketPlacement

end HeapStore
