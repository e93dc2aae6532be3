import HeapStore.Placement.AllocCalls

/-! The victim search is linear in the number of buckets, from any grant
number on, and it ends with a cut of a victim or with a larger file. -/
namespace HeapStore

open Effect Placed

namespace BucketPlacement

variable {config : HeapConfig} {need g next fuel i : Nat} {grant : Grant}
  {states : List BucketState} {s : Placed BucketPlacement}

/-- More passes than the search needs do not change its result. -/
theorem searchVictim_mono {more : Nat} (hFuel : fuel ≤ more)
    (h : searchVictim states need fuel g = some (grant, next)) :
    searchVictim states need more g = some (grant, next) := by
  induction fuel generalizing g more with
  | zero => cases h
  | succ fuel ih =>
      obtain ⟨more, rfl⟩ : ∃ k, more = k + 1 := ⟨more - 1, by omega⟩
      rw [searchVictim] at h ⊢
      cases hExamine : examine states need g with
      | some first => simpa only [hExamine] using h
      | none =>
          simp only [hExamine] at h ⊢
          exact ih (by omega) h

/-- Three passes for each bucket are enough. -/
theorem searchVictim_linear (hBuckets : 0 < states.length) (hPos : 0 < g) :
    ∃ grant last, searchVictim states need (searchFuel states) g = some (grant, last + 1) ∧
      g ≤ last ∧ last < g + 3 * states.length ∧ examine states need last = some grant ∧
      ∀ k, g ≤ k → k < last → examine states need k = none := by
  have hSome : (searchVictim states need (3 * states.length) g).isSome :=
    searchVictim_isSome hPos (passes_le hBuckets hPos) (by omega)
  obtain ⟨⟨grant, next⟩, hSearch⟩ := Option.isSome_iff_exists.mp hSome
  obtain ⟨last, hLo, hHi, rfl, hExamine, hBefore⟩ := searchVictim_eq_some hSearch
  have hEnough : 3 * states.length ≤ searchFuel states := by
    unfold searchFuel
    omega
  have hMore := searchVictim_mono hEnough hSearch
  exact ⟨grant, last, hMore, hLo, hHi, hExamine, hBefore⟩

theorem examine_grow (h : examine states need g = some .grow) : states.length ≤ victimIndex g := by
  unfold examine at h
  split at h
  · cases h
  split at h
  · assumption
  split at h
  · cases h
  split at h <;> cases h

/-- A bucket that the search looks at and leaves, as its free tail is too short. -/
def PassedOver (states : List BucketState) (need grantNumber : Nat) : Prop :=
  victimIndex grantNumber < states.length ∧
    ∃ victim, lastExtent? states (victimIndex grantNumber) = some victim ∧ victim.freeTail < need

theorem examine_none (h : examine states need g = none) : PassedOver states need g := by
  have hIndex := (victimIndex_lt_of_examine h).2
  unfold examine at h
  split at h
  · cases h
  split at h
  · cases h
  split at h
  · cases h
  rename_i victim hVictim
  split at h
  · cases h
  · rename_i hRoom
    exact ⟨hIndex, victim, hVictim, by omega⟩

/-- The extent is the tail of the last extent of the bucket at a position,
which keeps its used bytes. No other bucket changes. -/
structure CutFrom (need i : Nat) (s t : Placed BucketPlacement) (e : Extent) : Prop where
  inside : i < s.placement.states.length
  enough : need ≤ e.size
  unused : e.used = 0
  tail : ∃ victim, lastExtent? s.placement.states i = some victim ∧ e.stop = victim.stop ∧
    lastExtent? t.placement.states i = some { victim with size := victim.size - e.size } ∧
    victim.used ≤ victim.size - e.size ∧ e.size ≤ victim.size
  others : ∀ j, j ≠ i → t.placement.states[j]? = s.placement.states[j]?
  fileSize : t.placement.fileSize = s.placement.fileSize

/-- The extent lies behind the old file, which has grown by the size of the extent. -/
structure GrownBy (grow : Nat) (s t : Placed BucketPlacement) (e : Extent) : Prop where
  extent : e = ⟨s.placement.fileSize, grow, 0⟩
  fileSize : t.placement.fileSize = s.placement.fileSize + grow
  states : t.placement.states = s.placement.states

theorem lastExtent?_modifyState {f : Extent → Extent} {p : BucketPlacement} {victim : Extent}
    (hVictim : lastExtent? p.states i = some victim) :
    lastExtent? (p.modifyState i fun state =>
      { state with data := modifyLast f state.data }).states i = some (f victim) := by
  obtain ⟨state, init, hState, hData⟩ := lastExtent?_eq_some.mp hVictim
  simp [lastExtent?, modifyState, hState, hData]

theorem cutVictim_cuts (hVictim : ∃ victim, lastExtent? s.placement.states i = some victim ∧
      need ≤ victim.freeTail) (hInside : i < s.placement.states.length) (hNeed : 0 < need) :
    ∃ e t, cutVictim i need s = .ok e t ∧ CutFrom need i s t e ∧
      t.placement.extentGrantCount = s.placement.extentGrantCount := by
  obtain ⟨victim, hVictim, hRoom⟩ := hVictim
  obtain ⟨cut, hCut, hTail, hRun⟩ := cutVictim_eq hVictim hRoom
  have hUsed := le_pageUp victim.used
  have hFree : victim.freeTail = victim.size - pageUp victim.used := rfl
  refine ⟨_, _, hRun, ?_, rfl⟩
  constructor
  case inside => exact hInside
  case enough => exact hCut ▸ Nat.le_max_right _ _
  case unused => rfl
  case tail =>
    refine ⟨victim, hVictim, ?_, lastExtent?_modifyState hVictim, ?_, ?_⟩
    · simp only [Extent.stop]
      omega
    · simp only
      omega
    · simp only
      omega
  case others =>
    intro j hj
    simp [modifyState, Ne.symm hj]
  case fileSize => rfl

theorem growFile_grows {u : Store} (hAlloc : PagedFile.ensureAlloc .data
      (s.placement.fileSize + max need config.growth) (max need config.growth) s.store = .ok () u) :
    ∃ e t, growFile config need s = .ok e t ∧ GrownBy (max need config.growth) s t e ∧
      t.placement.extentGrantCount = s.placement.extentGrantCount := by
  refine ⟨⟨s.placement.fileSize, max need config.growth, 0⟩, ⟨{ s.placement with
    fileSize := s.placement.fileSize + max need config.growth }, u⟩, ?_, ⟨rfl, rfl, rfl⟩, rfl⟩
  rw [growFile, bind_of_ok (getPlacement_apply s)]
  simp only
  rw [bind_of_ok (onStore_eq_ok.mpr ⟨u, hAlloc, rfl⟩)]
  rfl

theorem takeExtent_cut
    (hSearch : searchVictim s.placement.states need (searchFuel s.placement.states)
      s.placement.extentGrantCount = some (.cut i, next)) :
    takeExtent config need s = cutVictim i need (counted s next) := by
  rw [takeExtent, bind_of_ok (getPlacement_apply s)]
  simp only [hSearch]
  rw [bind_of_ok (modifyPlacement_apply _ s)]

/-- With the space that growing the file would reserve available, the grant
loop ends after at most three passes for each bucket. All passes but the last
look at existing buckets without enough free space; the last one cuts a tail
from an existing bucket or grows the file. -/
theorem takeExtent_linear (hBuckets : 0 < s.placement.states.length)
    (hExtents : Each (fun _ state => state.data ≠ []) s.placement)
    (hCount : 0 < s.placement.extentGrantCount) (hNeed : 0 < need)
    (hAlloc : ∃ u, PagedFile.ensureAlloc .data (s.placement.fileSize + max need config.growth)
      (max need config.growth) s.store = .ok () u) :
    ∃ e t last, takeExtent config need s = .ok e t ∧
      s.placement.extentGrantCount ≤ last ∧
      last < s.placement.extentGrantCount + 3 * s.placement.states.length ∧
      t.placement.extentGrantCount = last + 1 ∧
      (∀ k, s.placement.extentGrantCount ≤ k → k < last →
        PassedOver s.placement.states need k) ∧
      (CutFrom need (victimIndex last) s t e ∨
        s.placement.states.length ≤ victimIndex last ∧
          GrownBy (max need config.growth) s t e) := by
  obtain ⟨grant, last, hSearch, hLo, hHi, hExamine, hBefore⟩ :=
    searchVictim_linear hBuckets hCount
  have hPassed : ∀ k, s.placement.extentGrantCount ≤ k → k < last →
      PassedOver s.placement.states need k := fun k hk hkLast => examine_none (hBefore k hk hkLast)
  cases grant with
  | whole =>
      have hZero := examine_whole hExamine
      omega
  | grow =>
      obtain ⟨u, hAlloc⟩ := hAlloc
      obtain ⟨e, t, hRun, hGrown, hNext⟩ := growFile_grows (s := counted s (last + 1)) hAlloc
      exact ⟨e, t, last, (takeExtent_grow hSearch).trans hRun, hLo, hHi, hNext, hPassed,
        .inr ⟨examine_grow hExamine, ⟨hGrown.extent, hGrown.fileSize, hGrown.states⟩⟩⟩
  | cut i =>
      obtain ⟨rfl, hVictim⟩ := examine_cut hExamine
      obtain ⟨state, -, hState, -⟩ := lastExtent?_eq_some.mp hVictim.choose_spec.1
      have hInside := (List.getElem?_eq_some_iff.mp hState).1
      obtain ⟨e, t, hRun, hCut, hNext⟩ := cutVictim_cuts
        (s := counted s (last + 1)) hVictim hInside hNeed
      exact ⟨e, t, last, (takeExtent_cut hSearch).trans hRun, hLo, hHi, hNext, hPassed,
        .inl ⟨hCut.inside, hCut.enough, hCut.unused, hCut.tail, hCut.others, hCut.fileSize⟩⟩
  | missing =>
      obtain ⟨hInside, hNone⟩ := examine_missing hExamine
      obtain ⟨e, hSome⟩ := lastExtent?_isSome hExtents hInside
      rw [hNone] at hSome
      cases hSome

/-- Two buckets without free tails, and a file with eight pages. -/
def packedPair : Placed BucketPlacement :=
  ⟨⟨[⟨3, [⟨PAGE, 3 * PAGE, 3 * PAGE⟩], []⟩, ⟨5, [⟨4 * PAGE, 4 * PAGE, 4 * PAGE⟩], []⟩],
    2, 8 * PAGE, 0, PAGE⟩, .empty⟩

theorem takeExtent_linear_packed :
    ∃ e t last, takeExtent twoPages 100 packedPair = .ok e t ∧ 2 ≤ last ∧ last < 2 + 3 * 2 ∧
      t.placement.extentGrantCount = last + 1 ∧
      (∀ k, 2 ≤ k → k < last → PassedOver packedPair.placement.states 100 k) ∧
      (CutFrom 100 (victimIndex last) packedPair t e ∨
        2 ≤ victimIndex last ∧ GrownBy PAGE packedPair t e) :=
  takeExtent_linear (s := packedPair) (by decide)
    (fun j state hState => by
      rcases List.mem_of_getElem? hState with _ | ⟨_, _ | ⟨_, h⟩⟩
      · simp
      · simp
      · cases h)
    (by decide) (by decide) ⟨_, (PagedFile.ensureAlloc_more (by decide) (by decide)).trans rfl⟩

end BucketPlacement

end HeapStore
