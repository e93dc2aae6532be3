import HeapStore.Placement.Replay
import HeapStore.Storage.Space

/-! The bucket allocator over its store: every grant appends one row to the
registry, and what the registry holds always describes the allocator. -/
namespace HeapStore

open Effect Placed PagedFile

/-- An image of the registry: these rows behind the header page, then nothing. -/
structure Rows (rows : List RegistryRow) (image : Nat → UInt8) : Prop where
  holds : Image.Holds image PAGE (rows.flatMap RegistryRow.encode)
  blank : ∀ i, PAGE + REGISTRY_ROW_SIZE * rows.length ≤ i → image i = 0

theorem length_rows (rows : List RegistryRow) :
    (rows.flatMap RegistryRow.encode).length = REGISTRY_ROW_SIZE * rows.length := by
  induction rows with
  | nil => rfl
  | cons row rest ih =>
      rw [List.flatMap_cons, List.length_append, ih, RegistryRow.length_encode, List.length_cons,
        Nat.mul_succ, Nat.add_comm]

theorem Rows.concat {rows : List RegistryRow} {image : Nat → UInt8} (h : Rows rows image)
    (row : RegistryRow) :
    Rows (rows ++ [row])
      (Image.write image (PAGE + REGISTRY_ROW_SIZE * rows.length) row.encode) := by
  have hLength := length_rows rows
  constructor
  · rw [List.flatMap_append, List.flatMap_singleton, Image.holds_iff_read, List.length_append,
      Image.read_add]
    congr 1
    · rw [Image.read_write_off _ _ (Or.inl (by rw [hLength]))]
      exact (Image.holds_iff_read _ _ _).mp h.holds
    · rw [hLength]
      exact Image.read_write_same _ _ _
  · intro i hi
    rw [List.length_append, List.length_singleton, Nat.mul_succ] at hi
    rw [Image.write_apply_ge _ _ (by rw [RegistryRow.length_encode]; omega)]
    exact h.blank i (by omega)

namespace BucketPlacement

variable {config : HeapConfig} {need i bucket : Nat} {s t : Placed BucketPlacement} {e : Extent}
  {p q : BucketPlacement} {log : List Record} {rows : List RegistryRow} {r : Record}

/-! The steps of the allocator, seen by the geometry, the numbering and the rows. -/

/-- The geometry does not look at regions. -/
theorem Geometry.congr_data (h : Geometry p log)
    (hSame : q.states.map (fun state => (state.id, state.data)) =
      p.states.map fun state => (state.id, state.data))
    (hSize : p.fileSize ≤ q.fileSize) (hCount : q.extentGrantCount = 0 → p.extentGrantCount = 0) :
    Geometry q log := by
  have hExtents : extents q.states = extents p.states := by
    have hMap := congrArg (fun l => (l.map Prod.snd).flatten) hSame
    simpa [extents, List.flatMap_def, Function.comp_def] using hMap
  have hState : ∀ (j : Nat) (state : BucketState), q.states[j]? = some state →
      ∃ old : BucketState, p.states[j]? = some old ∧ old.id = state.id ∧ old.data = state.data := by
    intro j state hj
    have hGet := congrArg (fun l => l[j]?) hSame
    simp only [List.getElem?_map, hj, Option.map_some] at hGet
    obtain ⟨old, hOld, hPair⟩ := Option.map_eq_some_iff.mp hGet.symm
    rw [Prod.mk.injEq] at hPair
    exact ⟨old, hOld, hPair⟩
  refine ⟨hExtents ▸ h.apart, ?_, ?_, hExtents ▸ h.home, fun hZero => hExtents ▸ h.fresh (hCount hZero)⟩
  · intro j state hj e he
    obtain ⟨old, hOld, hId, hData⟩ := hState j state hj
    rw [← hId]
    exact (h.plots j old hOld e (hData ▸ he)).mono hSize
  · intro j state hj e he
    obtain ⟨old, hOld, -, hData⟩ := hState j state hj
    exact h.lasts j old hOld e (hData ▸ he)

theorem TookExtent.count_pos (h : TookExtent config need s t e) :
    0 < t.placement.extentGrantCount := by
  cases h with
  | whole _ _ _ hAfter =>
      rw [hAfter]
      exact Nat.one_pos
  | grow next hNext _ _ hAfter =>
      rw [hAfter]
      exact Nat.zero_lt_of_lt hNext
  | cut next _ _ _ hNext _ _ _ _ hAfter =>
      rw [hAfter]
      exact Nat.zero_lt_of_lt hNext

/-- After the first grant of all, an extent has at least the wanted size. -/
theorem TookExtent.need_le (h : TookExtent config need s t e)
    (hCount : s.placement.extentGrantCount ≠ 0) : need ≤ e.size := by
  cases h with
  | whole hZero _ _ _ => exact absurd hZero hCount
  | grow _ _ hExtent _ _ =>
      rw [hExtent]
      exact Nat.le_max_left _ _
  | cut _ _ _ _ _ _ hCut _ hExtent _ =>
      rw [hExtent, hCut]
      exact Nat.le_max_right _ _

/-- Buckets keep their numbers and regions when an extent is taken. -/
theorem TookExtent.books (h : TookExtent config need s t e) :
    t.placement.books = s.placement.books := by
  cases h with
  | whole _ _ _ hAfter => rw [hAfter, BucketPlacement.books, BucketPlacement.books]
  | grow _ _ _ _ hAfter => rw [hAfter, BucketPlacement.books, BucketPlacement.books]
  | cut _ _ _ _ _ _ _ _ _ hAfter =>
      rw [hAfter, BucketPlacement.books, BucketPlacement.books]
      exact map_modify_same _ _ fun _ => rfl

theorem bucketId_of_book {books : List Book} (hBooks : s.placement.books = books) :
    s.placement.bucketId i = ((books[i]?).map Book.bucket).getD 0 := by
  rw [← hBooks, BucketPlacement.books, List.getElem?_map, Option.map_map]
  rfl

/-- Taking an extent reserves space in the data file at most. -/
theorem TookExtent.reserved (h : TookExtent config need s t e)
    (hReserved : s.placement.fileSize ≤ (s.store.paged .data).allocatedEnd) :
    Reserved s.store t.store ∧ t.store.paged .registry = s.store.paged .registry ∧
      t.placement.fileSize ≤ (t.store.paged .data).allocatedEnd := by
  cases h with
  | whole _ _ _ hAfter =>
      rw [hAfter]
      exact ⟨Reserved.refl _, rfl, hReserved⟩
  | grow _ _ _ hAlloc hAfter =>
      rw [hAfter]
      exact ensureAlloc_ok hAlloc
  | cut _ _ _ _ _ _ _ _ _ hAfter =>
      rw [hAfter]
      exact ⟨Reserved.refl _, rfl, hReserved⟩

/-- The registry describes an allocator that may have put one more bucket,
without rows yet, behind the others. -/
structure Recordable (config : HeapConfig) (p : BucketPlacement) (bucket i : Nat)
    (rows : List RegistryRow) : Prop where
  states : (replayed config rows).rowBucket bucket =
    ({ replayed config rows with states := p.states.map BucketState.unused }, i)
  id : p.bucketId i = bucket
  nextRegion : (replayed config rows).nextRegion = p.nextRegion
  registryEnd : p.registryEnd = PAGE + REGISTRY_ROW_SIZE * rows.length
  fileSize : (replayed config rows).fileSize ≤ p.fileSize
  count : (replayed config rows).extentGrantCount = rows.length
  kinds : ∀ row ∈ rows, KnownKind row
  ranged : ∀ row ∈ rows, row.InRange

theorem bucketIndices_eq_some {p : BucketPlacement} (h : p.bucketIndices bucket = some i) :
    ∃ state, p.states[i]? = some state ∧ state.id = bucket := by
  obtain ⟨hLt, hId, -⟩ := List.findIdx?_eq_some_iff_getElem.mp h
  exact ⟨_, List.getElem?_eq_getElem hLt, by simpa using hId⟩

theorem Recorded.known (h : Recorded config p rows) (hIndex : p.bucketIndices bucket = some i) :
    Recordable config p bucket i rows where
  states := by
    rw [rowBucket_known h.states hIndex, ← h.states]
  id := by
    obtain ⟨state, hState, hId⟩ := bucketIndices_eq_some hIndex
    simp [bucketId, hState, hId]
  nextRegion := h.nextRegion
  registryEnd := h.registryEnd
  fileSize := h.fileSize
  count := h.count
  kinds := h.kinds
  ranged := h.ranged

theorem Recorded.new (h : Recorded config s.placement rows)
    (hIndex : s.placement.bucketIndices bucket = none) :
    Recordable config (withNew s bucket).placement bucket s.placement.states.length rows where
  states := rowBucket_new h.states hIndex
  id := by simp [bucketId, withNew]
  nextRegion := h.nextRegion
  registryEnd := h.registryEnd
  fileSize := h.fileSize
  count := h.count
  kinds := h.kinds
  ranged := h.ranged

/-- The row of a taken extent. -/
theorem Recordable.extent {mid : Placed BucketPlacement} (h : Recordable config s.placement bucket i rows)
    (hGeometry : Geometry s.placement log) (hNeed : 0 < need)
    (hTook : TookExtent config need s mid e) (hStop : e.stop ≤ mid.placement.fileSize)
    (hBucket : bucket < 2 ^ 64) (hSize : mid.placement.fileSize < 2 ^ 63) :
    Recorded config ({ mid.placement with
        registryEnd := mid.placement.registryEnd + REGISTRY_ROW_SIZE }.modifyState i fun state =>
          { state with data := state.data ++ [e] })
      (rows ++ [⟨'D'.toUInt8, bucket, e.start, e.size⟩]) := by
  have hFile := hTook.fileSize_le
  have hOld := h.fileSize
  have hApply : (replayed config rows).applyRow ⟨'D'.toUInt8, bucket, e.start, e.size⟩ =
      { replayed config rows with
        states := (mid.placement.states.map BucketState.unused).modify i fun state =>
          { state with data := state.data ++ [⟨e.start, e.size, 0⟩] }
        extentGrantCount := (replayed config rows).extentGrantCount + 1
        registryEnd := (replayed config rows).registryEnd + REGISTRY_ROW_SIZE
        fileSize := max (replayed config rows).fileSize e.stop } := by
    simp only [applyRow, h.states, if_true, modifyState]
    rw [← hTook.shrink hNeed hGeometry]
    rfl
  refine ⟨?_, ?_, ?_, ?_, ?_, ?_, ?_⟩
  · rw [replayed_concat, hApply]
    exact (unused_push mid.placement.states i e).symm
  · rw [replayed_concat, hApply]
    exact h.nextRegion.trans hTook.nextRegion.symm
  · simp only [modifyState, hTook.registryEnd, h.registryEnd, List.length_append,
      List.length_singleton, Nat.mul_succ, Nat.add_assoc]
  · rw [replayed_concat, hApply]
    change max (replayed config rows).fileSize e.stop ≤ mid.placement.fileSize
    omega
  · rw [replayed_concat, hApply]
    simp [h.count]
  · intro row hRow
    rcases List.mem_append.mp hRow with hRow | hRow
    · exact h.kinds row hRow
    · rw [List.mem_singleton] at hRow
      exact Or.inl (by rw [hRow])
  · intro row hRow
    rcases List.mem_append.mp hRow with hRow | hRow
    · exact h.ranged row hRow
    · rw [List.mem_singleton] at hRow
      subst hRow
      simp only [Extent.stop] at hStop
      exact ⟨hBucket, show e.start < 2 ^ 64 by omega, show e.size < 2 ^ 64 by omega⟩

/-- The row of the next region. -/
theorem Recordable.region (h : Recordable config p bucket i rows)
    (hBucket : bucket < 2 ^ 64) (hStart : p.nextRegion < 2 ^ 64)
    (hSlots : config.regionSlots < 2 ^ 64) :
    Recorded config ({ p with
        nextRegion := p.nextRegion + config.regionSlots
        registryEnd := p.registryEnd + REGISTRY_ROW_SIZE }.modifyState i fun state =>
          { state with slots := state.slots ++ [(⟨p.nextRegion, config.regionSlots, 0⟩ : Extent)] })
      (rows ++ [⟨'S'.toUInt8, bucket, p.nextRegion, config.regionSlots⟩]) := by
  have hNot : ¬ 'S'.toUInt8 = 'D'.toUInt8 := by decide
  have hNext := h.nextRegion
  have hApply : (replayed config rows).applyRow
      ⟨'S'.toUInt8, bucket, p.nextRegion, config.regionSlots⟩ =
      { replayed config rows with
        states := (p.states.map BucketState.unused).modify i fun state =>
          { state with slots := state.slots ++ [(⟨p.nextRegion, config.regionSlots, 0⟩ : Extent)] }
        extentGrantCount := (replayed config rows).extentGrantCount + 1
        registryEnd := (replayed config rows).registryEnd + REGISTRY_ROW_SIZE
        nextRegion := max (replayed config rows).nextRegion (p.nextRegion + config.regionSlots) } := by
    simp only [applyRow, h.states, if_neg hNot, modifyState]
  refine ⟨?_, ?_, ?_, ?_, ?_, ?_, ?_⟩
  · rw [replayed_concat, hApply]
    exact (unused_pushRegion p.states i p.nextRegion config.regionSlots).symm
  · rw [replayed_concat, hApply]
    change max (replayed config rows).nextRegion (p.nextRegion + config.regionSlots) = _
    rw [hNext]
    exact Nat.max_eq_right (Nat.le_add_right _ _)
  · simp only [modifyState, h.registryEnd, List.length_append, List.length_singleton,
      Nat.mul_succ, Nat.add_assoc]
  · rw [replayed_concat, hApply]
    exact h.fileSize
  · rw [replayed_concat, hApply]
    simp [h.count]
  · intro row hRow
    rcases List.mem_append.mp hRow with hRow | hRow
    · exact h.kinds row hRow
    · rw [List.mem_singleton] at hRow
      exact Or.inr (by rw [hRow])
  · intro row hRow
    rcases List.mem_append.mp hRow with hRow | hRow
    · exact h.ranged row hRow
    · rw [List.mem_singleton] at hRow
      subst hRow
      exact ⟨hBucket, hStart, hSlots⟩

/-- What is used of extents and regions is not recorded. -/
theorem Recorded.useExtent (h : Recorded config s.placement rows) (i used : Nat) :
    Recorded config (useExtent s i used).placement rows where
  states := by
    rw [h.states]
    refine (map_modify_same _ _ fun state => ?_).symm
    simp only [BucketState.unused, unused_modifyLast_used]
  nextRegion := h.nextRegion
  registryEnd := h.registryEnd
  fileSize := h.fileSize
  count := h.count
  kinds := h.kinds
  ranged := h.ranged

theorem Recorded.useRegion (h : Recorded config s.placement rows) (i used : Nat) :
    Recorded config (useRegion s i used).placement rows where
  states := by
    rw [h.states]
    refine (map_modify_same _ _ fun state => ?_).symm
    simp only [BucketState.unused, unused_modifyLast_used]
  nextRegion := h.nextRegion
  registryEnd := h.registryEnd
  fileSize := h.fileSize
  count := h.count
  kinds := h.kinds
  ranged := h.ranged

end BucketPlacement

end HeapStore
