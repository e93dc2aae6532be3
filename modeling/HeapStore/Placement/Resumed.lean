import HeapStore.Placement.BucketReopen
import HeapStore.Placement.Lawful

/-! The allocator that opening makes of the files of another keeps the whole
invariant, for the same records and registry rows. -/
namespace HeapStore

open Effect PagedFile WalkRange

namespace BucketPlacement

variable {config : HeapConfig} {p : BucketPlacement} {log : List Record} {rows : List RegistryRow}
  {dataSize : Nat} {e : Extent} {state : BucketState}

/-- Filling changes what is used of extents only. -/
theorem unused_fillEarlier (data : List Extent) :
    (fillEarlier data).map (fun e => { e with used := 0 }) = data.map fun e => { e with used := 0 } := by
  rcases List.eq_nil_or_concat data with rfl | ⟨init, last, rfl⟩
  · rfl
  · simp [fillEarlier]

theorem mem_fillEarlier {data : List Extent} (h : e ∈ fillEarlier data) :
    e ∈ data ∨ ∃ old ∈ data, e = { old with used := old.size } := by
  rcases List.mem_append.mp h with hInit | hLast
  · obtain ⟨old, hOld, rfl⟩ := List.mem_map.mp hInit
    exact Or.inr ⟨old, List.dropLast_subset _ hOld, rfl⟩
  · exact Or.inl (List.mem_of_getLast? (Option.mem_toList.mp hLast))

theorem extents_filled (states : List BucketState) :
    (extents (states.map filled)).map (fun e => { e with used := 0 }) =
      (extents states).map fun e => { e with used := 0 } := by
  induction states with
  | nil => rfl
  | cons state rest ih =>
      simp only [extents, List.map_cons, List.flatMap_cons, List.map_append] at ih ⊢
      rw [ih, filled, unused_fillEarlier]

theorem exists_filled {states : List BucketState} (h : e ∈ extents states) :
    ∃ x ∈ extents (states.map filled), x.start = e.start ∧ x.size = e.size := by
  have hMem := List.mem_map_of_mem (f := fun e : Extent => { e with used := 0 }) h
  rw [← extents_filled] at hMem
  obtain ⟨x, hx, hSame⟩ := List.mem_map.mp hMem
  obtain ⟨hStart, hSize, -⟩ := Extent.mk.inj hSame
  exact ⟨x, hx, hStart, hSize⟩

theorem exists_unfilled {states : List BucketState} (h : e ∈ extents (states.map filled)) :
    ∃ x ∈ extents states, e.start = x.start ∧ e.size = x.size := by
  have hMem := List.mem_map_of_mem (f := fun e : Extent => { e with used := 0 }) h
  rw [extents_filled] at hMem
  obtain ⟨x, hx, hSame⟩ := List.mem_map.mp hMem
  obtain ⟨hStart, hSize, -⟩ := Extent.mk.inj hSame
  exact ⟨x, hx, hStart.symm, hSize.symm⟩

theorem each_resumed {Q R : Nat → BucketState → Prop} (h : Each Q p)
    (hStep : ∀ j state, p.states[j]? = some state → Q j state → R j (filled state)) :
    Each R (p.resumed rows dataSize) := by
  intro j state hState
  rw [resumed, List.getElem?_map] at hState
  obtain ⟨old, hOld, rfl⟩ := Option.map_eq_some_iff.mp hState
  exact hStep j old hOld (h j old hOld)

/-- An extent that counts as full is still a plot of its bucket. -/
theorem plot_full {bucket : Nat} (h : Plot log p.fileSize bucket e) :
    Plot log p.fileSize bucket { e with used := e.size } where
  base := h.base
  stop := h.stop
  used := Nat.le_refl _
  chain := by
    obtain ⟨fill, hFill, hChain⟩ := h.chain
    exact ⟨fill, hFill.trans (Nat.add_le_add_left h.used _), hChain⟩
  owner := h.owner

theorem Geometry.resumed (h : Geometry p log) (hSize : p.fileSize ≤ dataSize)
    (hRows : rows = [] → p.states = []) : Geometry (p.resumed rows dataSize) log where
  apart := by
    have hApart : ((extents p.states).map fun e => { e with used := 0 }).Pairwise Extent.Apart :=
      List.pairwise_map.mpr h.apart
    rw [← extents_filled] at hApart
    exact (List.pairwise_map (f := fun e : Extent => { e with used := 0 })).mp hApart
  plots := by
    refine each_resumed h.plots ?_
    intro j state hState hPlots e he
    rcases mem_fillEarlier he with hOld | ⟨old, hOld, rfl⟩
    · exact (hPlots e hOld).mono hSize
    · exact (plot_full (hPlots old hOld)).mono hSize
  lasts := by
    refine each_resumed h.lasts ?_
    intro j state hState hLast e he
    rw [filled, getLast?_fillEarlier] at he
    exact hLast e he
  home r hr := by
    obtain ⟨e, he, hStart, hStop⟩ := h.home r hr
    obtain ⟨x, hx, hSameStart, hSameSize⟩ := exists_filled he
    refine ⟨x, hx, hSameStart ▸ hStart, ?_⟩
    rw [Extent.stop, hSameStart, hSameSize]
    exact hStop
  fresh hZero := by
    have hNone := hRows (List.length_eq_zero_iff.mp hZero)
    rw [BucketPlacement.resumed, hNone]
    rfl

theorem books_resumed (p : BucketPlacement) (rows : List RegistryRow) (dataSize : Nat) :
    (p.resumed rows dataSize).books = p.books := by
  rw [books, resumed, List.map_map]
  rfl

theorem Stocked.resumed (h : Stocked p) (hSize : p.fileSize ≤ dataSize) :
    Stocked (p.resumed rows dataSize) where
  data := by
    refine each_resumed h.data ?_
    intro j state hState hData hNil
    have hLast := getLast?_fillEarlier state.data
    rw [show fillEarlier state.data = [] from hNil] at hLast
    exact hData (List.getLast?_eq_none_iff.mp hLast.symm)
  slots := each_resumed h.slots fun _ _ _ hSlots => hSlots
  base := h.base.trans hSize

theorem Recorded.resumed (h : Recorded config p rows) (hSize : p.fileSize ≤ dataSize) :
    Recorded config (p.resumed rows dataSize) rows where
  states := by
    rw [h.states, BucketPlacement.resumed, List.map_map]
    apply List.map_congr_left
    intro state _
    simp only [Function.comp_apply, BucketState.unused, filled, unused_fillEarlier]
  nextRegion := h.nextRegion
  registryEnd := h.registryEnd
  fileSize := h.fileSize.trans hSize
  count := h.count
  kinds := h.kinds
  ranged := h.ranged

theorem Aligned.resumed (h : Aligned p) (hSize : dataSize % PAGE = 0) :
    Aligned (p.resumed rows dataSize) where
  fileSize := hSize
  extents e he := by
    obtain ⟨x, hx, hStart, hSame⟩ := exists_unfilled he
    rw [hStart, hSame]
    exact h.extents x hx

/-- Without rows there are no buckets. -/
theorem Recorded.states_nil (h : Recorded config p rows) (hRows : rows = []) : p.states = [] := by
  have hStates := h.states
  rw [hRows] at hStates
  exact List.map_eq_nil_iff.mp hStates.symm

/-- Opening the files of an allocator keeps its invariant. -/
theorem Kept.resumed {s : Store} {t : Store} (h : Kept config ⟨p, s⟩ log rows)
    (hSize : p.fileSize ≤ dataSize) (hPages : dataSize % PAGE = 0)
    (hReserved : dataSize ≤ (t.paged .data).allocatedEnd) (hRoomy : Roomy t)
    (hCoherent : Coherent .registry t) (hStaged : (t.paged .registry).stagedWrites = [])
    (hRows : Rows rows (t.logical .registry)) :
    Kept config ⟨p.resumed rows dataSize, t⟩ log rows where
  base := h.base.trans hSize
  geometry := h.geometry.resumed hSize h.recorded.states_nil
  reserved := hReserved
  roomy := hRoomy
  coherent := hCoherent
  tail := Or.inl hStaged
  registry := hRows
  stocked := h.stocked.resumed hSize
  numbering := by
    change Numbering config (p.resumed rows dataSize).books p.nextRegion log
    rw [books_resumed]
    exact h.numbering
  recorded := h.recorded.resumed hSize
  aligned hConfig := (h.aligned hConfig).resumed hPages

end BucketPlacement

end HeapStore
