import Mathlib.Algebra.Order.BigOperators.Group.List
import Mathlib.Algebra.BigOperators.Group.List.Basic
import HeapStore.Heap.BucketRuns
import HeapStore.Heap.Lifetime

/-! What a heap counts as used of its data file. In the append layout that is the
length of all records ever written; in the bucket layout it may be more, as an
extent that was left counts as full once the store was opened again. -/
namespace HeapStore

open Effect PagedFile IndexFile WalkRange

theorem WalkRange.Chain.sum {withBucket : Bool} {lo hi : Nat} {recs : List Record}
    (h : Chain withBucket lo hi recs) : lo + (recs.map (Record.totalLen withBucket)).sum = hi := by
  induction h with
  | nil => rfl
  | cons r tail ih =>
      rw [List.map_cons, List.sum_cons, ← ih, Record.stop]
      omega

/-- Extents of a range that share no byte are not longer than the range. -/
theorem Extent.sum_size_le {l : List Extent} {lo hi : Nat} (hApart : l.Pairwise Extent.Apart)
    (hInside : ∀ e ∈ l, lo ≤ e.start ∧ e.stop ≤ hi) : (l.map Extent.size).sum ≤ hi - lo := by
  have hDistinct : (l.flatMap fun e => List.range' e.start e.size).Nodup := by
    rw [List.nodup_flatMap]
    refine ⟨fun e _ => List.nodup_range', hApart.imp ?_⟩
    intro a b hAB off hA hB
    rw [List.mem_range'_1] at hA hB
    simp only [Extent.Apart, Extent.stop] at hAB
    omega
  have hSubset : (l.flatMap fun e => List.range' e.start e.size) ⊆ List.range' lo (hi - lo) := by
    intro off hOff
    obtain ⟨e, he, hIn⟩ := List.mem_flatMap.mp hOff
    have hBounds := hInside e he
    rw [Extent.stop] at hBounds
    rw [List.mem_range'_1] at hIn ⊢
    omega
  have hLength := hDistinct.length_le_of_subset hSubset
  rwa [List.length_flatMap, List.length_range', List.map_congr_left (g := Extent.size) fun e _ =>
    List.length_range'] at hLength

/-- Records that all lie in extents are not longer than what lies in each extent. -/
theorem sum_le_sum_within {l : List Extent} {log : List Record} (f : Record → Nat)
    (hHome : ∀ r ∈ log, ∃ e ∈ l, e.Covers r.off) :
    (log.map f).sum ≤ (l.map fun e => ((within e log).map f).sum).sum := by
  induction log with
  | nil => exact Nat.zero_le _
  | cons r rest ih =>
      have hRest := ih fun x hx => hHome x (List.mem_cons_of_mem _ hx)
      obtain ⟨home, hHere, hCovers⟩ := hHome r (List.mem_cons_self ..)
      have hSplit : (l.map fun e => ((within e (r :: rest)).map f).sum).sum =
          (l.map fun e => if e.Covers r.off then f r else 0).sum +
            (l.map fun e => ((within e rest).map f).sum).sum := by
        rw [← List.sum_map_add]
        congr 1
        apply List.map_congr_left
        intro e _
        by_cases hIn : e.Covers r.off
        · simp [within, hIn]
        · simp [within, hIn]
      have hOne : f r ≤ (l.map fun e => if e.Covers r.off then f r else 0).sum := by
        have hMem : f r ∈ l.map fun e => if e.Covers r.off then f r else 0 :=
          List.mem_map.mpr ⟨home, hHere, if_pos hCovers⟩
        exact List.single_le_sum (fun _ _ => Nat.zero_le _) _ hMem
      rw [hSplit, List.map_cons, List.sum_cons]
      omega

namespace BucketPlacement

variable {p : BucketPlacement} {log : List Record}

/-- The records do not take more than what is used of the extents. -/
theorem Geometry.written_le (h : Geometry p log) :
    (log.map (Record.totalLen true)).sum ≤ usedBytes p := by
  refine (sum_le_sum_within _ h.home).trans ?_
  refine List.sum_le_sum fun e he => ?_
  obtain ⟨j, state, hState, hMem⟩ := mem_extents.mp he
  obtain ⟨fill, hFill, hChain⟩ := (h.plots j state hState e hMem).chain
  have hSum := hChain.sum
  omega

/-- What is used of the extents fits between the header page and the end of the file. -/
theorem Geometry.used_le (h : Geometry p log) : usedBytes p ≤ p.fileSize - PAGE := by
  have hPlot : ∀ e ∈ extents p.states, e.used ≤ e.size ∧ PAGE ≤ e.start ∧ e.stop ≤ p.fileSize := by
    intro e he
    obtain ⟨j, state, hState, hMem⟩ := mem_extents.mp he
    have hMine := h.plots j state hState e hMem
    exact ⟨hMine.used, hMine.base, hMine.stop⟩
  have hSizes : usedBytes p ≤ ((extents p.states).map Extent.size).sum :=
    List.sum_le_sum fun e he => (hPlot e he).1
  exact hSizes.trans (Extent.sum_size_le h.apart fun e he => (hPlot e he).2)

end BucketPlacement

/-- The length of all records that a history wrote. -/
def writtenBytes (withBucket : Bool) (events : List Event) : Nat :=
  ((events.filterMap Event.write).map fun w => headerLen withBucket + w.2.length).sum

theorem Ledger.Historic.sum_totalLen {withBucket : Bool} {events : List Event} {L : Ledger}
    (h : L.Historic withBucket events) (hFormed : ∀ r ∈ L.log, r.payload.length = r.header.len) :
    (L.log.map (Record.totalLen withBucket)).sum = writtenBytes withBucket events := by
  rw [writtenBytes, ← h.writes, List.map_map]
  congr 1
  apply List.map_congr_left
  intro r hr
  simp only [Function.comp, Record.totalLen]
  rw [hFormed r hr]

namespace Heap

variable {P : Type} [Placement P] [LawfulPlacement P] {config : HeapConfig} {events : List Event}
  {L : Ledger}

theorem Alive.sum_totalLen {h : Heap P} (hAlive : Alive config events h L) :
    (L.log.map (Record.totalLen (Placement.withBucket P))).sum =
      writtenBytes (Placement.withBucket P) events :=
  hAlive.historic.sum_totalLen fun r hr => (hAlive.sound.data.formed r hr).length

/-- Through its whole life an append heap counts exactly what it has written. -/
theorem append_used_bytes {start : Store} {first h : Heap AppendPlacement} (hBlank : Blank start)
    (hConfig : config.Usable) (hOpened : OpenedOn config start first) (hReach : AllInReach first.store)
    (hLife : Lifetime config first events h) (hCount : ∀ id, updateCount events id ≤ 65534) :
    Placement.usedBytes h.placement = writtenBytes false events := by
  obtain ⟨L, hAlive⟩ := hLife.alive hConfig (hOpened.alive hBlank hConfig hReach) hCount
  have hSum := hAlive.sound.placed.chain.sum
  have hWritten : (L.log.map (Record.totalLen false)).sum = writtenBytes false events := hAlive.sum_totalLen
  change h.placed.placement.cursor - PAGE = _
  omega

/-- One record of one byte, seen after the heap was opened again. -/
theorem append_used_bytes_reopened :
    ∃ first h : Heap AppendPlacement, OpenedOn megabyte .empty first ∧
      Lifetime megabyte first [.inserted 0 0 [7], .observed] h ∧ Placement.usedBytes h.placement = 31 := by
  have hBlank : Blank .empty := ⟨fun _ => rfl, fun _ => rfl, rfl⟩
  obtain ⟨first, hOpened, hPlacement, hFirst⟩ := exists_opened megabyte hBlank (by decide)
  obtain ⟨g, M, hInsert, -, hMid⟩ := hFirst.insert 0 [7]
    (by decide) (by rw [hPlacement]; decide) (by rw [hPlacement]; exact addressable_of_lt (by decide))
  rw [hPlacement] at hInsert hMid
  have hAlive : Alive megabyte [.inserted 0 0 [7]] g M :=
    ⟨hMid.sound, hMid.historic, hMid.reach, List.nodup_singleton 0⟩
  obtain ⟨h, hReopened, hReachAgain⟩ := exists_reopened hAlive fun _ => Nat.zero_le _
  have hLife : Lifetime megabyte first [.inserted 0 0 [7], .observed] h :=
    (Runs.Steps.refl.step ⟨.performed hInsert, hMid.reach⟩).step ⟨.reopened hReopened, hReachAgain⟩
  exact ⟨first, h, hOpened, hLife,
    append_used_bytes hBlank megabyte_usable hOpened hFirst.reach hLife fun _ => Nat.zero_le _⟩

/-- A bucket heap counts at least what it has written, and never more than the
data file has room for. -/
theorem bucket_used_bytes {start : Store} {first h : Heap BucketPlacement} (hBlank : Blank start)
    (hConfig : config.Usable) (hOpened : OpenedOn config start first) (hReach : AllInReach first.store)
    (hLife : Lifetime config first events h) (hCount : ∀ id, updateCount events id ≤ 65534) :
    writtenBytes true events ≤ Placement.usedBytes h.placement ∧
      Placement.usedBytes h.placement ≤ (h.store.file .data).size - PAGE := by
  obtain ⟨L, hAlive⟩ := hLife.alive hConfig (hOpened.alive hBlank hConfig hReach) hCount
  have hPlaced : BucketPlacement.Kept config h.placed L.log L.rows := hAlive.sound.placed
  have hWritten : (L.log.map (Record.totalLen true)).sum = writtenBytes true events := hAlive.sum_totalLen
  have hFile : h.placed.placement.fileSize ≤ (h.store.file .data).size :=
    hPlaced.reserved.trans hPlaced.roomy.reserved
  constructor
  · rw [← hWritten]
    exact hPlaced.geometry.written_le
  · exact hPlaced.geometry.used_le.trans (Nat.sub_le_sub_right hFile _)

set_option maxRecDepth 20000 in
theorem bucket_used_bytes_inserted :
    ∃ first h : Heap BucketPlacement, OpenedOn megabyte .empty first ∧
      Lifetime megabyte first [.inserted 0 3 [7]] h ∧ 39 ≤ Placement.usedBytes h.placement ∧
      Placement.usedBytes h.placement ≤ (h.store.file .data).size - PAGE := by
  have hBlank : Blank .empty := ⟨fun _ => rfl, fun _ => rfl, rfl⟩
  obtain ⟨first, hOpened, hPlacement, hSound, hReach, hEnd, -⟩ := exists_opened_bucket megabyte hBlank
    megabyte_usable (by decide)
  obtain ⟨h, M, hInsert, -, -, hReachLast, -⟩ :=
    bucket_insert_run (q := ⟨[⟨3, [⟨PAGE, 1044480, 39⟩], [⟨0, 1, 1⟩]⟩], 1, 2 ^ 20, 1,
        PAGE + 2 * REGISTRY_ROW_SIZE⟩)
      3 0 PAGE [7] hSound megabyte_usable hReach
      (coherent_reserving 1052672 0) hEnd (by decide) (addressable_of_lt (by decide))
      (by rw [hPlacement]; rfl) (by decide)
  have hLife : Lifetime megabyte first [.inserted 0 3 [7]] h :=
    Runs.Steps.refl.step ⟨.performed (.inserted (by decide) hInsert), hReachLast⟩
  exact ⟨first, h, hOpened, hLife,
    bucket_used_bytes hBlank megabyte_usable hOpened hReach hLife fun _ => Nat.zero_le _⟩

end Heap

end HeapStore
