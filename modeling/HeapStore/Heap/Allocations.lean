import HeapStore.Heap.BucketRuns
import HeapStore.Heap.ClosedBucket

/-! The places that a bucket heap hands out over its life: they share no byte,
each lies in an extent of its bucket behind the earlier ones, and opening the
files again gives every bucket its extents and regions back. -/
namespace HeapStore

open Effect PagedFile IndexFile

/-- A byte range that an allocation returned, with the number that came with it
unless the range is for an update. -/
structure Allocated where
  bucket : Nat
  off : Nat
  totalLen : Nat
  number : Option Nat

namespace Allocated

def stop (a : Allocated) : Nat := a.off + a.totalLen

/-- What a record fills. -/
def place (a : Allocated) : Nat × Nat × Nat := (a.bucket, a.off, a.totalLen)

/-- The ranges follow each other from an offset on. -/
def BackToBack (off : Nat) : List Allocated → Prop
  | [] => True
  | a :: rest => a.off = off ∧ BackToBack a.stop rest

theorem backToBack_of_chain {lo hi : Nat} {records : List Record} {allocs : List Allocated}
    (h : WalkRange.Chain true lo hi records)
    (hPlaces : records.map (fun r => (r.header.bucket, r.off, r.totalLen true)) =
      allocs.map place) : BackToBack lo allocs := by
  induction h generalizing allocs with
  | nil lo =>
      obtain rfl := List.map_eq_nil_iff.mp hPlaces.symm
      trivial
  | cons r tail ih =>
      cases allocs with
      | nil => cases hPlaces
      | cons a rest =>
          rw [List.map_cons, List.map_cons, List.cons.injEq] at hPlaces
          obtain ⟨hHead, hRest⟩ := hPlaces
          obtain ⟨-, hOff, hLen⟩ := by simpa [place] using hHead
          refine ⟨hOff.symm, ?_⟩
          rw [stop, ← hOff, ← hLen]
          exact ih hRest

end Allocated

namespace Heap

open BucketPlacement WalkRange

/-- The ranges that were handed out, over the extents of the buckets. -/
structure Separated (allocs : List Allocated) (p : BucketPlacement) : Prop where
  apart : allocs.Pairwise fun a b => a.stop ≤ b.off ∨ b.stop ≤ a.off
  base : ∀ a ∈ allocs, PAGE ≤ a.off
  owned : ∀ a ∈ allocs, ∃ state ∈ p.states, state.id = a.bucket ∧
    ∃ e ∈ state.data, e.start ≤ a.off ∧ a.stop ≤ e.stop
  extents : (extents p.states).Pairwise Extent.Apart
  whole : ∀ e ∈ HeapStore.extents p.states,
    e.start % PAGE = 0 ∧ e.size % PAGE = 0 ∧ e.used ≤ e.size
  packed : ∀ e ∈ HeapStore.extents p.states,
    Allocated.BackToBack e.start (allocs.filter fun a => decide (e.Covers a.off))
  numbers : (allocs.filterMap Allocated.number).Nodup

/-- One step in the life of a bucket heap, with the range that it allocated.
A heap that was closed cleanly may be opened again. -/
inductive Placing (config : HeapConfig) :
    Heap BucketPlacement → Option Allocated → Heap BucketPlacement → Prop where
  | inserted {h h' : Heap BucketPlacement} {bucket id off : Nat} {payload : Bytes}
      {t : Placed BucketPlacement} (range : bucket < 2 ^ 64)
      (run : insertInto config bucket payload h = .ok id h')
      (granted : alloc config bucket
        ((dataFile BucketPlacement config).recordHeaderLen + payload.length) h.placed =
          .ok (off, id) t) :
      Placing config h (some ⟨bucket, off,
        (dataFile BucketPlacement config).recordHeaderLen + payload.length, some id⟩) h'
  | updated {h g g' h' : Heap BucketPlacement} {id off : Nat} {payload : Bytes} {slot : Slot}
      {old : RecordHeader} {t : Placed BucketPlacement}
      (run : update config id payload h = .ok () h') (found : liveSlot id h = .ok slot g)
      (header : onStore ((dataFile BucketPlacement config).readHeader slot.offset id) g = .ok old g')
      (granted : allocUpdate config old.bucket
        ((dataFile BucketPlacement config).recordHeaderLen + payload.length) g'.placed =
          .ok off t) :
      Placing config h (some ⟨old.bucket, off,
        (dataFile BucketPlacement config).recordHeaderLen + payload.length, none⟩) h'
  | deleted {h h' : Heap BucketPlacement} {id : Nat} (run : delete config id h = .ok () h') :
      Placing config h none h'
  | flushed {h h' : Heap BucketPlacement} (run : flush h = .ok () h') : Placing config h none h'
  | reopened {h g h' : Heap BucketPlacement} (run : flush h = .ok () g)
      (opened : OpenedOn config (close h) h') : Placing config h none h'

variable {config : HeapConfig} {h g h' : Heap BucketPlacement} {L : Ledger}
  {allocs : List Allocated} {events : List (Option Allocated)} {start : Store}

/-- The ranges are those of the records that were written, in this order. -/
structure Traced (allocs : List Allocated) (log : List Record) : Prop where
  places : log.map (fun r => (r.header.bucket, r.off, r.totalLen true)) =
    allocs.map Allocated.place
  issued : ∀ id ∈ allocs.filterMap Allocated.number, ∃ r ∈ log, r.header.id = id
  once : (allocs.filterMap Allocated.number).Nodup

namespace Traced

variable {log : List Record} {r : Record}

/-- One more range for one more record. -/
theorem concat {a : Allocated} (h : Traced allocs log)
    (hPlace : (r.header.bucket, r.off, r.totalLen true) = a.place)
    (hNumber : ∀ id, a.number = some id → r.header.id = id ∧ ∀ old ∈ log, old.header.id ≠ id) :
    Traced (allocs ++ [a]) (log ++ [r]) where
  places := by
    rw [List.map_append, List.map_append, h.places]
    simp [hPlace]
  issued id hId := by
    rw [List.filterMap_append, List.mem_append] at hId
    rcases hId with hOld | hNew
    · obtain ⟨old, hOld, hSame⟩ := h.issued id hOld
      exact ⟨old, List.mem_append_left _ hOld, hSame⟩
    · have hOwn : a.number = some id := by simpa using hNew
      exact ⟨r, List.mem_append_right _ (List.mem_singleton_self r), (hNumber id hOwn).1⟩
  once := by
    rw [List.filterMap_append, List.nodup_append]
    refine ⟨h.once, ?_, ?_⟩
    · cases hNone : a.number <;> simp [hNone]
    · intro id hOld other hNew hSame
      subst hSame
      have hOwn : a.number = some id := by simpa using hNew
      obtain ⟨old, hOld, hId⟩ := h.issued id hOld
      exact (hNumber id hOwn).2 old hOld hId

/-- Every range is filled by a record. -/
theorem mem (h : Traced allocs log) {a : Allocated} (ha : a ∈ allocs) :
    ∃ r ∈ log, r.header.bucket = a.bucket ∧ r.off = a.off ∧ r.stop true = a.stop := by
  have hPlace : a.place ∈ allocs.map Allocated.place := List.mem_map_of_mem ha
  rw [← h.places] at hPlace
  obtain ⟨r, hr, hSame⟩ := List.mem_map.mp hPlace
  obtain ⟨hBucket, hOff, hLen⟩ := by simpa [Allocated.place] using hSame
  exact ⟨r, hr, hBucket, hOff, by rw [Record.stop, hOff, hLen, Allocated.stop]⟩

end Traced

/-- What holds of a bucket heap and the ranges that it has handed out. -/
structure Traceable (config : HeapConfig) (events : List (Option Allocated))
    (h : Heap BucketPlacement) (L : Ledger) : Prop where
  sound : Sound config L h.placed
  traced : Traced (events.filterMap id) L.log

/-- A heap that was closed and opened again has the same records, and every
bucket its extents and regions. -/
theorem Sound.opened_again (hSound : Sound config L h.placed) (hFlush : flush h = .ok () g)
    (hOpened : OpenedOn config (close h) h') :
    (∃ slots, Sound config { L with slots } h'.placed) ∧
      h'.placement.states.map BucketState.unused = h.placement.states.map BucketState.unused := by
  obtain ⟨hAll, hFlushed⟩ := flush_ok hSound hFlush
  have hPlaced : g.placement = h.placement := by
    obtain ⟨u, -, rfl⟩ := onStore_eq_ok.mp hFlush
    rfl
  have hClosed : close h = closed g.store := by
    rw [close, final_of_ok hFlush]
    rfl
  have hStaged : ∀ n, HasFile BucketPlacement n → (g.store.paged n).stagedWrites = [] :=
    fun n hn => hAll.staged hn
  obtain ⟨order, report, hRun⟩ := hOpened.run
  rw [hClosed] at hRun
  have hMeets := hFlushed.reopen_meets hStaged order
  obtain ⟨restored, hOpen, -⟩ := ((hFlushed.atRest hStaged).open_iff fun e t hError =>
    (hMeets.failsOnly e t hError).uncorrupt).mp hRun
  obtain ⟨hOut, -, slots, hSoundAgain, -⟩ := hMeets.ok hOpen
  refine ⟨⟨slots, hSoundAgain⟩, ?_⟩
  change h'.placement = g.placement.resumed L.rows _ at hOut
  rw [hOut, BucketPlacement.resumed, hPlaced, List.map_map]
  apply List.map_congr_left
  intro state _
  simp only [Function.comp_apply, BucketState.unused, filled, unused_fillEarlier]

namespace Traceable

variable {range : Option Allocated}

theorem created (hOpened : OpenedOn config start h) (hBlank : Blank start) (hConfig : config.Usable) :
    Traceable config [] h .empty :=
  ⟨hOpened.created hBlank hConfig, ⟨rfl, nofun, List.nodup_nil⟩⟩

/-- A step that allocates nothing. -/
theorem idle {M : Ledger} (hTrace : Traceable config events h L) (hSound : Sound config M h'.placed)
    (hLog : M.log = L.log) : Traceable config (events ++ [none]) h' M := by
  refine ⟨hSound, ?_⟩
  rw [List.filterMap_append, hLog]
  simpa using hTrace.traced

/-- A step that allocates the place of one more record. -/
theorem placed {M : Ledger} {a : Allocated} {r : Record} (hTrace : Traceable config events h L)
    (hSound : Sound config M h'.placed) (hLog : M.log = L.log ++ [r])
    (hPlace : (r.header.bucket, r.off, r.totalLen true) = a.place)
    (hNumber : ∀ id, a.number = some id → r.header.id = id ∧ ∀ old ∈ L.log, old.header.id ≠ id) :
    Traceable config (events ++ [some a]) h' M := by
  refine ⟨hSound, ?_⟩
  rw [List.filterMap_append, hLog]
  exact hTrace.traced.concat hPlace hNumber

/-- One step hands out the place of the record that it writes, if it writes one. -/
theorem step (hTrace : Traceable config events h L) (hConfig : config.Usable)
    (hPlacing : Placing config h range h') : ∃ M, Traceable config (events ++ [range]) h' M := by
  cases hPlacing with
  | @inserted _ bucket id off payload t inRange run granted =>
      obtain ⟨r, new, hInserted⟩ := insertInto_ok hTrace.sound hConfig inRange run
      obtain ⟨_, hAlloc⟩ := hInserted.placed
      obtain ⟨place, hRecord⟩ := hInserted.record
      obtain ⟨hOff, -⟩ := EStateM.Result.ok.inj (hAlloc.symm.trans granted)
      have hOff : r.off = off := (Prod.mk.inj hOff).1
      refine ⟨_, hTrace.placed hInserted.sound rfl ?_ ?_⟩
      · rw [hOff, hRecord]
        rfl
      · rintro k hk
        cases hk
        exact ⟨by rw [hRecord]; rfl, hInserted.fresh⟩
  | @updated g g' _ id off payload slot header t run found read granted =>
      obtain ⟨old, r, new, hUpdated⟩ := update_ok hTrace.sound run
      obtain ⟨u, u', v, hFound, hHeader, hAlloc⟩ := hUpdated.placed
      obtain ⟨place, hRecord⟩ := hUpdated.record
      obtain ⟨hSlot, rfl⟩ := EStateM.Result.ok.inj (hFound.symm.trans found)
      rw [← hSlot] at read
      obtain ⟨rfl, rfl⟩ := EStateM.Result.ok.inj (hHeader.symm.trans read)
      obtain ⟨hOff, -⟩ := EStateM.Result.ok.inj (hAlloc.symm.trans granted)
      refine ⟨_, hTrace.placed hUpdated.sound rfl ?_ ?_⟩
      · rw [hOff, hRecord]
        rfl
      · rintro k hk
        cases hk
  | deleted run =>
      obtain ⟨slot, hDeleted⟩ := delete_ok hTrace.sound run
      exact ⟨_, hTrace.idle hDeleted.sound rfl⟩
  | flushed run => exact ⟨L, hTrace.idle (flush_ok hTrace.sound run).2 rfl⟩
  | reopened run opened =>
      obtain ⟨⟨slots, hSound⟩, -⟩ := hTrace.sound.opened_again run opened
      exact ⟨_, hTrace.idle hSound rfl⟩

/-- The extents of the buckets separate the ranges that were handed out. -/
theorem separated (hTrace : Traceable config events h L) (hSized : PageSized config) :
    Separated (events.filterMap id) h.placement where
  apart := by
    have hApart : ((events.filterMap id).map Allocated.place).Pairwise fun x y =>
        x.2.1 + x.2.2 ≤ y.2.1 ∨ y.2.1 + y.2.2 ≤ x.2.1 := by
      rw [← hTrace.traced.places]
      exact List.pairwise_map.mpr hTrace.sound.data.apart
    exact List.pairwise_map.mp hApart
  base a ha := by
    obtain ⟨r, hr, -, hOff, -⟩ := hTrace.traced.mem ha
    rw [← hOff]
    exact hTrace.sound.data.base r hr
  owned a ha := by
    obtain ⟨r, hr, hBucket, hOff, hStop⟩ := hTrace.traced.mem ha
    have hGeometry := hTrace.sound.placed.geometry
    obtain ⟨e, he, hCovers⟩ := hGeometry.home r hr
    obtain ⟨j, state, hState, hMem⟩ := mem_extents.mp he
    have hPlot := hGeometry.plots j state hState e hMem
    have hWithin := mem_within.mpr ⟨hr, hCovers⟩
    have hInside := (hPlot.off_lt hWithin).2
    have hUsed := hPlot.used
    refine ⟨state, List.mem_of_getElem? hState, ?_, e, hMem, ?_, ?_⟩
    · rw [← hBucket, hPlot.owner r hWithin]
    · rw [← hOff]
      exact hCovers.1
    · rw [← hStop, Extent.stop]
      omega
  extents := hTrace.sound.placed.geometry.apart
  whole e he := by
    obtain ⟨bucket, hPlot⟩ := hTrace.sound.placed.geometry.plot_of_mem he
    obtain ⟨hStart, hSize⟩ := (hTrace.sound.placed.aligned hSized).extents e he
    exact ⟨hStart, hSize, hPlot.used⟩
  packed e he := by
    obtain ⟨bucket, hPlot⟩ := hTrace.sound.placed.geometry.plot_of_mem he
    obtain ⟨fill, -, hChain⟩ := hPlot.chain
    refine Allocated.backToBack_of_chain hChain ?_
    have hFiltered := congrArg (List.filter fun x => decide (e.Covers x.2.1)) hTrace.traced.places
    rw [List.filter_map, List.filter_map] at hFiltered
    exact hFiltered
  numbers := hTrace.traced.once

end Traceable

/-- Over the life of a bucket heap no two ranges that it hands out share a byte.
Each lies in an extent of its bucket, behind the earlier ones, no number is
handed out twice, and opening the closed files gives every bucket the extents
and regions that it had. -/
theorem allocations_separated (hBlank : Blank start) (hConfig : config.Usable)
    (hSized : PageSized config) (hOpened : OpenedOn config start h)
    (hRun : Runs.Steps (Placing config) h events h') :
    Separated (events.filterMap id) h'.placement ∧
      ∀ g (again : Heap BucketPlacement), flush h' = .ok () g → OpenedOn config (close h') again →
        again.placement.states.map BucketState.unused =
          h'.placement.states.map BucketState.unused := by
  have hTrace : ∃ L, Traceable config events h' L :=
    hRun.invariant (I := fun events h => ∃ L, Traceable config events h L)
      (fun past g range g' hPast hStep => hPast.elim fun _ hTrace => hTrace.step hConfig hStep)
      ⟨_, .created hOpened hBlank hConfig⟩
  obtain ⟨L, hTrace⟩ := hTrace
  exact ⟨hTrace.separated hSized, fun g again hFlush hAgain =>
    (hTrace.sound.opened_again hFlush hAgain).2⟩

set_option maxRecDepth 20000 in
theorem allocations_separated_pair :
    ∃ h h' : Heap BucketPlacement, OpenedOn megabyte .empty h ∧
      Runs.Steps (Placing megabyte) h
        [some ⟨3, PAGE, 39, some 0⟩, some ⟨5, 528384, 40, some 1⟩] h' ∧
      Separated [⟨3, PAGE, 39, some 0⟩, ⟨5, 528384, 40, some 1⟩] h'.placement := by
  have hBlank : Blank .empty := ⟨fun _ => rfl, fun _ => rfl, rfl⟩
  obtain ⟨h, hOpened, hPlacement, hSound, hReach, hEnd, -⟩ := exists_opened_bucket megabyte hBlank
    megabyte_usable (by decide)
  obtain ⟨g, M, hFirst, hPlacement, hSound, hReach, hEnd, -, v, hGranted⟩ :=
    bucket_insert_run (q := ⟨[⟨3, [⟨PAGE, 1044480, 39⟩], [⟨0, 1, 1⟩]⟩], 1, 2 ^ 20, 1,
        PAGE + 2 * REGISTRY_ROW_SIZE⟩)
      3 0 PAGE [7] hSound megabyte_usable hReach
      (coherent_reserving 1052672 0) hEnd (by decide) (addressable_of_lt (by decide))
      (by rw [hPlacement]; rfl) (by decide)
  obtain ⟨h', N, hSecond, -, -, -, -, -, v', hGranted'⟩ :=
    bucket_insert_run (q := ⟨[⟨3, [⟨PAGE, 524288, 39⟩], [⟨0, 1, 1⟩]⟩,
        ⟨5, [⟨528384, 520192, 40⟩], [⟨1, 1, 1⟩]⟩], 2, 2 ^ 20, 2, PAGE + 4 * REGISTRY_ROW_SIZE⟩)
      5 1 528384 [8, 9] hSound megabyte_usable hReach
      (coherent_reserving 1052672 2) hEnd (by decide) (addressable_of_lt (by decide))
      (by rw [hPlacement]; rfl) (by decide)
  have hRun : Runs.Steps (Placing megabyte) h
      [some ⟨3, PAGE, 39, some 0⟩, some ⟨5, 528384, 40, some 1⟩] h' :=
    (Runs.Steps.refl.step (.inserted (by decide) hFirst hGranted)).step
      (.inserted (by decide) hSecond hGranted')
  exact ⟨h, h', hOpened, hRun, (allocations_separated hBlank megabyte_usable
    ⟨by decide, by decide, by decide⟩ hOpened hRun).1⟩

end Heap

end HeapStore
