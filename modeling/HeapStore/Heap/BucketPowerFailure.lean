import HeapStore.Heap.BoundedLoss
import HeapStore.Heap.BucketCatchUp

/-! A power failure of a bucket heap. What was committed is found again as far as
it lies in the last extents of the buckets; the index is that of the last flush. -/
namespace HeapStore

open Effect PagedFile IndexFile

namespace Heap

open BucketPlacement

variable {config : HeapConfig} {first h k g older newer : Heap BucketPlacement}
  {c : Cut BucketPlacement} {early events : List Event} {s : Store}

/-- The files that a power failure leaves of a bucket heap. -/
theorem PowerFailed.trailing (hFailed : PowerFailed g s)
    (hIndex : DurableAs .index (older.store.logical .index) 0 g.store)
    (hFiles : ∀ n, HasFile BucketPlacement n → n ≠ .index →
      DurableAs n (newer.store.logical n) (fileEnd newer n) g.store) : Trailing older newer s := by
  have hFound : ∀ n image low, DurableAs n image low g.store →
      (s.disk n).isSome ∧ (s.file n).Whole ∧ (s.file n).bytes = image ∧ low ≤ (s.file n).size := by
    rintro n image low hDurable
    obtain ⟨f, hSame, hWhole, hBytes, hLow⟩ := hDurable.parts
    have hDisk : s.disk n = some f := (hFailed.synced n fun _ => rfl).trans hSame
    have hFile : s.file n = f := by rw [Store.file, hDisk, Option.getD_some]
    rw [hDisk, hFile]
    exact ⟨rfl, hWhole, hBytes, hLow⟩
  have hOld := hFound _ _ _ hIndex
  have hData := hFound _ _ _ (hFiles .data (fun _ => rfl) (by decide))
  have hRegistry := hFound _ _ _ (hFiles .registry (fun _ => rfl) (by decide))
  constructor
  case plan => exact hFailed.plan
  case handles => exact hFailed.handles
  case whole =>
    intro n
    cases n with
    | data => exact hData.2.1
    | index => exact hOld.2.1
    | registry => exact hRegistry.2.1
  case present =>
    intro n
    cases n with
    | data => exact hData.1
    | index => exact hOld.1
    | registry => exact hRegistry.1
  case index => exact hOld.2.2.1
  case data => exact hData.2.2.1
  case registry => exact hRegistry.2.2.1
  case inside => exact hData.2.2.2

/-- A power failure at any moment after a flush, in the same session or a later one, leaves
the index of the last flush or opening and the other files of the last commit, from which
fewer mutations than one interval of the sync policy are missing. If what was committed
since then lies in last extents, the store opens without a rebuild and goes on with all
of it, deletes since the last flush or opening apart. -/
theorem bucket_power_failure {start : Store} (hBlank : Blank start) (hConfig : config.Usable)
    (hOpened : OpenedOn config start first) (hReach : AllInReach first.store)
    (hLife : Lifetime config first early h) (hFlush : flush h = .ok () k) (hReachK : AllInReach k.store)
    (hLives : Lives config (.secured early k, k) events (c, g))
    (hCount : ∀ id, updateCount (early ++ events) id ≤ 65534) (hFailed : PowerFailed g s)
    (order : HashOrder) :
    c.synced ++ c.committed ++ c.lost = early ++ events ∧
      (∀ interval, config.syncPolicy = .everyN interval → 0 < interval →
        c.lost.countP Event.mutates < interval) ∧
      Trailing c.older c.newer s ∧
      (Near c.older c.newer → Spaced c.newer.placement →
        ∃ p report t, Heap.open BucketPlacement order config s = .ok (p, report) t ∧
          report.rebuilt = false ∧ p.states = c.newer.placement.states.map filled ∧
          p.nextRegion = c.newer.placement.nextRegion ∧
          ∀ more again, Lifetime config ⟨⟨p, t⟩, 0⟩ more again →
            (∀ id, updateCount (c.synced ++ c.committed ++ more) id ≤ 65534) →
            (∀ id < 2 ^ 58, ∃ u, Heap.read config id again =
              match values (c.synced ++ undeleted c.committed ++ more) id with
              | some payload => .ok payload u
              | none => .error (.error (.notFound id)) u) ∧
            ((c.synced ++ c.committed ++ more).filterMap Event.issued).Nodup) := by
  have hCounting : Counting config (Counted (P := BucketPlacement) config) := Counted.counting hConfig
  have hCountEarly := updateCount_le_left hCount
  have hStart : Counted config [] first .empty :=
    ⟨hOpened.alive hBlank hConfig hReach, by rw [hOpened.count]; decide⟩
  obtain ⟨L, -, hBefore⟩ := hCounting.lifetime hLife hStart hCountEarly
  obtain ⟨hAll, hSound⟩ := flush_ok hBefore.sound hFlush
  have hSame : k.operationsSinceSync = h.operationsSinceSync := by
    obtain ⟨u, -, hAfter⟩ := onStore_eq_ok.mp hFlush
    rw [hAfter]
  have hFlushed : Counted config early k L :=
    ⟨⟨hSound, hBefore.historic, hReachK, hBefore.once⟩, hSame ▸ hBefore.range⟩
  obtain ⟨hEvents, hBacked⟩ := hLives.backed hCounting hConfig
    (.secured hFlushed hSound (.of_flushed hAll)) (by simpa [Cut.secured, Cut.events] using hCount)
  have hSplit : c.synced ++ c.committed ++ c.lost = early ++ events := by
    simpa [Cut.secured, Cut.events] using hEvents
  obtain ⟨M, N, Q, hFollowed⟩ := hBacked.followed
  have hTrailing := hFailed.trailing hBacked.index hBacked.files
  exact ⟨hSplit, fun _ hPolicy hPos => hBacked.few hPolicy hPos, hTrailing,
    fun hNear hSpaced => hTrailing.continues hFollowed.older.sound hFollowed.older.historic
      hFollowed.older.once hConfig hFollowed.newer.sound hFollowed.committed
      (updateCount_le_left (hSplit ▸ hCount)) hNear hSpaced order⟩

/-- A commit after every mutation. -/
def committing : HeapConfig := { megabyte with syncPolicy := .everyN 1 }

theorem committing_usable : committing.Usable := ⟨by decide, by decide, by decide⟩

set_option maxRecDepth 20000 in
/-- The first record of a session is committed, and a power failure right afterwards does
not take it, though the durable index knows nothing of it. -/
theorem bucket_power_failure_first :
    ∃ (first k g again : Heap BucketPlacement) (c : Cut BucketPlacement) (s t : Store)
      (p : BucketPlacement) (report : RecoveryReport),
      OpenedOn committing .empty first ∧ flush first = .ok () k ∧
      Lives committing (.secured [] k, k) [.inserted 0 3 [7]] (c, g) ∧
      c.synced = [] ∧ c.committed = [.inserted 0 3 [7]] ∧ PowerFailed g s ∧
      Heap.open BucketPlacement ⟨id, fun _ => .refl _⟩ committing s = .ok (p, report) t ∧
      report.rebuilt = false ∧
      Heap.read committing 0 (⟨⟨p, t⟩, 0⟩ : Heap BucketPlacement) = .ok [7] again := by
  have hBlank : Blank .empty := ⟨fun _ => rfl, fun _ => rfl, rfl⟩
  obtain ⟨first, hOpened, hPlacement, hSound, hReach, hEnd, -⟩ := exists_opened_bucket committing hBlank
    committing_usable (by decide)
  obtain ⟨u, hFlush, hRefreshed⟩ := flush_run (h := first) hSound.coherent hSound.plan hReach
  obtain ⟨-, hFlushed⟩ := flush_ok hSound hFlush
  have hReachK : AllInReach (first.withStore u).store := hReach.refreshed hRefreshed
  obtain ⟨g, M, hInsert, hGranted, hLast, hReachEnd, -⟩ :=
    bucket_insert_run (q := ⟨[⟨3, [⟨PAGE, 1044480, 39⟩], [⟨0, 1, 1⟩]⟩], 1, 2 ^ 20, 1,
        PAGE + 2 * REGISTRY_ROW_SIZE⟩)
      3 0 PAGE [7] hFlushed committing_usable hReachK
      (coherent_reserving 1052672 0) ((hRefreshed.upkeep hSound.coherent).allocated.trans hEnd)
      (by decide) (addressable_of_lt (by decide))
      (by
        change alloc committing 3 _ ⟨first.placement, _⟩ = _
        rw [hPlacement]
        rfl) (by decide)
  have hPerformed : Performed committing (first.withStore u) (.inserted 0 3 [7]) g := .inserted (by decide) hInsert
  have hWritten : g.Written := written_of_everyOne rfl hPerformed hFlushed committing_usable rfl
  have hLives : Lives committing (.secured [] (first.withStore u), first.withStore u) [.inserted 0 3 [7]]
      ((Cut.secured [] (first.withStore u)).commit (.inserted 0 3 [7]) g, g) :=
    Runs.Steps.refl.step ⟨.committed hPerformed rfl hWritten, hReachEnd⟩
  obtain ⟨-, -, -, hOpens⟩ := bucket_power_failure hBlank committing_usable hOpened hReach .refl hFlush
    hReachK hLives (fun id => Nat.zero_le _) (lostPower_failed hLast.plan) ⟨id, fun _ => .refl _⟩
  have hNear : Near (first.withStore u) g := near_of_single _ hLast (by rw [hGranted]; decide)
  have hSpaced : Spaced g.placement := by
    rw [hGranted, Spaced]
    decide
  obtain ⟨p, report, t, hRun, hReport, -, -, hMore⟩ := hOpens hNear hSpaced
  obtain ⟨hRead, -⟩ := hMore [] _ .refl fun id => Nat.zero_le _
  obtain ⟨again, hRead⟩ := hRead 0 (by decide)
  exact ⟨first, first.withStore u, g, again, _, _, t, p, report, hOpened, hFlush, hLives, rfl, rfl,
    lostPower_failed hLast.plan, hRun, hReport, hRead⟩

end Heap

end HeapStore
