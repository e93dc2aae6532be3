import HeapStore.Heap.BucketRuns
import HeapStore.Heap.Lifetime
import HeapStore.Placement.Published

/-! A power failure leaves of each file what was last synced. After a flush that
is everything, and the store opens as it was. -/
namespace HeapStore

open Effect PagedFile IndexFile WalkRange

/-! What operations make durable. -/

section Durable

variable {withBucket : Bool} {s t : Store}

/-- A commit makes the data file durable as it is written, and the index not. -/
theorem Committed.durable (h : Committed withBucket s t) :
    t.durable .data = t.disk .data ∧ t.durable .index = s.durable .index := by
  obtain ⟨a, b, c, hRegistry, hData, hSynced, hIndex⟩ := h.parts
  have hFirst : a.durable .index = s.durable .index := by
    split at hRegistry
    · cases hRegistry with
      | idle _ same => rw [same]
      | pushed mid _ flush sync =>
          rw [sync.durable, Function.update_of_ne (by decide), flush.frame.durable]
    · rw [hRegistry]
  constructor
  · rw [hIndex.frame.durable, hSynced.durable, Function.update_self, hIndex.frame.disk _ (by decide),
      hSynced.disk]
  · rw [hIndex.frame.durable, hSynced.durable, Function.update_of_ne (by decide), hData.frame.durable,
      hFirst]

/-- A commit writes all that was staged for the data file. -/
theorem Committed.staged_data (h : Committed withBucket s t) : (t.paged .data).stagedWrites = [] := by
  obtain ⟨a, b, c, -, hData, hSynced, hIndex⟩ := h.parts
  rw [hIndex.frame.paged _ (by decide), hSynced.paged, hData.staged]

/-- A commit leaves nothing of the registry unwritten, and if all that was written of it
before was durable, it still is. -/
theorem Committed.durable_registry (h : Committed true s t) (hSafe : s.durable .registry = s.disk .registry) :
    t.durable .registry = t.disk .registry ∧ (t.paged .registry).stagedWrites = [] := by
  obtain ⟨a, b, c, hRegistry, hData, hSynced, hIndex⟩ := h.parts
  rw [if_pos rfl] at hRegistry
  have hFirst : a.durable .registry = a.disk .registry ∧ (a.paged .registry).stagedWrites = [] := by
    cases hRegistry with
    | idle hIdle same => exact same ▸ ⟨hSafe, hIdle⟩
    | pushed mid _ flush sync =>
        rw [sync.durable, Function.update_self, sync.disk, sync.paged]
        exact ⟨rfl, flush.staged⟩
  constructor
  · rw [hIndex.frame.durable, hSynced.durable, Function.update_of_ne (by decide), hData.frame.durable,
      hIndex.frame.disk _ (by decide), hSynced.disk, hData.frame.disk _ (by decide)]
    exact hFirst.1
  · rw [hIndex.frame.paged _ (by decide), hSynced.paged, hData.frame.paged _ (by decide)]
    exact hFirst.2

/-- A flush makes every file durable as it is. -/
theorem FlushedAll.durable (h : FlushedAll withBucket s t) {n : FileName}
    (hFile : n = .registry → withBucket = true) : t.durable n = t.disk n := by
  obtain ⟨a, b, c, hCommitted, hIndex, hSynced, hRegistry⟩ := h.parts
  have hData : c.durable .data = c.disk .data := by
    rw [hSynced.durable, Function.update_of_ne (by decide), hIndex.frame.durable, hSynced.disk,
      hIndex.frame.disk _ (by decide)]
    exact hCommitted.durable.1
  have hSlots : c.durable .index = c.disk .index := by
    rw [hSynced.durable, Function.update_self, hSynced.disk]
  split at hRegistry
  · rw [hRegistry.durable, hRegistry.disk]
    cases n with
    | data => rwa [Function.update_of_ne (by decide)]
    | index => rwa [Function.update_of_ne (by decide)]
    | registry => rw [Function.update_self]
  · rename_i hNone
    subst hRegistry
    cases n with
    | data => exact hData
    | index => exact hSlots
    | registry => exact absurd (hFile rfl) hNone

end Durable

namespace Heap

variable {P : Type} [Placement P]

/-- The files after a power failure: those of the heap as they were last synced. -/
structure PowerFailed (h : Heap P) (s : Store) : Prop where
  plan : s.plan = []
  handles : ∀ n, s.paged n = .fresh
  synced : ∀ n, HasFile P n → s.disk n = h.store.durable n
  others : ∀ n, ¬ HasFile P n → s.disk n = h.store.disk n

/-- The files of a heap as they were last synced, without handles. -/
def lostPower (h : Heap P) : Store :=
  { closed h.store with
    disk := fun n => if n = .registry ∧ Placement.withBucket P = false then h.store.disk n
      else h.store.durable n }

theorem lostPower_failed {h : Heap P} (hPlan : h.store.plan = []) : PowerFailed h (lostPower h) := by
  refine ⟨hPlan, fun _ => rfl, fun n hn => if_neg ?_, fun n hn => if_pos ?_⟩
  · rintro ⟨rfl, hNone⟩
    rw [hn rfl] at hNone
    cases hNone
  · by_contra hFile
    refine hn fun hIs => ?_
    by_contra hNone
    exact hFile ⟨hIs, Bool.eq_false_of_not_eq_true hNone⟩

/-- Every file is durable as it is, and nothing is staged. -/
structure AllDurable (P : Type) [Placement P] (s : Store) : Prop where
  durable : ∀ n, HasFile P n → s.durable n = s.disk n
  staged : ∀ n, HasFile P n → (s.paged n).stagedWrites = []

theorem AllDurable.of_flushed {s t : Store} (h : FlushedAll (Placement.withBucket P) s t) : AllDurable P t :=
  ⟨fun _ hn => h.durable hn, fun _ hn => h.staged hn⟩

/-- Opening leaves files durable that were. -/
theorem AllDurable.opened {u t : Store} {upto : Nat} (h : AllDurable P u)
    (hWork : IndexWork (IndexWork.noted (closed u) upto) t) (hIndex : IndexDurable t) : AllDurable P t where
  durable n hn := by
    by_cases hIs : n = .index
    · subst hIs
      exact hIndex.durable
    · rw [hWork.durable n hIs, hWork.disk n hIs]
      exact h.durable n hn
  staged n _ := by
    cases n with
    | data =>
        rw [hWork.data]
        rfl
    | index => exact hIndex.staged
    | registry =>
        rw [hWork.registry]
        rfl

/-- A placement whose files open whatever was written to them, as long as it is spaced,
and are durable afterwards. -/
class SpacedPlacement (P : Type) [Placement P] [LawfulPlacement P] where
  Spaced : P → Prop
  opens {config : HeapConfig} {L : Ledger} {events : List Event} {s : Placed P} (order : HashOrder) :
    Sound config L s → L.Historic (Placement.withBucket P) events →
    (∀ id, updateCount events id ≤ 65534) →
    (∀ n, HasFile P n → (s.store.paged n).stagedWrites = []) →
    Meets (Refuses True (Spaced s.placement))
      (fun _ t => (Spaced s.placement → AllInReach t) ∧
        IndexWork (IndexWork.noted (closed s.store) (s.store.file .data).size) t)
      (Placement.open (P := P) order config false) (closed s.store)
  durable {config : HeapConfig} {s t : Store} {out : P × Nat} (order : HashOrder) :
    (∀ n, (s.paged n).stagedWrites = []) → s.durable .index = s.disk .index →
    Placement.open (P := P) order config false s = .ok out t → IndexDurable t

instance : SpacedPlacement AppendPlacement where
  Spaced _ := True
  opens order hSound hHistoric hCount hStaged := by
    obtain ⟨restored, t, hRun, -, hReach, hWork⟩ := hSound.reopens hHistoric hCount hStaged order
    exact Meets.of_ok hRun ⟨fun _ => hReach, hWork⟩
  durable _ := AppendPlacement.open_durable

instance : SpacedPlacement BucketPlacement where
  Spaced := BucketPlacement.Spaced
  opens order hSound _ _ hStaged :=
    (hSound.reopen_meets hStaged order).mono (fun _ hFail => hFail) fun _ _ hOpened =>
      ⟨hOpened.2.1.2.2, hOpened.2.1.2.1⟩
  durable _ := BucketPlacement.open_durable

variable [LawfulPlacement P] {config : HeapConfig} {h h' g k : Heap P} {L M : Ledger}
  {events more : List Event} {e : Event} {s t : Store}

omit [LawfulPlacement P] in
/-- After a flush a power failure changes no file. -/
theorem PowerFailed.disk (hFailed : PowerFailed h s) (hAll : AllDurable P h.store) :
    s.disk = h.store.disk := by
  funext n
  by_cases hFile : HasFile P n
  · rw [hFailed.synced n hFile, hAll.durable n hFile]
  · exact hFailed.others n hFile

/-- A dropped heap is opened again with all its files durable. -/
theorem OpenedOn.allDurable [SpacedPlacement P] (hOpened : OpenedOn config (close h) h')
    (hSound : Sound config L h.placed) (hHistoric : L.Historic (Placement.withBucket P) events)
    (hCount : ∀ id, updateCount events id ≤ 65534) (hReach : AllInReach h.store) :
    AllDurable P h'.store := by
  obtain ⟨u, hFlush, -⟩ := flush_run hSound.coherent hSound.plan hReach
  obtain ⟨hAll, hFlushed⟩ := flush_ok hSound hFlush
  have hClosed : close h = closed u := by
    rw [close, final_of_ok hFlush]
    rfl
  have hStaged : ∀ n, HasFile P n → (u.paged n).stagedWrites = [] := fun n hn => hAll.staged hn
  obtain ⟨order, report, hRun⟩ := hOpened.run
  rw [hClosed] at hRun
  have hMeets := SpacedPlacement.opens order hFlushed hHistoric hCount hStaged
  obtain ⟨restored, hOpen, -⟩ :=
    ((hFlushed.atRest hStaged).open_iff fun e t hError => (hMeets.failsOnly e t hError).uncorrupt).mp hRun
  have hIndex := SpacedPlacement.durable (s := closed u) order (fun _ => rfl)
    (hAll.durable (n := .index) (hasFile_index P)) hOpen
  exact (AllDurable.of_flushed hAll).opened (hMeets.ok hOpen).2 hIndex

/-- Files that present a ledger are opened as sound for it. -/
theorem Sound.opens [ReopenablePlacement P] [SpacedPlacement P] {p : P}
    (hSound : Sound config L (⟨p, t⟩ : Placed P)) (hHistoric : L.Historic (Placement.withBucket P) events)
    (hCount : ∀ id, updateCount events id ≤ 65534)
    (hStaged : ∀ n, HasFile P n → (t.paged n).stagedWrites = [])
    (hSpaced : SpacedPlacement.Spaced p) (order : HashOrder) :
    ∃ q report u, Heap.open P order config (closed t) = .ok (q, report) u ∧ report.rebuilt = false ∧
      Sound config L (⟨q, u⟩ : Placed P) ∧ AllInReach u := by
  have hMeets := SpacedPlacement.opens order hSound hHistoric hCount hStaged
  have hSame := ReopenablePlacement.reopen order hSound hHistoric hCount hStaged
  cases hRun : Placement.open (P := P) order config false (closed t) with
  | ok out u =>
      obtain ⟨q, restored⟩ := out
      have hOpen := ((hSound.atRest hStaged).open_iff fun e v hError =>
        (hMeets.failsOnly e v hError).uncorrupt).mpr ⟨restored, hRun, rfl⟩
      exact ⟨q, _, u, hOpen, rfl, hSame.ok hRun, (hMeets.ok hRun).1 hSpaced⟩
  | error e u => exact absurd trivial ((hMeets.failsOnly e u hRun).request hSpaced).2

/-- A heap that was flushed before a power failure opens without a rebuild, and goes on
as the key/value map of its whole history; no number is issued twice. -/
theorem flushed_survives_power_failure [ReopenablePlacement P] [SpacedPlacement P] {start : Store}
    (hBlank : Blank start) (hConfig : config.Usable) (hOpened : OpenedOn config start h)
    (hReach : AllInReach h.store) (hLife : Lifetime config h events h')
    (hCount : ∀ id, updateCount events id ≤ 65534) (hFlush : flush h' = .ok () g)
    (hFailed : PowerFailed g s) (hSpaced : SpacedPlacement.Spaced g.placement) (order : HashOrder) :
    ∃ placement report t, Heap.open P order config s = .ok (placement, report) t ∧
      report.rebuilt = false ∧
      ∀ more k, Lifetime config ⟨⟨placement, t⟩, 0⟩ more k →
        (∀ id, updateCount (events ++ more) id ≤ 65534) →
        (∀ id < 2 ^ 58, ∃ u, Heap.read config id k = match values (events ++ more) id with
          | some payload => .ok payload u
          | none => .error (.error (.notFound id)) u) ∧
        ((events ++ more).filterMap Event.issued).Nodup := by
  obtain ⟨L, hAlive⟩ := hLife.alive hConfig (hOpened.alive hBlank hConfig hReach) hCount
  have hHistoric : L.Historic (Placement.withBucket P) events := hAlive.historic
  obtain ⟨hAll, hSound⟩ := flush_ok hAlive.sound hFlush
  have hDisk := hFailed.disk (.of_flushed hAll)
  have hHandles : s.paged = fun _ => .fresh := funext hFailed.handles
  let u : Store := { s with paged := g.store.paged }
  have hClosed : closed u = s := by
    change ({ s with paged := fun _ => .fresh } : Store) = s
    rw [← hHandles]
  have hPresents : Sound config L (⟨g.placement, u⟩ : Placed P) :=
    hSound.refreshed (.of_same hDisk rfl fun _ => hFailed.plan)
  obtain ⟨placement, report, t, hRun, hReport, hAgain, hReachT⟩ :=
    hPresents.opens hHistoric hCount (fun n hn => hAll.staged hn) hSpaced order
  rw [hClosed] at hRun
  refine ⟨placement, report, t, hRun, hReport, fun more k hMore hBound => ?_⟩
  have hAliveAgain : Alive config events (⟨⟨placement, t⟩, 0⟩ : Heap P) L :=
    ⟨hAgain, hHistoric, hReachT, hAlive.once⟩
  obtain ⟨M, hFinal⟩ := hMore.alive hConfig hAliveAgain hBound
  exact ⟨fun id hId => hFinal.read (addressable_of_lt hId), hFinal.once⟩

open BucketPlacement

set_option maxRecDepth 20000 in
/-- A record of a bucket heap is flushed, and is there after the power failure. -/
theorem flushed_survives_power_failure_inserted :
    ∃ (h h' g k : Heap BucketPlacement) (s t : Store) (p : BucketPlacement) (report : RecoveryReport),
      OpenedOn megabyte .empty h ∧ Lifetime megabyte h [.inserted 0 3 [7]] h' ∧
      flush h' = .ok () g ∧ PowerFailed g s ∧
      Heap.open BucketPlacement ⟨id, fun _ => .refl _⟩ megabyte s = .ok (p, report) t ∧
      Heap.read megabyte 0 (⟨⟨p, t⟩, 0⟩ : Heap BucketPlacement) = .ok [7] k := by
  have hBlank : Blank .empty := ⟨fun _ => rfl, fun _ => rfl, rfl⟩
  obtain ⟨h, hOpened, hPlacement, hSound, hReach, hEnd, -⟩ := exists_opened_bucket megabyte hBlank
    megabyte_usable (by decide)
  obtain ⟨h', M, hInsert, hGranted, hMid, hReachMid, -⟩ :=
    bucket_insert_run (q := ⟨[⟨3, [⟨PAGE, 1044480, 39⟩], [⟨0, 1, 1⟩]⟩], 1, 2 ^ 20, 1,
        PAGE + 2 * REGISTRY_ROW_SIZE⟩)
      3 0 PAGE [7] hSound megabyte_usable hReach (coherent_reserving 1052672 0) hEnd (by decide)
      (addressable_of_lt (by decide))
      (by
        rw [hPlacement]
        rfl) (by decide)
  obtain ⟨u, hFlush, -⟩ := flush_run (h := h') hMid.coherent hMid.plan hReachMid
  obtain ⟨-, hFlushed⟩ := flush_ok hMid hFlush
  have hLife : Lifetime megabyte h [.inserted 0 3 [7]] h' :=
    Runs.Steps.refl.step ⟨.performed (.inserted (by decide) hInsert), hReachMid⟩
  have hSpaced : SpacedPlacement.Spaced (h'.withStore u).placement := by
    change Spaced h'.placement
    rw [hGranted, Spaced]
    decide
  obtain ⟨p, report, t, hRun, -, hMore⟩ := flushed_survives_power_failure hBlank megabyte_usable hOpened
    hReach hLife (fun id => Nat.zero_le _) hFlush (lostPower_failed hFlushed.plan) hSpaced ⟨id, fun _ => .refl _⟩
  obtain ⟨hRead, -⟩ := hMore [] _ .refl fun id => Nat.zero_le _
  obtain ⟨k, hRead⟩ := hRead 0 (by decide)
  exact ⟨h, h', h'.withStore u, k, _, t, p, report, hOpened, hLife, hFlush, lostPower_failed hFlushed.plan,
    hRun, hRead⟩

end Heap

end HeapStore
