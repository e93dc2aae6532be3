import HeapStore.Heap.Ledger

/-! What each heap operation does to the store: which file is flushed, what is
staged, and when a commit follows. -/
namespace HeapStore

open Effect PagedFile

/-- A file with pending writes is flushed and synced. -/
inductive Published (n : FileName) (s t : Store) : Prop where
  | idle (hIdle : (s.paged n).stagedWrites = []) (same : t = s)
  | pushed (mid : Store) (hPending : (s.paged n).stagedWrites ≠ []) (flush : Flushed n s mid)
      (sync : Synced n mid t)

/-- The registry is published, the data file written and synced, and then the
index written. -/
structure Committed (withBucket : Bool) (s t : Store) : Prop where
  intro ::
  parts : ∃ a b c, (if withBucket then Published .registry s a else a = s) ∧
    Flushed .data a b ∧ Synced .data b c ∧ Flushed .index c t

/-- What follows a mutation: a commit, or nothing yet. -/
inductive Concluded (withBucket : Bool) (s t : Store) : Prop where
  | kept (same : t = s)
  | committed (commit : Committed withBucket s t)

/-- All three files written and synced. -/
structure FlushedAll (withBucket : Bool) (s t : Store) : Prop where
  intro ::
  parts : ∃ a b c, Committed withBucket s a ∧ Flushed .index a b ∧ Synced .index b c ∧
    if withBucket then Synced .registry c t else t = c

/-- A record and its slot are staged in the place allocated for the record. -/
structure Wrote (withBucket : Bool) (r : Record) (s t : Store) : Prop where
  intro ::
  parts : ∃ a b, Reserved s a ∧ Staged .data r.off (r.bytes withBucket) a b ∧
    Staged .index (Slot.fileOffset r.header.id) (r.slot withBucket).encode b t

/-- After a full flush nothing is staged for the files that the heap has. -/
theorem FlushedAll.staged {withBucket : Bool} {n : FileName} {s t : Store}
    (h : FlushedAll withBucket s t) (hFile : n = .registry → withBucket = true) : (t.paged n).stagedWrites = [] := by
  obtain ⟨a, b, c, hCommit, hIndex, hSync, hLast⟩ := h.parts
  obtain ⟨d, e, f, hRegistry, hData, hDataSync, hIndex'⟩ := hCommit.parts
  have hEnd : t.paged = b.paged := by
    cases withBucket with
    | false => rw [show t = c from hLast, hSync.paged]
    | true => rw [show t.paged = c.paged from Synced.paged hLast, hSync.paged]
  rw [hEnd]
  cases n with
  | index => exact hIndex.staged
  | data =>
      rw [hIndex.frame.paged .data (by decide), hIndex'.frame.paged .data (by decide), hDataSync.paged]
      exact hData.staged
  | registry =>
      rw [hIndex.frame.paged .registry (by decide), hIndex'.frame.paged .registry (by decide),
        hDataSync.paged, hData.frame.paged .registry (by decide)]
      rw [hFile rfl] at hRegistry
      cases hRegistry with
      | idle hIdle same => exact same ▸ hIdle
      | pushed mid _ flush sync =>
          rw [sync.paged]
          exact flush.staged

namespace Heap

variable {P : Type} [Placement P] {config : HeapConfig} {h h' : Heap P} {s t : Store}

theorem Refreshed.synced {n : FileName} (h : Synced n s t) : Refreshed s t :=
  .of_same h.disk h.paged h.plan

theorem Refreshed.published {n : FileName} (h : Published n s t) : Refreshed s t := by
  cases h with
  | idle _ same => exact same ▸ .refl s
  | pushed mid _ flush sync => exact (Refreshed.flushed flush).trans (.synced sync)

theorem Refreshed.committed {withBucket : Bool} (h : Committed withBucket s t) : Refreshed s t := by
  obtain ⟨a, b, c, hRegistry, hData, hSync, hIndex⟩ := h.parts
  have hFirst : Refreshed s a := by
    cases withBucket with
    | false => exact hRegistry ▸ .refl s
    | true => exact .published hRegistry
  exact ((hFirst.trans (.flushed hData)).trans (.synced hSync)).trans (.flushed hIndex)

theorem Refreshed.concluded {withBucket : Bool} (h : Concluded withBucket s t) : Refreshed s t := by
  cases h with
  | kept same => exact same ▸ .refl s
  | committed commit => exact .committed commit

theorem Refreshed.flushedAll {withBucket : Bool} (h : FlushedAll withBucket s t) : Refreshed s t := by
  obtain ⟨a, b, c, hCommit, hIndex, hSync, hRegistry⟩ := h.parts
  have hFirst := ((Refreshed.committed hCommit).trans (.flushed hIndex)).trans (.synced hSync)
  cases withBucket with
  | false => exact hRegistry ▸ hFirst
  | true => exact hFirst.trans (.synced hRegistry)

omit [Placement P] in
theorem onPlaced_eq_ok {α : Type} {x : PlaceM P α} {a : α} :
    onPlaced x h = .ok a h' ↔ ∃ placed, x h.placed = .ok a placed ∧ h' = { h with placed } :=
  zoom_eq_ok

omit [Placement P] in
theorem onStore_eq_ok {α : Type} {x : StoreM α} {a : α} :
    onStore x h = .ok a h' ↔
      ∃ u, x h.store = .ok a u ∧ h' = { h with placed := { h.placed with store := u } } := by
  rw [onStore, onPlaced_eq_ok]
  constructor
  · rintro ⟨placed, hPlaced, rfl⟩
    obtain ⟨u, hInner, rfl⟩ := Placed.onStore_eq_ok.mp hPlaced
    exact ⟨u, hInner, rfl⟩
  · rintro ⟨u, hRun, rfl⟩
    exact ⟨_, Placed.onStore_eq_ok.mpr ⟨u, hRun, rfl⟩, rfl⟩

omit [Placement P] in
theorem onStore_eq_error {α : Type} {x : StoreM α} {e : Failure} :
    onStore x h = .error e h' ↔
      ∃ u, x h.store = .error e u ∧ h' = { h with placed := { h.placed with store := u } } := by
  rw [onStore, onPlaced, zoom_eq_error]
  constructor
  · rintro ⟨placed, hPlaced, rfl⟩
    obtain ⟨u, hInner, rfl⟩ := zoom_eq_error.mp hPlaced
    exact ⟨u, hInner, rfl⟩
  · rintro ⟨u, hRun, rfl⟩
    exact ⟨_, zoom_eq_error.mpr ⟨u, hRun, rfl⟩, rfl⟩

/-! Commits. -/

theorem flushPending_ok {n : FileName} (hCoherent : Coherent n s)
    (hRun : flushPending n s = .ok () t) : Published n s t := by
  rw [flushPending, bind_of_ok (getPaged_apply n s)] at hRun
  by_cases hPending : (s.paged n).stagedWrites = []
  · simp only [hasPending, hPending, List.isEmpty_nil, Bool.not_true, Bool.false_eq_true,
      if_false] at hRun
    cases hRun
    exact .idle hPending rfl
  · simp only [hasPending, List.isEmpty_eq_false_iff.mpr hPending, Bool.not_false, if_true] at hRun
    obtain ⟨_, mid, hFlush, hSync⟩ := bind_eq_ok.mp hRun
    exact .pushed mid hPending (flush_ok hCoherent hFlush) (sync_synced hSync)

theorem commitFiles_ok (hCoherent : ∀ n, Coherent n s) (hRun : commitFiles P s = .ok () t) :
    Committed (Placement.withBucket P) s t := by
  obtain ⟨_, a, hRegistry, hRun⟩ := bind_eq_ok.mp hRun
  obtain ⟨_, b, hData, hRun⟩ := bind_eq_ok.mp hRun
  obtain ⟨_, c, hSync, hIndex⟩ := bind_eq_ok.mp hRun
  have hFirst : (if Placement.withBucket P then Published .registry s a else a = s) ∧
      Refreshed s a := by
    rw [commitRegistry] at hRegistry
    cases hWith : Placement.withBucket P with
    | false =>
        rw [hWith] at hRegistry
        cases hRegistry
        exact ⟨rfl, .refl s⟩
    | true =>
        rw [hWith] at hRegistry
        have hPublished := flushPending_ok (hCoherent .registry) hRegistry
        exact ⟨hPublished, .published hPublished⟩
  have hFlushed := flush_ok (hFirst.2.coherent hCoherent .data) hData
  have hSynced := sync_synced hSync
  have hRefreshed := (hFirst.2.trans (.flushed hFlushed)).trans (.synced hSynced)
  exact ⟨a, b, c, hFirst.1, hFlushed, hSynced,
    flush_ok (hRefreshed.coherent hCoherent .index) hIndex⟩

theorem flushFiles_ok (hCoherent : ∀ n, Coherent n s) (hRun : flushFiles P s = .ok () t) :
    FlushedAll (Placement.withBucket P) s t := by
  obtain ⟨_, a, hCommit, hRun⟩ := bind_eq_ok.mp hRun
  obtain ⟨_, b, hIndex, hRun⟩ := bind_eq_ok.mp hRun
  obtain ⟨_, c, hSync, hRegistry⟩ := bind_eq_ok.mp hRun
  have hCommitted := commitFiles_ok hCoherent hCommit
  have hCoherentA := (Refreshed.committed hCommitted).coherent hCoherent
  refine ⟨a, b, c, hCommitted, flush_ok (hCoherentA .index) hIndex, sync_synced hSync, ?_⟩
  cases hWith : Placement.withBucket P with
  | false =>
      rw [hWith] at hRegistry
      cases hRegistry
      rfl
  | true =>
      rw [hWith] at hRegistry
      exact sync_synced hRegistry

/-- Whether the sync policy asks for a commit after the operation that was just counted. -/
def due (config : HeapConfig) (h : Heap P) : Bool :=
  match config.syncPolicy with
  | .everyN syncInterval =>
      decide (0 < syncInterval) && decide (h.operationsSinceSync % syncInterval = 0)
  | .none => false

/-- Whether the operation that was just counted ends in a commit. -/
def commits (config : HeapConfig) (h : Heap P) : Bool :=
  due config h || decide (config.pendingLimit <
    (h.store.paged .data).pendingBytes + (h.store.paged .index).pendingBytes)

/-- The heap after one more operation was counted. -/
def counted (h : Heap P) : Heap P :=
  { h with operationsSinceSync := (h.operationsSinceSync + 1) % 2 ^ 32 }

/-- The same heap over another store. -/
def withStore (h : Heap P) (u : Store) : Heap P := { h with placed := { h.placed with store := u } }

theorem commit_ok (hCoherent : ∀ n, Coherent n h.store) (hRun : commit h = .ok () h') :
    ∃ u, h' = h.withStore u ∧ Committed (Placement.withBucket P) h.store u := by
  obtain ⟨u, hFiles, rfl⟩ := onStore_eq_ok.mp hRun
  exact ⟨u, rfl, commitFiles_ok hCoherent hFiles⟩

theorem afterWrite_ok (hCoherent : ∀ n, Coherent n h.store)
    (hRun : afterWrite config h = .ok () h') :
    ∃ u, h' = h.counted.withStore u ∧
      if commits config h.counted then Committed (Placement.withBucket P) h.store u
      else u = h.store := by
  have hEither : (if commits config h.counted then commit else pure ()) h.counted = .ok () h' := by
    rw [← hRun, commits]
    change _ = (if due config h.counted = true then commit else _) h.counted
    cases due config h.counted with
    | true => rfl
    | false =>
        simp only [Bool.false_or, decide_eq_true_eq, Bool.false_eq_true, if_false]
        rfl
  cases hCommits : commits config h.counted with
  | true =>
      rw [hCommits] at hEither
      exact commit_ok hCoherent hEither
  | false =>
      rw [hCommits] at hEither
      cases hEither
      exact ⟨h.store, rfl, rfl⟩

/-- After a mutation the store is committed or left as it is. -/
theorem afterWrite_concluded (hRun : afterWrite config h = .ok () h')
    (hCoherent : ∀ n, Coherent n h.store) :
    h' = h.counted.withStore h'.store ∧ Concluded (Placement.withBucket P) h.store h'.store := by
  obtain ⟨u, rfl, hCase⟩ := afterWrite_ok hCoherent hRun
  refine ⟨rfl, ?_⟩
  split at hCase
  · exact .committed hCase
  · exact .kept hCase

end Heap

end HeapStore
