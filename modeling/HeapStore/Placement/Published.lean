import HeapStore.Heap.Guarded
import HeapStore.Storage.Space

/-! What opening makes durable: where it restores slots it syncs the index that
has them, and where it restores none it writes nothing. -/
namespace HeapStore

open Effect PagedFile

/-- The files and what of them is durable are as before, and nothing is staged. -/
structure Unwritten (s t : Store) : Prop where
  disk : t.disk = s.disk
  durable : t.durable = s.durable
  staged : ∀ n, (t.paged n).stagedWrites = []

/-- With nothing staged before, nothing is written. -/
def Idling (s t : Store) : Prop := (∀ n, (s.paged n).stagedWrites = []) → Unwritten s t

/-- Slots were counted as restored, or nothing was written. -/
structure Counts (before after : Nat) (s t : Store) : Prop where
  le : before ≤ after
  idle : after = before → Idling s t

namespace Idling

variable {s t u : Store}

theorem refl (s : Store) : Idling s s := fun hIdle => ⟨rfl, rfl, hIdle⟩

theorem trans (h : Idling s t) (k : Idling t u) : Idling s u := fun hIdle =>
  ⟨(k (h hIdle).staged).disk.trans (h hIdle).disk, (k (h hIdle).staged).durable.trans (h hIdle).durable,
    (k (h hIdle).staged).staged⟩

theorem of_same (hDisk : t.disk = s.disk) (hDurable : t.durable = s.durable)
    (hPaged : t.paged = s.paged) : Idling s t := fun hIdle =>
  ⟨hDisk, hDurable, fun n => by rw [hPaged, hIdle n]⟩

/-- Reads and empty flushes write nothing. -/
theorem reading : Reading Idling where
  refl := refl
  trans := trans
  readVec n requests := by
    intro s
    cases hRun : HeapStore.readVec n requests s with
    | ok buffers t =>
        rw [final_of_ok hRun, (readVec_ok hRun).2]
        exact of_same rfl rfl rfl
    | error e t =>
        rw [final_of_error hRun, (readVec_error hRun).2]
        exact of_same rfl rfl rfl
  flush n := by
    intro s hIdle
    rw [final_of_ok (flush_of_staged_nil (hIdle n))]
    exact refl s hIdle

end Idling

namespace Counts

variable {before middle after : Nat} {s t u : Store}

theorem of_idling (h : Idling s t) (n : Nat) : Counts n n s t := ⟨Nat.le_refl n, fun _ => h⟩

theorem trans (h : Counts before middle s t) (k : Counts middle after t u) : Counts before after s u := by
  refine ⟨h.le.trans k.le, fun hSame => ?_⟩
  have hLe := h.le
  have hRest := k.le
  exact (h.idle (by omega)).trans (k.idle (by omega))

/-- What follows one more slot counts from there. -/
theorem of_more (h : Counts (before + 1) after t u) : Counts before after s u := by
  refine ⟨Nat.le_of_succ_le h.le, fun hSame => ?_⟩
  have hLe := h.le
  omega

end Counts

/-- The index is durable as it is written, and nothing is staged for it. -/
structure IndexDurable (s : Store) : Prop where
  durable : s.durable .index = s.disk .index
  staged : (s.paged .index).stagedWrites = []

theorem publishRestored_durable {restored : Nat} {a s t : Store} (hCounts : Counts 0 restored a s)
    (hIdle : ∀ n, (a.paged n).stagedWrites = []) (hDurable : a.durable .index = a.disk .index)
    (hRun : publishRestored restored s = .ok () t) : IndexDurable t := by
  unfold publishRestored at hRun
  split at hRun
  · obtain ⟨_, u, hFlush, hSync⟩ := bind_eq_ok.mp hRun
    have hSynced := sync_synced hSync
    refine ⟨?_, ?_⟩
    · rw [hSynced.durable, Function.update_self, hSynced.disk]
    · rw [hSynced.paged]
      exact flush_staged hFlush
  · rename_i hNone
    cases hRun
    have hSame := hCounts.idle (by omega) hIdle
    exact ⟨by rw [hSame.durable, hSame.disk, hDurable], hSame.staged .index⟩

namespace AppendPlacement

theorem restoreTail_counts {found : List FoundRecord} {st st' : Restore} {s t : Store}
    (hRun : restoreTail found st s = .ok st' t) : Counts st.restored st'.restored s t := by
  induction found generalizing st s with
  | nil =>
      cases hRun
      exact .of_idling (.refl _) _
  | cons f rest ih =>
      unfold restoreTail at hRun
      split at hRun
      · obtain ⟨_, u, -, hRest⟩ := bind_eq_ok.mp hRun
        exact (ih hRest).of_more
      · split at hRun
        · have hRest := ih hRun
          exact hRest
        · cases hRun
          exact .of_idling (.refl _) _

theorem restoreUpdates_counts {d : DataFile} {updates : NewestTable} {ids : List Nat}
    {restored restored' : Nat} {s t : Store}
    (hRun : restoreUpdates d updates ids restored s = .ok restored' t) : Counts restored restored' s t := by
  induction ids generalizing restored s with
  | nil =>
      cases hRun
      exact .of_idling (.refl _) _
  | cons id rest ih =>
      cases hEntry : updates.lookup id with
      | none =>
          rw [restoreUpdates, hEntry] at hRun
          exact ih hRun
      | some f =>
          rw [restoreUpdates, hEntry] at hRun
          obtain ⟨state, u, hState, hRun⟩ := bind_eq_ok.mp hRun
          obtain ⟨newer, v, hNewer, hRun⟩ := bind_eq_ok.mp hRun
          cases newer with
          | true =>
              obtain ⟨_, w, -, hRest⟩ := bind_eq_ok.mp hRun
              exact (ih hRest).of_more
          | false =>
              have hRead := ((Idling.reading.readSlotState id).ok hState).trans
                ((Idling.reading.supersedes d _ state).ok hNewer)
              exact (Counts.of_idling hRead _).trans (ih hRun)

/-- An index that was durable as it was is so after opening. -/
theorem open_durable {order : HashOrder} {config : HeapConfig} {s t : Store} {out : AppendPlacement × Nat}
    (hIdle : ∀ n, (s.paged n).stagedWrites = []) (hDurable : s.durable .index = s.disk .index)
    (hRun : AppendPlacement.open order config false s = .ok out t) : IndexDurable t := by
  obtain ⟨indexSize, a, hSize, hRun⟩ := bind_eq_ok.mp hRun
  obtain ⟨scan, b, hScan, hRun⟩ := bind_eq_ok.mp hRun
  obtain ⟨dataEnd, c, hEnd, hRun⟩ := bind_eq_ok.mp hRun
  obtain ⟨⟨stats, tail⟩, e, hWalk, hRun⟩ := bind_eq_ok.mp hRun
  obtain ⟨st, f, hTail, hRun⟩ := bind_eq_ok.mp hRun
  obtain ⟨restored, g, hUpdates, hRun⟩ := bind_eq_ok.mp hRun
  obtain ⟨_, u, hPublish, hRun⟩ := bind_eq_ok.mp hRun
  have hRead := Idling.reading
  have hLooked : Idling s e := (((hRead.size .index).ok hSize).trans
    ((scanIndex_keeps hRead _ _ _ _).ok hScan)).trans
      (((hRead.size .data).ok hEnd).trans ((hRead.walk _ _ _ _).ok hWalk))
  have hCounts : Counts 0 restored s g := (Counts.of_idling hLooked 0).trans
    ((restoreTail_counts hTail).trans (restoreUpdates_counts hUpdates))
  have hPublished := publishRestored_durable hCounts hIdle hDurable hPublish
  cases hRun
  exact ⟨hPublished.durable, hPublished.staged⟩

end AppendPlacement

namespace BucketPlacement

theorem restoreFound_counts {d : DataFile} {known : KnownSlots} {best : NewestTable} {ids : List Nat}
    {restored restored' : Nat} {s t : Store}
    (hRun : restoreFound d known best ids restored s = .ok restored' t) : Counts restored restored' s t := by
  induction ids generalizing restored s with
  | nil =>
      cases hRun
      exact .of_idling (.refl _) _
  | cons id rest ih =>
      cases hEntry : best.lookup id with
      | none =>
          rw [restoreFound, hEntry] at hRun
          exact ih hRun
      | some f =>
          rw [restoreFound, hEntry] at hRun
          obtain ⟨newer, u, hNewer, hRun⟩ := bind_eq_ok.mp hRun
          cases newer with
          | true =>
              obtain ⟨_, w, -, hRest⟩ := bind_eq_ok.mp hRun
              exact (ih hRest).of_more
          | false =>
              exact (Counts.of_idling ((Idling.reading.supersedes d _ _).ok hNewer) _).trans (ih hRun)

theorem recoverBucket_counts {order : HashOrder} {d : DataFile} {state : BucketState} {restored : Nat}
    {out : BucketState × Nat} {s t : Store} (hRun : recoverBucket order d state restored s = .ok out t) :
    Counts restored out.2 s t := by
  have hRead := Idling.reading
  obtain ⟨⟨slots, known⟩, a, hScan, hRun⟩ := bind_eq_ok.mp hRun
  have hRegions := (scanRegions_keeps hRead _ _).ok hScan
  dsimp only at hRun
  cases hLast : (fillEarlier state.data).getLast? with
  | none =>
      rw [hLast] at hRun
      cases hRun
      exact .of_idling hRegions _
  | some lastExtent =>
      rw [hLast] at hRun
      obtain ⟨⟨stats, scan⟩, b, hWalk, hRun⟩ := bind_eq_ok.mp hRun
      obtain ⟨used, c, hUsed, hRun⟩ := bind_eq_ok.mp hRun
      obtain ⟨restored', e, hFound, hRun⟩ := bind_eq_ok.mp hRun
      have hLooked := (hRegions.trans ((hRead.walk _ _ _ _).ok hWalk)).trans
        ((usedBySlots_keeps hRead _ _ _).ok hUsed)
      have hCounts := (Counts.of_idling hLooked _).trans (restoreFound_counts hFound)
      cases hNone : slots.isEmpty with
      | true =>
          rw [hNone] at hRun
          cases hRun
      | false =>
          rw [hNone] at hRun
          cases hRun
          exact hCounts

theorem recoverBuckets_counts {order : HashOrder} {d : DataFile} {states : List BucketState}
    {restored : Nat} {out : List BucketState × Nat} {s t : Store}
    (hRun : recoverBuckets order d states restored s = .ok out t) : Counts restored out.2 s t := by
  induction states generalizing restored s out with
  | nil =>
      cases hRun
      exact .of_idling (.refl _) _
  | cons state rest ih =>
      obtain ⟨first, a, hFirst, hRun⟩ := bind_eq_ok.mp hRun
      obtain ⟨others, b, hOthers, hRun⟩ := bind_eq_ok.mp hRun
      cases hRun
      have hRest := ih hOthers
      exact (recoverBucket_counts hFirst).trans hRest

/-- An index that was durable as it was is so after opening. -/
theorem open_durable {order : HashOrder} {config : HeapConfig} {s t : Store} {out : BucketPlacement × Nat}
    (hIdle : ∀ n, (s.paged n).stagedWrites = []) (hDurable : s.durable .index = s.disk .index)
    (hRun : BucketPlacement.open order config false s = .ok out t) : IndexDurable t := by
  have hRead := Idling.reading
  obtain ⟨p, a, hReplay, hRun⟩ := bind_eq_ok.mp hRun
  obtain ⟨dataSize, b, hSize, hRun⟩ := bind_eq_ok.mp hRun
  obtain ⟨_, c, hNote, hRun⟩ := bind_eq_ok.mp hRun
  obtain ⟨⟨states, restored⟩, e, hRecover, hRun⟩ := bind_eq_ok.mp hRun
  obtain ⟨_, u, hPublish, hRun⟩ := bind_eq_ok.mp hRun
  have hNoted : Idling b c := fun hNone => by
    rw [noteAlloc, modifyPaged_apply] at hNote
    cases hNote
    refine ⟨rfl, rfl, fun n => ?_⟩
    rw [Store.setPaged_paged, Function.update_apply]
    split
    · exact hNone .data
    · exact hNone n
  have hLooked : Idling s c :=
    (((replay_keeps hRead _).ok hReplay).trans ((hRead.size .data).ok hSize)).trans hNoted
  have hCounts : Counts 0 restored s e := (Counts.of_idling hLooked 0).trans (recoverBuckets_counts hRecover)
  have hPublished := publishRestored_durable hCounts hIdle hDurable hPublish
  cases hRun
  exact hPublished

end BucketPlacement

end HeapStore
