import HeapStore.Recovery.Restore
import HeapStore.Recovery.Records

/-! The newest record of a number, and the table that a recovery makes of it:
where versions ascend, the last record written is the one that is kept. -/
namespace HeapStore

namespace Record

/-- The record as a walk reports it. -/
def found (withBucket : Bool) (r : Record) : FoundRecord :=
  .ofHeader (headerLen withBucket) r.off r.header

@[simp] theorem found_id (withBucket : Bool) (r : Record) : (r.found withBucket).id = r.header.id := rfl

@[simp] theorem found_slot (withBucket : Bool) (r : Record) :
    (r.found withBucket).slot = r.slot withBucket := by
  simp only [FoundRecord.slot, found, FoundRecord.ofHeader, slot, totalLen, Nat.add_comm]

end Record

/-- The last record of a number in the order of writing. -/
def newest (log : List Record) (id : Nat) : Option Record :=
  (log.filter fun r => r.header.id == id).getLast?

section Newest

variable {log a b : List Record} {r : Record} {id : Nat}

@[simp] theorem newest_nil (id : Nat) : newest [] id = none := rfl

theorem newest_concat (log : List Record) (r : Record) (id : Nat) :
    newest (log ++ [r]) id = if r.header.id = id then some r else newest log id := by
  rw [newest, List.filter_append]
  by_cases hId : r.header.id = id
  · simp [hId]
  · simp [hId, newest]

theorem newest_append (a b : List Record) (id : Nat) :
    newest (a ++ b) id = (newest b id).or (newest a id) := by
  rw [newest, List.filter_append, List.getLast?_append]
  rfl

theorem newest_eq_some (h : newest log id = some r) : r ∈ log ∧ r.header.id = id := by
  have hMem := List.mem_of_getLast? h
  rw [List.mem_filter, beq_iff_eq] at hMem
  exact hMem

theorem newest_eq_none : newest log id = none ↔ ∀ r ∈ log, r.header.id ≠ id := by
  rw [newest, List.getLast?_eq_none_iff, List.filter_eq_nil_iff]
  simp only [beq_iff_eq]

/-- A number with a record has a newest one. -/
theorem newest_of_mem (hr : r ∈ log) (hId : r.header.id = id) : ∃ x, newest log id = some x := by
  cases hNewest : newest log id with
  | some x => exact ⟨x, rfl⟩
  | none => exact absurd hId (newest_eq_none.mp hNewest r hr)

end Newest

/-- Later records of a number have greater versions. -/
def Ascending (log : List Record) : Prop :=
  log.Pairwise fun x y => x.header.id = y.header.id → x.header.version < y.header.version

namespace Ascending

variable {log a b : List Record} {r x : Record} {id : Nat}

theorem left (h : Ascending (a ++ b)) : Ascending a := (List.pairwise_append.mp h).1

theorem right (h : Ascending (a ++ b)) : Ascending b := (List.pairwise_append.mp h).2.1

theorem lt_of_append (h : Ascending (a ++ b)) (hx : x ∈ a) (hr : r ∈ b)
    (hId : x.header.id = r.header.id) : x.header.version < r.header.version :=
  (List.pairwise_append.mp h).2.2 x hx r hr hId

/-- The newest record has the greatest version. -/
theorem le_newest (h : Ascending log) (hr : newest log id = some r) (hx : x ∈ log)
    (hId : x.header.id = id) : x = r ∨ x.header.version < r.header.version := by
  induction log using List.reverseRecOn with
  | nil => cases hx
  | append_singleton init last ih =>
      rw [newest_concat] at hr
      rcases List.mem_append.mp hx with hOld | hLast
      · by_cases hSame : last.header.id = id
        · rw [if_pos hSame] at hr
          cases hr
          exact Or.inr (h.lt_of_append hOld (List.mem_singleton_self _) (hId.trans hSame.symm))
        · rw [if_neg hSame] at hr
          exact ih h.left hr hOld
      · rw [List.mem_singleton] at hLast
        rw [← hLast, if_pos hId] at hr
        exact Or.inl (Option.some.inj hr)

end Ascending

theorem lookup_keepNewest_of_le (table : NewestTable) (f : FoundRecord)
    (h : ∀ e, table.lookup f.id = some e → e.version ≤ f.version) (id : Nat) :
    (keepNewest table f).lookup id = if f.id = id then some f else table.lookup id := by
  have hInsert : (table.insert f.id f).lookup id = if f.id = id then some f else table.lookup id := by
    by_cases hId : f.id = id
    · subst hId
      simp [AList.lookup_insert]
    · simp [AList.lookup_insert_ne (Ne.symm hId), hId]
  unfold keepNewest
  cases hEntry : table.lookup f.id with
  | none => exact hInsert
  | some e =>
      simp only [if_pos (h e hEntry)]
      exact hInsert

/-- The table of found records holds the newest of each number. -/
theorem lookup_foldl_keepNewest {withBucket : Bool} {recs : List Record} (h : Ascending recs) (id : Nat) :
    ((recs.map (Record.found withBucket)).foldl keepNewest ∅).lookup id =
      (newest recs id).map (Record.found withBucket) := by
  induction recs using List.reverseRecOn generalizing id with
  | nil => rfl
  | append_singleton init last ih =>
      rw [List.map_append, List.foldl_append, List.map_singleton, List.foldl_cons, List.foldl_nil,
        lookup_keepNewest_of_le, newest_concat, ih h.left]
      · by_cases hId : last.header.id = id
        · simp [hId]
        · simp [hId]
      · intro e hEntry
        rw [ih h.left, Record.found_id] at hEntry
        obtain ⟨x, hx, rfl⟩ := Option.map_eq_some_iff.mp hEntry
        obtain ⟨hMem, hSame⟩ := newest_eq_some hx
        exact (h.lt_of_append hMem (List.mem_singleton_self _) hSame).le

end HeapStore
