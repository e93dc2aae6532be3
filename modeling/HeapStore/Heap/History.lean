import HeapStore.Library.Runs
import HeapStore.Recovery.Newest
import HeapStore.Heap.Operations

/-! The history of a heap: what its completed operations did, the key/value map
that they describe, and what every ledger that grew along a history satisfies. -/
namespace HeapStore

/-- What a completed operation did. Reads, flushes and calls that found no
record leave what is stored as it is. -/
inductive Event where
  | inserted (id bucket : Nat) (payload : Bytes)
  | updated (id : Nat) (payload : Bytes)
  | deleted (id : Nat)
  | observed
  deriving DecidableEq

namespace Event

/-- The number and the payload that were written. -/
def write : Event → Option (Nat × Bytes)
  | .inserted id _ payload => some (id, payload)
  | .updated id payload => some (id, payload)
  | _ => none

/-- The number that an insert returned. -/
def issued : Event → Option Nat
  | .inserted id _ _ => some id
  | _ => none

/-- The key/value map after one more operation. -/
def apply (map : Nat → Option Bytes) : Event → (Nat → Option Bytes)
  | .inserted id _ payload => Function.update map id (some payload)
  | .updated id payload => Function.update map id (some payload)
  | .deleted id => Function.update map id none
  | .observed => map

end Event

/-- The key/value map that a history describes. -/
def values (events : List Event) : Nat → Option Bytes := events.foldl Event.apply fun _ => none

/-- The payload of the last insert or update of a number. -/
def latest (events : List Event) (id : Nat) : Option Bytes :=
  (((events.filterMap Event.write).filter fun w => w.1 == id).getLast?).map Prod.snd

/-- How often a number was updated. -/
def updateCount (events : List Event) (id : Nat) : Nat :=
  events.countP fun e => match e with
    | .updated k _ => k == id
    | _ => false

theorem values_concat (events : List Event) (e : Event) :
    values (events ++ [e]) = e.apply (values events) := by
  simp [values]

theorem writes_concat (events : List Event) (e : Event) :
    (events ++ [e]).filterMap Event.write = events.filterMap Event.write ++ e.write.toList := by
  rw [List.filterMap_append, List.filterMap_cons]
  cases e.write <;> rfl

theorem latest_concat (events : List Event) (e : Event) (id : Nat) :
    latest (events ++ [e]) id = match e.write with
      | some w => if w.1 = id then some w.2 else latest events id
      | none => latest events id := by
  rw [latest, writes_concat]
  cases e.write with
  | none => simp [latest]
  | some w =>
      by_cases hId : w.1 = id
      · simp [hId, List.filter_append]
      · simp [hId, List.filter_append, latest]

theorem updateCount_append (a b : List Event) (id : Nat) :
    updateCount (a ++ b) id = updateCount a id + updateCount b id := List.countP_append

/-- A bound for a history holds for the part up to an earlier moment. -/
theorem updateCount_le_left {a b : List Event} {bound : Nat}
    (h : ∀ id, updateCount (a ++ b) id ≤ bound) (id : Nat) : updateCount a id ≤ bound := by
  have hAll := h id
  rw [updateCount_append] at hAll
  exact (Nat.le_add_right _ _).trans hAll

namespace Ledger

/-- One operation, as the ledger records it. -/
inductive Step (withBucket : Bool) (L : Ledger) : Event → Ledger → Prop where
  | inserted {id bucket : Nat} {payload : Bytes} (r : Record) (new : List RegistryRow)
      (number : r.header.id = id) (version : r.header.version = 1) (stored : r.payload = payload)
      (fresh : ∀ old ∈ L.log, old.header.id ≠ id) :
      Step withBucket L (.inserted id bucket payload) (L.put withBucket r new)
  | updated {id : Nat} {payload : Bytes} (old r : Record) (new : List RegistryRow)
      (last : newest L.log id = some old) (live : L.slots id = .live (old.slot withBucket))
      (number : r.header.id = id)
      (version : r.header.version = (old.header.version + 1) % 2 ^ 16)
      (stored : r.payload = payload) :
      Step withBucket L (.updated id payload) (L.put withBucket r new)
  | deleted {id : Nat} (slot : Slot) (live : L.slots id = .live slot) :
      Step withBucket L (.deleted id) (L.bury id slot)
  | observed : Step withBucket L .observed L

/-- A ledger that a history leads to. -/
abbrev Grows (withBucket : Bool) : Ledger → List Event → Ledger → Prop :=
  Runs.Steps (Step withBucket)

/-- The records of one number, in the order of writing. -/
def versions (log : List Record) (id : Nat) : List Record := log.filter fun r => r.header.id == id

/-- What the ledger of a history has to do with it. -/
structure Historic (withBucket : Bool) (events : List Event) (L : Ledger) : Prop where
  writes : L.log.map (fun r => (r.header.id, r.payload)) = events.filterMap Event.write
  written : ∀ id, L.slots id ≠ .empty ↔ ∃ r ∈ L.log, r.header.id = id
  newest : ∀ id slot, (L.slots id).place = some slot →
    ∃ r, HeapStore.newest L.log id = some r ∧ r.slot withBucket = slot
  version : ∀ a r b, L.log = a ++ r :: b →
    r.header.version = ((versions a r.header.id).length + 1) % 2 ^ 16
  deleted : ∀ id, (∃ slot, L.slots id = .deleted slot) ↔ .deleted id ∈ events
  count : ∀ id, (versions L.log id).length ≤ updateCount events id + 1
  value : ∀ id, values events id = match L.slots id with
    | .live _ => (HeapStore.newest L.log id).map Record.payload
    | _ => none

namespace Historic

variable {withBucket : Bool} {events : List Event} {L M : Ledger} {e : Event} {r : Record} {id : Nat}

theorem empty (withBucket : Bool) : Historic withBucket [] Ledger.empty := by
  constructor <;> simp [Ledger.empty, SlotState.place, versions, values]

theorem versions_concat (log : List Record) (r : Record) (id : Nat) :
    versions (log ++ [r]) id = versions log id ++ if r.header.id = id then [r] else [] := by
  rw [versions, List.filter_append]
  by_cases hId : r.header.id = id <;> simp [hId, versions]

/-- One more record that is the next version of its number. -/
theorem put (h : Historic withBucket events L) (new : List RegistryRow)
    (hWrite : e.write = some (r.header.id, r.payload)) (hDeleted : ∀ k, e ≠ .deleted k)
    (hLive : .deleted r.header.id ∉ events)
    (hVersion : r.header.version = ((versions L.log r.header.id).length + 1) % 2 ^ 16)
    (hCount : ∀ k, (versions L.log k).length + (if r.header.id = k then 1 else 0) ≤
      updateCount (events ++ [e]) k + 1) :
    Historic withBucket (events ++ [e]) (L.put withBucket r new) where
  value k := by
    have hApply : e.apply (values events) =
        Function.update (values events) r.header.id (some r.payload) := by
      cases e with
      | inserted id bucket payload => cases hWrite; rfl
      | updated id payload => cases hWrite; rfl
      | deleted id => cases hWrite
      | observed => cases hWrite
    rw [values_concat, hApply]
    simp only [Ledger.put, newest_concat]
    by_cases hId : k = r.header.id
    · subst hId
      simp
    · rw [Function.update_of_ne hId, Function.update_of_ne hId, if_neg (Ne.symm hId)]
      exact h.value k
  writes := by
    rw [writes_concat, hWrite]
    simp [Ledger.put, h.writes]
  written k := by
    by_cases hId : k = r.header.id
    · subst hId
      simp [Ledger.put]
    · have hOld := h.written k
      simp only [Ledger.put, Function.update_of_ne hId, List.mem_append, List.mem_singleton]
      rw [hOld]
      constructor
      · rintro ⟨x, hx, hSame⟩
        exact ⟨x, Or.inl hx, hSame⟩
      · rintro ⟨x, hx | rfl, hSame⟩
        · exact ⟨x, hx, hSame⟩
        · exact absurd hSame.symm hId
  newest k slot hPlace := by
    simp only [Ledger.put, newest_concat] at hPlace ⊢
    by_cases hId : r.header.id = k
    · subst hId
      rw [if_pos rfl]
      simp only [Function.update_self, SlotState.place, Option.some.injEq] at hPlace
      exact ⟨r, rfl, hPlace⟩
    · rw [Function.update_of_ne (Ne.symm hId)] at hPlace
      rw [if_neg hId]
      exact h.newest k slot hPlace
  version a x b hSplit := by
    rcases List.eq_nil_or_concat b with rfl | ⟨init, last, rfl⟩
    · obtain ⟨rfl, hLast⟩ := List.append_inj' hSplit rfl
      cases hLast
      exact hVersion
    · rw [List.concat_eq_append, ← List.cons_append, ← List.append_assoc] at hSplit
      exact h.version a x init (List.append_inj' hSplit rfl).1
  deleted k := by
    simp only [Ledger.put, List.mem_append, List.mem_singleton, ← h.deleted k]
    by_cases hId : k = r.header.id
    · subst hId
      rw [Function.update_self]
      simp [hLive, h.deleted, Ne.symm (hDeleted _)]
    · rw [Function.update_of_ne hId]
      simp [Ne.symm (hDeleted _)]
  count k := by
    have hBound := hCount k
    simp only [Ledger.put, versions_concat, List.length_append]
    split at hBound <;> simp_all

/-- The versions of a number count its records, so the newest has the last one. -/
theorem newest_version (h : Historic withBucket events L) (hNewest : HeapStore.newest L.log id = some r) :
    r.header.version = (versions L.log id).length % 2 ^ 16 := by
  obtain ⟨init, hInit⟩ : ∃ init, versions L.log id = init ++ [r] :=
    List.getLast?_eq_some_iff.mp hNewest
  obtain ⟨hMem, hId⟩ := newest_eq_some hNewest
  obtain ⟨a, b, hSplit, hNone⟩ : ∃ a b, L.log = a ++ r :: b ∧ ∀ x ∈ b, x.header.id ≠ id := by
    clear hInit
    have hLog : ∀ log : List Record, HeapStore.newest log id = some r →
        ∃ a b, log = a ++ r :: b ∧ ∀ x ∈ b, x.header.id ≠ id := by
      intro log
      induction log using List.reverseRecOn with
      | nil => intro hNone; cases hNone
      | append_singleton init last ih =>
          intro hLast
          rw [newest_concat] at hLast
          split at hLast
          · cases hLast
            exact ⟨init, [], rfl, by simp⟩
          · rename_i hOther
            obtain ⟨a, b, rfl, hNone⟩ := ih hLast
            refine ⟨a, b ++ [last], by simp, fun x hx => ?_⟩
            rcases List.mem_append.mp hx with hx | hx
            · exact hNone x hx
            · exact List.mem_singleton.mp hx ▸ hOther
    exact hLog L.log hNewest
  have hVersion := h.version a r b hSplit
  have hCount : (versions L.log id).length = (versions a id).length + 1 := by
    have hRest : versions b id = [] := List.filter_eq_nil_iff.mpr fun x hx => by
      simpa using hNone x hx
    rw [hSplit, versions, List.filter_append, List.filter_cons_of_pos (by simpa using hId)]
    change (versions a id ++ r :: versions b id).length = _
    rw [hRest, List.length_append]
    rfl
  rw [hVersion, hId, hCount]

theorem step (h : Historic withBucket events L) (hStep : Step withBucket L e M) :
    Historic withBucket (events ++ [e]) M := by
  cases hStep with
  | @inserted id bucket payload r new number version stored fresh =>
      subst number stored
      have hNone : versions L.log r.header.id = [] := List.filter_eq_nil_iff.mpr fun x hx => by
        simpa using fresh x hx
      refine h.put new rfl (fun k hSame => by cases hSame) (fun hIn => ?_) ?_ fun k => ?_
      · obtain ⟨slot, hSlot⟩ := (h.deleted _).mpr hIn
        obtain ⟨x, hx, hId⟩ := (h.written r.header.id).mp (by rw [hSlot]; simp)
        exact fresh x hx hId
      · rw [version, hNone]
        rfl
      · by_cases hId : r.header.id = k
        · subst hId
          rw [hNone]
          simp
        · have hOld := h.count k
          simp only [hId, if_false, updateCount_append]
          omega
  | @updated id payload old r new last live number version stored =>
      subst number stored
      refine h.put new rfl (fun k hSame => by cases hSame) (fun hIn => ?_) ?_ fun k => ?_
      · obtain ⟨slot, hSlot⟩ := (h.deleted _).mpr hIn
        rw [hSlot] at live
        cases live
      · rw [version, h.newest_version last, Nat.mod_add_mod]
      · have hOld := h.count k
        have hOne : updateCount [Event.updated r.header.id r.payload] k =
            if r.header.id = k then 1 else 0 := by
          simp [updateCount, List.countP_cons]
        rw [updateCount_append, hOne]
        omega
  | @deleted id slot live =>
      exact
        { writes := by
            rw [writes_concat]
            simpa [Event.write, Ledger.bury] using h.writes
          written := fun k => by
            by_cases hId : k = id
            · subst hId
              rw [show (L.bury k slot).log = L.log from rfl, ← h.written k, live]
              simp [Ledger.bury]
            · simpa [Ledger.bury, Function.update_of_ne hId] using h.written k
          newest := fun k other hPlace => by
            by_cases hId : k = id
            · subst hId
              simp only [Ledger.bury, Function.update_self, SlotState.place] at hPlace
              exact h.newest k other (by rw [live]; exact hPlace)
            · simp only [Ledger.bury, Function.update_of_ne hId] at hPlace
              exact h.newest k other hPlace
          version := h.version
          deleted := fun k => by
            by_cases hId : k = id
            · subst hId
              simp [Ledger.bury]
            · have hOld := h.deleted k
              simp only [Ledger.bury, Function.update_of_ne hId, List.mem_append, hOld]
              simp [hId]
          count := fun k => by
            have hOld := h.count k
            rw [updateCount_append]
            exact hOld.trans (by omega)
          value := fun k => by
            rw [values_concat]
            by_cases hId : k = id
            · subst hId
              simp [Ledger.bury, Event.apply]
            · simp only [Ledger.bury, Event.apply, Function.update_of_ne hId]
              exact h.value k }
  | observed =>
      exact
        { writes := by
            rw [writes_concat]
            simpa [Event.write] using h.writes
          written := h.written
          newest := h.newest
          version := h.version
          deleted := fun k => by simp [h.deleted k]
          count := fun k => by
            have hOld := h.count k
            rw [updateCount_append]
            exact hOld.trans (by omega)
          value := fun k => by
            rw [values_concat]
            exact h.value k }

/-- Every number that was returned by an insert has a record. -/
theorem mem_of_issued (h : Historic withBucket events L) (hId : id ∈ events.filterMap Event.issued) :
    ∃ r ∈ L.log, r.header.id = id := by
  obtain ⟨e, he, hIssued⟩ := List.mem_filterMap.mp hId
  cases e with
  | inserted k bucket payload =>
      cases hIssued
      have hWrite : (id, payload) ∈ events.filterMap Event.write := List.mem_filterMap.mpr ⟨_, he, rfl⟩
      rw [← h.writes] at hWrite
      obtain ⟨r, hr, hSame⟩ := List.mem_map.mp hWrite
      exact ⟨r, hr, congrArg Prod.fst hSame⟩
  | updated => cases hIssued
  | deleted => cases hIssued
  | observed => cases hIssued

/-- One more operation returns no number twice. -/
theorem issued_nodup (h : Historic withBucket events L) (hStep : Step withBucket L e M)
    (hOnce : (events.filterMap Event.issued).Nodup) :
    ((events ++ [e]).filterMap Event.issued).Nodup := by
  rw [List.filterMap_append]
  cases hStep with
  | inserted r new number version stored fresh =>
      apply hOnce.append (List.nodup_singleton _)
      intro k hk hNew
      obtain rfl := List.mem_singleton.mp hNew
      obtain ⟨old, hOld, hSame⟩ := h.mem_of_issued hk
      exact fresh old hOld hSame
  | updated => rwa [List.filterMap_cons_none rfl, List.filterMap_nil, List.append_nil]
  | deleted => rwa [List.filterMap_cons_none rfl, List.filterMap_nil, List.append_nil]
  | observed => rwa [List.filterMap_cons_none rfl, List.filterMap_nil, List.append_nil]

/-- What holds of the ledger of a history holds after more history. -/
theorem grows {more : List Event} (h : Historic withBucket events L)
    (hGrows : Grows withBucket L more M) : Historic withBucket (events ++ more) M :=
  hGrows.invariant (fun _ _ _ _ hOld hStep => hOld.step hStep) h

/-- No number is returned twice in more history, either. -/
theorem issued_nodup_grows {more : List Event} (h : Historic withBucket events L)
    (hGrows : Grows withBucket L more M) (hOnce : (events.filterMap Event.issued).Nodup) :
    ((events ++ more).filterMap Event.issued).Nodup := by
  have hBoth := hGrows.invariant
    (I := fun past L => Historic withBucket past L ∧ (past.filterMap Event.issued).Nodup)
    (fun _ _ _ _ hOld hStep => ⟨hOld.1.step hStep, hOld.1.issued_nodup hStep hOld.2⟩) ⟨h, hOnce⟩
  exact hBoth.2

/-- The newest record of a number holds the payload that was written last. -/
theorem newest_latest (h : Historic withBucket events L) (id : Nat) :
    (HeapStore.newest L.log id).map Record.payload = latest events id := by
  rw [latest, ← h.writes, List.filter_map, List.getLast?_map, Option.map_map]
  rfl

/-- Without a wrap around the version of a record counts the records up to it. -/
theorem version_eq (h : Historic withBucket events L) (hCount : updateCount events r.header.id ≤ 65534)
    {a b : List Record} (hSplit : L.log = a ++ r :: b) :
    r.header.version = (versions a r.header.id).length + 1 := by
  have hBound := h.count r.header.id
  rw [hSplit, versions, List.filter_append, List.filter_cons_of_pos (by simp), List.length_append,
    List.length_cons] at hBound
  have hLength : (versions a r.header.id).length = (a.filter fun x => x.header.id == r.header.id).length :=
    rfl
  rw [h.version a r b hSplit]
  omega

/-- Without a wrap around later records of a number have greater versions. -/
theorem ascending (h : Historic withBucket events L)
    (hCount : ∀ id, updateCount events id ≤ 65534) : Ascending L.log := by
  have hPrefix : ∀ (a b : List Record), L.log = a ++ b → Ascending a := by
    intro a
    induction a using List.reverseRecOn with
    | nil => exact fun _ _ => .nil
    | append_singleton init last ih =>
        intro b hSplit
        rw [List.append_assoc, List.singleton_append] at hSplit
        refine List.pairwise_append.mpr ⟨ih _ hSplit, by simp, fun x hx y hy hId => ?_⟩
        rw [List.mem_singleton] at hy
        subst hy
        obtain ⟨front, back, rfl⟩ := List.append_of_mem hx
        have hOld : L.log = front ++ x :: (back ++ y :: b) := by rw [hSplit]; simp
        rw [h.version_eq (hCount _) hOld, h.version_eq (hCount _) hSplit, ← hId, versions, versions,
          List.filter_append, List.filter_cons_of_pos (by simp), List.length_append, List.length_cons]
        omega
  exact hPrefix L.log [] (by simp)

/-- A number with a value has the live slot of its newest record, which holds the value. -/
theorem live_of_value (h : Historic withBucket events L) {value : Bytes} (hValue : values events id = some value) :
    ∃ r ∈ L.log, r.header.id = id ∧ r.payload = value ∧ L.slots id = .live (r.slot withBucket) := by
  have hState := h.value id
  rw [hValue] at hState
  cases hSlot : L.slots id with
  | live slot =>
      obtain ⟨r, hNewest, rfl⟩ := h.newest id slot (by rw [hSlot]; rfl)
      obtain ⟨hr, hId⟩ := newest_eq_some hNewest
      simp only [hSlot, hNewest, Option.map_some, Option.some.injEq] at hState
      exact ⟨r, hr, hId, hState.symm, rfl⟩
  | deleted slot => simp [hSlot] at hState
  | empty => simp [hSlot] at hState

end Historic

end Ledger

end HeapStore
