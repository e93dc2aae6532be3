import HeapStore.Placement.AppendOpen
import HeapStore.Recovery.Newest

/-! What opening an append store recovers when the data file holds one chain of
records and the index names some of them: the records behind the last named
one are taken up in order until a number is missing. -/
namespace HeapStore

open WalkRange

namespace AppendPlacement

/-- The records of a tail that are taken up from a next free number on. -/
def continued : Nat → List Record → List Record
  | _, [] => []
  | next, r :: rest =>
      if r.header.id = next then r :: continued (next + 1) rest
      else if r.header.id < next then r :: continued next rest
      else []

/-- The next free number after some records. -/
def nextAfter : Nat → List Record → Nat
  | next, [] => next
  | next, r :: rest => nextAfter (if r.header.id = next then next + 1 else next) rest

/-- The slots with the newest record of each number in them, tombstones apart. -/
def recovered (slots : Nat → SlotState) (tail : List Record) (id : Nat) : SlotState :=
  match newest tail id with
  | none => slots id
  | some r =>
      match slots id with
      | .deleted slot => .deleted slot
      | _ => .live (r.slot false)

/-- Every record continues the numbers, none leaves a gap. -/
def Gapless : Nat → List Record → Prop
  | _, [] => True
  | next, r :: rest =>
      (r.header.id = next ∧ Gapless (next + 1) rest) ∨ (r.header.id < next ∧ Gapless next rest)

theorem gapless_continued (next : Nat) (tail : List Record) : Gapless next (continued next tail) := by
  induction tail generalizing next with
  | nil => trivial
  | cons r rest ih =>
      rw [continued]
      split
      · rename_i hSame
        exact Or.inl ⟨hSame, ih _⟩
      · split
        · rename_i hOld
          exact Or.inr ⟨hOld, ih _⟩
        · trivial

theorem continued_prefix (next : Nat) (tail : List Record) : continued next tail <+: tail := by
  induction tail generalizing next with
  | nil => exact List.prefix_rfl
  | cons r rest ih =>
      rw [continued]
      split
      · exact (List.prefix_cons_inj r).mpr (ih _)
      · split
        · exact (List.prefix_cons_inj r).mpr (ih _)
        · exact List.nil_prefix

theorem continued_of_gapless {next : Nat} {tail : List Record} (h : Gapless next tail) :
    continued next tail = tail := by
  induction tail generalizing next with
  | nil => rfl
  | cons r rest ih =>
      rw [continued]
      rcases h with ⟨hSame, hRest⟩ | ⟨hOld, hRest⟩
      · rw [if_pos hSame, ih hRest]
      · rw [if_neg (Nat.ne_of_lt hOld), if_pos hOld, ih hRest]

/-- The tail is taken up as far as it continues the numbers. -/
theorem tailSlots_continued (tail : List Record) (slots : Nat → SlotState) (st : Restore) :
    tailSlots (tail.map (Record.found false)) slots st =
      tailSlots ((continued st.nextId tail).map (Record.found false)) slots st := by
  induction tail generalizing slots st with
  | nil => rfl
  | cons r rest ih =>
      rw [List.map_cons, tailSlots, Record.found_id, continued]
      split
      · rename_i hSame
        rw [List.map_cons, tailSlots, Record.found_id, if_pos hSame, ih]
      · split
        · rename_i hNew hOld
          rw [List.map_cons, tailSlots, Record.found_id, if_neg hNew, if_pos hOld, ih]
        · rfl

/-- The setting of a recovery: a chain of records, the part of it that lies
before the walk, and an index whose slots name records of that part. -/
structure Caught (config : HeapConfig) (image : Nat → UInt8) (slots : Nat → SlotState)
    (before tail : List Record) (maxEnd cursor dataSize next : Nat) : Prop where
  laid : Laid false (before ++ tail) image
  intact : ∀ r ∈ before ++ tail, r.intact config.integrity = true
  ascending : Ascending (before ++ tail)
  prior : ∀ r ∈ before, r.stop false ≤ maxEnd
  chain : Chain false maxEnd cursor tail
  inside : cursor ≤ dataSize
  range : pageUp dataSize < 2 ^ 63
  named : ∀ id slot, (slots id).place = some slot →
    ∃ r ∈ before, r.header.id = id ∧ r.slot false = slot
  next : ∀ id, slots id ≠ .empty → id < next
  base : PAGE ≤ maxEnd

namespace Caught

variable {config : HeapConfig} {image : Nat → UInt8} {slots : Nat → SlotState}
  {before tail : List Record} {maxEnd cursor dataSize next id : Nat} {r : Record}

theorem stop_le (h : Caught config image slots before tail maxEnd cursor dataSize next)
    (hr : r ∈ before ++ tail) : r.stop false ≤ cursor := by
  rcases List.mem_append.mp hr with hr | hr
  · exact (h.prior r hr).trans h.chain.le
  · exact (h.chain.bounds hr).2

theorem state_slot (h : Caught config image slots before tail maxEnd cursor dataSize next)
    (hr : r ∈ before ++ tail) : Slot.state (r.slot false).encode = .live (r.slot false) := by
  have hBase := h.laid.base r hr
  have hStop := (h.stop_le hr).trans h.inside
  have hUp := le_pageUp dataSize
  have hRange := h.range
  rw [Record.stop] at hStop
  refine Slot.state_live ?_ ?_ ?_
  · exact PAGE_pos.trans_le hBase
  · change r.off < 2 ^ 63
    omega
  · change r.totalLen false < 2 ^ 64
    omega

/-- A record's slot leads to its header. -/
theorem headerAtSlot (h : Caught config image slots before tail maxEnd cursor dataSize next)
    (hr : r ∈ before ++ tail) :
    DataFile.headerAtSlot ⟨false, config.integrity⟩ image r.off r.header.id = some r.header := by
  have hStop := (h.stop_le hr).trans h.inside
  have hHeader : r.off + headerLen false ≤ dataSize :=
    (Nat.add_le_add_left (Nat.le_add_right _ _) _).trans hStop
  rw [DataFile.headerAtSlot, DataFile.recordHeaderLen,
    if_pos (Nat.lt_of_le_of_lt (pageUp_mono hHeader) h.range), h.laid.decode hr]
  simp [Option.filter]

/-- A later record wins over an older one, and over no slot at all. -/
theorem wins_older (h : Caught config image slots before tail maxEnd cursor dataSize next)
    {old : Record} (hOld : old ∈ before ++ tail) (hr : r ∈ before ++ tail)
    (hId : old.header.id = r.header.id) (hVersion : old.header.version < r.header.version) :
    DataFile.wins ⟨false, config.integrity⟩ image (r.found false) (.live (old.slot false)) = true := by
  have hOff : old.off ≠ r.off := fun hSame => by
    rw [h.laid.eq_of_off hOld hr hSame] at hVersion
    exact Nat.lt_irrefl _ hVersion
  rw [DataFile.wins]
  have hSlot : (old.slot false).offset = old.off := rfl
  have hFound : (r.found false).offset = r.off := rfl
  rw [hSlot, hFound, if_neg hOff, Record.found_id, ← hId, h.headerAtSlot hOld]
  exact decide_eq_true hVersion

/-- How far the restore has come after part of the tail. -/
structure Progress (slots : Nat → SlotState) (next : Nat) (seen : List Record)
    (now : Nat → SlotState) (st : Restore) : Prop where
  nextId : st.nextId = nextAfter next seen
  grown : next ≤ st.nextId
  idle : ∀ id, newest seen id = none → now id = slots id ∧ st.updates.lookup id = none
  taken : ∀ id r, newest seen id = some r → id < st.nextId ∧
    ((now id = .live (r.slot false) ∧ st.updates.lookup id = none ∧ slots id = .empty) ∨
      (st.updates.lookup id = some (r.found false) ∧ (now id = slots id ∨
        slots id = .empty ∧ ∃ first ∈ seen, first.header.id = id ∧
          first.header.version < r.header.version ∧ now id = .live (first.slot false))))

theorem Progress.start (slots : Nat → SlotState) (next restored : Nat) :
    Progress slots next [] slots ⟨next, restored, ∅⟩ where
  nextId := rfl
  grown := Nat.le_refl _
  idle _ _ := ⟨rfl, AList.lookup_empty _⟩
  taken _ _ hNone := by cases hNone

theorem nextAfter_concat (next : Nat) (seen : List Record) (r : Record) :
    nextAfter next (seen ++ [r]) =
      if r.header.id = nextAfter next seen then nextAfter next seen + 1 else nextAfter next seen := by
  induction seen generalizing next with
  | nil => rfl
  | cons x rest ih => exact ih _

/-- The first record of a number gets the next slot. -/
theorem Progress.insert {seen : List Record} {now : Nat → SlotState} {st : Restore}
    (h : Caught config image slots before tail maxEnd cursor dataSize next)
    (hProgress : Progress slots next seen now st)
    (hId : r.header.id = st.nextId) :
    Progress slots next (seen ++ [r]) (Function.update now r.header.id (.live (r.slot false)))
      { st with nextId := st.nextId + 1, restored := st.restored + 1 } := by
  have hFresh : newest seen r.header.id = none := by
    cases hSeen : newest seen r.header.id with
    | none => rfl
    | some x =>
        have hLt := (hProgress.taken _ x hSeen).1
        omega
  refine ⟨?_, Nat.le_succ_of_le hProgress.grown, fun k hNone => ?_, fun k x hSome => ?_⟩
  · rw [nextAfter_concat, ← hProgress.nextId, if_pos hId]
  · rw [newest_concat] at hNone
    split at hNone
    · cases hNone
    rename_i hOther
    rw [Function.update_of_ne (Ne.symm hOther)]
    exact hProgress.idle k hNone
  · rw [newest_concat] at hSome
    split at hSome
    · rename_i hSame
      cases hSome
      subst hSame
      refine ⟨by simp only; omega, Or.inl ⟨Function.update_self .., (hProgress.idle _ hFresh).2, ?_⟩⟩
      by_contra hUsed
      have hLt := h.next _ hUsed
      have hGrown := hProgress.grown
      omega
    · rename_i hOther
      obtain ⟨hLt, hCase⟩ := hProgress.taken k x hSome
      refine ⟨Nat.lt_succ_of_lt hLt, ?_⟩
      rw [Function.update_of_ne (Ne.symm hOther)]
      rcases hCase with hFirst | ⟨hUpdate, hSlot | ⟨hEmpty, first, hFirst, hRest⟩⟩
      · exact Or.inl hFirst
      · exact Or.inr ⟨hUpdate, Or.inl hSlot⟩
      · exact Or.inr ⟨hUpdate, Or.inr ⟨hEmpty, first, List.mem_append_left _ hFirst, hRest⟩⟩

/-- A later record of a number waits among the updates. -/
theorem Progress.update {seen rest : List Record} {now : Nat → SlotState} {st : Restore}
    (h : Caught config image slots before tail maxEnd cursor dataSize next)
    (hTail : seen ++ r :: rest <+: tail) (hProgress : Progress slots next seen now st)
    (hId : r.header.id < st.nextId) :
    Progress slots next (seen ++ [r]) now
      { st with updates := keepNewest st.updates (r.found false) } := by
  have hAscending : Ascending (seen ++ [r]) := by
    obtain ⟨more, rfl⟩ := hTail
    have hAll := h.ascending.right
    rw [show seen ++ r :: rest ++ more = (seen ++ [r]) ++ (rest ++ more) by simp] at hAll
    exact hAll.left
  have hLookup := lookup_keepNewest_of_le st.updates (r.found false) fun e hEntry => by
    rw [Record.found_id] at hEntry
    cases hSeen : newest seen r.header.id with
    | none =>
        rw [(hProgress.idle _ hSeen).2] at hEntry
        cases hEntry
    | some x =>
        obtain ⟨hMem, hSame⟩ := newest_eq_some hSeen
        rcases (hProgress.taken _ x hSeen).2 with ⟨-, hNone, -⟩ | ⟨hSome, -⟩
        · rw [hNone] at hEntry
          cases hEntry
        · rw [hSome] at hEntry
          cases hEntry
          exact (hAscending.lt_of_append hMem (List.mem_singleton_self _) hSame).le
  refine ⟨?_, hProgress.grown, fun k hNone => ?_, fun k x hSome => ?_⟩
  · rw [nextAfter_concat, ← hProgress.nextId, if_neg (Nat.ne_of_lt hId)]
  · rw [newest_concat] at hNone
    split at hNone
    · cases hNone
    rename_i hOther
    rw [hLookup, Record.found_id, if_neg hOther]
    exact hProgress.idle k hNone
  · rw [newest_concat] at hSome
    rw [hLookup, Record.found_id]
    split at hSome
    · rename_i hSame
      cases hSome
      subst hSame
      rw [if_pos rfl]
      refine ⟨hId, Or.inr ⟨rfl, ?_⟩⟩
      cases hSeen : newest seen r.header.id with
      | none => exact Or.inl (hProgress.idle _ hSeen).1
      | some y =>
          obtain ⟨hMem, hSame⟩ := newest_eq_some hSeen
          have hVersion := hAscending.lt_of_append hMem (List.mem_singleton_self _) hSame
          rcases (hProgress.taken _ y hSeen).2 with
            ⟨hNow, -, hEmpty⟩ | ⟨-, hSlot | ⟨hEmpty, first, hFirst, hFirstId, -, hNow⟩⟩
          · exact Or.inr ⟨hEmpty, y, List.mem_append_left _ hMem, hSame, hVersion, hNow⟩
          · exact Or.inl hSlot
          · exact Or.inr ⟨hEmpty, first, List.mem_append_left _ hFirst, hFirstId,
              hAscending.lt_of_append hFirst (List.mem_singleton_self _) hFirstId, hNow⟩
    · rename_i hOther
      rw [if_neg hOther]
      obtain ⟨hLt, hCase⟩ := hProgress.taken k x hSome
      refine ⟨hLt, ?_⟩
      rcases hCase with hFirst | ⟨hUpdate, hSlot | ⟨hEmpty, first, hFirst, hRest⟩⟩
      · exact Or.inl hFirst
      · exact Or.inr ⟨hUpdate, Or.inl hSlot⟩
      · exact Or.inr ⟨hUpdate, Or.inr ⟨hEmpty, first, List.mem_append_left _ hFirst, hRest⟩⟩

/-- A gapless tail is taken up completely. -/
theorem Progress.finish {seen rest : List Record} {now : Nat → SlotState} {st : Restore}
    (h : Caught config image slots before tail maxEnd cursor dataSize next)
    (hTail : seen ++ rest <+: tail) (hProgress : Progress slots next seen now st)
    (hGapless : Gapless st.nextId rest) :
    Progress slots next (seen ++ rest) (tailSlots (rest.map (Record.found false)) now st).1
      (tailSlots (rest.map (Record.found false)) now st).2 := by
  induction rest generalizing seen now st with
  | nil =>
      rw [List.append_nil]
      exact hProgress
  | cons r rest ih =>
      have hMem : r ∈ before ++ tail :=
        List.mem_append_right _ (hTail.subset (by simp))
      have hSplit : seen ++ r :: rest = (seen ++ [r]) ++ rest := by simp
      rw [List.map_cons, tailSlots, Record.found_id, Record.found_slot, h.state_slot hMem]
      rcases hGapless with ⟨hSame, hRest⟩ | ⟨hOld, hRest⟩
      · rw [if_pos hSame, hSplit]
        exact ih (hSplit ▸ hTail) (hProgress.insert h hSame) hRest
      · rw [if_neg (Nat.ne_of_lt hOld), if_pos hOld, hSplit]
        exact ih (hSplit ▸ hTail) (hProgress.update h hTail hOld) hRest

/-- A walk of the tail without damage collects all of it. -/
theorem visitAll_tail (integrity : Bool) (recs : List Record) :
    ∀ (found : List FoundRecord) (at' : Nat), (∀ r ∈ recs, r.intact integrity = true) →
      Chain false at' cursor recs →
      (visitAll (tailVisitor (headerLen false)) integrity recs ⟨found, at'⟩).1 =
        ⟨found ++ recs.map (Record.found false), cursor⟩ := by
  induction recs with
  | nil =>
      intro found at' _ hChain
      cases hChain
      simp [visitAll]
  | cons r rest ih =>
      intro found at' hIntact hChain
      cases hChain with
      | cons _ hRest =>
          have hOwn := hIntact r (List.mem_cons_self ..)
          have hEnd : r.off + r.header.len + headerLen false = r.stop false := by
            rw [Record.stop, Record.totalLen]
            omega
          rw [visitAll, hOwn]
          simp only [tailVisitor, if_true, hEnd]
          rw [ih _ _ (fun x hx => hIntact x (List.mem_cons_of_mem _ hx)) hRest, List.append_assoc]
          rfl

/-- Behind the chain there is blank space, or no room for a header. -/
theorem blank_cursor (h : Caught config image slots before tail maxEnd cursor dataSize next) :
    image cursor = 0 :=
  h.laid.blank cursor (h.base.trans h.chain.le) fun _ hr => Or.inr (h.stop_le hr)

/-- The walk behind the scanned slots finds the tail, up to its end. -/
theorem tailOf_eq (h : Caught config image slots before tail maxEnd cursor dataSize next) :
    tailOf config image dataSize maxEnd = ⟨tail.map (Record.found false), cursor⟩ ∧
      (tailRange config dataSize).scanOverflows image (tailVisitor (headerLen false))
        (dataSize - maxEnd + 1) ⟨maxEnd, ⟨0, 0, 0, maxEnd⟩, ⟨[], maxEnd⟩⟩ = false := by
  have hUp := le_pageUp dataSize
  have hRange := h.range
  have hReach := h.chain.le.trans h.inside
  have hScan := scan_chain (w := tailRange config dataSize) h.laid h.chain
    (fun r hr => List.mem_append_right _ hr) rfl h.inside (show dataSize < 2 ^ 64 by omega)
    (Or.inl h.blank_cursor) (tailVisitor (headerLen false)) ⟨0, 0, 0, maxEnd⟩ ⟨[], maxEnd⟩
    (show dataSize < dataSize - maxEnd + 1 + maxEnd by omega)
  refine ⟨hScan.1.trans ?_, hScan.2⟩
  have hVisit := visitAll_tail config.integrity tail [] maxEnd
    (fun r hr => h.intact r (List.mem_append_right _ hr)) h.chain
  rwa [List.nil_append] at hVisit

/-- What the updates of a list of numbers make of one slot. -/
theorem updatedSlots_apply {d : DataFile} {updates : NewestTable} {ids : List Nat} (hOnce : ids.Nodup)
    (now : Nat → SlotState) (id : Nat) : updatedSlots d image updates ids now id =
      match updates.lookup id with
      | none => now id
      | some f =>
          if id ∈ ids ∧ d.wins image f (now id) = true then Slot.state f.slot.encode else now id := by
  induction ids generalizing now with
  | nil => cases updates.lookup id <;> simp [updatedSlots]
  | cons k rest ih =>
      obtain ⟨hNot, hRest⟩ := List.nodup_cons.mp hOnce
      rw [updatedSlots]
      by_cases hId : id = k
      · subst hId
        cases hLookup : updates.lookup id with
        | none =>
            simp only
            rw [ih hRest, hLookup]
        | some f =>
            simp only [List.mem_cons, true_or, true_and]
            split
            · rw [ih hRest, hLookup]
              simp [hNot]
            · rw [ih hRest, hLookup]
              simp [hNot]
      · have hKeep : ∀ (state : SlotState), updatedSlots d image updates rest
            (Function.update now k state) id = updatedSlots d image updates rest now id := fun state => by
          rw [ih hRest, ih hRest, Function.update_of_ne hId]
        have hMem : id ∈ k :: rest ↔ id ∈ rest := by simp [hId]
        cases updates.lookup k with
        | none =>
            simp only [hMem]
            exact ih hRest now
        | some f =>
            simp only [hMem]
            split
            · rw [hKeep, ih hRest]
            · exact ih hRest now

/-- Opening takes the tail up as far as it continues the numbers: the cursor is
behind all of it, and each number has its newest record there, tombstones apart. -/
theorem recoveryFrom_eq (h : Caught config image slots before tail maxEnd cursor dataSize next)
    (order : HashOrder) : recoveryFrom order config image slots dataSize ⟨next, maxEnd⟩ =
      ⟨⟨cursor, nextAfter next (continued next tail)⟩, recovered slots (continued next tail)⟩ := by
  obtain ⟨hTail, -⟩ := h.tailOf_eq
  have hPrefix := continued_prefix next tail
  have hDone := Progress.finish h (show [] ++ continued next tail <+: tail from hPrefix)
    (Progress.start slots next 0) (gapless_continued next tail)
  rw [List.nil_append] at hDone
  rw [recoveryFrom, hTail]
  simp only
  rw [tailSlots_continued]
  generalize hEnded : tailSlots ((continued next tail).map (Record.found false)) slots
    ⟨next, 0, ∅⟩ = ended at hDone ⊢
  rw [hDone.nextId]
  congr 1
  funext id
  have hOnce : (order.order ended.2.updates.keys).Nodup :=
    (order.perm _).nodup_iff.mpr ended.2.updates.keys_nodup
  have hMem : ∀ f, ended.2.updates.lookup id = some f → id ∈ order.order ended.2.updates.keys :=
    fun f hSome => (order.perm _).mem_iff.mpr (AList.mem_keys.mp
      (AList.lookup_isSome.mp (by rw [hSome]; rfl)))
  rw [updatedSlots_apply hOnce, recovered]
  cases hNewest : newest (continued next tail) id with
  | none =>
      obtain ⟨hNow, hNone⟩ := hDone.idle id hNewest
      rw [hNone, hNow]
  | some r =>
      obtain ⟨hrMem, rfl⟩ := newest_eq_some hNewest
      have hr : r ∈ before ++ tail := List.mem_append_right _ (hPrefix.subset hrMem)
      rcases (hDone.taken _ r hNewest).2 with ⟨hNow, hNone, hEmpty⟩ | ⟨hSome, hCase⟩
      · rw [hNone, hNow, hEmpty]
      · rw [hSome]
        simp only [hMem _ hSome, true_and, Record.found_slot, h.state_slot hr]
        rcases hCase with hNow | ⟨hEmpty, first, hFirst, hId, hVersion, hNow⟩
        · rw [hNow]
          cases hState : slots r.header.id with
          | empty => simp [DataFile.wins]
          | deleted slot => simp [DataFile.wins]
          | live slot =>
              obtain ⟨old, hOld, hOldId, rfl⟩ := h.named _ slot (by rw [hState]; rfl)
              have hLater := h.ascending.lt_of_append hOld (hPrefix.subset hrMem) hOldId
              rw [if_pos (h.wins_older (List.mem_append_left _ hOld) hr hOldId hLater)]
        · rw [hNow, hEmpty, if_pos (h.wins_older (List.mem_append_right _ (hPrefix.subset hFirst)) hr hId
            hVersion)]

end Caught

end AppendPlacement

end HeapStore
