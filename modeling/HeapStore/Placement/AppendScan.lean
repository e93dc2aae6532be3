import HeapStore.Placement.AppendTail

/-! What the scan of the index makes of slots that name records of one chain:
it splits the chain into a part before the recovery and a tail to recover. -/
namespace HeapStore

open Effect PagedFile IndexFile WalkRange

namespace AppendPlacement

/-- The result of a scan: an upper bound of what the slots name, which is reached. -/
structure ScanOf (slots : Nat → SlotState) (count : Nat) (scan : SlotScan) : Prop where
  base : PAGE ≤ scan.maxEnd
  bound : ∀ id slot, id < count → (slots id).place = some slot →
    id < scan.nextId ∧ slot.offset + slot.totalLen ≤ scan.maxEnd
  reached : scan.maxEnd = PAGE ∨ ∃ id slot, id < count ∧ (slots id).place = some slot ∧
    scan.maxEnd = slot.offset + slot.totalLen
  last : ∀ id, id + 1 = scan.nextId → id < count ∧ slots id ≠ .empty

theorem slotScan_spec (slots : Nat → SlotState) (count : Nat) :
    ScanOf slots count (slotScan slots count) := by
  induction count with
  | zero =>
      exact ⟨Nat.le_refl _, fun id _ hId => absurd hId (Nat.not_lt_zero id), Or.inl rfl,
        fun id hId => by cases hId⟩
  | succ count ih =>
      rw [slotScan, List.range_succ, List.foldl_append, List.foldl_cons, List.foldl_nil]
      change ScanOf slots (count + 1) (noteSlot slots (slotScan slots count) count)
      generalize slotScan slots count = scan at ih ⊢
      rw [noteSlot]
      cases hPlace : (slots count).place with
      | none =>
          refine ⟨ih.base, fun id slot hId hSome => ?_, ?_, fun id hId => ?_⟩
          · rcases Nat.lt_succ_iff_lt_or_eq.mp hId with hLt | rfl
            · exact ih.bound id slot hLt hSome
            · rw [hPlace] at hSome
              cases hSome
          · rcases ih.reached with hBase | ⟨id, slot, hId, hRest⟩
            · exact Or.inl hBase
            · exact Or.inr ⟨id, slot, Nat.lt_succ_of_lt hId, hRest⟩
          · obtain ⟨hLt, hUsed⟩ := ih.last id hId
            exact ⟨Nat.lt_succ_of_lt hLt, hUsed⟩
      | some slot =>
          refine ⟨ih.base.trans (Nat.le_max_left _ _), fun id other hId hSome => ?_, ?_, fun id hId => ?_⟩
          · rcases Nat.lt_succ_iff_lt_or_eq.mp hId with hLt | rfl
            · obtain ⟨-, hStop⟩ := ih.bound id other hLt hSome
              exact ⟨Nat.lt_succ_of_lt hLt, hStop.trans (Nat.le_max_left _ _)⟩
            · rw [hPlace] at hSome
              cases hSome
              exact ⟨Nat.lt_succ_self _, Nat.le_max_right _ _⟩
          · rcases Nat.le_total scan.maxEnd (slot.offset + slot.totalLen) with hLe | hGe
            · exact Or.inr ⟨count, slot, Nat.lt_succ_self _, hPlace, Nat.max_eq_right hLe⟩
            · simp only [Nat.max_eq_left hGe]
              rcases ih.reached with hBase | ⟨id, other, hId, hRest⟩
              · exact Or.inl hBase
              · exact Or.inr ⟨id, other, Nat.lt_succ_of_lt hId, hRest⟩
          · obtain rfl : id = count := Nat.succ.inj hId
            refine ⟨Nat.lt_succ_self _, fun hEmpty => ?_⟩
            rw [hEmpty] at hPlace
            cases hPlace

/-- The scan of the index file of a store that presents these slots. -/
def scanned (slots : Nat → SlotState) (s : Store) : SlotScan :=
  slotScan slots (slotCount (s.file .index).size)

theorem scanned_spec (slots : Nat → SlotState) (s : Store) :
    ScanOf slots (slotCount (s.file .index).size) (scanned slots s) := by
  rw [scanned]
  exact slotScan_spec _ _

theorem recovery_scanned (order : HashOrder) (config : HeapConfig) (image : Nat → UInt8)
    (slots : Nat → SlotState) (dataSize : Nat) (s : Store) :
    recovery order config image slots (s.file .index).size dataSize =
      recoveryFrom order config image slots dataSize (scanned slots s) := rfl

/-- Opening from a scan on, where the scan has split the records. -/
theorem recoveryFrom_of_caught {order : HashOrder} {config : HeapConfig} {image : Nat → UInt8}
    {slots : Nat → SlotState} {before tail : List Record} {cursor dataSize : Nat} {scan : SlotScan}
    (h : Caught config image slots before tail scan.maxEnd cursor dataSize scan.nextId) :
    recoveryFrom order config image slots dataSize scan =
      ⟨⟨cursor, nextAfter scan.nextId (continued scan.nextId tail)⟩,
        recovered slots (continued scan.nextId tail)⟩ := by
  cases scan
  exact h.recoveryFrom_eq order

/-- An append store: a chain of records in the data file, in which later
versions are greater, and an index whose slots name records of the chain. -/
structure Stored (config : HeapConfig) (log : List Record) (cursor : Nat)
    (slots : Nat → SlotState) (s : Store) : Prop where
  laid : Laid false log (s.file .data).bytes
  intact : ∀ r ∈ log, r.intact config.integrity = true
  ascending : Ascending log
  chain : Chain false PAGE cursor log
  inside : cursor ≤ (s.file .data).size
  data : (s.file .data).Whole
  index : (s.file .index).Whole
  slotted : SlotsAt slots (s.file .index).bytes
  named : ∀ id slot, (slots id).place = some slot → ∃ r ∈ log, r.header.id = id ∧ r.slot false = slot
  addressable : ∀ r ∈ log, Addressable r.header.id

namespace Stored

variable {config : HeapConfig} {log : List Record} {cursor : Nat} {slots : Nat → SlotState} {s : Store}

theorem data_range (h : Stored config log cursor slots s) : pageUp (s.file .data).size < 2 ^ 63 := by
  rw [pageUp_of_mod h.data.pages]
  exact h.data.range

theorem index_range (h : Stored config log cursor slots s) : pageUp (s.file .index).size < 2 ^ 63 := by
  rw [pageUp_of_mod h.index.pages]
  exact h.index.range

/-- The index file has no slots behind the whole ones. -/
theorem empty_past (h : Stored config log cursor slots s) {id : Nat}
    (hId : slotCount (s.file .index).size ≤ id) : slots id = .empty := by
  have hPages := h.index.pages
  have hPast : (s.file .index).size ≤ Slot.fileOffset id := by
    simp only [slotCount, SLOT_SIZE, Slot.fileOffset, PAGE] at *
    omega
  have hZero : Image.read (s.file .index).bytes (Slot.fileOffset id) SLOT_SIZE =
      Image.read (fun _ => 0) (Slot.fileOffset id) SLOT_SIZE :=
    Image.read_congr fun i hLo _ => (s.file .index).zero_past i (hPast.trans hLo)
  rw [← h.slotted id, hZero]
  exact SlotsAt.blank id

/-- The scanned slots split the records at the greatest record end that they name. -/
theorem split (h : Stored config log cursor slots s) :
    ∃ before tail, log = before ++ tail ∧
      Caught config (s.file .data).bytes slots before tail
        (scanned slots s).maxEnd cursor (s.file .data).size (scanned slots s).nextId := by
  have hScan := scanned_spec slots s
  generalize scanned slots s = scan at hScan ⊢
  obtain ⟨before, tail, hLog, hPrior, hTail⟩ : ∃ before tail, log = before ++ tail ∧
      (∀ r ∈ before, r.stop false ≤ scan.maxEnd) ∧ Chain false scan.maxEnd cursor tail := by
    rcases hScan.reached with hBase | ⟨id, slot, -, hPlace, hEnd⟩
    · exact ⟨[], log, rfl, by simp, by rw [hBase]; exact h.chain⟩
    · obtain ⟨r, hr, -, rfl⟩ := h.named id slot hPlace
      obtain ⟨a, b, rfl⟩ := List.append_of_mem hr
      have hSplit : a ++ r :: b = (a ++ [r]) ++ b := by simp
      obtain ⟨mid, hLeft, hRight⟩ := (hSplit ▸ h.chain).split
      have hMid := hLeft.stop_last
      have hStop : scan.maxEnd = r.stop false := hEnd
      refine ⟨a ++ [r], b, hSplit, fun x hx => ?_, ?_⟩
      · rw [hStop, ← hMid]
        exact (hLeft.bounds hx).2
      · rw [hStop, ← hMid]
        exact hRight
  have hCounted : ∀ id, slots id ≠ .empty → id < slotCount (s.file .index).size := fun id hUsed => by
    by_contra hPast
    exact hUsed (h.empty_past (Nat.not_lt.mp hPast))
  subst hLog
  refine ⟨before, tail, rfl, h.laid, h.intact, h.ascending, hPrior, hTail, h.inside, h.data_range, ?_, ?_,
    hScan.base⟩
  · intro id slot hPlace
    have hId := hCounted id fun hEmpty => by
      rw [hEmpty] at hPlace
      cases hPlace
    obtain ⟨-, hBound⟩ := hScan.bound id slot hId hPlace
    obtain ⟨r, hr, hSame, rfl⟩ := h.named id slot hPlace
    refine ⟨r, ?_, hSame, rfl⟩
    rcases List.mem_append.mp hr with hr | hr
    · exact hr
    · have hStart := (hTail.bounds hr).1
      have hLt := r.off_lt_stop false
      have hStop : r.stop false ≤ scan.maxEnd := hBound
      omega
  · intro id hUsed
    cases hState : slots id with
    | empty => exact absurd hState hUsed
    | live slot => exact (hScan.bound id slot (hCounted id hUsed) (by rw [hState]; rfl)).1
    | deleted slot => exact (hScan.bound id slot (hCounted id hUsed) (by rw [hState]; rfl)).1

end Stored

end AppendPlacement

end HeapStore
