import HeapStore.Storage.IndexFile
import HeapStore.Storage.Space

/-! The index as a map from record numbers to slot states. -/
namespace HeapStore

open Effect PagedFile

namespace SlotState

/-- The place that a slot names, deleted or not. -/
def place : SlotState → Option Slot
  | .empty => none
  | .live slot => some slot
  | .deleted slot => some slot

end SlotState

/-- The image of an index file that holds these slot states. -/
def SlotsAt (slots : Nat → SlotState) (image : Nat → UInt8) : Prop :=
  ∀ id, Slot.state (Image.read image (Slot.fileOffset id) SLOT_SIZE) = slots id

theorem slot_apart {a b : Nat} (h : a ≠ b) :
    Slot.fileOffset a + SLOT_SIZE ≤ Slot.fileOffset b ∨
      Slot.fileOffset b + SLOT_SIZE ≤ Slot.fileOffset a := by
  simp only [Slot.fileOffset, SLOT_SIZE]
  omega

/-- Slots lie inside one page. -/
theorem slot_inside (id : Nat) :
    pageUp (Slot.fileOffset id + SLOT_SIZE) = pageDown (Slot.fileOffset id) + PAGE := by
  simp only [Slot.fileOffset, SLOT_SIZE, pageUp, pageDown, PAGE]
  omega

theorem SlotsAt.write {slots : Nat → SlotState} {image : Nat → UInt8} (h : SlotsAt slots image)
    (id : Nat) {bytes : Bytes} (hLength : bytes.length = SLOT_SIZE) :
    SlotsAt (Function.update slots id (Slot.state bytes))
      (Image.write image (Slot.fileOffset id) bytes) := by
  intro other
  by_cases hSame : other = id
  · subst hSame
    rw [← hLength, Image.read_write_same, Function.update_self]
  · rw [Function.update_of_ne hSame, Image.read_write_off _ _ (by
      rw [hLength]
      exact slot_apart hSame), h other]

/-- Slots that the file does not reach are empty. -/
theorem SlotsAt.blank : SlotsAt (fun _ => .empty) fun _ => 0 := by
  intro id
  have hZero : Image.read (fun _ => (0 : UInt8)) (Slot.fileOffset id) SLOT_SIZE =
      List.replicate SLOT_SIZE 0 := by
    apply List.ext_getElem (by simp)
    intro i hLeft hRight
    simp
  rw [hZero, Slot.state_replicate_zero]

/-- Only the bytes behind the header page hold slots. -/
theorem SlotsAt.congr {slots : Nat → SlotState} {a b : Nat → UInt8} (h : SlotsAt slots a)
    (hAgree : ∀ i, PAGE ≤ i → b i = a i) : SlotsAt slots b := by
  intro id
  rw [← h id]
  congr 1
  refine Image.read_congr fun i hLo _ => hAgree i ?_
  rw [Slot.fileOffset] at hLo
  omega

/-- Bytes are staged: some flush may make room, then they are taken. -/
structure Staged (n : FileName) (off : Nat) (bytes : Bytes) (s t : Store) : Prop where
  intro ::
  parts : ∃ mid, MadeRoom n off bytes.length s mid ∧ Took n off bytes mid t

namespace Staged

variable {n : FileName} {off : Nat} {bytes : Bytes} {s t : Store}

theorem frame (h : Staged n off bytes s t) : Frame n s t := by
  obtain ⟨mid, hRoom, hTook⟩ := h.parts
  exact hRoom.frame.trans hTook.frame

theorem coherent (h : Staged n off bytes s t) : Coherent n t := by
  obtain ⟨mid, -, hTook⟩ := h.parts
  exact hTook.coherent

theorem logical (h : Staged n off bytes s t) :
    t.logical n = Image.write (s.logical n) off bytes := by
  obtain ⟨mid, hRoom, hTook⟩ := h.parts
  rw [hTook.logical, hRoom.logical]

theorem reach (h : Staged n off bytes s t) {limit : Nat} (hReach : StopsBelow n limit s)
    (hRange : pageUp (off + bytes.length) < limit) : StopsBelow n limit t := by
  obtain ⟨mid, hRoom, hTook⟩ := h.parts
  exact hTook.reach (hRoom.reach hReach) hRange

theorem whole (h : Staged n off bytes s t) (hCoherent : Coherent n s) (hWhole : (s.file n).Whole) :
    (t.file n).Whole := by
  obtain ⟨mid, hRoom, hTook⟩ := h.parts
  rw [Took_file hTook]
  cases hRoom with
  | kept _ same => exact same ▸ hWhole
  | flushed _ flush => exact flush.whole hCoherent hWhole

theorem upkeep_data {off : Nat} {bytes : Bytes} {s t : Store} (h : Staged .data off bytes s t)
    (hCoherent : Coherent .data s) : Upkeep s t := by
  obtain ⟨mid, hRoom, hTook⟩ := h.parts
  refine Upkeep.trans ?_ (Upkeep.took_data hTook)
  cases hRoom with
  | kept _ same => exact same ▸ Upkeep.refl _
  | flushed _ flush => exact Upkeep.flushed_data flush hCoherent

/-- Bytes inside the reserved space. -/
theorem snug {off : Nat} {bytes : Bytes} {s t : Store} (h : Staged .data off bytes s t)
    (hCoherent : Coherent .data s) (hSnug : Snug s)
    (hInside : pageUp (off + bytes.length) ≤ (s.paged .data).allocatedEnd) : Snug t := by
  obtain ⟨mid, hRoom, hTook⟩ := h.parts
  have hMid : Snug mid := by
    cases hRoom with
    | kept _ same => exact same ▸ hSnug
    | flushed _ flush => exact hSnug.flushed flush hCoherent
  have hAllocated := hRoom.frame.allocated
  have hSame := hTook.frame.allocated
  constructor
  case size => rw [Took_file hTook, hMid.size, hSame]
  case inside =>
    have hStops := hTook.reach (fun w hw => Nat.lt_succ_of_le (hMid.inside w hw))
      (Nat.lt_succ_of_le (hInside.trans hAllocated.ge))
    exact fun w hw => hSame ▸ Nat.le_of_lt_succ (hStops w hw)

end Staged

theorem stage_staged {n : FileName} {off : Nat} {parts : List Bytes} {s t : Store}
    (h : Coherent n s) (hSome : 0 < parts.flatten.length)
    (hRun : stage n off parts s = .ok () t) : Staged n off parts.flatten s t :=
  ⟨stage_ok h hSome hRun⟩

namespace IndexFile

variable {id : Nat} {s t : Store} {slots : Nat → SlotState}

theorem slotOffset_ok {off : Nat} (h : slotOffset id s = .ok off t) :
    off = Slot.fileOffset id ∧ t = s ∧ Slot.fileOffset id < 2 ^ 64 := by
  unfold slotOffset addU64 at h
  split at h
  · cases h
  split at h
  · cases h
  rename_i hFits
  cases h
  exact ⟨rfl, rfl, Nat.not_le.mp hFits⟩

theorem slotOffset_error {e : Failure} (h : slotOffset id s = .error e t) :
    ∃ message, e = .panic message := by
  unfold slotOffset addU64 at h
  split at h
  · cases h
    exact ⟨_, rfl⟩
  · split at h
    · cases h
      exact ⟨_, rfl⟩
    · cases h

theorem slotOffset_run (h : Slot.fileOffset id < 2 ^ 64) :
    slotOffset id s = .ok (Slot.fileOffset id) s := by
  unfold slotOffset addU64
  rw [Slot.fileOffset] at h
  rw [if_neg (by omega), if_neg (Nat.not_le.mpr h)]
  rfl

theorem stageSlot_ok {slot : Slot} (h : Coherent .index s)
    (hRun : stageSlot id (some slot) s = .ok () t) :
    Staged .index (Slot.fileOffset id) slot.encode s t ∧ Slot.fileOffset id < 2 ^ 64 := by
  obtain ⟨off, u, hOff, hStage⟩ := bind_eq_ok.mp hRun
  obtain ⟨rfl, rfl, hFits⟩ := slotOffset_ok hOff
  have hStaged := stage_staged h (by simp [slotBytes, SLOT_SIZE]) hStage
  rw [List.flatten_singleton] at hStaged
  exact ⟨hStaged, hFits⟩

theorem stageTombstone_ok {slot : Slot} (h : Coherent .index s)
    (hRun : stageTombstone id slot s = .ok () t) :
    Staged .index (Slot.fileOffset id) slot.tombstone.encode s t ∧ Slot.fileOffset id < 2 ^ 64 := by
  obtain ⟨off, u, hOff, hStage⟩ := bind_eq_ok.mp hRun
  obtain ⟨rfl, rfl, hFits⟩ := slotOffset_ok hOff
  have hStaged := stage_staged h (by simp [SLOT_SIZE]) hStage
  rw [List.flatten_singleton] at hStaged
  exact ⟨hStaged, hFits⟩

/-- The slot of a number, as the index presents it. -/
theorem readSlotBytes_ok {bytes : Bytes} (h : Coherent .index s)
    (hRun : readSlotBytes id s = .ok bytes t) :
    bytes = Image.read (s.logical .index) (Slot.fileOffset id) SLOT_SIZE ∧ Flushed .index s t := by
  obtain ⟨off, u, hOff, hRest⟩ := bind_eq_ok.mp hRun
  obtain ⟨rfl, rfl, -⟩ := slotOffset_ok hOff
  obtain ⟨⟨buffer, bufferOffset⟩, v, hRead, hPure⟩ := bind_eq_ok.mp hRest
  cases hPure
  obtain ⟨rfl, rfl, hFlushed, -⟩ := readAligned_ok h hRead
  have hDown := pageDown_le (Slot.fileOffset id)
  have hUp := le_pageUp (Slot.fileOffset id + SLOT_SIZE)
  refine ⟨?_, hFlushed⟩
  rw [field_read _ _ _ (by omega), Nat.add_sub_cancel' hDown]

theorem readSlotState_ok {state : SlotState} (h : Coherent .index s)
    (hSlots : SlotsAt slots (s.logical .index)) (hRun : readSlotState id s = .ok state t) :
    state = slots id ∧ Flushed .index s t := by
  obtain ⟨bytes, u, hRead, hPure⟩ := bind_eq_ok.mp hRun
  cases hPure
  obtain ⟨rfl, hFlushed⟩ := readSlotBytes_ok h hRead
  exact ⟨hSlots id, hFlushed⟩

/-- The live slot of a state. -/
def liveOf : SlotState → Option Slot
  | .live slot => some slot
  | _ => none

theorem liveOf_eq_some {state : SlotState} {slot : Slot} : liveOf state = some slot ↔ state = .live slot := by
  cases state <;> simp [liveOf]

theorem decode_eq_liveOf (bytes : Bytes) : Slot.decode bytes = liveOf (Slot.state bytes) := by
  unfold Slot.decode liveOf
  cases Slot.state bytes <;> rfl

theorem readSlot_ok {slot : Option Slot} (h : Coherent .index s)
    (hSlots : SlotsAt slots (s.logical .index)) (hRun : readSlot id s = .ok slot t) :
    slot = liveOf (slots id) ∧ Flushed .index s t := by
  obtain ⟨bytes, u, hRead, hPure⟩ := bind_eq_ok.mp hRun
  cases hPure
  obtain ⟨rfl, hFlushed⟩ := readSlotBytes_ok h hRead
  exact ⟨by rw [decode_eq_liveOf, hSlots id], hFlushed⟩

/-- Numbers whose slots the kernel can address. -/
def Addressable (id : Nat) : Prop := pageUp (Slot.fileOffset id + SLOT_SIZE) < 2 ^ 63

theorem addressable_of_lt (h : id < 2 ^ 58) : Addressable id := by
  have hUp := pageUp_lt (Slot.fileOffset id + SLOT_SIZE)
  simp only [Addressable, Slot.fileOffset, SLOT_SIZE, PAGE] at *
  omega

theorem Addressable.fileOffset_lt (h : Addressable id) : Slot.fileOffset id < 2 ^ 64 := by
  have hUp := le_pageUp (Slot.fileOffset id + SLOT_SIZE)
  simp only [Addressable, SLOT_SIZE] at *
  omega

theorem readSlotBytes_run (h : Coherent .index s) (hPlan : s.plan = []) (hReach : InReach .index s)
    (hId : Addressable id) : ∃ bytes t, readSlotBytes id s = .ok bytes t := by
  obtain ⟨t, hRead⟩ := readAligned_run h hPlan hReach hId
  rw [readSlotBytes, bind_of_ok (slotOffset_run hId.fileOffset_lt), bind_of_ok hRead]
  exact ⟨_, t, rfl⟩

/-- Reading a slot fails in a block request or in checked arithmetic. -/
theorem readSlot_error {e : Failure} (hRun : readSlot id s = .error e t) :
    e = .error .io ∨ ∃ message, e = .panic message := by
  rcases bind_eq_error.mp hRun with hBytes | ⟨_, _, _, hPure⟩
  swap
  · cases hPure
  rcases bind_eq_error.mp hBytes with hOffset | ⟨_, _, _, hRest⟩
  · unfold slotOffset addU64 at hOffset
    split at hOffset
    · cases hOffset
      exact Or.inr ⟨_, rfl⟩
    · split at hOffset
      · cases hOffset
        exact Or.inr ⟨_, rfl⟩
      · cases hOffset
  · rcases bind_eq_error.mp hRest with hRead | ⟨_, _, _, hPure⟩
    · rcases readAligned_error hRead with hIo | ⟨hPanic, -⟩
      · exact Or.inl hIo
      · exact Or.inr ⟨_, hPanic⟩
    · cases hPure

theorem readSlot_run (h : Coherent .index s) (hPlan : s.plan = []) (hReach : InReach .index s)
    (hId : Addressable id) : ∃ slot t, readSlot id s = .ok slot t := by
  obtain ⟨bytes, t, hRead⟩ := readSlotBytes_run h hPlan hReach hId
  rw [readSlot, bind_of_ok hRead]
  exact ⟨_, t, rfl⟩

end IndexFile

end HeapStore
