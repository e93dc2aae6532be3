import HeapStore.Recovery.Restore
import HeapStore.Recovery.WalkScan
import HeapStore.Storage.RecordReads
import HeapStore.Storage.Slots

/-! Opening a store writes slots only. Here is the state that it works on, an
index over a data file at rest, and its decision about a found record. -/
namespace HeapStore

open Effect PagedFile IndexFile

/-- Opening clean files fails only in a block request, and not in a calm
schedule. It never reports corrupt metadata. -/
structure Refuses (calm clean : Prop) (e : Failure) : Prop where
  request : clean → ReadFailure calm e
  uncorrupt : ∀ what offset, e ≠ .error (.corrupt what offset)

theorem ReadFailure.refuses {calm clean : Prop} {e : Failure} (h : ReadFailure calm e) :
    Refuses calm clean e := ⟨fun _ => h, by
  obtain ⟨rfl, -⟩ := h
  nofun⟩

theorem Refuses.panic {calm clean : Prop} {message : String} (h : ¬ clean) :
    Refuses calm clean (.panic message) := ⟨fun hClean => absurd hClean h, nofun⟩

theorem Refuses.io {calm clean : Prop} (h : clean → ¬ calm) : Refuses calm clean (.error .io) :=
  ⟨fun hClean => ⟨rfl, h hClean⟩, nofun⟩

theorem not_refuses {e : Failure} : ¬ Refuses True True e := fun h => (h.request trivial).2 trivial

theorem size_meets {allowed : Failure → Prop} (n : FileName) (s : Store) :
    Meets allowed (fun size t => size = (s.file n).size ∧ t = s) (PagedFile.size n) s := ⟨rfl, rfl⟩

theorem attempt_of_ok {α : Type} {x : StoreM α} {s t : Store} {a : α} (h : x s = .ok a t) :
    attempt x s = .ok (some a) t := by rw [attempt, h]

theorem attempt_of_error {α : Type} {x : StoreM α} {s t : Store} {e : HeapError}
    (h : x s = .error (.error e) t) : attempt x s = .ok none t := by rw [attempt, h]

/-- What opening may do to a store: nothing but slots of the index are written. -/
structure IndexWork (s t : Store) : Prop where
  disk : ∀ m, m ≠ .index → t.disk m = s.disk m
  durable : ∀ m, m ≠ .index → t.durable m = s.durable m
  registry : t.paged .registry = s.paged .registry
  data : t.paged .data = s.paged .data
  plan : s.plan = [] → t.plan = []
  present : (s.disk .index).isSome → (t.disk .index).isSome
  coherent : Coherent .index s → Coherent .index t
  whole : Coherent .index s → (s.file .index).Whole → (t.file .index).Whole
  head : ∀ i, i < PAGE → t.logical .index i = s.logical .index i

namespace IndexWork

variable {s t u : Store}

theorem refl (s : Store) : IndexWork s s :=
  ⟨fun _ _ => rfl, fun _ _ => rfl, rfl, rfl, id, id, id, fun _ => id, fun _ _ => rfl⟩

theorem trans (h : IndexWork s t) (k : IndexWork t u) : IndexWork s u where
  disk m hm := (k.disk m hm).trans (h.disk m hm)
  durable m hm := (k.durable m hm).trans (h.durable m hm)
  registry := k.registry.trans h.registry
  data := k.data.trans h.data
  plan hPlan := k.plan (h.plan hPlan)
  present hSome := k.present (h.present hSome)
  coherent hCoherent := k.coherent (h.coherent hCoherent)
  whole hCoherent hWhole := k.whole (h.coherent hCoherent) (h.whole hCoherent hWhole)
  head i hi := (k.head i hi).trans (h.head i hi)

/-- The files and the index handle are as they were. -/
theorem of_same (hDisk : t.disk = s.disk) (hDurable : ∀ m, m ≠ .index → t.durable m = s.durable m)
    (hIndex : t.paged .index = s.paged .index) (hRegistry : t.paged .registry = s.paged .registry)
    (hData : t.paged .data = s.paged .data)
    (hPlan : s.plan = [] → t.plan = []) : IndexWork s t where
  disk m _ := by rw [hDisk]
  durable := hDurable
  registry := hRegistry
  data := hData
  plan := hPlan
  present hSome := by rwa [hDisk]
  coherent hCoherent := by
    have hFile : t.file .index = s.file .index := by rw [Store.file, Store.file, hDisk]
    refine ⟨hIndex ▸ hCoherent.apart, ?_, ?_, hIndex ▸ hCoherent.pending⟩
    · rw [hIndex, hFile]
      exact hCoherent.captured
    · rw [hIndex, hFile]
      exact hCoherent.tails
  whole _ hWhole := by rwa [Store.file, hDisk]
  head i _ := by rw [Store.logical, Store.logical, Store.file, Store.file, hDisk, hIndex]

theorem quiet (h : Quiet s t) : IndexWork s t :=
  of_same h.disk (fun _ _ => by rw [h.durable]) (by rw [h.paged]) (by rw [h.paged]) (by rw [h.paged]) h.plan

theorem synced (h : Synced .index s t) : IndexWork s t :=
  of_same h.disk (fun m hm => by rw [h.durable, Function.update_of_ne hm]) (by rw [h.paged])
    (by rw [h.paged]) (by rw [h.paged]) h.plan

theorem of_frame (hFrame : Frame .index s t) (hCoherent : Coherent .index t)
    (hWhole : Coherent .index s → (s.file .index).Whole → (t.file .index).Whole)
    (hHead : ∀ i, i < PAGE → t.logical .index i = s.logical .index i) : IndexWork s t where
  disk := hFrame.disk
  durable _ _ := by rw [hFrame.durable]
  registry := hFrame.paged .registry (by decide)
  data := hFrame.paged .data (by decide)
  plan := hFrame.plan
  present := hFrame.present
  coherent _ := hCoherent
  whole := hWhole
  head := hHead

theorem staged {id : Nat} {bytes : Bytes} (h : Staged .index (Slot.fileOffset id) bytes s t) :
    IndexWork s t :=
  of_frame h.frame h.coherent h.whole fun i hi => by
    rw [h.logical]
    exact Image.write_apply_lt _ _ (hi.trans_le (Nat.le_add_right PAGE _))

theorem flushed (h : Flushed .index s t) : IndexWork s t :=
  of_frame h.frame h.coherent h.whole fun i _ => by rw [h.logical]

theorem file (h : IndexWork s t) {m : FileName} (hm : m ≠ .index) : t.file m = s.file m := by
  rw [Store.file, Store.file, h.disk m hm]

/-- The data handle takes note of reserved space. -/
def noted (s : Store) (upto : Nat) : Store :=
  s.setPaged .data { s.paged .data with allocatedEnd := max (s.paged .data).allocatedEnd upto }

theorem coherent_noted {upto : Nat} : Coherent .index (noted s upto) ↔ Coherent .index s :=
  ⟨fun h => ⟨h.apart, h.captured, h.tails, h.pending⟩,
    fun h => ⟨h.apart, h.captured, h.tails, h.pending⟩⟩

/-- Work on the index does not depend on when the space is noted. -/
theorem noted_noted (h : IndexWork s t) (upto : Nat) : IndexWork (noted s upto) (noted t upto) where
  disk := h.disk
  durable := h.durable
  registry := h.registry
  data := by
    simp only [noted, Store.setPaged_paged, Function.update_self]
    rw [h.data]
  plan := h.plan
  present := h.present
  coherent hCoherent := coherent_noted.mpr (h.coherent (coherent_noted.mp hCoherent))
  whole hCoherent hWhole := h.whole (coherent_noted.mp hCoherent) hWhole
  head := h.head

end IndexWork

/-- The files that opening works on: a data file at rest with this content, and
an index that presents these slots. -/
structure Holding (calm clean : Prop) (image : Nat → UInt8) (slots : Nat → SlotState) (s : Store) :
    Prop where
  settled : Settled calm image s
  coherent : Coherent .index s
  slots : SlotsAt slots (s.logical .index)
  reach : clean → InReach .index s

namespace Holding

variable {calm clean : Prop} {image : Nat → UInt8} {slots : Nat → SlotState} {s t : Store}

theorem settled_work (h : Settled calm image s) (hWork : IndexWork s t) : Settled calm image t where
  staged := by rw [hWork.data, h.staged]
  bytes := by rw [hWork.file (by decide), h.bytes]
  plan hCalm := hWork.plan (h.plan hCalm)

/-- The index presents what it did. -/
theorem work (h : Holding calm clean image slots s) (hWork : IndexWork s t)
    (hLogical : t.logical .index = s.logical .index) (hReach : InReach .index s → InReach .index t) :
    Holding calm clean image slots t where
  settled := settled_work h.settled hWork
  coherent := hWork.coherent h.coherent
  slots := by
    rw [hLogical]
    exact h.slots
  reach hClean := hReach (h.reach hClean)

theorem quiet (h : Holding calm clean image slots s) (hQuiet : Quiet s t) :
    Holding calm clean image slots t :=
  h.work (.quiet hQuiet) (hQuiet.logical _) fun hReach => by rwa [InReach, hQuiet.paged]

theorem flushed (h : Holding calm clean image slots s) (hFlushed : Flushed .index s t) :
    Holding calm clean image slots t :=
  h.work (.flushed hFlushed) hFlushed.logical fun _ => hFlushed.reach

theorem synced (h : Holding calm clean image slots s) (hSynced : Synced .index s t) :
    Holding calm clean image slots t :=
  h.work (.synced hSynced)
    (by rw [Store.logical, Store.logical, Store.file, Store.file, hSynced.disk, hSynced.paged])
    fun hReach => by rwa [InReach, hSynced.paged]

theorem noted (h : Holding calm clean image slots s) (upto : Nat) :
    Holding calm clean image slots (IndexWork.noted s upto) :=
  ⟨⟨h.settled.staged, h.settled.bytes, h.settled.plan⟩,
    IndexWork.coherent_noted.mpr h.coherent, h.slots, h.reach⟩

/-- A slot is staged for a number that the kernel can address. -/
theorem stageSlot_meets {id : Nat} {slot : Slot} (h : Holding calm clean image slots s)
    (hId : clean → Addressable id) :
    Meets (Refuses calm clean) (fun _ t =>
      Holding calm clean image (Function.update slots id (Slot.state slot.encode)) t ∧ IndexWork s t)
      (stageSlot id (some slot)) s := by
  rw [meets_iff]
  constructor
  · intro _ t hRun
    have hStaged := (stageSlot_ok h.coherent hRun).1
    refine ⟨⟨settled_work h.settled (.staged hStaged), hStaged.coherent, ?_, fun hClean => ?_⟩,
      IndexWork.staged hStaged⟩
    · rw [hStaged.logical]
      exact h.slots.write id (Slot.length_encode slot)
    · refine hStaged.reach (h.reach hClean) ?_
      rw [Slot.length_encode]
      exact hId hClean
  · intro e t hRun
    rcases bind_eq_error.mp hRun with hOffset | ⟨off, u, hOffset, hStage⟩
    · obtain ⟨message, rfl⟩ := slotOffset_error hOffset
      refine Refuses.panic fun hClean => ?_
      rw [slotOffset_run (hId hClean).fileOffset_lt] at hOffset
      cases hOffset
    obtain ⟨rfl, rfl, -⟩ := slotOffset_ok hOffset
    have hLength : [slotBytes (some slot)].flatten.length = SLOT_SIZE := by
      simp [slotBytes]
    have hRange (hClean : clean) :
        pageUp (Slot.fileOffset id + [slotBytes (some slot)].flatten.length) < 2 ^ 63 := by
      rw [hLength]
      exact hId hClean
    rcases stage_error hStage with rfl | ⟨rfl, hOver⟩
    · refine Refuses.io fun hClean hCalm => ?_
      obtain ⟨t, hDone⟩ :=
        stage_run h.coherent (h.settled.plan hCalm) (h.reach hClean) (hRange hClean)
      rw [hDone] at hStage
      cases hStage
    · exact Refuses.panic fun hClean => absurd (fits_of_pageUp (hRange hClean)) (Nat.not_lt.mpr hOver)

/-- The state of a slot that is read. -/
theorem readSlotState_meets {id : Nat} (h : Holding calm clean image slots s)
    (hId : clean → Addressable id) :
    Meets (Refuses calm clean) (fun state t => state = slots id ∧ Flushed .index s t)
      (readSlotState id) s := by
  refine meets_iff.mpr ⟨fun state t hRun => readSlotState_ok h.coherent h.slots hRun,
    fun e t hRun => ?_⟩
  rcases bind_eq_error.mp hRun with hBytes | ⟨_, _, _, hPure⟩
  swap
  · cases hPure
  rcases bind_eq_error.mp hBytes with hOffset | ⟨off, u, hOffset, hRest⟩
  · obtain ⟨message, rfl⟩ := slotOffset_error hOffset
    refine Refuses.panic fun hClean => ?_
    rw [slotOffset_run (hId hClean).fileOffset_lt] at hOffset
    cases hOffset
  obtain ⟨rfl, rfl, -⟩ := slotOffset_ok hOffset
  rcases bind_eq_error.mp hRest with hRead | ⟨_, _, _, hPure⟩
  swap
  · cases hPure
  rcases readAligned_error hRead with rfl | ⟨rfl, hOver⟩
  · refine Refuses.io fun hClean hCalm => ?_
    obtain ⟨bytes, v, hDone⟩ := readSlotBytes_run h.coherent (h.settled.plan hCalm)
      (h.reach hClean) (hId hClean)
    rw [hDone] at hBytes
    cases hBytes
  · exact Refuses.panic fun hClean => absurd (fits_of_pageUp (hId hClean)) (Nat.not_lt.mpr hOver)

theorem live_offset {id : Nat} {slot : Slot} (h : Holding calm clean image slots s)
    (hLive : slots id = .live slot) : slot.offset < 2 ^ 63 :=
  (Slot.offset_of_live ((h.slots id).trans hLive)).2.1

end Holding

namespace DataFile

variable {d : DataFile} {calm clean : Prop} {image : Nat → UInt8} {slots : Nat → SlotState}
  {s : Store} {offset id : Nat}

/-- The header that a slot of this number leads to, if any. -/
def headerAtSlot (d : DataFile) (image : Nat → UInt8) (offset id : Nat) : Option RecordHeader :=
  if pageUp (offset + d.recordHeaderLen) < 2 ^ 63 then
    (RecordHeader.decode (Image.read image offset d.recordHeaderLen) d.withBucket).filter
      fun header => decide (header.id = id)
  else none

/-- Reading a header that is possibly none, errors being of no interest. -/
theorem attempt_readHeader_meets (h : Settled calm image s) (hOffset : offset < 2 ^ 63) :
    Meets (Refuses calm clean) (fun existing t => Quiet s t ∧
      (calm → existing = d.headerAtSlot image offset id)) (attempt (d.readHeader offset id)) s := by
  have hSum : offset + d.recordHeaderLen + PAGE < 2 ^ 64 := by
    have hLen := headerLen_le d.withBucket
    rw [recordHeaderLen, PAGE]
    omega
  have hFlush : PagedFile.flush .data s = .ok () s := flush_of_staged_nil h.staged
  have hFits : Readable (calm ∧ pageUp (offset + d.recordHeaderLen) < 2 ^ 63)
      (offset + d.recordHeaderLen) := ⟨hSum, fun hCalm => hCalm.2⟩
  have hRead := readAligned_meets h.staged (fun hCalm => h.plan hCalm.1) hFits
  cases hRun : d.readHeader offset id s with
  | ok header t =>
      refine Meets.of_ok (attempt_of_ok hRun) ?_
      obtain ⟨⟨buffer, bufferOffset⟩, u, hBuffer, hRest⟩ := bind_eq_ok.mp hRun
      obtain ⟨hOut, hQuiet⟩ := hRead.ok hBuffer
      cases hOut
      simp only [decode_drop _ _ (Nat.le_refl _), recordHeaderLen, h.bytes] at hRest
      cases hDecode : RecordHeader.decode (Image.read image offset (headerLen d.withBucket))
          d.withBucket with
      | none =>
          rw [hDecode] at hRest
          cases hRest
      | some found =>
          rw [hDecode] at hRest
          simp only at hRest
          split at hRest
          · cases hRest
          rename_i hSame
          cases hRest
          refine ⟨hQuiet, fun hCalm => ?_⟩
          have hRange : pageUp (offset + d.recordHeaderLen) < 2 ^ 63 := by
            by_contra hFar
            rw [readAligned, bind_of_ok hFlush, bind_of_ok (pageUpU64_run hSum s)] at hBuffer
            obtain ⟨_, _, hOne, -⟩ := bind_eq_ok.mp hBuffer
            obtain ⟨_, _, hVec, -⟩ := bind_eq_ok.mp hOne
            have hDown := pageDown_le offset
            have hLe := (Nat.le_add_right offset d.recordHeaderLen).trans
              (le_pageUp (offset + d.recordHeaderLen))
            rw [readVec, Store.outcome_of_plan s (h.plan hCalm)] at hVec
            simp only [List.all_cons, List.all_nil, Bool.and_true] at hVec
            have hSome : 0 < d.recordHeaderLen := by
              rw [recordHeaderLen]
              cases d.withBucket <;> decide
            rw [if_neg (by rw [servable_iff]; omega)] at hVec
            cases hVec
          rw [headerAtSlot, if_pos hRange, recordHeaderLen, hDecode]
          simp only [Option.filter, not_not.mp hSame, decide_true, if_true]
  | error e t =>
      rcases bind_eq_error.mp hRun with hBuffer | ⟨⟨buffer, bufferOffset⟩, u, hBuffer, hRest⟩
      · obtain ⟨hIo, hFar⟩ := hRead.failsOnly e t hBuffer
        obtain rfl : e = .error .io := hIo
        refine Meets.of_ok (attempt_of_error hRun) ⟨?_, fun hCalm => ?_⟩
        · rw [readAligned, bind_of_ok hFlush, bind_of_ok (pageUpU64_run hSum s)] at hBuffer
          rcases bind_eq_error.mp hBuffer with hOne | ⟨_, _, _, hPure⟩
          · rw [(readOne_error hOne).2]
            exact Quiet.tick s
          · cases hPure
        · rw [headerAtSlot, if_neg fun hRange => hFar ⟨hCalm, hRange⟩]
      · obtain ⟨hOut, hQuiet⟩ := hRead.ok hBuffer
        cases hOut
        simp only [decode_drop _ _ (Nat.le_refl _), recordHeaderLen, h.bytes] at hRest
        have hNone : d.headerAtSlot image offset id = none := by
          rw [headerAtSlot]
          split
          · rw [recordHeaderLen]
            cases hDecode : RecordHeader.decode (Image.read image offset (headerLen d.withBucket))
                d.withBucket with
            | none => rfl
            | some found =>
                rw [hDecode] at hRest
                simp only at hRest
                split at hRest
                · rename_i hOther
                  simp only [Option.filter, decide_eq_false hOther, Bool.false_eq_true, if_false]
                · cases hRest
          · rfl
        cases hDecode : RecordHeader.decode (Image.read image offset (headerLen d.withBucket))
            d.withBucket with
        | none =>
            rw [hDecode] at hRest
            cases hRest
            exact Meets.of_ok (attempt_of_error hRun) ⟨hQuiet, fun _ => hNone.symm⟩
        | some found =>
            rw [hDecode] at hRest
            simp only at hRest
            split at hRest
            · cases hRest
              exact Meets.of_ok (attempt_of_error hRun) ⟨hQuiet, fun _ => hNone.symm⟩
            · cases hRest

/-- Whether a found record takes the place of what its number has. -/
def wins (d : DataFile) (image : Nat → UInt8) (f : FoundRecord) : SlotState → Bool
  | .deleted _ => false
  | .live slot =>
      if slot.offset = f.offset then false
      else match d.headerAtSlot image slot.offset f.id with
        | some header => decide (header.version < f.version)
        | none => true
  | .empty => true

theorem supersedes_meets (d : DataFile) (clean : Prop) (f : FoundRecord) {state : SlotState}
    (h : Settled calm image s)
    (hState : ∀ slot, state = .live slot → slot.offset < 2 ^ 63) :
    Meets (Refuses calm clean) (fun newer t => Quiet s t ∧ (calm → newer = d.wins image f state))
      (supersedes d f state) s := by
  cases state with
  | deleted slot => exact Meets.pure ⟨Quiet.refl s, fun _ => rfl⟩
  | empty => exact Meets.pure ⟨Quiet.refl s, fun _ => rfl⟩
  | live slot =>
      rw [supersedes, wins]
      split
      · exact Meets.pure ⟨Quiet.refl s, fun _ => rfl⟩
      refine Meets.bind (attempt_readHeader_meets h (hState slot rfl)) ?_
      rintro existing t ⟨hQuiet, hExisting⟩
      cases existing with
      | some header => exact Meets.pure ⟨hQuiet, fun hCalm => by rw [← hExisting hCalm]⟩
      | none => exact Meets.pure ⟨hQuiet, fun hCalm => by rw [← hExisting hCalm]⟩

end DataFile

/-- The restored slots are made durable, if there are any. -/
theorem publishRestored_meets {calm clean : Prop} {image : Nat → UInt8} {slots : Nat → SlotState}
    {s : Store} (h : Holding calm clean image slots s) (restored : Nat) :
    Meets (Refuses calm clean) (fun _ t => Holding calm clean image slots t ∧ IndexWork s t)
      (publishRestored restored) s := by
  unfold publishRestored
  split
  swap
  · exact Meets.pure ⟨h, .refl s⟩
  have hFlush : Meets (Refuses calm clean) (fun _ u => Flushed .index s u)
      (PagedFile.flush .index) s := meets_iff.mpr ⟨fun _ u hRun => flush_ok h.coherent hRun,
    fun e t hRun => by
      obtain rfl : e = .error .io := flush_error hRun
      refine Refuses.io fun hClean hCalm => ?_
      obtain ⟨u, hDone⟩ := flush_run h.coherent (h.settled.plan hCalm) (h.reach hClean)
      rw [hDone] at hRun
      cases hRun⟩
  refine hFlush.bind fun _ u hFlushed => ?_
  refine meets_iff.mpr ⟨fun _ t hRun => ?_, fun e t hRun => ?_⟩
  · have hSynced := sync_synced hRun
    exact ⟨(h.flushed hFlushed).synced hSynced, (IndexWork.flushed hFlushed).trans (.synced hSynced)⟩
  · obtain rfl : e = .error .io := sync_error hRun
    refine Refuses.io fun _ hCalm => ?_
    rw [sync_run (hFlushed.frame.plan (h.settled.plan hCalm))] at hRun
    cases hRun

end HeapStore
