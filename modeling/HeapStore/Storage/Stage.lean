import HeapStore.Storage.Flush

/-! Staging: a staged write changes the presented content exactly in its own
range, whether it grows an open staged write or starts a new one, and whether
or not it makes room by flushing first. -/
namespace HeapStore

open Effect StagedWrite

namespace StagedWrite

/-- A staged write with more bytes behind it. -/
def grown (w : StagedWrite) (bytes : Bytes) : StagedWrite := { w with buffer := w.buffer ++ bytes }

section Grown

variable {w : StagedWrite} {image : Nat → UInt8} (bytes : Bytes)

@[simp] theorem grown_start : (grown w bytes).start = w.start := rfl

@[simp] theorem grown_base : (grown w bytes).base = w.base := rfl

theorem grown_endOffset : (grown w bytes).endOffset = w.endOffset + bytes.length := by
  simp [grown, endOffset, base]
  omega

theorem Captured.grown_payload (h : Captured image w) :
    (grown w bytes).payload = w.payload ++ bytes := by
  have hBase := w.base_le_start
  have hNonempty := h.nonempty
  simp only [payload, grown, base, endOffset] at *
  exact List.drop_append_of_le_length (by omega)

theorem Captured.grown (h : Captured image w) : Captured image (grown w bytes) := by
  have hBase := w.base_le_start
  have hNonempty := h.nonempty
  have hLength : w.start - w.base ≤ w.buffer.length := by
    simp only [endOffset] at hNonempty
    omega
  refine ⟨?_, ?_, h.head⟩
  · rw [grown_endOffset, grown_start]
    omega
  · rw [grown_base, grown_start, ← h.old]
    exact List.take_append_of_le_length hLength

end Grown

end StagedWrite

namespace PagedFile

variable {n : FileName} {w : StagedWrite} {s t : Store} {e : Failure}

/-! Completed and failed flushes. -/

theorem lastPage_run {last : Nat} (hPlan : s.plan = []) (hRange : last + PAGE < 2 ^ 63) :
    ∃ page, lastPage n w last s = .ok page s := by
  rw [lastPage, bind_of_ok (getPaged_apply n s)]
  by_cases hHead : last = w.base ∧ w.head.isSome
  · exact ⟨_, by rw [if_pos hHead]; rfl⟩
  rw [if_neg hHead]
  cases hCache : (s.paged n).tailPages last with
  | some page => exact ⟨page, rfl⟩
  | none => exact ⟨_, readOne_run hPlan hRange⟩

theorem sealWrite_run (hPlan : s.plan = []) (hRange : w.stop < 2 ^ 63) :
    ∃ request t, sealWrite n w s = .ok request t ∧ t.plan = [] := by
  have hSuffix : ∃ suffix, suffixPage n w s = .ok suffix s := by
    unfold suffixPage
    by_cases hMod : w.endOffset % PAGE = 0
    · exact ⟨none, by simp [hMod]⟩
    · have hUp : w.stop = pageDown w.endOffset + PAGE := pageUp_eq_pageDown_add hMod
      obtain ⟨page, hPage⟩ := lastPage_run (n := n) (w := w) hPlan
        (show pageDown w.endOffset + PAGE < 2 ^ 63 by omega)
      refine ⟨some page, ?_⟩
      rw [if_pos hMod, bind_of_ok hPage]
      rfl
  obtain ⟨suffix, hSuffix⟩ := hSuffix
  refine ⟨(w.base, sealedBuffer w suffix),
    s.setPaged n ((s.paged n).retail w (sealedBuffer w suffix)), ?_, hPlan⟩
  rw [sealWrite, bind_of_ok hSuffix]
  rfl

theorem sealWrites_run {ws : List StagedWrite} (hPlan : s.plan = [])
    (hRange : ∀ w ∈ ws, w.stop < 2 ^ 63) :
    ∃ requests t, sealWrites n ws s = .ok requests t ∧ t.plan = [] := by
  induction ws generalizing s with
  | nil => exact ⟨[], s, rfl, hPlan⟩
  | cons w rest ih =>
      obtain ⟨request, u, hHead, hPlan'⟩ := sealWrite_run (n := n) hPlan
        (hRange w (List.mem_cons_self ..))
      obtain ⟨requests, v, hRest, hPlan''⟩ := ih hPlan' fun v hv =>
        hRange v (List.mem_cons_of_mem _ hv)
      exact ⟨request :: requests, v, by rw [sealWrites, bind_of_ok hHead, bind_of_ok hRest]; rfl, hPlan''⟩

theorem flush_of_staged_nil (h : (s.paged n).stagedWrites = []) : flush n s = .ok () s := by
  rw [flush, bind_of_ok (getPaged_apply n s), h]
  rfl

/-- With the schedule clear, a flush of in-range writes completes. -/
theorem flush_run (h : Coherent n s) (hPlan : s.plan = [])
    (hRange : ∀ w ∈ (s.paged n).stagedWrites, w.stop < 2 ^ 63) :
    ∃ t, flush n s = .ok () t := by
  rw [flush, bind_of_ok (getPaged_apply n s)]
  by_cases hEmpty : (s.paged n).stagedWrites = []
  · exact ⟨s, by simp [hEmpty]⟩
  simp only [List.isEmpty_iff, hEmpty, if_false]
  rw [bind_of_ok (modifyPaged_apply n _ s)]
  obtain ⟨requests, u, hSeal, hPlan'⟩ := sealWrites_run (n := n)
    (s := s.setPaged n { s.paged n with stagedWrites := [] }) hPlan hRange
  have hTails : TailsOf ((s.setPaged n { s.paged n with stagedWrites := [] }).paged n)
      (s.file n).bytes := by simpa [TailsOf] using h.tails
  obtain ⟨rfl, -, -⟩ := sealWrites_ok
    (s := s.setPaged n { s.paged n with stagedWrites := [] })
    h.captured h.apart rfl (fun _ _ _ _ _ => rfl) hTails hSeal
  rw [bind_of_ok hSeal, bind_of_ok (writeVec_run hPlan' ?_)]
  · exact ⟨_, rfl⟩
  · intro request hMem
    obtain ⟨w, hw, rfl⟩ := List.mem_map.mp hMem
    have hLt := (h.captured w hw).base_lt_stop
    have hStop := hRange w hw
    rw [block_fst, length_block]
    omega

theorem lastPage_error {last : Nat} (h : lastPage n w last s = .error e t) : e = .error .io := by
  rw [lastPage, bind_of_ok (getPaged_apply n s)] at h
  by_cases hHead : last = w.base ∧ w.head.isSome
  · rw [if_pos hHead] at h
    cases h
  rw [if_neg hHead] at h
  cases hCache : (s.paged n).tailPages last with
  | some page =>
      simp only [hCache] at h
      cases h
  | none =>
      simp only [hCache] at h
      exact (readOne_error h).1

theorem sealWrite_error {request : StagedWrite} (h : sealWrite n request s = .error e t) :
    e = .error .io := by
  rcases bind_eq_error.mp h with hSuffix | ⟨_, _, _, hRest⟩
  · unfold suffixPage at hSuffix
    split at hSuffix
    · rcases bind_eq_error.mp hSuffix with hPage | ⟨_, _, _, hPure⟩
      · exact lastPage_error hPage
      · cases hPure
    · cases hSuffix
  · cases hRest

theorem sealWrites_error {ws : List StagedWrite} (h : sealWrites n ws s = .error e t) :
    e = .error .io := by
  induction ws generalizing s with
  | nil => cases h
  | cons w rest ih =>
      rcases bind_eq_error.mp h with hHead | ⟨_, _, _, hRest⟩
      · exact sealWrite_error hHead
      rcases bind_eq_error.mp hRest with hTail | ⟨_, _, _, hPure⟩
      · exact ih hTail
      · cases hPure

theorem flush_error (h : flush n s = .error e t) : e = .error .io := by
  rw [flush, bind_of_ok (getPaged_apply n s)] at h
  by_cases hEmpty : (s.paged n).stagedWrites = []
  · simp only [hEmpty, List.isEmpty_nil, if_true] at h
    cases h
  simp only [List.isEmpty_iff, hEmpty, if_false] at h
  rw [bind_of_ok (modifyPaged_apply n _ s)] at h
  rcases bind_eq_error.mp h with hSeal | ⟨_, _, _, h⟩
  · exact sealWrites_error hSeal
  rcases bind_eq_error.mp h with hWrite | ⟨_, _, _, h⟩
  · exact writeVec_error hWrite
  · cases h

/-! The new or grown staged write. -/

/-- Where an open staged write is grown, the others keep clear of its new pages. -/
theorem openWrite?_some {pf : PagedFile} {off len i : Nat} (h : pf.openWrite? off len = some i) :
    ∃ before w after, pf.stagedWrites = before ++ w :: after ∧ i = before.length ∧
      w.endOffset = off ∧ ∀ v ∈ before ++ after,
        pageUp (off + len) ≤ v.base ∨ v.stop ≤ w.base := by
  unfold openWrite? at h
  split at h
  · cases h
  rename_i hFind
  obtain ⟨hLt, hEnd, -⟩ := List.findIdx?_eq_some_iff_getElem.mp hFind
  simp only [List.getElem?_eq_getElem hLt, Option.map_some, Option.getD_some] at h
  split at h
  · cases h
  rename_i hClear
  cases h
  refine ⟨pf.stagedWrites.take i, pf.stagedWrites[i], pf.stagedWrites.drop (i + 1), ?_, ?_,
    by simpa using hEnd, ?_⟩
  · simp
  · simp
    omega
  · intro v hv
    rw [List.eraseIdx_eq_take_drop_succ] at hClear
    have hNot : ¬ v.overlaps pf.stagedWrites[i].base (pageUp (off + len)) = true :=
      fun hOverlap => hClear (List.any_eq_true.mpr ⟨v, hv, hOverlap⟩)
    simp only [overlaps, Bool.and_eq_true, decide_eq_true_eq, not_and_or, Nat.not_lt] at hNot
    exact hNot

theorem modify_length_append {α : Type} (before after : List α) (a : α) (f : α → α) :
    (before ++ a :: after).modify before.length f = before ++ f a :: after := by
  rw [List.modify_eq_take_cons_drop (by simp)]
  simp

/-- The staged writes whose bytes are in range of the kernel's file offsets. -/
def InReach (n : FileName) (s : Store) : Prop := ∀ w ∈ (s.paged n).stagedWrites, w.stop < 2 ^ 63

/-- The staged writes whose pages end below a limit. -/
def StopsBelow (n : FileName) (limit : Nat) (s : Store) : Prop :=
  ∀ w ∈ (s.paged n).stagedWrites, w.stop < limit

/-- Staging flushes first: no open write takes the bytes, and the table is full
or another staged write shares one of the pages. -/
def stageFlushes (pf : PagedFile) (off len : Nat) : Bool :=
  (pf.openWrite? off len).isNone &&
    (decide (MAX_STAGED_WRITES ≤ pf.stagedWrites.length) ||
      pf.stagedWrites.any fun w => w.overlaps (pageDown off) (pageUp (off + len)))

end PagedFile

open PagedFile

/-- The state after the staged bytes were taken, without any flush. -/
structure Took (n : FileName) (off : Nat) (bytes : Bytes) (s t : Store) : Prop where
  frame : Frame n s t
  disk : t.disk = s.disk
  issued : t.issued = s.issued
  coherent : Coherent n t
  logical : t.logical n = Image.write (s.logical n) off bytes
  reach : ∀ {limit}, StopsBelow n limit s → pageUp (off + bytes.length) < limit → StopsBelow n limit t
  staged : (t.paged n).stagedWrites ≠ []

namespace PagedFile

variable {n : FileName} {w : StagedWrite} {s t : Store} {e : Failure} {off : Nat} {bytes : Bytes}

theorem Took_file (h : Took n off bytes s t) : t.file n = s.file n := by
  rw [Store.file, Store.file, h.disk]

theorem extendWrite_took (h : Coherent n s) {i : Nat}
    (hOpen : (s.paged n).openWrite? off bytes.length = some i) :
    Took n off bytes s (s.setPaged n ((s.paged n).extendWrite i bytes)) := by
  obtain ⟨before, w, after, hStaged, rfl, hEnd, hClear⟩ := openWrite?_some hOpen
  have hMem : w ∈ (s.paged n).stagedWrites := by simp [hStaged]
  have hCaptured := h.captured w hMem
  have hNonempty := hCaptured.nonempty
  have hPayload := hCaptured.length_payload
  have hNew : ((s.setPaged n ((s.paged n).extendWrite before.length bytes)).paged n).stagedWrites =
      before ++ grown w bytes :: after := by
    simp only [Store.setPaged_paged, Function.update_self, extendWrite, hStaged]
    exact modify_length_append before after w _
  have hApart := h.apart
  rw [hStaged, Store.PagewiseDisjoint, List.pairwise_append, List.pairwise_cons] at hApart
  obtain ⟨hBefore, ⟨hAfterW, hAfter⟩, hCross⟩ := hApart
  have hGrownEnd : (grown w bytes).stop = pageUp (off + bytes.length) := by
    rw [stop, grown_endOffset, hEnd]
  refine ⟨Frame.setPaged rfl, rfl, rfl, ⟨?_, ?_, ?_, ?_⟩, ?_, ?_, ?_⟩
  · rw [hNew, Store.PagewiseDisjoint, List.pairwise_append, List.pairwise_cons]
    refine ⟨hBefore, ⟨fun v hv => ?_, hAfter⟩, fun v hv u hu => ?_⟩
    · have := hClear v (List.mem_append_right _ hv)
      rw [Apart, hGrownEnd, grown_base]
      omega
    · rcases List.mem_cons.mp hu with rfl | hu
      · have := hClear v (List.mem_append_left _ hv)
        rw [Apart, hGrownEnd, grown_base]
        omega
      · exact hCross v hv u (List.mem_cons_of_mem _ hu)
  · rw [hNew]
    intro v hv
    rcases List.mem_append.mp hv with hv | hv
    · exact h.captured v (by simp [hStaged, hv])
    rcases List.mem_cons.mp hv with rfl | hv
    · exact hCaptured.grown bytes
    · exact h.captured v (by simp [hStaged, hv])
  · simpa [TailsOf, extendWrite] using h.tails
  · have hPending := h.pending
    rw [hNew, Store.setPaged_paged, Function.update_self, extendWrite, hPending, hStaged]
    simp [hCaptured.grown_payload bytes]
    omega
  · rw [Store.logical, hNew, Store.setPaged_file, Store.logical, hStaged, Store.overlay_append,
      Store.overlay_append, Store.overlay_cons, Store.overlay_cons, grown_start,
      hCaptured.grown_payload bytes, Image.write_append, hPayload, hEnd]
    apply Store.overlay_write_comm
    intro v hv
    have hV := h.captured v (by simp [hStaged, hv])
    have hVBase := v.base_le_start
    have hWBase := w.base_le_start
    have hWStop := w.endOffset_le_stop
    have hUp := le_pageUp (off + bytes.length)
    have hApartV := hAfterW v hv
    have hOpenV := hClear v (List.mem_append_right _ hv)
    have hVLt := hV.base_lt_stop
    rw [Apart] at hApartV
    omega
  · intro limit hReach hRange v hv
    rw [hNew] at hv
    rcases List.mem_append.mp hv with hv | hv
    · exact hReach v (by simp [hStaged, hv])
    rcases List.mem_cons.mp hv with rfl | hv
    · rw [hGrownEnd]
      exact hRange
    · exact hReach v (by simp [hStaged, hv])
  · rw [hNew]
    simp

theorem captureHead_ok {head : Option Bytes} (h : Coherent n s)
    (hRun : captureHead n off s = .ok head t) :
    head = (if off - pageDown off = 0 then none
      else some (Image.read (s.file n).bytes (pageDown off) PAGE)) ∧ Quiet s t := by
  rw [captureHead, bind_of_ok (getPaged_apply n s)] at hRun
  by_cases hPad : off - pageDown off = 0
  · simp only [hPad, if_true] at hRun ⊢
    cases hRun
    exact ⟨rfl, Quiet.refl _⟩
  simp only [hPad, if_false] at hRun ⊢
  cases hCache : (s.paged n).tailPages (pageDown off) with
  | some page =>
      simp only [hCache] at hRun
      cases hRun
      exact ⟨by rw [(h.tails _ _ hCache).2], Quiet.refl _⟩
  | none =>
      simp only [hCache] at hRun
      obtain ⟨page, u, hRead, hPure⟩ := bind_eq_ok.mp hRun
      cases hPure
      obtain ⟨rfl, rfl⟩ := readOne_ok hRead
      exact ⟨rfl, Quiet.tick s⟩

theorem captureHead_run (hPlan : s.plan = []) (hRange : pageUp off < 2 ^ 63) :
    ∃ head, captureHead n off s = .ok head s := by
  rw [captureHead, bind_of_ok (getPaged_apply n s)]
  by_cases hPad : off - pageDown off = 0
  · exact ⟨none, by simp only [hPad, if_true]; rfl⟩
  simp only [hPad, if_false]
  cases hCache : (s.paged n).tailPages (pageDown off) with
  | some page => exact ⟨some page, rfl⟩
  | none =>
      have hDown := pageDown_le off
      have hUp : pageUp off = pageDown off + PAGE := pageUp_eq_pageDown_add fun hMod =>
        hPad (by rw [pageDown_of_mod hMod]; omega)
      exact ⟨_, (bind_of_ok (readOne_run hPlan (by omega))).trans rfl⟩

theorem captureHead_error (h : captureHead n off s = .error e t) : e = .error .io := by
  rw [captureHead, bind_of_ok (getPaged_apply n s)] at h
  by_cases hPad : off - pageDown off = 0
  · simp only [hPad, if_true] at h
    cases h
  simp only [hPad, if_false] at h
  cases hCache : (s.paged n).tailPages (pageDown off) with
  | some page =>
      simp only [hCache] at h
      cases h
  | none =>
      simp only [hCache] at h
      rcases bind_eq_error.mp h with hRead | ⟨_, _, _, hPure⟩
      · exact (readOne_error hRead).1
      · cases hPure

/-- A new staged write, in pages that no other staged write uses. -/
theorem pushWrite_took (h : Coherent n s) (hSome : 0 < bytes.length)
    (hClear : ∀ v ∈ (s.paged n).stagedWrites,
      pageUp (off + bytes.length) ≤ v.base ∨ v.stop ≤ pageDown off)
    (hRun : pushWrite n off bytes s = .ok () t) : Took n off bytes s t := by
  obtain ⟨head, u, hHead, hRun⟩ := bind_eq_ok.mp hRun
  obtain ⟨rfl, hQuiet⟩ := captureHead_ok h hHead
  have hDown := pageDown_le off
  have hPage := lt_pageDown_add off
  have hUp := le_pageUp (off + bytes.length)
  have hFile : u.file n = s.file n := hQuiet.file n
  -- the kept bytes of the first page, in both forms of the captured head
  have hOld : ((if off - pageDown off = 0 then none
      else some (Image.read (s.file n).bytes (pageDown off) PAGE)).getD []).take
        (off - pageDown off) = Image.read (s.file n).bytes (pageDown off) (off - pageDown off) := by
    by_cases hPad : off - pageDown off = 0
    · simp [hPad]
    · rw [if_neg hPad, Option.getD_some, Image.take_read _ _ _ _ (by omega)]
  cases hRun
  rw [hOld]
  let new : StagedWrite := ⟨off, Image.read (s.file n).bytes (pageDown off) (off - pageDown off) ++ bytes,
    if off - pageDown off = 0 then none
    else some (Image.read (s.file n).bytes (pageDown off) PAGE)⟩
  have hEnd : new.endOffset = off + bytes.length := by
    simp only [new, endOffset, base, List.length_append, Image.length_read]
    omega
  have hStop : new.stop = pageUp (off + bytes.length) := by rw [stop, hEnd]
  have hPayload : new.payload = bytes := by
    simp only [new, payload, base]
    exact List.drop_left' (by simp)
  have hNew : Captured (s.file n).bytes new := by
    refine ⟨?_, ?_, rfl⟩
    · rw [hEnd]
      change off < off + bytes.length
      omega
    · change List.take (off - pageDown off) _ = _
      exact List.take_left' (by simp)
  change Took n off bytes s (u.setPaged n { u.paged n with
    pendingBytes := (u.paged n).pendingBytes + bytes.length
    stagedWrites := (u.paged n).stagedWrites ++ [new] })
  have hPaged := hQuiet.paged
  refine ⟨(hQuiet.frame n).trans (Frame.setPaged rfl), hQuiet.disk, hQuiet.issued,
    ⟨?_, ?_, ?_, ?_⟩, ?_, ?_, ?_⟩
  · simp only [Store.setPaged_paged, Function.update_self, hPaged, Store.PagewiseDisjoint,
      List.pairwise_append, List.pairwise_singleton, List.mem_singleton, forall_eq, true_and]
    refine ⟨h.apart, fun v hv => ?_⟩
    have := hClear v hv
    rw [Apart, hStop, show new.base = pageDown off from rfl]
    omega
  · simp only [Store.setPaged_paged, Function.update_self, hPaged, Store.setPaged_file, hFile,
      List.mem_append, List.mem_singleton]
    rintro v (hv | rfl)
    · exact h.captured v hv
    · exact hNew
  · simpa [TailsOf, hPaged, hFile] using h.tails
  · have hPending := h.pending
    simp [hPaged, hPending, hPayload]
  · simp only [Store.logical, Store.setPaged_paged, Function.update_self, hPaged,
      Store.setPaged_file, hFile, Store.overlay_append, Store.overlay_cons, Store.overlay_nil,
      hPayload]
    rfl
  · intro limit hReach hRange v hv
    simp only [Store.setPaged_paged, Function.update_self, hPaged, List.mem_append,
      List.mem_singleton] at hv
    rcases hv with hv | rfl
    · exact hReach v hv
    · rw [hStop]
      exact hRange
  · simp

theorem pushWrite_run (hPlan : s.plan = []) (hRange : pageUp (off + bytes.length) < 2 ^ 63) :
    ∃ t, pushWrite n off bytes s = .ok () t := by
  obtain ⟨head, hHead⟩ := captureHead_run (n := n) hPlan
    (Nat.lt_of_le_of_lt (pageUp_mono (Nat.le_add_right off bytes.length)) hRange)
  exact ⟨_, by rw [pushWrite, bind_of_ok hHead]; rfl⟩

theorem pushWrite_error (h : pushWrite n off bytes s = .error e t) : e = .error .io := by
  rcases bind_eq_error.mp h with hHead | ⟨_, _, _, hRest⟩
  · exact captureHead_error hHead
  · cases hRest

end PagedFile

/-- The state in which the staged bytes are taken: flushed first, or as it was. -/
inductive MadeRoom (n : FileName) (off len : Nat) (s mid : Store) : Prop where
  | kept (h : stageFlushes (s.paged n) off len = false) (same : mid = s)
  | flushed (h : stageFlushes (s.paged n) off len = true) (flush : Flushed n s mid)

namespace MadeRoom

variable {n : FileName} {off len : Nat} {s mid : Store}

theorem frame (h : MadeRoom n off len s mid) : Frame n s mid := by
  cases h with
  | kept _ same => exact same ▸ Frame.refl n s
  | flushed _ flush => exact flush.frame

theorem logical (h : MadeRoom n off len s mid) : mid.logical n = s.logical n := by
  cases h with
  | kept _ same => rw [same]
  | flushed _ flush => rw [Store.logical, flush.staged, Store.overlay_nil, flush.bytes]

theorem reach (h : MadeRoom n off len s mid) {limit : Nat} (hReach : StopsBelow n limit s) :
    StopsBelow n limit mid := by
  cases h with
  | kept _ same => exact same ▸ hReach
  | flushed _ flush => exact fun w hw => by simp [flush.staged] at hw

end MadeRoom

namespace PagedFile

variable {n : FileName} {s t : Store} {e : Failure} {off : Nat} {parts : List Bytes}

/-- What lies within the kernel's file offsets fits the checked sums. -/
theorem fits_of_pageUp {stop : Nat} (h : pageUp stop < 2 ^ 63) : stop + PAGE < 2 ^ 64 := by
  have hUp := le_pageUp stop
  rw [PAGE]
  omega

theorem overlaps_eq_false {w : StagedWrite} {lo hi : Nat} (h : ¬ w.overlaps lo hi = true) :
    hi ≤ w.base ∨ w.stop ≤ lo := by
  change hi ≤ w.base ∨ pageUp w.endOffset ≤ lo
  simpa only [overlaps, Bool.and_eq_true, decide_eq_true_eq, not_and_or, Nat.not_lt] using h

/-- A staged write takes its bytes after making room for them. -/
theorem stage_ok (h : Coherent n s) (hSome : 0 < parts.flatten.length)
    (hRun : stage n off parts s = .ok () t) :
    ∃ mid, MadeRoom n off parts.flatten.length s mid ∧ Took n off parts.flatten mid t := by
  rw [stage, bind_of_ok (getPaged_apply n s)] at hRun
  split at hRun
  · cases hRun
  cases hOpen : (s.paged n).openWrite? off parts.flatten.length with
  | some i =>
      simp only [hOpen] at hRun
      cases hRun
      exact ⟨s, .kept (by rw [stageFlushes, hOpen]; rfl) rfl, extendWrite_took h hOpen⟩
  | none =>
      simp only [hOpen] at hRun
      obtain ⟨_, u, hFull, hRun⟩ := bind_eq_ok.mp hRun
      obtain ⟨_, v, hOverlap, hPush⟩ := bind_eq_ok.mp hRun
      rw [flushFull, bind_of_ok (getPaged_apply n s)] at hFull
      rw [flushOverlapping] at hOverlap
      obtain ⟨stop, w, hStop, hClear⟩ := bind_eq_ok.mp hOverlap
      obtain ⟨rfl, rfl, -⟩ := pageUpU64_ok hStop
      rw [bind_of_ok (getPaged_apply n w)] at hClear
      by_cases hMany : MAX_STAGED_WRITES ≤ (s.paged n).stagedWrites.length
      · rw [if_pos hMany] at hFull
        have hFlushed := flush_ok h hFull
        simp only [hFlushed.staged, List.any_nil, Bool.false_eq_true, if_false] at hClear
        cases hClear
        have hNeeded : stageFlushes (s.paged n) off parts.flatten.length = true := by
          simp only [stageFlushes, hOpen, hMany, Option.isNone_none, decide_true, Bool.true_or,
            Bool.and_self]
        exact ⟨v, .flushed hNeeded hFlushed,
          pushWrite_took hFlushed.coherent hSome (by simp [hFlushed.staged]) hPush⟩
      rw [if_neg hMany] at hFull
      cases hFull
      by_cases hAny : ((s.paged n).stagedWrites.any fun w =>
          w.overlaps (pageDown off) (pageUp (off + parts.flatten.length))) = true
      · rw [if_pos hAny] at hClear
        have hFlushed := flush_ok h hClear
        have hNeeded : stageFlushes (s.paged n) off parts.flatten.length = true := by
          simp only [stageFlushes, hOpen, hAny, Option.isNone_none, Bool.or_true, Bool.and_self]
        exact ⟨v, .flushed hNeeded hFlushed,
          pushWrite_took hFlushed.coherent hSome (by simp [hFlushed.staged]) hPush⟩
      · rw [if_neg hAny] at hClear
        cases hClear
        have hNone : stageFlushes (s.paged n) off parts.flatten.length = false := by
          simp only [stageFlushes, hOpen, Bool.eq_false_iff.mpr hAny, hMany, decide_false,
            Bool.or_self, Bool.and_false]
        refine ⟨s, .kept hNone rfl, pushWrite_took h hSome (fun w hw => ?_) hPush⟩
        exact overlaps_eq_false fun hOne => hAny (List.any_eq_true.mpr ⟨w, hw, hOne⟩)

/-- An open staged write that is found ends where the new one starts. -/
theorem endsAt_of_openWrite {pf : PagedFile} {len i : Nat} (h : pf.openWrite? off len = some i) :
    pf.endsAt off = true := by
  unfold openWrite? at h
  split at h
  · cases h
  · rename_i hFound
    obtain ⟨hLt, hEnds, -⟩ := List.findIdx?_eq_some_iff_getElem.mp hFound
    exact List.any_eq_true.mpr ⟨_, List.getElem_mem hLt, hEnds⟩

/-- The new end of bytes that were staged could be rounded up. -/
theorem stage_fits (hRun : stage n off parts s = .ok () t) : off + parts.flatten.length + PAGE < 2 ^ 64 := by
  rw [stage, bind_of_ok (getPaged_apply n s)] at hRun
  split at hRun
  · cases hRun
  rename_i hSum
  cases hOpen : (s.paged n).openWrite? off parts.flatten.length with
  | some i => exact Nat.not_le.mp fun hOver => hSum ⟨endsAt_of_openWrite hOpen, hOver⟩
  | none =>
      simp only [hOpen] at hRun
      obtain ⟨_, u, -, hRest⟩ := bind_eq_ok.mp hRun
      obtain ⟨_, v, hOverlap, -⟩ := bind_eq_ok.mp hRest
      rw [flushOverlapping] at hOverlap
      obtain ⟨stop, w, hStop, -⟩ := bind_eq_ok.mp hOverlap
      exact (pageUpU64_ok hStop).2.2

/-- With the schedule clear, in-range bytes can be staged. -/
theorem stage_run (h : Coherent n s) (hPlan : s.plan = []) (hReach : InReach n s)
    (hRange : pageUp (off + parts.flatten.length) < 2 ^ 63) :
    ∃ t, stage n off parts s = .ok () t := by
  have hFits := fits_of_pageUp hRange
  rw [stage, bind_of_ok (getPaged_apply n s), if_neg fun h => absurd hFits (Nat.not_lt.mpr h.2)]
  cases hOpen : (s.paged n).openWrite? off parts.flatten.length with
  | some i => exact ⟨_, rfl⟩
  | none =>
      have hFull : ∃ u, flushFull n s = .ok () u ∧ Coherent n u ∧ u.plan = [] ∧ InReach n u := by
        rw [flushFull, bind_of_ok (getPaged_apply n s)]
        by_cases hMany : MAX_STAGED_WRITES ≤ (s.paged n).stagedWrites.length
        · obtain ⟨u, hFlush⟩ := flush_run h hPlan hReach
          have hFlushed := flush_ok h hFlush
          refine ⟨u, by rw [if_pos hMany, hFlush], hFlushed.coherent, hFlushed.frame.plan hPlan, ?_⟩
          exact fun w hw => by simp [hFlushed.staged] at hw
        · exact ⟨s, by rw [if_neg hMany]; rfl, h, hPlan, hReach⟩
      obtain ⟨u, hFull, hCoherent, hPlan', hReach'⟩ := hFull
      have hOverlap : ∃ v, flushOverlapping n off parts.flatten.length u = .ok () v ∧ v.plan = [] := by
        rw [flushOverlapping, bind_of_ok (pageUpU64_run hFits u), bind_of_ok (getPaged_apply n u)]
        split
        · obtain ⟨v, hFlush⟩ := flush_run hCoherent hPlan' hReach'
          exact ⟨v, hFlush, (flush_ok hCoherent hFlush).frame.plan hPlan'⟩
        · exact ⟨u, rfl, hPlan'⟩
      obtain ⟨v, hOverlap, hPlan''⟩ := hOverlap
      obtain ⟨t, hPush⟩ : ∃ t, pushWrite n off parts.flatten v = .ok () t :=
        pushWrite_run hPlan'' hRange
      exact ⟨t, by simp only [bind_of_ok hFull, bind_of_ok hOverlap, hPush]⟩

theorem flushFull_error (h : flushFull n s = .error e t) : e = .error .io := by
  rw [flushFull, bind_of_ok (getPaged_apply n s)] at h
  split at h
  · exact flush_error h
  · cases h

theorem flushOverlapping_error {len : Nat} (h : flushOverlapping n off len s = .error e t) :
    e = .error .io ∨ e = .panic "attempt to add with overflow" ∧ 2 ^ 64 ≤ off + len + PAGE := by
  rw [flushOverlapping] at h
  rcases bind_eq_error.mp h with hOver | ⟨stop, u, -, h⟩
  · obtain ⟨rfl, -, hSum⟩ := pageUpU64_error hOver
    exact Or.inr ⟨rfl, hSum⟩
  rw [bind_of_ok (getPaged_apply n u)] at h
  split at h
  · exact Or.inl (flush_error h)
  · cases h

/-- Staging fails in a flush or the read of a head page, or in the checked end. -/
theorem stage_error (h : stage n off parts s = .error e t) :
    e = .error .io ∨
      e = .panic "attempt to add with overflow" ∧ 2 ^ 64 ≤ off + parts.flatten.length + PAGE := by
  rw [stage, bind_of_ok (getPaged_apply n s)] at h
  split at h
  · rename_i hOver
    cases h
    exact Or.inr ⟨rfl, hOver.2⟩
  cases hOpen : (s.paged n).openWrite? off parts.flatten.length with
  | some i =>
      simp only [hOpen] at h
      cases h
  | none =>
      simp only [hOpen] at h
      rcases bind_eq_error.mp h with hFull | ⟨_, _, _, h⟩
      · exact Or.inl (flushFull_error hFull)
      rcases bind_eq_error.mp h with hOverlap | ⟨_, _, _, h⟩
      · exact flushOverlapping_error hOverlap
      · exact Or.inl (pushWrite_error h)

/-- An aligned read flushes, then returns the presented bytes of the rounded range. -/
theorem readAligned_ok {len : Nat} {buf : Bytes} {pos : Nat} (h : Coherent n s)
    (hRun : readAligned n off len s = .ok (buf, pos) t) :
    buf = Image.read (s.logical n) (pageDown off) (pageUp (off + len) - pageDown off) ∧
      pos = off - pageDown off ∧ Flushed n s t ∧ off + len + PAGE < 2 ^ 64 := by
  obtain ⟨_, u, hFlush, hRun⟩ := bind_eq_ok.mp hRun
  have hFlushed := flush_ok h hFlush
  obtain ⟨stop, w, hStop, hRest⟩ := bind_eq_ok.mp hRun
  obtain ⟨rfl, rfl, hFits⟩ := pageUpU64_ok hStop
  obtain ⟨buffer, v, hRead, hPure⟩ := bind_eq_ok.mp hRest
  cases hPure
  obtain ⟨rfl, rfl⟩ := readOne_ok hRead
  refine ⟨by rw [hFlushed.bytes], rfl, ?_, hFits⟩
  exact ⟨hFlushed.frame.trans (Frame.tick n w), hFlushed.staged, hFlushed.bytes,
    ⟨hFlushed.coherent.apart, hFlushed.coherent.captured, hFlushed.coherent.tails,
      hFlushed.coherent.pending⟩, hFlushed.issued, hFlushed.size, hFlushed.range⟩

theorem readAligned_run {len : Nat} (h : Coherent n s) (hPlan : s.plan = []) (hReach : InReach n s)
    (hRange : pageUp (off + len) < 2 ^ 63) :
    ∃ t, readAligned n off len s =
      .ok (Image.read (s.logical n) (pageDown off) (pageUp (off + len) - pageDown off),
        off - pageDown off) t := by
  obtain ⟨u, hFlush⟩ := flush_run h hPlan hReach
  have hFlushed := flush_ok h hFlush
  have hUp := le_pageUp (off + len)
  have hDown := pageDown_le off
  refine ⟨u, ?_⟩
  rw [readAligned, bind_of_ok hFlush, bind_of_ok (pageUpU64_run (fits_of_pageUp hRange) u)]
  rw [bind_of_ok (readOne_run (hFlushed.frame.plan hPlan) (by omega)), hFlushed.bytes]
  rfl

/-- An aligned read fails in its flush or its read, or in the checked sum. -/
theorem readAligned_error {len : Nat} (h : readAligned n off len s = .error e t) :
    e = .error .io ∨
      e = .panic "attempt to add with overflow" ∧ 2 ^ 64 ≤ off + len + PAGE := by
  rcases bind_eq_error.mp h with hFlush | ⟨_, u, _, h⟩
  · exact Or.inl (flush_error hFlush)
  rcases bind_eq_error.mp h with hSum | ⟨_, v, _, h⟩
  · obtain ⟨rfl, -, hOver⟩ := pageUpU64_error hSum
    exact Or.inr ⟨rfl, hOver⟩
  rcases bind_eq_error.mp h with hRead | ⟨_, _, _, hPure⟩
  · exact Or.inl (readOne_error hRead).1
  · cases hPure

end PagedFile

end HeapStore
