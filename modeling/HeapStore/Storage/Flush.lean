import HeapStore.Storage.Overlay

/-! A flush turns every staged write into one request over whole pages, and
leaves the file with the content that the handle presented before. -/
namespace HeapStore

open Effect StagedWrite

/-- Reads change nothing but the schedule. -/
structure Quiet (s t : Store) : Prop where
  disk : t.disk = s.disk
  durable : t.durable = s.durable
  paged : t.paged = s.paged
  issued : t.issued = s.issued
  plan : s.plan = [] → t.plan = []

namespace Quiet

variable {s t u : Store}

theorem refl (s : Store) : Quiet s s := ⟨rfl, rfl, rfl, rfl, id⟩

theorem tick (s : Store) : Quiet s s.tick := ⟨rfl, rfl, rfl, rfl, fun h => by simp [h]⟩

theorem trans (h : Quiet s t) (k : Quiet t u) : Quiet s u :=
  ⟨k.disk.trans h.disk, k.durable.trans h.durable, k.paged.trans h.paged,
    k.issued.trans h.issued, k.plan ∘ h.plan⟩

theorem file (h : Quiet s t) (n : FileName) : t.file n = s.file n := by
  rw [Store.file, Store.file, h.disk]

theorem logical (h : Quiet s t) (n : FileName) : t.logical n = s.logical n := by
  rw [Store.logical, Store.logical, h.file, h.paged]

theorem frame (h : Quiet s t) (n : FileName) : Frame n s t :=
  ⟨fun _ _ => by rw [h.disk], fun _ _ => by rw [h.paged], h.durable, h.plan,
    fun hSome => by rwa [h.disk], by rw [h.paged]⟩

end Quiet

/-- Cached tail pages are copies of the pages of an image. -/
def TailsOf (pf : PagedFile) (image : Nat → UInt8) : Prop :=
  ∀ p page, pf.tailPages p = some page → p % PAGE = 0 ∧ page = Image.read image p PAGE

/-- The page request that a staged write becomes. -/
def block (image : Nat → UInt8) (w : StagedWrite) : Nat × Bytes :=
  (w.base, Image.read (Image.write image w.start w.payload) w.base (w.stop - w.base))

@[simp] theorem block_fst (image : Nat → UInt8) (w : StagedWrite) : (block image w).1 = w.base := rfl

@[simp] theorem length_block (image : Nat → UInt8) (w : StagedWrite) :
    (block image w).2.length = w.stop - w.base := by simp [block]

namespace PagedFile

variable {n : FileName} {image : Nat → UInt8} {w : StagedWrite} {s t : Store}

/-- The old bytes that complete a write ending inside a page. -/
def suffixOf (image : Nat → UInt8) (w : StagedWrite) : Option Bytes :=
  if w.endOffset % PAGE ≠ 0 then some (Image.read image (pageDown w.endOffset) PAGE) else none

theorem resizeZeroed_of_le {buffer : Bytes} {len : Nat} (h : buffer.length ≤ len) :
    resizeZeroed buffer len = buffer ++ List.replicate (len - buffer.length) 0 := by
  rw [resizeZeroed, List.take_of_length_le h]

/-- The block splits into the old head bytes, the payload and the old suffix bytes. -/
theorem block_eq (h : Captured image w) :
    (block image w).2 = w.buffer ++ Image.read image w.endOffset (w.stop - w.endOffset) := by
  have hBase := w.base_le_start
  have hNonempty := h.nonempty
  have hStop := w.endOffset_le_stop
  have hPayload := h.length_payload
  have hSplit : w.stop - w.base =
      (w.start - w.base) + (w.payload.length + (w.stop - w.endOffset)) := by omega
  rw [block, hSplit, Image.read_add, Image.read_add, show w.base + (w.start - w.base) = w.start by omega,
    Image.read_write_same, hPayload, Image.read_write_off _ _ (by omega),
    Image.read_write_off _ _ (by omega), ← List.append_assoc, ← h.buffer_eq]

theorem sealedBuffer_eq (h : Captured image w) :
    sealedBuffer w (suffixOf image w) = (block image w).2 := by
  have hBase := w.base_le_start
  have hNonempty := h.nonempty
  have hStop := w.endOffset_le_stop
  have hLength : w.buffer.length = w.endOffset - w.base := by simp [endOffset]
  have hGrow : w.buffer.length ≤ w.stop - w.base := by omega
  unfold sealedBuffer suffixOf
  rw [block_eq h, show pageUp w.endOffset = w.stop from rfl, resizeZeroed_of_le hGrow]
  by_cases hMod : w.endOffset % PAGE = 0
  · have hEnd : w.stop = w.endOffset := pageUp_of_mod hMod
    simp [hMod, hEnd, hLength]
  · have hUp : w.stop = pageDown w.endOffset + PAGE := pageUp_eq_pageDown_add hMod
    have hDown := pageDown_le w.endOffset
    have hLast : w.base ≤ pageDown w.endOffset := le_pageDown_of_mod w.base_mod (by omega)
    simp only [hMod, ne_eq, not_false_eq_true, if_true]
    rw [List.take_left' (by omega), Image.drop_read _ _ _ _ (by omega), List.drop_eq_nil_of_le,
      List.append_nil, show pageDown w.endOffset + (w.endOffset - pageDown w.endOffset) = w.endOffset by omega,
      show PAGE - (w.endOffset - pageDown w.endOffset) = w.stop - w.endOffset by omega]
    simp only [List.length_append, List.length_replicate]
    omega

theorem lastPage_ok {last : Nat} {page : Bytes} (h : Captured image w)
    (hImage : (s.file n).bytes = image) (hTail : ∀ page, (s.paged n).tailPages last = some page →
      page = Image.read image last PAGE)
    (hRun : lastPage n w last s = .ok page t) :
    page = Image.read image last PAGE ∧ Quiet s t := by
  obtain ⟨pf, u, hGet, hRun⟩ := bind_eq_ok.mp hRun
  cases hGet
  by_cases hHead : last = w.base ∧ w.head.isSome
  · rw [if_pos hHead] at hRun
    cases hRun
    have hPad : w.start - w.base ≠ 0 := fun hZero => by simp [h.head, hZero] at hHead
    refine ⟨?_, Quiet.refl s⟩
    rw [h.head, if_neg hPad, hHead.1]
    rfl
  rw [if_neg hHead] at hRun
  cases hCache : (s.paged n).tailPages last with
  | some cached =>
      simp only [hCache] at hRun
      cases hRun
      exact ⟨hTail _ hCache, Quiet.refl s⟩
  | none =>
      simp only [hCache] at hRun
      obtain ⟨rfl, rfl⟩ := readOne_ok hRun
      exact ⟨by rw [hImage], Quiet.tick s⟩

theorem suffixPage_ok {suffix : Option Bytes} (h : Captured image w)
    (hImage : (s.file n).bytes = image)
    (hTail : w.endOffset % PAGE ≠ 0 →
      ∀ page, (s.paged n).tailPages (pageDown w.endOffset) = some page →
        page = Image.read image (pageDown w.endOffset) PAGE)
    (hRun : suffixPage n w s = .ok suffix t) : suffix = suffixOf image w ∧ Quiet s t := by
  unfold suffixPage at hRun
  split at hRun
  · rename_i hMod
    obtain ⟨page, u, hPage, hPure⟩ := bind_eq_ok.mp hRun
    cases hPure
    obtain ⟨rfl, hQuiet⟩ := lastPage_ok h hImage (hTail hMod) hPage
    exact ⟨by rw [suffixOf, if_pos hMod], hQuiet⟩
  · rename_i hMod
    cases hRun
    exact ⟨by rw [suffixOf, if_neg hMod], Quiet.refl s⟩

/-- After sealing a write, the tail pages are copies of the image with that write laid over it. -/
theorem retail_tails {pf : PagedFile} {image base : Nat → UInt8} (h : Captured base w)
    (hAgree : Image.Agree image base w.base w.stop) (hTails : TailsOf pf image) :
    TailsOf (pf.retail w (block base w).2) (Image.write image w.start w.payload) := by
  have hBase := w.base_le_start
  have hNonempty := h.nonempty
  have hStop := w.endOffset_le_stop
  have hPayload := h.length_payload
  have hBaseMod := w.base_mod
  have hStopMod := w.stop_mod
  -- a page that the write does not cover is disjoint from its bytes
  have hOther : ∀ p page, (if w.base ≤ p ∧ p < w.stop ∧ p % PAGE = 0 then none
      else pf.tailPages p) = some page →
      p % PAGE = 0 ∧ page = Image.read (Image.write image w.start w.payload) p PAGE := by
    intro p page hGet
    split at hGet
    · cases hGet
    rename_i hOut
    obtain ⟨hMod, rfl⟩ := hTails p page hGet
    refine ⟨hMod, (Image.read_write_off _ _ ?_).symm⟩
    simp only [PAGE] at *
    omega
  intro p page hGet
  simp only [retail] at hGet
  split at hGet
  · rename_i hMod
    by_cases hLast : p = pageDown w.endOffset
    · subst hLast
      rw [Function.update_self, Option.some.injEq] at hGet
      subst hGet
      have hUp : w.stop = pageDown w.endOffset + PAGE := pageUp_eq_pageDown_add hMod
      have hDown : w.base ≤ pageDown w.endOffset := le_pageDown_of_mod hBaseMod (by omega)
      refine ⟨pageDown_mod _, ?_⟩
      rw [block, field_read _ _ _ (by omega),
        show w.base + (pageDown w.endOffset - w.base) = pageDown w.endOffset by omega]
      apply Image.read_congr
      intro i hLo hHi
      simp only [Image.write]
      rw [hAgree i (by omega) (by omega)]
    · rw [Function.update_of_ne hLast] at hGet
      exact hOther p page hGet
  · exact hOther p page hGet

/-- Sealing edits the tail pages of one handle and nothing else. -/
structure OnlyTails (n : FileName) (s t : Store) : Prop where
  disk : t.disk = s.disk
  issued : t.issued = s.issued
  frame : Frame n s t
  staged : (t.paged n).stagedWrites = (s.paged n).stagedWrites
  pending : (t.paged n).pendingBytes = (s.paged n).pendingBytes

theorem OnlyTails.refl (n : FileName) (s : Store) : OnlyTails n s s :=
  ⟨rfl, rfl, Frame.refl n s, rfl, rfl⟩

theorem OnlyTails.trans {u : Store} (h : OnlyTails n s t) (k : OnlyTails n t u) : OnlyTails n s u :=
  ⟨k.disk.trans h.disk, k.issued.trans h.issued, h.frame.trans k.frame,
    k.staged.trans h.staged, k.pending.trans h.pending⟩

theorem OnlyTails.file (h : OnlyTails n s t) (m : FileName) : t.file m = s.file m := by
  rw [Store.file, Store.file, h.disk]

theorem sealWrite_ok {base : Nat → UInt8} {request : Nat × Bytes} (h : Captured base w)
    (hImage : (s.file n).bytes = base) (hAgree : Image.Agree image base w.base w.stop)
    (hTails : TailsOf (s.paged n) image) (hRun : sealWrite n w s = .ok request t) :
    request = block base w ∧ TailsOf (t.paged n) (Image.write image w.start w.payload) ∧
      OnlyTails n s t := by
  obtain ⟨suffix, u, hSuffix, hRun⟩ := bind_eq_ok.mp hRun
  have hTail : w.endOffset % PAGE ≠ 0 →
      ∀ page, (s.paged n).tailPages (pageDown w.endOffset) = some page →
        page = Image.read base (pageDown w.endOffset) PAGE := by
    intro hMod page hGet
    rw [(hTails _ _ hGet).2]
    have hUp : w.stop = pageDown w.endOffset + PAGE := pageUp_eq_pageDown_add hMod
    have hNonempty := h.nonempty
    have hDown : w.base ≤ pageDown w.endOffset :=
      le_pageDown_of_mod w.base_mod (by have := w.base_le_start; omega)
    exact Image.read_congr (hAgree.mono hDown (by omega))
  obtain ⟨rfl, hQuiet⟩ := suffixPage_ok h hImage hTail hSuffix
  cases hRun
  rw [sealedBuffer_eq h]
  refine ⟨rfl, ?_, ?_⟩
  · simp only [Store.setPaged_paged, Function.update_self, hQuiet.paged]
    exact retail_tails h hAgree hTails
  · refine ⟨hQuiet.disk, hQuiet.issued, (hQuiet.frame n).trans (Frame.setPaged rfl), ?_, ?_⟩
    all_goals simp [retail, hQuiet.paged]

/-- Sealing the staged writes one after another gives one block for each. -/
theorem sealWrites_ok {base : Nat → UInt8} {ws : List StagedWrite}
    {requests : List (Nat × Bytes)} (hCaptured : ∀ w ∈ ws, Captured base w)
    (hApart : Store.PagewiseDisjoint ws) (hImage : (s.file n).bytes = base)
    (hAgree : ∀ w ∈ ws, Image.Agree image base w.base w.stop)
    (hTails : TailsOf (s.paged n) image) (hRun : sealWrites n ws s = .ok requests t) :
    requests = ws.map (block base) ∧ TailsOf (t.paged n) (Store.overlay image ws) ∧
      OnlyTails n s t := by
  induction ws generalizing s image requests with
  | nil =>
      cases hRun
      exact ⟨rfl, hTails, OnlyTails.refl n _⟩
  | cons w rest ih =>
      obtain ⟨request, u, hHead, hRun⟩ := bind_eq_ok.mp hRun
      obtain ⟨others, v, hRest, hPure⟩ := bind_eq_ok.mp hRun
      cases hPure
      have hMem := List.mem_cons_self (a := w) (l := rest)
      obtain ⟨rfl, hTails', hOnly⟩ :=
        sealWrite_ok (hCaptured w hMem) hImage (hAgree w hMem) hTails hHead
      have hApartRest := List.pairwise_cons.mp hApart
      obtain ⟨rfl, hTails'', hOnly'⟩ := ih
        (fun v hv => hCaptured v (List.mem_cons_of_mem _ hv)) hApartRest.2
        (by rw [hOnly.file, hImage])
        (fun v hv => by
          have hAway := hApartRest.1 v hv
          have hPayload := (hCaptured w hMem).length_payload
          have hStop := w.endOffset_le_stop
          have hBase := w.base_le_start
          refine Image.Agree.trans (Image.agree_write _ _ ?_) (hAgree v (List.mem_cons_of_mem _ hv))
          rcases hAway with hAway | hAway
          · exact Or.inr (by omega)
          · exact Or.inl (by omega))
        hTails' hRest
      exact ⟨rfl, hTails'', hOnly.trans hOnly'⟩

/-- Writing the blocks of the staged writes lays exactly their payloads over the file. -/
theorem writes_blocks {base : Nat → UInt8} {ws : List StagedWrite} (f : File)
    (hCaptured : ∀ w ∈ ws, Captured base w) (hApart : Store.PagewiseDisjoint ws)
    (hAgree : ∀ w ∈ ws, Image.Agree f.bytes base w.base w.stop) :
    (f.writes (ws.map (block base))).bytes = Store.overlay f.bytes ws := by
  induction ws generalizing f with
  | nil => rfl
  | cons w rest ih =>
      have hMem := List.mem_cons_self (a := w) (l := rest)
      have hApartRest := List.pairwise_cons.mp hApart
      have hPayload := (hCaptured w hMem).length_payload
      have hStop := w.endOffset_le_stop
      have hBase := w.base_le_start
      have hLt := (hCaptured w hMem).base_lt_stop
      have hStep : (f.write (block base w).1 (block base w).2).bytes =
          Image.write f.bytes w.start w.payload := by
        have hSome : (block base w).2.isEmpty = false := by
          rw [List.isEmpty_eq_false_iff_exists_mem]
          exact List.exists_mem_of_length_pos (by rw [length_block]; omega)
        rw [File.write, hSome]
        have hRange : w.base + (w.stop - w.base) = w.stop := by omega
        have hBlock : Image.Agree f.bytes base w.base (w.base + (w.stop - w.base)) := by
          rw [hRange]
          exact hAgree w hMem
        have hInside : w.start + w.payload.length ≤ w.base + (w.stop - w.base) := by omega
        exact Image.write_block _ _ _ hBase hInside hBlock
      rw [List.map_cons, File.writes, List.foldl_cons, ← File.writes, ih, hStep, Store.overlay_cons]
      · exact fun v hv => hCaptured v (List.mem_cons_of_mem _ hv)
      · exact hApartRest.2
      · intro v hv
        rw [hStep]
        refine Image.Agree.trans (Image.agree_write _ _ ?_) (hAgree v (List.mem_cons_of_mem _ hv))
        rcases hApartRest.1 v hv with hAway | hAway
        · exact Or.inr (by omega)
        · exact Or.inl (by omega)

end PagedFile

/-- The invariant of an open handle over its file. -/
structure Coherent (n : FileName) (s : Store) : Prop where
  apart : Store.PagewiseDisjoint (s.paged n).stagedWrites
  captured : ∀ w ∈ (s.paged n).stagedWrites, Captured (s.file n).bytes w
  tails : TailsOf (s.paged n) (s.file n).bytes
  pending : (s.paged n).pendingBytes =
    ((s.paged n).stagedWrites.map fun w => w.payload.length).sum

/-- What a completed flush leaves. -/
structure Flushed (n : FileName) (s t : Store) : Prop where
  frame : Frame n s t
  staged : (t.paged n).stagedWrites = []
  bytes : (t.file n).bytes = s.logical n
  coherent : Coherent n t
  issued : t.issued = s.issued ++
    if (s.paged n).stagedWrites = [] then []
    else [⟨n, (s.paged n).stagedWrites.map (block (s.file n).bytes), s.disk, s.durable⟩]
  size : t.file n = (s.file n).writes ((s.paged n).stagedWrites.map (block (s.file n).bytes))
  range : ∀ w ∈ (s.paged n).stagedWrites, w.stop < 2 ^ 63

namespace PagedFile

variable {n : FileName} {s t : Store}

theorem flush_ok (h : Coherent n s) (hRun : flush n s = .ok () t) : Flushed n s t := by
  obtain ⟨pf, u, hGet, hRun⟩ := bind_eq_ok.mp hRun
  cases hGet
  by_cases hEmpty : (s.paged n).stagedWrites = []
  · simp only [hEmpty, List.isEmpty_nil, if_true] at hRun
    cases hRun
    refine ⟨Frame.refl n s, hEmpty, ?_, h, by simp [hEmpty], by simp [hEmpty, File.writes],
      by simp [hEmpty]⟩
    rw [Store.logical, hEmpty, Store.overlay_nil]
  · simp only [List.isEmpty_iff, hEmpty, if_false] at hRun
    rw [bind_of_ok (modifyPaged_apply n _ s)] at hRun
    obtain ⟨requests, v, hSeal, hRun⟩ := bind_eq_ok.mp hRun
    obtain ⟨_, w, hWrite, hRun⟩ := bind_eq_ok.mp hRun
    cases hRun
    have hTails : TailsOf ((s.setPaged n { s.paged n with stagedWrites := [] }).paged n)
        (s.file n).bytes := by simpa [TailsOf] using h.tails
    obtain ⟨rfl, hTails', hOnly⟩ := sealWrites_ok
      (s := s.setPaged n { s.paged n with stagedWrites := [] })
      h.captured h.apart rfl (fun _ _ _ _ _ => rfl) hTails hSeal
    have hFile : v.file n = s.file n := hOnly.file n
    have hWrites := writes_blocks (s.file n) h.captured h.apart (fun _ _ _ _ _ => rfl)
    have hRange := writeVec_range hWrite
    rw [writeVec_ok hWrite, hFile]
    have hTaken : Frame n s (s.setPaged n { s.paged n with stagedWrites := [] }) :=
      Frame.setPaged rfl
    have hFrame : Frame n s v := hTaken.trans hOnly.frame
    refine ⟨?_, ?_, ?_, ?_, ?_, ?_, fun w hw => ?_⟩
    · refine ⟨?_, ?_, hFrame.durable, ?_, ?_, ?_⟩
      · intro m hm
        simpa [Function.update_of_ne hm, Store.noteIssued] using hFrame.disk m hm
      · intro m hm
        simpa [Function.update_of_ne hm, Store.noteIssued] using hFrame.paged m hm
      · intro hPlan
        simp [Store.noteIssued, hFrame.plan hPlan]
      · simp
      · simpa [Store.noteIssued] using hFrame.allocated
    · have hStaged := hOnly.staged
      simp only [Store.setPaged_paged, Function.update_self] at hStaged
      simp [Store.noteIssued, hStaged]
    · simpa [Store.noteIssued, Store.logical] using hWrites
    · have hStaged := hOnly.staged
      simp only [Store.setPaged_paged, Function.update_self] at hStaged
      refine ⟨?_, ?_, ?_, ?_⟩
      all_goals simp [Store.noteIssued, hStaged, Store.PagewiseDisjoint]
      rw [hWrites]
      simpa [TailsOf] using hTails'
    · have hIssued := hOnly.issued
      have hDisk := hOnly.disk
      have hDurable := hOnly.frame.durable
      simp only [Store.setPaged_issued, Store.setPaged_disk, Store.setPaged_durable] at hIssued hDisk hDurable
      simp [Store.noteIssued, hIssued, hDisk, hDurable, hEmpty]
    · simp
    · have hBlock := hRange _ (List.mem_map_of_mem hw)
      have hLt := (h.captured w hw).base_lt_stop
      rw [block_fst, length_block] at hBlock
      omega

end PagedFile

end HeapStore
