import HeapStore.Storage.Stage

/-! File sizes and reserved space: files consist of whole pages, the data file
reaches over the space that is reserved in it, and an append-only file has at
most one open staged write. -/
namespace HeapStore

open Effect StagedWrite PagedFile

/-- The file consists of whole pages within the kernel's file offsets. -/
structure File.Whole (f : File) : Prop where
  pages : f.size % PAGE = 0
  range : f.size < 2 ^ 63

namespace File

theorem size_write (f : File) {off : Nat} {buf : Bytes} (h : 0 < buf.length) :
    (f.write off buf).size = max f.size (off + buf.length) := by
  have hSome : buf.isEmpty = false := by
    rw [List.isEmpty_eq_false_iff_exists_mem]
    exact List.exists_mem_of_length_pos h
  simp [write, hSome]

theorem size_le_write (f : File) (off : Nat) (buf : Bytes) : f.size ≤ (f.write off buf).size := by
  unfold write
  split
  · exact Nat.le_refl _
  · exact Nat.le_max_left _ _

theorem size_le_writes (f : File) (requests : List (Nat × Bytes)) :
    f.size ≤ (f.writes requests).size := by
  induction requests generalizing f with
  | nil => exact Nat.le_refl _
  | cons request rest ih => exact (f.size_le_write _ _).trans (ih (f.write request.1 request.2))

/-- Writes inside a file leave its length. -/
theorem size_writes_inside (f : File) {requests : List (Nat × Bytes)}
    (hInside : ∀ r ∈ requests, r.1 + r.2.length ≤ f.size) : (f.writes requests).size = f.size := by
  induction requests generalizing f with
  | nil => rfl
  | cons request rest ih =>
      have hFirst : (f.write request.1 request.2).size = f.size := by
        unfold write
        split
        · rfl
        · exact Nat.max_eq_left (hInside request (List.mem_cons_self ..))
      have hRest := ih (f.write request.1 request.2) fun r hr => by
        rw [hFirst]
        exact hInside r (List.mem_cons_of_mem _ hr)
      exact hRest.trans hFirst

theorem Whole.writes {f : File} (h : f.Whole) {requests : List (Nat × Bytes)}
    (hPages : ∀ r ∈ requests, 0 < r.2.length ∧ (r.1 + r.2.length) % PAGE = 0)
    (hRange : ∀ r ∈ requests, r.1 + r.2.length < 2 ^ 63) : (f.writes requests).Whole := by
  induction requests generalizing f with
  | nil => exact h
  | cons request rest ih =>
      have hFirst := hPages request (List.mem_cons_self ..)
      have hIn := hRange request (List.mem_cons_self ..)
      refine ih ⟨?_, ?_⟩ (fun r hr => hPages r (List.mem_cons_of_mem _ hr))
        (fun r hr => hRange r (List.mem_cons_of_mem _ hr))
      · rw [size_write f hFirst.1]
        have := h.pages
        rcases Nat.le_total f.size (request.1 + request.2.length) with hLe | hLe
        · rw [Nat.max_eq_right hLe]
          exact hFirst.2
        · rw [Nat.max_eq_left hLe]
          exact h.pages
      · rw [size_write f hFirst.1]
        have := h.range
        omega

end File

theorem Flushed.logical {n : FileName} {s t : Store} (flush : Flushed n s t) :
    t.logical n = s.logical n := by
  rw [Store.logical, flush.staged, Store.overlay_nil, flush.bytes]

theorem Flushed.reach {n : FileName} {s t : Store} (flush : Flushed n s t) : InReach n t :=
  fun w hw => by simp [flush.staged] at hw

/-- A flush keeps whole pages. -/
theorem Flushed.whole {n : FileName} {s t : Store} (flush : Flushed n s t) (h : Coherent n s)
    (hWhole : (s.file n).Whole) : (t.file n).Whole := by
  have hBlock : ∀ w ∈ (s.paged n).stagedWrites, w.base + (w.stop - w.base) = w.stop := fun w hw => by
    have := (h.captured w hw).base_lt_stop
    omega
  rw [flush.size]
  refine hWhole.writes (fun r hr => ?_) fun r hr => ?_
  · obtain ⟨w, hw, rfl⟩ := List.mem_map.mp hr
    have hLt := (h.captured w hw).base_lt_stop
    rw [block_fst, length_block, hBlock w hw]
    exact ⟨by omega, w.stop_mod⟩
  · obtain ⟨w, hw, rfl⟩ := List.mem_map.mp hr
    rw [block_fst, length_block, hBlock w hw]
    exact flush.range w hw

theorem Flushed.size_le {n : FileName} {s t : Store} (flush : Flushed n s t) :
    (s.file n).size ≤ (t.file n).size := by
  rw [flush.size]
  exact File.size_le_writes _ _

/-- The current content of a file was made durable. -/
structure Synced (n : FileName) (s t : Store) : Prop where
  disk : t.disk = s.disk
  paged : t.paged = s.paged
  issued : t.issued = s.issued
  durable : t.durable = Function.update s.durable n (s.disk n)
  plan : s.plan = [] → t.plan = []

theorem sync_synced {n : FileName} {s t : Store} (h : sync n s = .ok () t) : Synced n s t := by
  rw [sync_ok h]
  exact ⟨rfl, rfl, rfl, rfl, fun hPlan => by simp [hPlan]⟩

/-- The data file reaches over the space that is reserved in it. -/
structure Roomy (s : Store) : Prop where
  whole : (s.file .data).Whole
  reserved : (s.paged .data).allocatedEnd ≤ (s.file .data).size

/-- The data file ends with the space that is reserved in it, and everything
staged for it lies inside. -/
structure Snug (s : Store) : Prop where
  size : (s.file .data).size = (s.paged .data).allocatedEnd
  inside : ∀ w ∈ (s.paged .data).stagedWrites, w.stop ≤ (s.paged .data).allocatedEnd

namespace Snug

variable {s t : Store}

theorem congr (h : Snug s) (hDisk : t.disk .data = s.disk .data) (hPaged : t.paged .data = s.paged .data) :
    Snug t := by
  have hFile : t.file .data = s.file .data := by rw [Store.file, Store.file, hDisk]
  exact ⟨by rw [hFile, hPaged, h.size], by rw [hPaged]; exact h.inside⟩

theorem flushed {n : FileName} (h : Snug s) (hFlush : Flushed n s t) (hCoherent : Coherent n s) :
    Snug t := by
  by_cases hn : .data = n
  · subst hn
    have hAllocated := hFlush.frame.allocated
    refine ⟨?_, fun w hw => by simp [hFlush.staged] at hw⟩
    rw [hFlush.size, File.size_writes_inside, h.size, hAllocated]
    intro r hr
    obtain ⟨w, hw, rfl⟩ := List.mem_map.mp hr
    have hLt := (hCoherent.captured w hw).base_lt_stop
    rw [block_fst, length_block, Nat.add_sub_cancel' hLt.le, h.size]
    exact h.inside w hw
  · exact h.congr (hFlush.frame.disk _ hn) (hFlush.frame.paged _ hn)

end Snug

/-- What allocation may do to a store: reserve space behind the data, and
stage for the registry. Nothing is written. -/
structure Reserved (s t : Store) : Prop where
  bytes : (t.file .data).bytes = (s.file .data).bytes
  handle : t.paged .data = { s.paged .data with allocatedEnd := (t.paged .data).allocatedEnd }
  grown : (s.paged .data).allocatedEnd ≤ (t.paged .data).allocatedEnd
  roomy : Roomy s → Roomy t
  snug : Snug s → Snug t
  disk : ∀ m, m ≠ .data → t.disk m = s.disk m
  present : (s.disk .data).isSome → (t.disk .data).isSome
  index : t.paged .index = s.paged .index
  coherent : Coherent .registry s → Coherent .registry t
  head : ∀ i, i < PAGE → t.logical .registry i = s.logical .registry i
  durable : t.durable = s.durable
  issued : t.issued = s.issued
  plan : s.plan = [] → t.plan = []

namespace Reserved

variable {s t u : Store}

theorem refl (s : Store) : Reserved s s :=
  ⟨rfl, rfl, Nat.le_refl _, id, id, fun _ _ => rfl, id, rfl, id, fun _ _ => rfl, rfl, rfl, id⟩

theorem trans (h : Reserved s t) (k : Reserved t u) : Reserved s u where
  bytes := k.bytes.trans h.bytes
  handle := by
    rw [k.handle, h.handle]
  grown := h.grown.trans k.grown
  roomy hRoomy := k.roomy (h.roomy hRoomy)
  snug hSnug := k.snug (h.snug hSnug)
  disk m hm := (k.disk m hm).trans (h.disk m hm)
  present hSome := k.present (h.present hSome)
  index := k.index.trans h.index
  coherent hCoherent := k.coherent (h.coherent hCoherent)
  head i hi := (k.head i hi).trans (h.head i hi)
  durable := k.durable.trans h.durable
  issued := k.issued.trans h.issued
  plan hPlan := k.plan (h.plan hPlan)

theorem staged (h : Reserved s t) :
    (t.paged .data).stagedWrites = (s.paged .data).stagedWrites := by rw [h.handle]

theorem logical_data (h : Reserved s t) : t.logical .data = s.logical .data := by
  rw [Store.logical, Store.logical, h.staged, h.bytes]

theorem file (h : Reserved s t) {m : FileName} (hm : m ≠ .data) : t.file m = s.file m := by
  rw [Store.file, Store.file, h.disk m hm]

theorem logical_index (h : Reserved s t) : t.logical .index = s.logical .index := by
  rw [Store.logical, Store.logical, h.index, h.file (by decide)]

theorem coherent_data (h : Reserved s t) (hCoherent : Coherent .data s) : Coherent .data t := by
  have hTails : (t.paged .data).tailPages = (s.paged .data).tailPages := by rw [h.handle]
  have hPending : (t.paged .data).pendingBytes = (s.paged .data).pendingBytes := by rw [h.handle]
  refine ⟨h.staged ▸ hCoherent.apart, ?_, ?_, ?_⟩
  · rw [h.staged, h.bytes]
    exact hCoherent.captured
  · intro p page hPage
    rw [hTails] at hPage
    rw [h.bytes]
    exact hCoherent.tails p page hPage
  · rw [hPending, h.staged]
    exact hCoherent.pending

theorem coherent_index (h : Reserved s t) (hCoherent : Coherent .index s) : Coherent .index t := by
  have hFile := h.file (m := .index) (by decide)
  refine ⟨h.index ▸ hCoherent.apart, ?_, ?_, h.index ▸ hCoherent.pending⟩
  · rw [h.index, hFile]
    exact hCoherent.captured
  · rw [h.index, hFile]
    exact hCoherent.tails

theorem reach_data (h : Reserved s t) (hReach : InReach .data s) : InReach .data t := by
  unfold InReach at *
  rw [h.staged]
  exact hReach

theorem reach_index (h : Reserved s t) (hReach : InReach .index s) : InReach .index t := by
  unfold InReach at *
  rw [h.index]
  exact hReach

end Reserved

namespace PagedFile

variable {s t : Store}

/-- Space up to the wanted end is reserved, in whole pages. -/
theorem ensureAlloc_ok {upto chunk : Nat} (hRun : ensureAlloc .data upto chunk s = .ok () t) :
    Reserved s t ∧ t.paged .registry = s.paged .registry ∧ upto ≤ (t.paged .data).allocatedEnd := by
  obtain ⟨-, ⟨hEnough, rfl⟩ | ⟨hMore, -, hRange, rfl⟩⟩ := ensureAlloc_cases hRun
  · exact ⟨Reserved.refl _, rfl, hEnough⟩
  · have hUp := le_pageUp (max upto ((s.paged .data).allocatedEnd + chunk))
    refine ⟨⟨?_, ?_, ?_, fun hRoomy => ⟨⟨?_, ?_⟩, ?_⟩, fun hSnug => ⟨?_, ?_⟩, ?_, ?_, ?_, ?_, ?_, rfl,
      rfl, fun hPlan => ?_⟩, ?_, ?_⟩
    · simp [File.allocate]
    · simp
    · simp only [Store.setPaged_paged, Function.update_self]
      omega
    · simp only [Store.setPaged_file, Store.setDisk_file_same, File.allocate]
      rcases Nat.le_total (s.file .data).size
        (pageUp (max upto ((s.paged .data).allocatedEnd + chunk))) with hLe | hLe
      · rw [Nat.max_eq_right hLe]
        exact pageUp_mod _
      · rw [Nat.max_eq_left hLe]
        exact hRoomy.whole.pages
    · have := hRoomy.whole.range
      simp only [Store.setPaged_file, Store.setDisk_file_same, File.allocate]
      omega
    · simp only [Store.setPaged_file, Store.setPaged_paged, Function.update_self,
        Store.setDisk_file_same, File.allocate]
      exact Nat.le_max_right _ _
    · have hSize := hSnug.size
      simp only [Store.setPaged_file, Store.setPaged_paged, Function.update_self,
        Store.setDisk_file_same, File.allocate]
      omega
    · simp only [Store.setPaged_paged, Function.update_self]
      exact fun w hw => (hSnug.inside w hw).trans (by omega)
    · intro m hm
      simp [Function.update_of_ne hm]
    · simp
    · simp
    · intro hCoherent
      refine ⟨?_, ?_, ?_, ?_⟩
      · simpa using hCoherent.apart
      · simpa [Store.setDisk_file_other] using hCoherent.captured
      · simpa [Store.setDisk_file_other] using hCoherent.tails
      · simpa using hCoherent.pending
    · intro i _
      simp [Store.logical, Store.setDisk_file_other]
    · simp [hPlan]
    · simp
    · simp only [Store.setPaged_paged, Function.update_self]
      omega

/-- The file is only appended to: all that is staged is one open write that
ends where the next bytes go. -/
def OpenTail (n : FileName) (stop : Nat) (s : Store) : Prop :=
  (s.paged n).stagedWrites = [] ∨
    ∃ w, (s.paged n).stagedWrites = [w] ∧ w.endOffset = stop

/-- Appending to an append-only file writes nothing. -/
theorem stage_append {n : FileName} {off : Nat} {parts : List Bytes} (h : Coherent n s)
    (hTail : OpenTail n off s) (hSome : 0 < parts.flatten.length)
    (hRun : stage n off parts s = .ok () t) :
    Took n off parts.flatten s t ∧ OpenTail n (off + parts.flatten.length) t := by
  obtain ⟨mid, hRoom, hTook⟩ := stage_ok h hSome hRun
  rw [stage, bind_of_ok (getPaged_apply n s)] at hRun
  split at hRun
  · cases hRun
  have hKept : stageFlushes (s.paged n) off parts.flatten.length = false := by
    rcases hTail with hNone | ⟨w, hOne, hEnd⟩
    · simp [stageFlushes, hNone, MAX_STAGED_WRITES]
    · simp [stageFlushes, openWrite?, hOne, hEnd]
  cases hRoom with
  | flushed hFlushes =>
      rw [hKept] at hFlushes
      cases hFlushes
  | kept _ hSame =>
      subst hSame
      refine ⟨hTook, Or.inr ?_⟩
      rcases hTail with hNone | ⟨w, hOne, hEnd⟩
      · have hOpen : (mid.paged n).openWrite? off parts.flatten.length = none := by
          simp [openWrite?, hNone]
        simp only [hOpen] at hRun
        have hFull : flushFull n mid = .ok () mid := by
          rw [flushFull, bind_of_ok (getPaged_apply n mid), hNone]
          rfl
        rw [bind_of_ok hFull] at hRun
        obtain ⟨_, u, hOverlap, hPush⟩ := bind_eq_ok.mp hRun
        rw [flushOverlapping] at hOverlap
        obtain ⟨stop, v, hStop, hClear⟩ := bind_eq_ok.mp hOverlap
        obtain ⟨-, rfl, -⟩ := pageUpU64_ok hStop
        rw [bind_of_ok (getPaged_apply n v), hNone] at hClear
        cases hClear
        rw [pushWrite] at hPush
        obtain ⟨head, w, hHead, hPut⟩ := bind_eq_ok.mp hPush
        obtain ⟨hHeadEq, hQuiet⟩ := captureHead_ok h hHead
        cases hPut
        have hPaged := hQuiet.paged
        simp only [Store.setPaged_paged, Function.update_self, hPaged, hNone, List.nil_append]
        refine ⟨_, rfl, ?_⟩
        have hDown := pageDown_le off
        have hPage := lt_pageDown_add off
        simp only [endOffset, base, List.length_append, List.length_take]
        by_cases hPad : off - pageDown off = 0
        · rw [hPad]
          omega
        · rw [hHeadEq, if_neg hPad, Option.getD_some, Image.length_read]
          omega
      · have hOpen : (mid.paged n).openWrite? off parts.flatten.length = some 0 := by
          simp [openWrite?, hOne, hEnd]
        simp only [hOpen] at hRun
        cases hRun
        simp only [Store.setPaged_paged, Function.update_self, extendWrite, hOne]
        refine ⟨_, rfl, ?_⟩
        simp only [endOffset, base, List.length_append] at hEnd ⊢
        omega

end PagedFile

/-- Bytes staged for the registry reserve nothing and write nothing. -/
theorem Took.reserved {s t : Store} {off : Nat} {bytes : Bytes} (h : Took .registry off bytes s t)
    (hOff : PAGE ≤ off) : Reserved s t := by
  have hPaged := h.frame.paged .data (by decide)
  have hFile : t.file .data = s.file .data := by rw [Store.file, Store.file, h.disk]
  refine ⟨by rw [hFile], by rw [hPaged], by rw [hPaged], fun hRoomy => ⟨?_, ?_⟩,
    fun hSnug => hSnug.congr (by rw [h.disk]) hPaged, fun m hm => by rw [h.disk], fun hSome => by rwa [h.disk], h.frame.paged .index (by decide),
    fun _ => h.coherent, fun i hi => ?_, h.frame.durable, h.issued, h.frame.plan⟩
  · rw [hFile]
    exact hRoomy.whole
  · rw [hFile, hPaged]
    exact hRoomy.reserved
  · rw [h.logical, Image.write_apply_lt _ _ (Nat.lt_of_lt_of_le hi hOff)]

/-- What may happen to a store while its placement rests: the reserved space
stays, and the registry presents the same content. -/
structure Upkeep (s t : Store) : Prop where
  allocated : (t.paged .data).allocatedEnd = (s.paged .data).allocatedEnd
  roomy : Roomy s → Roomy t
  coherent : Coherent .registry s → Coherent .registry t
  tail : ∀ stop, OpenTail .registry stop s → OpenTail .registry stop t
  registry : t.logical .registry = s.logical .registry

namespace Upkeep

variable {s t u : Store}

theorem refl (s : Store) : Upkeep s s := ⟨rfl, id, id, fun _ => id, rfl⟩

theorem trans (h : Upkeep s t) (k : Upkeep t u) : Upkeep s u where
  allocated := k.allocated.trans h.allocated
  roomy hRoomy := k.roomy (h.roomy hRoomy)
  coherent hCoherent := k.coherent (h.coherent hCoherent)
  tail stop hTail := k.tail stop (h.tail stop hTail)
  registry := k.registry.trans h.registry

/-- The registry file and its handle are as they were. -/
theorem of_registry (hAllocated : (t.paged .data).allocatedEnd = (s.paged .data).allocatedEnd)
    (hRoomy : Roomy s → Roomy t) (hPaged : t.paged .registry = s.paged .registry)
    (hDisk : t.disk .registry = s.disk .registry) : Upkeep s t := by
  have hFile : t.file .registry = s.file .registry := by rw [Store.file, Store.file, hDisk]
  refine ⟨hAllocated, hRoomy, fun hCoherent => ⟨hPaged ▸ hCoherent.apart, ?_, ?_, ?_⟩, ?_, ?_⟩
  · rw [hPaged, hFile]
    exact hCoherent.captured
  · rw [hPaged, hFile]
    exact hCoherent.tails
  · rw [hPaged]
    exact hCoherent.pending
  · intro stop hTail
    rw [OpenTail, hPaged]
    exact hTail
  · rw [Store.logical, Store.logical, hPaged, hFile]

theorem of_data (hFrame : Frame .data s t) (hRoomy : Roomy s → Roomy t) : Upkeep s t :=
  of_registry hFrame.allocated hRoomy (hFrame.paged .registry (by decide))
    (hFrame.disk .registry (by decide))

theorem roomy_frame {n : FileName} (hFrame : Frame n s t) (hn : .data ≠ n) (h : Roomy s) : Roomy t := by
  have hPaged := hFrame.paged .data hn
  have hFile := hFrame.file hn
  exact ⟨hFile ▸ h.whole, by rw [hPaged, hFile]; exact h.reserved⟩

theorem of_index (hFrame : Frame .index s t) : Upkeep s t :=
  of_registry (by rw [hFrame.paged .data (by decide)]) (roomy_frame hFrame (by decide))
    (hFrame.paged .registry (by decide)) (hFrame.disk .registry (by decide))

theorem flushed_data (h : Flushed .data s t) (hCoherent : Coherent .data s) : Upkeep s t := by
  refine of_data h.frame fun hRoomy => ⟨h.whole hCoherent hRoomy.whole, ?_⟩
  rw [h.frame.allocated]
  exact hRoomy.reserved.trans h.size_le

theorem flushed_registry (h : Flushed .registry s t) : Upkeep s t where
  allocated := by rw [h.frame.paged .data (by decide)]
  roomy := roomy_frame h.frame (by decide)
  coherent _ := h.coherent
  tail _ _ := Or.inl h.staged
  registry := by rw [Store.logical, h.staged, Store.overlay_nil, h.bytes]

theorem took_data {off : Nat} {bytes : Bytes} (h : Took .data off bytes s t) : Upkeep s t := by
  have hFile : t.file .data = s.file .data := by rw [Store.file, Store.file, h.disk]
  refine of_data h.frame fun hRoomy => ⟨hFile ▸ hRoomy.whole, ?_⟩
  rw [h.frame.allocated, hFile]
  exact hRoomy.reserved

end Upkeep

end HeapStore
