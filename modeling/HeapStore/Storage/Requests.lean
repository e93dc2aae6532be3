import HeapStore.Storage.PagedFile
import HeapStore.Format.Codec
import Mathlib.Data.List.TakeWhile

/-! What one block request does to a store, and what a cache operation on one
file leaves alone: the other files, the durable contents and the schedule. -/
namespace HeapStore

open Effect

namespace Store

variable (s : Store) (n m : FileName) (f : File) (pf : PagedFile)

@[simp] theorem setDisk_disk : (s.setDisk n f).disk = Function.update s.disk n (some f) := rfl
@[simp] theorem setDisk_durable : (s.setDisk n f).durable = s.durable := rfl
@[simp] theorem setDisk_plan : (s.setDisk n f).plan = s.plan := rfl
@[simp] theorem setDisk_issued : (s.setDisk n f).issued = s.issued := rfl
@[simp] theorem setDisk_paged : (s.setDisk n f).paged = s.paged := rfl
@[simp] theorem setPaged_disk : (s.setPaged n pf).disk = s.disk := rfl
@[simp] theorem setPaged_durable : (s.setPaged n pf).durable = s.durable := rfl
@[simp] theorem setPaged_plan : (s.setPaged n pf).plan = s.plan := rfl
@[simp] theorem setPaged_issued : (s.setPaged n pf).issued = s.issued := rfl
@[simp] theorem setPaged_paged : (s.setPaged n pf).paged = Function.update s.paged n pf := rfl
@[simp] theorem setPaged_file : (s.setPaged n pf).file m = s.file m := rfl
@[simp] theorem tick_disk : s.tick.disk = s.disk := rfl
@[simp] theorem tick_durable : s.tick.durable = s.durable := rfl
@[simp] theorem tick_issued : s.tick.issued = s.issued := rfl
@[simp] theorem tick_paged : s.tick.paged = s.paged := rfl
@[simp] theorem tick_file : s.tick.file m = s.file m := rfl
@[simp] theorem tick_plan : s.tick.plan = s.plan.tail := rfl

@[simp] theorem setDisk_file_same : (s.setDisk n f).file n = f := by
  simp [file]

theorem setDisk_file_other (h : m ≠ n) : (s.setDisk n f).file m = s.file m := by
  simp [file, Function.update_of_ne h]

theorem tick_of_plan (h : s.plan = []) : s.tick = s := by
  cases s
  cases h
  rfl

theorem outcome_of_plan (h : s.plan = []) : s.outcome = .success := by
  simp [outcome, h]

end Store

/-- The failure of a block request. -/
def IoFailure (e : Failure) : Prop := e = .error .io

/-- Nothing but file `n` is touched. -/
structure Frame (n : FileName) (s t : Store) : Prop where
  disk : ∀ m, m ≠ n → t.disk m = s.disk m
  paged : ∀ m, m ≠ n → t.paged m = s.paged m
  durable : t.durable = s.durable
  plan : s.plan = [] → t.plan = []
  present : (s.disk n).isSome → (t.disk n).isSome
  allocated : (t.paged n).allocatedEnd = (s.paged n).allocatedEnd

namespace Frame

variable {n : FileName} {s t u : Store}

theorem refl (n : FileName) (s : Store) : Frame n s s :=
  ⟨fun _ _ => rfl, fun _ _ => rfl, rfl, id, id, rfl⟩

theorem trans (h : Frame n s t) (k : Frame n t u) : Frame n s u where
  disk m hm := (k.disk m hm).trans (h.disk m hm)
  paged m hm := (k.paged m hm).trans (h.paged m hm)
  durable := k.durable.trans h.durable
  plan hPlan := k.plan (h.plan hPlan)
  present hSome := k.present (h.present hSome)
  allocated := k.allocated.trans h.allocated

theorem file (h : Frame n s t) {m : FileName} (hm : m ≠ n) : t.file m = s.file m := by
  rw [Store.file, Store.file, h.disk m hm]

theorem logical (h : Frame n s t) {m : FileName} (hm : m ≠ n) : t.logical m = s.logical m := by
  rw [Store.logical, Store.logical, h.file hm, h.paged m hm]

theorem tick (n : FileName) (s : Store) : Frame n s s.tick :=
  ⟨fun _ _ => rfl, fun _ _ => rfl, rfl, fun h => by simp [h], id, rfl⟩

theorem setPaged {pf : PagedFile} (h : pf.allocatedEnd = (s.paged n).allocatedEnd) :
    Frame n s (s.setPaged n pf) :=
  ⟨fun _ _ => rfl, fun m hm => by simp [Function.update_of_ne hm], rfl, id, id, by simp [h]⟩

end Frame

/-- The kernel takes signed 64-bit file offsets. -/
theorem inFileRange_iff {off len : Nat} : inFileRange off len = true ↔ off + len < 2 ^ 63 := by
  simp [inFileRange]

/-- An empty read is always served. -/
theorem servable_iff {off len : Nat} : servable off len = true ↔ len = 0 ∨ off + len < 2 ^ 63 := by
  rw [servable, Bool.or_eq_true, decide_eq_true_iff, inFileRange_iff]

theorem servable_of_inRange {off len : Nat} (h : off + len < 2 ^ 63) : servable off len = true :=
  servable_iff.mpr (Or.inr h)

/-- A checked round-up that completes is the round-up, and its sum fits. -/
theorem pageUpU64_ok {σ : Type} {off stop : Nat} {s t : σ} (h : pageUpU64 off s = .ok stop t) :
    stop = pageUp off ∧ t = s ∧ off + PAGE < 2 ^ 64 := by
  unfold pageUpU64 at h
  split at h
  · cases h
  · rename_i hFits
    cases h
    exact ⟨rfl, rfl, Nat.not_le.mp hFits⟩

/-- Where the sum fits the round-up completes. -/
theorem pageUpU64_run {σ : Type} {off : Nat} (h : off + PAGE < 2 ^ 64) (s : σ) :
    pageUpU64 off s = .ok (pageUp off) s := by
  rw [pageUpU64, if_neg (Nat.not_le.mpr h)]
  rfl

/-- The round-up fails with an overflow only. -/
theorem pageUpU64_error {σ : Type} {off : Nat} {s t : σ} {e : Failure}
    (h : pageUpU64 off s = .error e t) :
    e = .panic "attempt to add with overflow" ∧ t = s ∧ 2 ^ 64 ≤ off + PAGE := by
  unfold pageUpU64 at h
  split at h
  · rename_i hOver
    cases h
    exact ⟨rfl, rfl, hOver⟩
  · cases h

/-- A checked sum that completes is the sum. -/
theorem addU64_ok {σ : Type} {a b sum : Nat} {s t : σ} (h : addU64 a b s = .ok sum t) :
    sum = a + b ∧ t = s ∧ a + b < 2 ^ 64 := by
  unfold addU64 at h
  split at h
  · cases h
  · rename_i hFits
    cases h
    exact ⟨rfl, rfl, Nat.not_le.mp hFits⟩

/-- Where it fits the checked sum completes. -/
theorem addU64_run {σ : Type} {a b : Nat} (h : a + b < 2 ^ 64) (s : σ) :
    addU64 a b s = .ok (a + b) s := by
  rw [addU64, if_neg (Nat.not_le.mpr h)]
  rfl

/-- The checked sum fails with an overflow only. -/
theorem addU64_error {σ : Type} {a b : Nat} {s t : σ} {e : Failure} (h : addU64 a b s = .error e t) :
    e = .panic "attempt to add with overflow" ∧ t = s ∧ 2 ^ 64 ≤ a + b := by
  unfold addU64 at h
  split at h
  · rename_i hOver
    cases h
    exact ⟨rfl, rfl, hOver⟩
  · cases h

/-- A read that completes returns the bytes of the file and uses one step of the schedule. -/
theorem readVec_ok {n : FileName} {requests : List (Nat × Nat)} {s t : Store} {out : List Bytes}
    (h : readVec n requests s = .ok out t) :
    out = requests.map (fun request => Image.read (s.file n).bytes request.1 request.2) ∧
      t = s.tick := by
  unfold readVec at h
  split at h
  · cases h
  split at h
  · cases h
    exact ⟨rfl, rfl⟩
  · cases h

/-- Without failing requests every read inside the file offsets completes. -/
theorem readVec_run {n : FileName} {requests : List (Nat × Nat)} {s : Store} (hPlan : s.plan = [])
    (hRange : ∀ request ∈ requests, request.1 + request.2 < 2 ^ 63) :
    readVec n requests s =
      .ok (requests.map fun request => Image.read (s.file n).bytes request.1 request.2) s := by
  have hAll : (requests.all fun request => servable request.1 request.2) = true :=
    List.all_eq_true.mpr fun request hMem => servable_of_inRange (hRange request hMem)
  simp only [readVec, s.outcome_of_plan hPlan, hAll, if_true, s.tick_of_plan hPlan]

/-- A single read is a read of one request. -/
theorem readOne_ok {n : FileName} {off len : Nat} {s t : Store} {buf : Bytes}
    (h : readOne n off len s = .ok buf t) :
    buf = Image.read (s.file n).bytes off len ∧ t = s.tick := by
  obtain ⟨buffers, u, hRead, hPure⟩ := bind_eq_ok.mp h
  obtain ⟨rfl, rfl⟩ := readVec_ok hRead
  cases hPure
  exact ⟨rfl, rfl⟩

theorem readOne_run {n : FileName} {off len : Nat} {s : Store} (hPlan : s.plan = [])
    (hRange : off + len < 2 ^ 63) :
    readOne n off len s = .ok (Image.read (s.file n).bytes off len) s := by
  rw [readOne, bind_of_ok (readVec_run hPlan (by simpa using hRange))]
  rfl

/-- A read fails with an I/O error only, and changes no content. -/
theorem readVec_error {n : FileName} {requests : List (Nat × Nat)} {s t : Store} {e : Failure}
    (h : readVec n requests s = .error e t) : e = .error .io ∧ t = s.tick := by
  unfold readVec at h
  split at h
  · cases h
    exact ⟨rfl, rfl⟩
  split at h
  · cases h
  · cases h
    exact ⟨rfl, rfl⟩

/-- The same for a single read. -/
theorem readOne_error {n : FileName} {off len : Nat} {s t : Store} {e : Failure}
    (h : readOne n off len s = .error e t) : e = .error .io ∧ t = s.tick := by
  rcases bind_eq_error.mp h with hRead | ⟨_, _, _, hPure⟩
  · exact readVec_error hRead
  · cases hPure

/-- A prefix of full length is everything. -/
theorem takeWhile_eq_self_of_length {α : Type} {p : α → Bool} {l : List α}
    (h : (l.takeWhile p).length = l.length) : l.takeWhile p = l :=
  (List.takeWhile_prefix p).eq_of_length h

/-- A write that completes leaves all its bytes in the file. -/
theorem writeVec_ok {n : FileName} {requests : List (Nat × Bytes)} {s t : Store}
    (h : writeVec n requests s = .ok () t) :
    t = (s.noteIssued n requests).tick.setDisk n ((s.file n).writes requests) := by
  unfold writeVec at h
  simp only at h
  split at h
  · cases h
  split at h
  · rename_i hLength
    cases h
    rw [takeWhile_eq_self_of_length hLength]
  · cases h

/-- A completed write was in range of the kernel's file offsets. -/
theorem writeVec_range {n : FileName} {requests : List (Nat × Bytes)} {s t : Store}
    (h : writeVec n requests s = .ok () t) :
    ∀ request ∈ requests, request.1 + request.2.length < 2 ^ 63 := by
  unfold writeVec at h
  simp only at h
  split at h
  · cases h
  split at h
  · rename_i hLength
    intro request hMem
    rw [← takeWhile_eq_self_of_length hLength] at hMem
    have hAll := List.all_takeWhile (p := fun request : Nat × Bytes =>
      inFileRange request.1 request.2.length) (l := requests)
    exact inFileRange_iff.mp (List.all_eq_true.mp hAll request hMem)
  · cases h

/-- Without failing requests every write inside the file offsets completes. -/
theorem writeVec_run {n : FileName} {requests : List (Nat × Bytes)} {s : Store}
    (hPlan : s.plan = [])
    (hRange : ∀ request ∈ requests, request.1 + request.2.length < 2 ^ 63) :
    writeVec n requests s =
      .ok () ((s.noteIssued n requests).setDisk n ((s.file n).writes requests)) := by
  have hAll : requests.takeWhile (fun request => inFileRange request.1 request.2.length) =
      requests := by
    rw [List.takeWhile_eq_self_iff]
    intro request hMem
    exact inFileRange_iff.mpr (hRange request hMem)
  have hTick : (s.noteIssued n requests).tick = s.noteIssued n requests :=
    Store.tick_of_plan _ hPlan
  simp only [writeVec, s.outcome_of_plan hPlan, hAll, if_true, hTick]

/-- A write fails with an I/O error only. -/
theorem writeVec_error {n : FileName} {requests : List (Nat × Bytes)} {s t : Store} {e : Failure}
    (h : writeVec n requests s = .error e t) : e = .error .io := by
  unfold writeVec at h
  simp only at h
  split at h
  · cases h
    rfl
  split at h
  · cases h
  · cases h
    rfl

@[simp] theorem getPaged_apply (n : FileName) (s : Store) :
    getPaged n s = .ok (s.paged n) s := rfl

@[simp] theorem modifyPaged_apply (n : FileName) (f : PagedFile → PagedFile) (s : Store) :
    modifyPaged n f s = .ok () (s.setPaged n (f (s.paged n))) := rfl

/-- A sync makes the content of the file durable. -/
theorem sync_ok {n : FileName} {s t : Store} (h : sync n s = .ok () t) :
    t = { s.tick with durable := Function.update s.durable n (s.disk n) } := by
  unfold sync at h
  split at h
  · cases h
  · cases h
    rfl

/-- Without failing requests a sync completes. -/
theorem sync_run {n : FileName} {s : Store} (hPlan : s.plan = []) :
    sync n s = .ok () { s with durable := Function.update s.durable n (s.disk n) } := by
  simp only [sync, s.outcome_of_plan hPlan, s.tick_of_plan hPlan]

/-- A sync fails with an I/O error only. -/
theorem sync_error {n : FileName} {s t : Store} {e : Failure} (h : sync n s = .error e t) :
    e = .error .io := by
  unfold sync at h
  split at h
  · cases h
    rfl
  · cases h

/-- An allocation that completes was inside the file offsets, and lengthens the file at most. -/
theorem fallocate_ok {n : FileName} {offset len : Nat} {s t : Store}
    (h : fallocate n offset len s = .ok () t) :
    offset + len < 2 ^ 63 ∧ t = s.tick.setDisk n ((s.file n).allocate (offset + len)) := by
  unfold fallocate at h
  split at h
  · cases h
  split at h
  · rename_i hRange
    cases h
    exact ⟨inFileRange_iff.mp hRange, rfl⟩
  · cases h

/-- Without failing requests every allocation inside the file offsets completes. -/
theorem fallocate_run {n : FileName} {offset len : Nat} {s : Store} (hPlan : s.plan = [])
    (hRange : offset + len < 2 ^ 63) :
    fallocate n offset len s = .ok () (s.setDisk n ((s.file n).allocate (offset + len))) := by
  have hTick := s.tick_of_plan hPlan
  simp only [fallocate, s.outcome_of_plan hPlan, inFileRange_iff.mpr hRange, if_true, hTick]

/-- An allocation fails with an I/O error only. -/
theorem fallocate_error {n : FileName} {offset len : Nat} {s t : Store} {e : Failure}
    (h : fallocate n offset len s = .error e t) : e = .error .io := by
  unfold fallocate at h
  split at h
  · cases h
    rfl
  split at h
  · cases h
  · cases h
    rfl

namespace PagedFile

variable {n : FileName} {upto chunk : Nat} {s t : Store}

/-- Reserving space that is already reserved does nothing. -/
theorem ensureAlloc_enough (hUpto : upto < 2 ^ 64) (h : upto ≤ (s.paged n).allocatedEnd) :
    ensureAlloc n upto chunk s = .ok () s := by
  rw [ensureAlloc, bind_of_ok (getPaged_apply n s), if_neg (Nat.not_le.mpr hUpto), if_pos h]
  rfl

/-- Reserving further space is one request for whole pages. -/
theorem ensureAlloc_more (hMore : (s.paged n).allocatedEnd < upto)
    (hFits : max upto ((s.paged n).allocatedEnd + chunk) + PAGE < 2 ^ 64) :
    ensureAlloc n upto chunk s = (do
      fallocate n (s.paged n).allocatedEnd
        (pageUp (max upto ((s.paged n).allocatedEnd + chunk)) - (s.paged n).allocatedEnd)
      modifyPaged n fun pf =>
        { pf with allocatedEnd := pageUp (max upto ((s.paged n).allocatedEnd + chunk)) }) s := by
  rw [ensureAlloc, bind_of_ok (getPaged_apply n s), if_neg (by omega), if_neg (Nat.not_le.mpr hMore),
    bind_of_ok (addU64_run (by omega) s), bind_of_ok (pageUpU64_run hFits s)]

/-- A reservation that completes found its end reserved, or took whole pages up
to it; its sums are 64-bit numbers. -/
theorem ensureAlloc_cases (hRun : ensureAlloc n upto chunk s = .ok () t) :
    upto < 2 ^ 64 ∧ ((upto ≤ (s.paged n).allocatedEnd ∧ t = s) ∨
      ((s.paged n).allocatedEnd < upto ∧
        max upto ((s.paged n).allocatedEnd + chunk) + PAGE < 2 ^ 64 ∧
        pageUp (max upto ((s.paged n).allocatedEnd + chunk)) < 2 ^ 63 ∧
        t = (s.tick.setDisk n ((s.file n).allocate
              (pageUp (max upto ((s.paged n).allocatedEnd + chunk))))).setPaged n
            { s.paged n with
              allocatedEnd := pageUp (max upto ((s.paged n).allocatedEnd + chunk)) })) := by
  rw [ensureAlloc, bind_of_ok (getPaged_apply n s)] at hRun
  split at hRun
  · cases hRun
  rename_i hUpto
  refine ⟨Nat.not_le.mp hUpto, ?_⟩
  split at hRun
  · rename_i hEnough
    cases hRun
    exact Or.inl ⟨hEnough, rfl⟩
  rename_i hMore
  obtain ⟨chunkEnd, u, hChunk, hRest⟩ := bind_eq_ok.mp hRun
  obtain ⟨rfl, rfl, -⟩ := addU64_ok hChunk
  obtain ⟨newEnd, v, hRound, hTake⟩ := bind_eq_ok.mp hRest
  obtain ⟨rfl, rfl, hFits⟩ := pageUpU64_ok hRound
  obtain ⟨_, w, hAlloc, hSet⟩ := bind_eq_ok.mp hTake
  obtain ⟨hRange, rfl⟩ := fallocate_ok hAlloc
  cases hSet
  have hUp := le_pageUp (max upto ((v.paged n).allocatedEnd + chunk))
  rw [Nat.add_sub_cancel' (by omega)] at hRange ⊢
  exact Or.inr ⟨Nat.not_le.mp hMore, hFits, hRange, rfl⟩

end PagedFile

end HeapStore
