import HeapStore.Storage.Space
import Mathlib.Logic.Relation

/-! A paged file is a write-back cache of a flat byte array: over any sequence
of stagings, flushes and aligned reads it presents one flat content. -/
namespace HeapStore

open Effect StagedWrite PagedFile

inductive CacheOp where
  | stage (off : Nat) (parts : List Bytes)
  | flush
  | readAligned (off len : Nat)

namespace CacheOp

/-- Offsets up to which the kernel's file offsets reach; staged bytes are not empty. -/
def Legal : CacheOp → Prop
  | stage off parts => 0 < parts.flatten.length ∧ pageUp (off + parts.flatten.length) < 2 ^ 63
  | flush => True
  | readAligned off len => pageUp (off + len) < 2 ^ 63

def run (n : FileName) : CacheOp → StoreM (Option (Bytes × Nat))
  | stage off parts => do
      PagedFile.stage n off parts
      return none
  | flush => do
      PagedFile.flush n
      return none
  | readAligned off len => do
      let found ← PagedFile.readAligned n off len
      return some found

/-- What the operation does to a flat byte array. -/
def flat (image : Nat → UInt8) : CacheOp → (Nat → UInt8)
  | stage off parts => Image.write image off parts.flatten
  | flush => image
  | readAligned _ _ => image

/-- What the operation returns from a flat byte array. -/
def answer (image : Nat → UInt8) : CacheOp → Option (Bytes × Nat)
  | stage _ _ => none
  | flush => none
  | readAligned off len =>
      some (Image.read image (pageDown off) (pageUp (off + len) - pageDown off), off - pageDown off)

end CacheOp

/-- One completed operation on an open handle. -/
def CacheStep (n : FileName) (s t : Store) : Prop :=
  ∃ op : CacheOp, op.Legal ∧ ∃ out, op.run n s = .ok out t

/-- A handle as `create` or `open` leave it. -/
structure Opened (n : FileName) (s : Store) : Prop where
  staged : (s.paged n).stagedWrites = []
  tails : ∀ p, (s.paged n).tailPages p = none
  pending : (s.paged n).pendingBytes = 0

/-- Page requests: aligned, whole pages, in pairwise disjoint ranges. -/
structure PageRequests (w : IssuedWrite) : Prop where
  aligned : ∀ r ∈ w.requests, r.1 % PAGE = 0
  whole : ∀ r ∈ w.requests, r.2.length % PAGE = 0
  disjoint : w.requests.Pairwise fun a b => a.1 + a.2.length ≤ b.1 ∨ b.1 + b.2.length ≤ a.1

/-- The staged payload bytes that a handle holds. -/
def stagedBytes (n : FileName) (s : Store) : Nat :=
  ((s.paged n).stagedWrites.map fun w => w.payload.length).sum

/-- The invariant of a handle over any run of cache operations from `first`. -/
structure CacheInvariant (n : FileName) (first s : Store) : Prop where
  coherent : Coherent n s
  reach : InReach n s
  plan : s.plan = []
  issued : ∃ new, s.issued = first.issued ++ new ∧ ∀ w ∈ new, PageRequests w

variable {n : FileName} {first s t u : Store}

theorem Opened.coherent (h : Opened n s) : Coherent n s where
  apart := by simp [h.staged, Store.PagewiseDisjoint]
  captured := by simp [h.staged]
  tails p page hGet := by simp [h.tails] at hGet
  pending := by simp [h.staged, h.pending]

theorem pageRequests_blocks {image : Nat → UInt8} {ws : List StagedWrite} {disk durable}
    (hCaptured : ∀ w ∈ ws, Captured image w) (hApart : Store.PagewiseDisjoint ws) :
    PageRequests ⟨n, ws.map (block image), disk, durable⟩ := by
  have hWhole : ∀ w : StagedWrite, (w.stop - w.base) % PAGE = 0 := fun w => by
    have hStop := w.stop_mod
    have hBase := w.base_mod
    simp only [PAGE] at *
    omega
  refine ⟨?_, ?_, ?_⟩
  · intro r hr
    obtain ⟨w, -, rfl⟩ := List.mem_map.mp hr
    exact w.base_mod
  · intro r hr
    obtain ⟨w, -, rfl⟩ := List.mem_map.mp hr
    rw [length_block]
    exact hWhole w
  · change (ws.map (block image)).Pairwise _
    rw [List.pairwise_map]
    refine hApart.imp_of_mem fun {a b} ha hb hAway => ?_
    have hA := (hCaptured a ha).base_lt_stop
    have hB := (hCaptured b hb).base_lt_stop
    simp only [block_fst, length_block]
    rw [Apart] at hAway
    omega

/-- A flush issues at most one request list, and only page requests. -/
theorem Flushed.pageRequests (flush : Flushed n s t) (h : Coherent n s) :
    ∃ new, t.issued = s.issued ++ new ∧ ∀ w ∈ new, PageRequests w := by
  refine ⟨_, flush.issued, fun w hw => ?_⟩
  split at hw
  · cases hw
  · rw [List.mem_singleton] at hw
    rw [hw]
    exact pageRequests_blocks h.captured h.apart

theorem CacheInvariant.extend (h : CacheInvariant n first s) (hCoherent : Coherent n t)
    (hReach : InReach n t) (hPlan : t.plan = [])
    (hIssued : ∃ new, t.issued = s.issued ++ new ∧ ∀ w ∈ new, PageRequests w) :
    CacheInvariant n first t := by
  obtain ⟨old, hOld, hOldPages⟩ := h.issued
  obtain ⟨new, hNew, hNewPages⟩ := hIssued
  refine ⟨hCoherent, hReach, hPlan, old ++ new, by rw [hNew, hOld, List.append_assoc], ?_⟩
  intro w hw
  rcases List.mem_append.mp hw with hw | hw
  · exact hOldPages w hw
  · exact hNewPages w hw

/-- One operation keeps the invariant and acts on the presented content as on a flat array. -/
theorem CacheInvariant.step (h : CacheInvariant n first s) {op : CacheOp} (hLegal : op.Legal)
    {out : Option (Bytes × Nat)} (hRun : op.run n s = .ok out t) :
    CacheInvariant n first t ∧ t.logical n = op.flat (s.logical n) ∧
      out = op.answer (s.logical n) := by
  cases op with
  | stage off parts =>
      obtain ⟨_, u, hStage, hPure⟩ := bind_eq_ok.mp hRun
      cases hPure
      obtain ⟨mid, hRoom, hTook⟩ := stage_ok h.coherent hLegal.1 hStage
      have hPlan := hTook.frame.plan (hRoom.frame.plan h.plan)
      have hReach := hTook.reach (hRoom.reach h.reach) hLegal.2
      refine ⟨h.extend hTook.coherent hReach hPlan ?_, ?_, rfl⟩
      · rw [hTook.issued]
        cases hRoom with
        | kept _ same => exact ⟨[], by simp [same], by simp⟩
        | flushed _ flush => exact flush.pageRequests h.coherent
      · rw [hTook.logical, hRoom.logical]
        rfl
  | flush =>
      obtain ⟨_, u, hFlush, hPure⟩ := bind_eq_ok.mp hRun
      cases hPure
      have hFlushed := flush_ok h.coherent hFlush
      exact ⟨h.extend hFlushed.coherent hFlushed.reach (hFlushed.frame.plan h.plan)
        (hFlushed.pageRequests h.coherent), hFlushed.logical, rfl⟩
  | readAligned off len =>
      obtain ⟨⟨buf, pos⟩, u, hRead, hPure⟩ := bind_eq_ok.mp hRun
      cases hPure
      obtain ⟨rfl, rfl, hFlushed, -⟩ := readAligned_ok h.coherent hRead
      exact ⟨h.extend hFlushed.coherent hFlushed.reach (hFlushed.frame.plan h.plan)
        (hFlushed.pageRequests h.coherent), hFlushed.logical, rfl⟩

/-- With block requests succeeding, every legal operation completes. -/
theorem CacheInvariant.complete (h : CacheInvariant n first s) {op : CacheOp} (hLegal : op.Legal) :
    ∃ out t, op.run n s = .ok out t := by
  cases op with
  | stage off parts =>
      obtain ⟨t, hStage⟩ := stage_run h.coherent h.plan h.reach hLegal.2
      exact ⟨none, t, (bind_of_ok hStage).trans rfl⟩
  | flush =>
      obtain ⟨t, hFlush⟩ := flush_run h.coherent h.plan h.reach
      exact ⟨none, t, (bind_of_ok hFlush).trans rfl⟩
  | readAligned off len =>
      obtain ⟨t, hRead⟩ := readAligned_run h.coherent h.plan h.reach hLegal
      exact ⟨_, t, (bind_of_ok hRead).trans rfl⟩

theorem cacheInvariant_of_run (hOpened : Opened n first) (hPlan : first.plan = [])
    (hRun : Relation.ReflTransGen (CacheStep n) first s) : CacheInvariant n first s := by
  induction hRun with
  | refl =>
      exact ⟨hOpened.coherent, fun w hw => by simp [hOpened.staged] at hw, hPlan, [], by simp, by simp⟩
  | tail _ hStep ih =>
      obtain ⟨op, hLegal, out, hOp⟩ := hStep
      exact (ih.step hLegal hOp).1

/-- In every state that a run of cache operations reaches, each further
operation completes and acts on the presented content as on a flat byte array;
a flush makes the file equal to that content. All issued requests are disjoint
page requests, cached tail pages are the file's pages, and the pending count is
the number of staged bytes. -/
theorem paged_file_refines_flat (hOpened : Opened n first) (hPlan : first.plan = [])
    (hRun : Relation.ReflTransGen (CacheStep n) first s) :
    (∀ op : CacheOp, op.Legal → ∃ t, op.run n s = .ok (op.answer (s.logical n)) t ∧
      t.logical n = op.flat (s.logical n)) ∧
    (∀ t, flush n s = .ok () t → (t.file n).bytes = s.logical n) ∧
    (∃ new, s.issued = first.issued ++ new ∧ ∀ w ∈ new, PageRequests w) ∧
    (∀ p page, (s.paged n).tailPages p = some page → page = Image.read (s.file n).bytes p PAGE) ∧
    (s.paged n).pendingBytes = stagedBytes n s := by
  have hInv := cacheInvariant_of_run hOpened hPlan hRun
  refine ⟨fun op hLegal => ?_, fun t hFlush => (flush_ok hInv.coherent hFlush).bytes, hInv.issued,
    fun p page hGet => (hInv.coherent.tails p page hGet).2, hInv.coherent.pending⟩
  obtain ⟨out, t, hOp⟩ := hInv.complete hLegal
  obtain ⟨-, hFlat, rfl⟩ := hInv.step hLegal hOp
  exact ⟨t, hOp, hFlat⟩

/-- A write inside a page, staged over an empty file. -/
theorem paged_file_refines_flat_staged :
    ∃ s, Relation.ReflTransGen (CacheStep .data) Store.empty s ∧
      (∀ t, flush .data s = .ok () t → (t.file .data).bytes = s.logical .data) ∧
      (s.paged .data).pendingBytes = stagedBytes .data s := by
  have hLegal : (CacheOp.stage 5000 [[1, 2], [3]]).Legal := by
    constructor <;> decide
  have hRun : Relation.ReflTransGen (CacheStep .data) Store.empty
      (final ((CacheOp.stage 5000 [[1, 2], [3]]).run .data) Store.empty) :=
    .single ⟨_, hLegal, none, rfl⟩
  have hFlat := paged_file_refines_flat ⟨rfl, fun _ => rfl, rfl⟩ rfl hRun
  exact ⟨_, hRun, hFlat.2.1, hFlat.2.2.2.2⟩

end HeapStore
