import HeapStore.BlockIo.Segments
import Mathlib.Data.List.Nodup
import Mathlib.Data.List.Perm.Basic

/-! The invariant of the asynchronous loop: every segment is waiting, under way
in exactly one place, or delivered, and each step of the loop keeps it so. -/
namespace HeapStore.BlockIo.UringIo

open Effect

/-- A completion that ends the run with an error: a negative result, or a write of no byte. -/
def Faulty (isRead : Bool) (c : Completion) : Prop := c.result < 0 ∨ isRead = false ∧ c.result = 0

/-- The segments that are under way: answered and not yet looked at, in
flight, or pushed. -/
def underWay (s : UringRun) (answered : List Completion) : List Nat :=
  answered.map Completion.userData ++
    (s.ring.inFlight ++ s.ring.queue).map Entry.userData

/-- `done i` bytes of segment `i` are known to have moved. -/
structure Flight (io : UringIo) (isRead : Bool) (S : List IoSegment) (w₀ : World) (done : Nat → Nat)
    (answered : List Completion) (s : UringRun) : Prop where
  segments : ∀ i, s.segments[i]? = (S[i]?).map fun g : IoSegment => g.advance (done i)
  bound : s.next ≤ S.length
  once : (underWay s answered).Nodup
  taken : ∀ i ∈ underWay s answered, i < s.next
  pending : s.pending = (underWay s answered).length
  limit : s.pending ≤ io.depth
  room : s.ring.entries = io.entries
  entry : ∀ e ∈ s.ring.inFlight ++ s.ring.queue, ∃ g, S[e.userData]? = some g ∧
    e = ⟨e.userData, g.offset + done e.userData, g.pointer + done e.userData, g.len - done e.userData⟩
  answer : ∀ c ∈ answered, c ∈ s.completed ∧ ∃ g, S[c.userData]? = some g ∧
    c.result ≤ (g.len - done c.userData : Nat) ∧
    (isRead = true → 0 ≤ c.result →
      (c.result = 0 ↔ w₀.file.size ≤ g.offset + done c.userData)) ∧
    Delivered isRead w₀ s.world g (done c.userData + c.result.toNat)
  progress : ∀ i g, S[i]? = some g → done i < g.len ∧ Delivered isRead w₀ s.world g (done i)
  finished : s.error = none → ∀ i g, S[i]? = some g → i < s.next → i ∉ underWay s answered →
    Delivered isRead w₀ s.world g g.len
  moving : Moving isRead S w₀ s.world
  blame : ∀ e, s.error = some e → e = .io ∧ ∃ c ∈ s.completed, Faulty isRead c

/-- One more than the bytes of a segment that are still to move. -/
def weight (S : List IoSegment) (done : Nat → Nat) (i : Nat) : Nat :=
  ((S[i]?).map IoSegment.len).getD 0 - done i + 1

/-- The most completions that the rest of the run can take. -/
def work (S : List IoSegment) (done : Nat → Nat) (answered : List Completion) (s : UringRun) : Nat :=
  ((underWay s answered ++ List.range' s.next (S.length - s.next)).map (weight S done)).sum

section

variable {io : UringIo} {isRead : Bool} {S : List IoSegment} {w₀ : World} {done : Nat → Nat}
  {answered : List Completion} {s t : UringRun} {requests : List BlockReq}

theorem Flight.length (h : Flight io isRead S w₀ done answered s) :
    s.segments.length = S.length := by
  have hNone : ∀ i, s.segments.length ≤ i ↔ S.length ≤ i := fun i => by
    rw [← List.getElem?_eq_none_iff, ← List.getElem?_eq_none_iff, h.segments i, Option.map_eq_none_iff]
  have hLe := (hNone s.segments.length).mp le_rfl
  have hGe := (hNone S.length).mpr le_rfl
  omega

theorem Flight.segmentAt_ok (h : Flight io isRead S w₀ done answered s) {i : Nat} {g : IoSegment}
    (hg : S[i]? = some g) : segmentAt i s = .ok (g.advance (done i)) s := by
  rw [segmentAt, h.segments i, hg]
  rfl

/-- Only which segments are under way counts, not where they are. -/
theorem work_congr {done' : Nat → Nat} {answered' : List Completion}
    (hPerm : (underWay t answered').Perm (underWay s answered)) (hNext : t.next = s.next)
    (hWeight : ∀ i ∈ underWay s answered ++ List.range' s.next (S.length - s.next),
      weight S done' i = weight S done i) : work S done' answered' t = work S done answered s := by
  rw [work, work, hNext, ((hPerm.append_right _).map _).sum_nat, List.map_congr_left hWeight]

theorem start_flight (hPieces : Pieces isRead S) (w : World) (hS : S = io.segmentsOf requests) :
    Flight io isRead S w (fun _ => 0) [] (io.start w requests) := by
  subst hS
  have hGet : ∀ i : Nat, (io.start w requests).segments[i]? =
      ((io.segmentsOf requests)[i]?).map fun g : IoSegment => g.advance 0 := fun i => by
    simp only [IoSegment.advance_zero, Option.map_id']
    rfl
  exact
    { segments := hGet
      bound := Nat.zero_le _
      once := List.nodup_nil
      taken := fun i hi => by cases hi
      pending := rfl
      limit := Nat.zero_le _
      room := rfl
      entry := fun e he => by cases he
      answer := fun c hc => by cases hc
      progress := fun i g hg => ⟨hPieces.pos g (List.mem_of_getElem? hg), .zero g⟩
      finished := fun _ i g _ hLt => absurd hLt (Nat.not_lt_zero _)
      moving := .refl _ _
      blame := fun e hError => by cases hError }

/-! Pushing: the next segment, and the rest of one that was answered short. -/

theorem push_ok {e : Entry} (h : s.ring.queue.length < s.ring.entries) :
    push e s = .ok () { s with ring := { s.ring with queue := s.ring.queue ++ [e] } } := if_pos h

theorem Flight.queue_lt (h : Flight io isRead S w₀ done answered s) (hRoom : io.depth ≤ io.entries)
    (hPending : s.pending < io.depth) : s.ring.queue.length < s.ring.entries := by
  have hCount := h.pending
  rw [underWay, List.length_append, List.length_map, List.length_map, List.length_append] at hCount
  have hEntries := h.room
  omega

/-- The entry for what is left of a segment holds its whole length. -/
theorem entryOf_advance (hPieces : Pieces isRead S) {i : Nat} {g : IoSegment} (hg : S[i]? = some g)
    (d k : Nat) : entryOf (g.advance d) k = ⟨k, g.offset + d, g.pointer + d, g.len - d⟩ := by
  have hSmall := hPieces.small g (List.mem_of_getElem? hg)
  simp only [entryOf, IoSegment.advance, Entry.mk.injEq, true_and]
  exact Nat.mod_eq_of_lt (by omega)

/-- A segment that is taken up moves from the waiting ones to the pushed ones. -/
theorem submitNext_ok (hPieces : Pieces isRead S) (hRoom : io.depth ≤ io.entries)
    (h : Flight io isRead S w₀ done [] s) (hPending : s.pending < io.depth)
    (hNext : s.next < s.segments.length) :
    ∃ t, submitNext s = .ok () t ∧ Flight io isRead S w₀ done [] t ∧
      work S done [] t = work S done [] s ∧ t.next = s.next + 1 ∧ t.error = s.error ∧
      t.segments = s.segments := by
  rw [h.length] at hNext
  obtain ⟨g, hg⟩ : ∃ g, S[s.next]? = some g := ⟨_, List.getElem?_eq_getElem hNext⟩
  set e := entryOf (g.advance (done s.next)) s.next with he
  set t : UringRun :=
    { s with
      ring := { s.ring with queue := s.ring.queue ++ [e] }
      next := s.next + 1
      pending := s.pending + 1 } with ht
  have hRun : submitNext s = .ok () t := by
    rw [submitNext, bind_of_ok (get_apply s), bind_of_ok (h.segmentAt_ok hg),
      bind_of_ok (push_ok (h.queue_lt hRoom hPending))]
    rfl
  have hUnder : underWay t [] = underWay s [] ++ [s.next] := by
    simp [underWay, ht, he, entryOf]
  have hFree : s.next ∉ underWay s [] := fun hIn => absurd (h.taken _ hIn) (Nat.lt_irrefl _)
  refine ⟨t, hRun, ?_, ?_, rfl, rfl, rfl⟩
  · exact
      { segments := h.segments
        bound := hNext
        once := by
          rw [hUnder]
          exact h.once.append (List.nodup_singleton _) (by simpa using hFree)
        taken := fun i hi => by
          rw [hUnder, List.mem_append, List.mem_singleton] at hi
          rcases hi with hOld | rfl
          · exact (h.taken i hOld).trans (Nat.lt_succ_self _)
          · exact Nat.lt_succ_self _
        pending := by
          rw [hUnder, List.length_append, ← h.pending]
          rfl
        limit := hPending
        room := h.room
        entry := fun f hf => by
          rw [ht, ← List.append_assoc, List.mem_append, List.mem_singleton] at hf
          rcases hf with hOld | rfl
          · exact h.entry f hOld
          · exact ⟨g, hg, entryOf_advance hPieces hg _ _⟩
        answer := fun c hc => by cases hc
        progress := h.progress
        finished := fun hError i f hf hLt hOut => by
          rw [hUnder, List.mem_append, List.mem_singleton, not_or] at hOut
          exact h.finished hError i f hf (Nat.lt_of_le_of_ne (Nat.le_of_lt_succ hLt) hOut.2) hOut.1
        moving := h.moving
        blame := h.blame }
  · obtain ⟨k, hk⟩ : ∃ k, S.length - s.next = k + 1 := ⟨S.length - s.next - 1, by omega⟩
    have hLeft : S.length - t.next = k := by
      change S.length - (s.next + 1) = k
      omega
    rw [work, work, hUnder, hk, hLeft, List.range'_succ, List.append_assoc]
    rfl

/-- Filling stops only when the queue is full, no segment waits, or an error was seen. -/
theorem fill_ok (hPieces : Pieces isRead S) (hRoom : io.depth ≤ io.entries) (fuel : Nat) :
    ∀ s, Flight io isRead S w₀ done [] s → s.segments.length - s.next ≤ fuel →
      ∃ t, fill io.depth fuel s = .ok () t ∧ Flight io isRead S w₀ done [] t ∧
        work S done [] t = work S done [] s ∧
        ¬(t.pending < io.depth ∧ t.next < S.length ∧ t.error = none) := by
  induction fuel with
  | zero =>
      intro s h hFuel
      refine ⟨s, rfl, h, rfl, fun hMore => ?_⟩
      have hLength := h.length
      omega
  | succ fuel ih =>
      intro s h hFuel
      rw [fill, bind_of_ok (get_apply s)]
      by_cases hMore : s.pending < io.depth ∧ s.next < s.segments.length ∧ s.error = none
      · obtain ⟨u, hRun, hFlight, hWork, hNext, -, hSegments⟩ :=
          submitNext_ok hPieces hRoom h hMore.1 hMore.2.1
        obtain ⟨t, hRest, hEnd, hSame, hStop⟩ := ih u hFlight (by rw [hSegments, hNext]; omega)
        exact ⟨t, by rw [if_pos hMore, bind_of_ok hRun, hRest], hEnd, hSame.trans hWork, hStop⟩
      · exact ⟨s, by rw [if_neg hMore]; rfl, h, rfl, by rwa [← h.length]⟩

/-! What the kernel does at a wait. -/

/-- The operation that a completion answers. -/
theorem find_entry {inFlight : List Entry} {e : Entry} (hOnce : (inFlight.map Entry.userData).Nodup)
    (he : e ∈ inFlight) : inFlight.find? (fun f => f.userData == e.userData) = some e := by
  induction inFlight with
  | nil => cases he
  | cons f rest ih =>
      rw [List.map_cons, List.nodup_cons] at hOnce
      rcases List.mem_cons.mp he with rfl | hRest
      · simp
      · have hNe : f.userData ≠ e.userData := fun hSame =>
          hOnce.1 (hSame ▸ List.mem_map_of_mem hRest)
        rw [List.find?_cons_of_neg (by simpa using hNe), ih hOnce.2 hRest]

/-- An operation that is taken out of those in flight leaves the others. -/
theorem perm_filter {inFlight : List Entry} {e : Entry}
    (hOnce : (inFlight.map Entry.userData).Nodup) (he : e ∈ inFlight) :
    (inFlight.map Entry.userData).Perm
      (e.userData :: (inFlight.filter fun f => f.userData != e.userData).map Entry.userData) := by
  refine (List.perm_ext_iff_of_nodup hOnce (List.nodup_cons.mpr ⟨?_, ?_⟩)).mpr fun i => ?_
  · simp
  · exact hOnce.sublist (List.filter_sublist.map _)
  · rw [List.mem_cons, List.mem_map, List.mem_map]
    constructor
    · rintro ⟨f, hf, rfl⟩
      by_cases hSame : f.userData = e.userData
      · exact Or.inl hSame
      · exact Or.inr ⟨f, List.mem_filter.mpr ⟨hf, by simpa using hSame⟩, rfl⟩
    · rintro (rfl | ⟨f, hf, rfl⟩)
      · exact ⟨e, he, rfl⟩
      · exact ⟨f, (List.mem_filter.mp hf).1, rfl⟩

/-- A completion is fit for the operation in flight that it answers. -/
def Fits (isRead : Bool) (size : Nat) (inFlight : List Entry) (c : Completion) : Prop :=
  ∃ e ∈ inFlight, e.userData = c.userData ∧ c.result ≤ e.len ∧
    (isRead = true → 0 < e.len → 0 ≤ c.result → (c.result = 0 ↔ size ≤ e.offset))

/-- The world after the next `r` bytes of segment `i` have moved. -/
theorem Flight.world_transfer (hPieces : Pieces isRead S) (h : Flight io isRead S w₀ done answered s)
    {i r : Nat} {g : IoSegment} (hg : S[i]? = some g) (hFits : done i + r ≤ g.len) {k count : Nat}
    {other : IoSegment} (hk : S[k]? = some other) (hCount : count ≤ other.len)
    (hOld : Delivered isRead w₀ s.world other count) :
    Delivered isRead w₀ (s.world.transfer isRead (g.offset + done i) (g.pointer + done i) r)
      other count :=
  hOld.transfer hPieces hg hk hFits hCount h.moving.source

theorem Flight.size_eq (h : Flight io true S w₀ done answered s) :
    s.world.file.size = w₀.file.size := h.moving.size_read

/-- An operation that the kernel finishes is answered instead of in flight. -/
theorem perform_flight (hPieces : Pieces isRead S) (h : Flight io isRead S w₀ done answered s)
    {c : Completion} (hFits : Fits isRead s.world.file.size s.ring.inFlight c) :
    Flight io isRead S w₀ done (answered ++ [c]) (perform isRead s c) ∧
      (underWay (perform isRead s c) (answered ++ [c])).Perm (underWay s answered) ∧
      (perform isRead s c).next = s.next ∧
      (perform isRead s c).ring.inFlight =
        s.ring.inFlight.filter (fun f => f.userData != c.userData) ∧
      (isRead = true → (perform isRead s c).world.file.size = s.world.file.size) := by
  obtain ⟨e, he, hData, hResult, hEnd⟩ := hFits
  have hOnceFlight : (s.ring.inFlight.map Entry.userData).Nodup := by
    have hAll := h.once
    rw [underWay, List.map_append] at hAll
    exact (List.nodup_append.mp (List.nodup_append.mp hAll).2.1).1
  obtain ⟨g, hg, hEntry⟩ := h.entry e (List.mem_append_left _ he)
  have hLen : e.len = g.len - done e.userData := by rw [hEntry]
  have hOffset : e.offset = g.offset + done e.userData := by rw [hEntry]
  have hPointer : e.pointer = g.pointer + done e.userData := by rw [hEntry]
  have hDone := (h.progress _ g hg).1
  have hMoved : done e.userData + c.result.toNat ≤ g.len := by omega
  have hStep : perform isRead s c =
      { s with
        ring := { s.ring with inFlight := s.ring.inFlight.filter fun f => f.userData != c.userData }
        world := s.world.transfer isRead e.offset e.pointer c.result.toNat
        completed := s.completed ++ [c] } := by
    rw [perform, ← hData, find_entry hOnceFlight he, hData]
  have hPerm : (underWay (perform isRead s c) (answered ++ [c])).Perm (underWay s answered) := by
    have hFlight := perm_filter hOnceFlight he
    rw [hStep, underWay, underWay, List.map_append, List.map_append, List.map_append,
      List.append_assoc]
    refine List.Perm.append_left _ ?_
    rw [hData] at hFlight
    exact (hFlight.symm.append_right _)
  have hMem : ∀ i, i ∈ underWay (perform isRead s c) (answered ++ [c]) ↔ i ∈ underWay s answered :=
    fun i => hPerm.mem_iff
  have hKeep : ∀ {k count : Nat} {other : IoSegment}, S[k]? = some other → count ≤ other.len →
      Delivered isRead w₀ s.world other count →
      Delivered isRead w₀ (perform isRead s c).world other count := fun hk hCount hOld => by
    rw [hStep, hOffset, hPointer]
    exact h.world_transfer hPieces hg hMoved hk hCount hOld
  have hFlight : Flight io isRead S w₀ done (answered ++ [c]) (perform isRead s c) :=
    { segments := by
        rw [hStep]
        exact h.segments
      bound := by
        rw [hStep]
        exact h.bound
      once := hPerm.nodup_iff.mpr h.once
      taken := fun i hi => by
        rw [hStep]
        exact h.taken i ((hMem i).mp hi)
      pending := by
        rw [hPerm.length_eq, ← h.pending, hStep]
      limit := by
        rw [hStep]
        exact h.limit
      room := by
        rw [hStep]
        exact h.room
      entry := fun f hf => by
        rw [hStep] at hf
        rcases List.mem_append.mp hf with hIn | hQueued
        · exact h.entry f (List.mem_append_left _ (List.mem_filter.mp hIn).1)
        · exact h.entry f (List.mem_append_right _ hQueued)
      answer := fun a ha => by
        rcases List.mem_append.mp ha with hOld | hNew
        · obtain ⟨hLogged, f, hf, hLe, hPast, hThere⟩ := h.answer a hOld
          have hBelow := (h.progress _ f hf).1
          refine ⟨?_, f, hf, hLe, hPast, hKeep hf (by omega) hThere⟩
          rw [hStep]
          exact List.mem_append_left _ hLogged
        · obtain rfl : a = c := by simpa using hNew
          refine ⟨?_, g, by rw [← hData]; exact hg, by rw [← hData, ← hLen]; exact hResult, ?_, ?_⟩
          · rw [hStep]
            exact List.mem_append_right _ (List.mem_singleton_self _)
          · intro hRead hNonneg
            subst hRead
            rw [hEnd rfl (by omega) hNonneg, h.size_eq, hOffset, hData]
          · rw [hStep, hOffset, hPointer, ← hData]
            exact (h.progress _ g hg).2.extend h.moving.source
      progress := fun i f hf =>
        ⟨(h.progress i f hf).1, hKeep hf (h.progress i f hf).1.le (h.progress i f hf).2⟩
      finished := fun hError i f hf hLt hOut => by
        rw [hStep] at hError hLt
        exact hKeep hf le_rfl (h.finished hError i f hf hLt fun hIn => hOut ((hMem i).mpr hIn))
      moving := by
        rw [hStep, hOffset, hPointer]
        exact h.moving.transfer (List.mem_of_getElem? hg) hMoved
      blame := fun e hError => by
        rw [hStep] at hError ⊢
        obtain ⟨hIo, a, ha, hBad⟩ := h.blame e hError
        exact ⟨hIo, a, List.mem_append_left _ ha, hBad⟩ }
  refine ⟨hFlight, hPerm, by rw [hStep], by rw [hStep], fun hRead => ?_⟩
  rw [hStep]
  subst hRead
  exact World.size_transfer _ _ _ _ _

/-- All completions of one wait, each for an operation that is still in flight. -/
theorem performAll_flight (hPieces : Pieces isRead S) (completions : List Completion) :
    ∀ (answered : List Completion) (s : UringRun), Flight io isRead S w₀ done answered s →
      (completions.map Completion.userData).Nodup →
      (∀ c ∈ completions, Fits isRead s.world.file.size s.ring.inFlight c) →
      Flight io isRead S w₀ done (answered ++ completions) (completions.foldl (perform isRead) s) ∧
        work S done (answered ++ completions) (completions.foldl (perform isRead) s) =
          work S done answered s := by
  induction completions with
  | nil =>
      intro answered s h _ _
      rw [List.append_nil]
      exact ⟨h, rfl⟩
  | cons c rest ih =>
      intro answered s h hOnce hFits
      rw [List.map_cons, List.nodup_cons] at hOnce
      obtain ⟨hFlight, hPerm, hNext, hIn, hSize⟩ :=
        perform_flight hPieces h (hFits c List.mem_cons_self)
      have hRest : ∀ a ∈ rest,
          Fits isRead (perform isRead s c).world.file.size (perform isRead s c).ring.inFlight a := by
        intro a ha
        obtain ⟨e, he, hData, hLe, hEnd⟩ := hFits a (List.mem_cons_of_mem _ ha)
        have hNe : e.userData ≠ c.userData := fun hSame =>
          hOnce.1 (hSame ▸ hData ▸ List.mem_map_of_mem ha)
        refine ⟨e, ?_, hData, hLe, fun hRead => ?_⟩
        · rw [hIn]
          exact List.mem_filter.mpr ⟨he, by simpa using hNe⟩
        · rw [hSize hRead]
          exact hEnd hRead
      obtain ⟨hEnd, hWork⟩ := ih (answered ++ [c]) _ hFlight hOnce.2 hRest
      rw [List.append_assoc, List.singleton_append] at hEnd hWork
      exact ⟨hEnd, hWork.trans (work_congr hPerm hNext fun _ _ => rfl)⟩

/-- A wait turns everything pushed into operations in flight, and some of those
into answers that are still to be looked at. -/
theorem submitAndWait_ok (hPieces : Pieces isRead S) (kernel : Kernel)
    (h : Flight io isRead S w₀ done [] s) (hPending : s.pending ≠ 0) :
    ∃ completions t, submitAndWait kernel isRead s = .ok completions t ∧ completions ≠ [] ∧
      Flight io isRead S w₀ done completions t ∧
      work S done completions t = work S done [] s := by
  set submitted := s.ring.inFlight ++ s.ring.queue with hSubmitted
  set waiting : UringRun :=
    { s with ring := { s.ring with queue := [], inFlight := submitted }, waits := s.waits + 1 }
    with hWaiting
  have hUnder : underWay waiting [] = underWay s [] := by simp [underWay, hWaiting, hSubmitted]
  have hFlight : Flight io isRead S w₀ done [] waiting :=
    { segments := h.segments
      bound := h.bound
      once := hUnder ▸ h.once
      taken := fun i hi => h.taken i (hUnder ▸ hi)
      pending := by rw [hUnder, ← h.pending]
      limit := h.limit
      room := h.room
      entry := fun e he => h.entry e ((List.append_nil submitted).subst he)
      answer := fun c hc => by cases hc
      progress := h.progress
      finished := fun hError i g hg hLt hOut => h.finished hError i g hg hLt (hUnder ▸ hOut)
      moving := h.moving
      blame := h.blame }
  have hSome : submitted ≠ [] := fun hNil => hPending (by simp [h.pending, underWay, ← hSubmitted, hNil])
  obtain ⟨hNonempty, hOnce, hFits⟩ :=
    kernel.answers s.waits isRead s.world.file.size submitted hSome
  obtain ⟨hEnd, hWork⟩ := performAll_flight hPieces _ [] waiting hFlight hOnce hFits
  refine ⟨_, _, rfl, hNonempty, hEnd, hWork.trans (work_congr (by rw [hUnder]) rfl fun _ _ => rfl)⟩

/-! What the loop does with one answer. -/

/-- Every error of the loop is an I/O error. -/
theorem Flight.error_io (h : Flight io isRead S w₀ done answered s) {e : HeapError}
    (hError : some (s.error.getD .io) = some e) : e = .io := by
  cases hBefore : s.error with
  | none =>
      rw [hBefore] at hError
      exact (Option.some.inj hError).symm
  | some f =>
      rw [hBefore] at hError
      exact Option.some.inj hError ▸ (h.blame f hBefore).1

theorem underWay_cons (s : UringRun) (c : Completion) (rest : List Completion) :
    underWay s (c :: rest) = c.userData :: underWay s rest := rfl

/-- An answer that ends its segment, with a failure or with all bytes moved. -/
theorem Flight.retire {c : Completion} {rest : List Completion}
    (h : Flight io isRead S w₀ done (c :: rest) s) (hRing : t.ring = s.ring)
    (hSegments : t.segments = s.segments) (hNext : t.next = s.next)
    (hCompleted : t.completed = s.completed) (hPending : t.pending = s.pending - 1)
    (hMoving : Moving isRead S w₀ t.world)
    (hKeep : ∀ (k count : Nat) (other : IoSegment), S[k]? = some other → count ≤ other.len →
      Delivered isRead w₀ s.world other count → Delivered isRead w₀ t.world other count)
    (hEnd : t.error = none → s.error = none ∧
      ∀ g, S[c.userData]? = some g → Delivered isRead w₀ t.world g g.len)
    (hBlame : ∀ e, t.error = some e → e = .io ∧ ∃ a ∈ s.completed, Faulty isRead a) :
    Flight io isRead S w₀ done rest t ∧ work S done rest t + 1 ≤ work S done (c :: rest) s := by
  have hUnder : underWay t rest = underWay s rest := by rw [underWay, underWay, hRing]
  have hOnce := h.once
  rw [underWay_cons, List.nodup_cons] at hOnce
  refine ⟨?_, ?_⟩
  · exact
      { segments := fun i => by rw [hSegments, h.segments i]
        bound := by rw [hNext]; exact h.bound
        once := by rw [hUnder]; exact hOnce.2
        taken := fun i hi => by
          rw [hUnder] at hi
          rw [hNext]
          exact h.taken i (by rw [underWay_cons]; exact List.mem_cons_of_mem _ hi)
        pending := by
          rw [hPending, h.pending, hUnder, underWay_cons, List.length_cons, Nat.add_sub_cancel]
        limit := by
          rw [hPending]
          exact (Nat.sub_le _ _).trans h.limit
        room := by rw [hRing]; exact h.room
        entry := by rw [hRing]; exact h.entry
        answer := fun a ha => by
          obtain ⟨hLogged, g, hg, hLe, hPast, hThere⟩ := h.answer a (List.mem_cons_of_mem _ ha)
          have hBelow := (h.progress _ g hg).1
          exact ⟨hCompleted ▸ hLogged, g, hg, hLe, hPast, hKeep _ _ g hg (by omega) hThere⟩
        progress := fun i g hg =>
          ⟨(h.progress i g hg).1, hKeep i _ g hg (h.progress i g hg).1.le (h.progress i g hg).2⟩
        finished := fun hError i g hg hLt hOut => by
          obtain ⟨hBefore, hMine⟩ := hEnd hError
          rw [hUnder] at hOut
          rw [hNext] at hLt
          by_cases hSame : i = c.userData
          · exact hMine g (hSame ▸ hg)
          · refine hKeep i _ g hg le_rfl (h.finished hBefore i g hg hLt ?_)
            rw [underWay_cons, List.mem_cons, not_or]
            exact ⟨hSame, hOut⟩
        moving := hMoving
        blame := fun e hError => by rw [hCompleted]; exact hBlame e hError }
  · rw [work, work, hUnder, hNext, underWay_cons, List.cons_append, List.map_cons, List.sum_cons,
      weight, Nat.add_comm]
    omega

/-- Moving bytes of one segment lowers the rest of the work by as many. -/
theorem work_advance {i r : Nat} {g : IoSegment} {U : List Nat} (hg : S[i]? = some g)
    (hr : r ≤ g.len - done i) (hOut : i ∉ U) :
    ((i :: U).map (weight S (Function.update done i (done i + r)))).sum + r =
      ((i :: U).map (weight S done)).sum := by
  have hSame : U.map (weight S (Function.update done i (done i + r))) = U.map (weight S done) :=
    List.map_congr_left fun k hk => by
      have hNe : k ≠ i := fun hEq => hOut (hEq ▸ hk)
      rw [weight, weight, Function.update_of_ne hNe]
  rw [List.map_cons, List.map_cons, List.sum_cons, List.sum_cons, hSame, weight, weight,
    Function.update_self, hg, Option.map_some, Option.getD_some]
  omega

/-- A short answer puts the rest of its segment back into the queue. -/
theorem Flight.resubmit (hPieces : Pieces isRead S) {c : Completion} {rest : List Completion}
    {g : IoSegment} (h : Flight io isRead S w₀ done (c :: rest) s) (hg : S[c.userData]? = some g)
    (hSome : 0 < c.result.toNat) (hShort : c.result.toNat < g.len - done c.userData)
    (hSegments : t.segments =
      s.segments.set c.userData (g.advance (done c.userData + c.result.toNat)))
    (hRing : t.ring = { s.ring with queue := s.ring.queue ++
      [entryOf (g.advance (done c.userData + c.result.toNat)) c.userData] })
    (hNext : t.next = s.next) (hCompleted : t.completed = s.completed)
    (hPending : t.pending = s.pending) (hWorld : t.world = s.world) (hError : t.error = s.error) :
    ∃ done', Flight io isRead S w₀ done' rest t ∧
      work S done' rest t + 1 ≤ work S done (c :: rest) s := by
  set i := c.userData with hi
  set r := c.result.toNat with hr
  set e := entryOf (g.advance (done i + r)) i with he
  have hUnder : (underWay t rest).Perm (underWay s (c :: rest)) := by
    rw [underWay_cons, underWay, underWay, hRing, ← List.append_assoc, List.map_append,
      ← List.append_assoc, List.map_singleton]
    exact List.perm_append_singleton _ _
  have hMem : ∀ k, k ∈ underWay t rest ↔ k ∈ underWay s (c :: rest) := fun k => hUnder.mem_iff
  have hOnce := h.once
  rw [underWay_cons, List.nodup_cons] at hOnce
  have hLt : i < s.next := h.taken i (by rw [underWay_cons]; exact List.mem_cons_self)
  have hOther : ∀ k ∈ underWay s rest, Function.update done i (done i + r) k = done k :=
    fun k hk => by
      refine Function.update_of_ne (fun hEq => hOnce.1 ?_) _ _
      rw [← hi, ← hEq]
      exact hk
  have hMine : Function.update done i (done i + r) i = done i + r := Function.update_self _ _ _
  have hSet : ∀ k : Nat, t.segments[k]? =
      (S[k]?).map fun g : IoSegment => g.advance (Function.update done i (done i + r) k) := fun k => by
    rw [hSegments, List.getElem?_set]
    by_cases hSame : i = k
    · subst hSame
      have hIn : i < s.segments.length := by
        rw [h.length]
        exact (List.getElem?_eq_some_iff.mp hg).1
      rw [if_pos rfl, if_pos hIn, hg, Option.map_some, hMine]
    · rw [if_neg hSame, h.segments k, Function.update_of_ne (Ne.symm hSame)]
  refine ⟨Function.update done i (done i + r), ?_, ?_⟩
  · exact
      { segments := hSet
        bound := by rw [hNext]; exact h.bound
        once := hUnder.nodup_iff.mpr h.once
        taken := fun k hk => by
          rw [hNext]
          exact h.taken k ((hMem k).mp hk)
        pending := by rw [hPending, h.pending, hUnder.length_eq]
        limit := by rw [hPending]; exact h.limit
        room := by rw [hRing]; exact h.room
        entry := fun f hf => by
          rw [hRing, ← List.append_assoc, List.mem_append, List.mem_singleton] at hf
          rcases hf with hOld | rfl
          · have hIn : f.userData ∈ underWay s rest :=
              List.mem_append_right _ (List.mem_map_of_mem hOld)
            rw [hOther _ hIn]
            exact h.entry f hOld
          · refine ⟨g, hg, ?_⟩
            change e = ⟨i, g.offset + Function.update done i (done i + r) i,
              g.pointer + Function.update done i (done i + r) i,
              g.len - Function.update done i (done i + r) i⟩
            rw [hMine]
            exact entryOf_advance hPieces hg _ _
        answer := fun a ha => by
          have hIn : a.userData ∈ underWay s rest :=
            List.mem_append_left _ (List.mem_map_of_mem ha)
          rw [hOther _ hIn, hCompleted, hWorld]
          exact h.answer a (List.mem_cons_of_mem _ ha)
        progress := fun k f hf => by
          rw [hWorld]
          by_cases hSame : k = i
          · subst hSame
            obtain rfl : g = f := Option.some.inj (hg.symm.trans hf)
            obtain ⟨-, f, hf', -, -, hThere⟩ := h.answer c List.mem_cons_self
            obtain rfl : g = f := Option.some.inj (hg.symm.trans hf')
            rw [hMine]
            exact ⟨by omega, hThere⟩
          · rw [Function.update_of_ne hSame]
            exact h.progress k f hf
        finished := fun hNone k f hf hBelow hOut => by
          rw [hError] at hNone
          rw [hNext] at hBelow
          rw [hWorld]
          exact h.finished hNone k f hf hBelow fun hIn => hOut ((hMem k).mpr hIn)
        moving := by rw [hWorld]; exact h.moving
        blame := by rw [hError, hCompleted]; exact h.blame }
  · have hRange : i ∉ underWay s rest ++ List.range' s.next (S.length - s.next) := by
      rw [List.mem_append, List.mem_range'_1, not_or]
      exact ⟨hOnce.1, by omega⟩
    have hWork := work_advance hg (show r ≤ g.len - done i by omega) hRange
    have hPerm := ((hUnder.append_right (List.range' s.next (S.length - s.next))).map
      (weight S (Function.update done i (done i + r)))).sum_nat
    have hCons : underWay s (c :: rest) = i :: underWay s rest := rfl
    rw [hCons, List.cons_append] at hPerm
    rw [work, work, hNext, hPerm, hCons, List.cons_append]
    omega

theorem subU64_ok {a b : Nat} (hLe : b ≤ a) (s : UringRun) :
    subU64 (σ := UringRun) a b s = .ok (a - b) s := by
  rw [subU64, if_neg (by omega)]
  rfl

/-- One answer is looked at without a panic, and leaves less work. -/
theorem complete_ok (hPieces : Pieces isRead S) (hRoom : io.depth ≤ io.entries) {c : Completion}
    {rest : List Completion} (h : Flight io isRead S w₀ done (c :: rest) s) :
    ∃ done' t, complete isRead c s = .ok () t ∧ Flight io isRead S w₀ done' rest t ∧
      work S done' rest t + 1 ≤ work S done (c :: rest) s := by
  obtain ⟨hLogged, g, hg, hLe, hPast, hThere⟩ := h.answer c List.mem_cons_self
  have hBelow := (h.progress _ g hg).1
  have hPos : 1 ≤ s.pending := by
    rw [h.pending, underWay_cons, List.length_cons]
    omega
  have hSame : ∀ (k count : Nat) (other : IoSegment), S[k]? = some other → count ≤ other.len →
      Delivered isRead w₀ s.world other count → Delivered isRead w₀ s.world other count :=
    fun _ _ _ _ _ hOld => hOld
  have hSegment : segmentAt c.userData { s with pending := s.pending - 1 } =
      .ok (g.advance (done c.userData)) { s with pending := s.pending - 1 } := by
    rw [segmentAt, h.segments, hg]
    rfl
  rw [complete, bind_of_ok (get_apply s), bind_of_ok (subU64_ok hPos s),
    bind_of_ok (modify_apply _ s), bind_of_ok hSegment]
  -- a negative result ends the segment with an error
  by_cases hNegative : c.result < 0
  · rw [if_pos hNegative]
    have hRetired := h.retire (t := noteError { s with pending := s.pending - 1 }) rfl rfl rfl rfl rfl
      h.moving hSame (fun hNone => by cases hNone)
      fun e hError => ⟨h.error_io hError, c, hLogged, Or.inl hNegative⟩
    exact ⟨done, _, rfl, hRetired⟩
  rw [if_neg hNegative, bind_of_ok (modify_apply _ _), bind_of_ok (get_apply _)]
  have hResult : ((c.result.toNat : Nat) : Int) = c.result := Int.toNat_of_nonneg (by omega)
  set counted : UringRun :=
    { s with pending := s.pending - 1, counters := s.counters.note isRead c.result.toNat }
    with hCounted
  by_cases hEnd : c.result.toNat = (g.advance (done c.userData)).len ∨ counted.error.isSome
  · rw [if_pos hEnd]
    have hRetired := h.retire (t := counted) rfl rfl rfl rfl rfl h.moving hSame
      (fun hNone => ⟨hNone, fun f hf => by
        obtain rfl : g = f := Option.some.inj (hg.symm.trans hf)
        have hWhole : done c.userData + c.result.toNat = g.len := by
          rcases hEnd with hAll | hError
          · rw [hAll, IoSegment.advance]
            simp only
            omega
          · rw [hNone] at hError
            cases hError
        exact hWhole ▸ hThere⟩) h.blame
    exact ⟨done, _, rfl, hRetired⟩
  rw [if_neg hEnd]
  rw [not_or] at hEnd
  by_cases hEof : isRead = true ∧ c.result.toNat = 0
  · rw [if_pos hEof]
    obtain ⟨hRead, hNone⟩ := hEof
    subst hRead
    have hAtEnd : s.world.file.size ≤ g.offset + done c.userData := by
      rw [h.size_eq]
      exact (hPast rfl (by omega)).mp (by omega)
    have hFill : s.world.fillZero (g.pointer + done c.userData) (g.len - done c.userData) =
        s.world.transfer true (g.offset + done c.userData) (g.pointer + done c.userData)
          (g.len - done c.userData) := s.world.fillZero_eq hAtEnd
    have hFits : done c.userData + (g.len - done c.userData) ≤ g.len := by omega
    have hRetired := h.retire (t := { counted with
        world := s.world.fillZero (g.pointer + done c.userData) (g.len - done c.userData) })
      rfl rfl rfl rfl rfl
      (by rw [hFill]; exact h.moving.transfer (List.mem_of_getElem? hg) hFits)
      (fun k count other hk hCount hOld => by
        rw [hFill]
        exact h.world_transfer hPieces hg hFits hk hCount hOld)
      (fun hNoError => ⟨hNoError, fun f hf => by
        obtain rfl : g = f := Option.some.inj (hg.symm.trans hf)
        have hWhole := (h.progress _ g hg).2.extend h.moving.source (r := g.len - done c.userData)
        rw [hFill]
        rwa [show done c.userData + (g.len - done c.userData) = g.len by omega] at hWhole⟩)
      h.blame
    exact ⟨done, _, rfl, hRetired⟩
  rw [if_neg hEof]
  by_cases hZero : ¬isRead = true ∧ c.result.toNat = 0
  · rw [if_pos hZero]
    have hRetired := h.retire (t := noteError counted) rfl rfl rfl rfl rfl h.moving hSame
      (fun hNone => by cases hNone)
      fun e hError =>
        ⟨h.error_io hError, c, hLogged, Or.inr ⟨by simpa using hZero.1, by omega⟩⟩
    exact ⟨done, _, rfl, hRetired⟩
  rw [if_neg hZero]
  have hSome : 0 < c.result.toNat := by
    rcases Nat.eq_zero_or_pos c.result.toNat with hNone | hPos
    · cases isRead
      · exact absurd ⟨by decide, hNone⟩ hZero
      · exact absurd ⟨rfl, hNone⟩ hEof
    · exact hPos
  have hShort : c.result.toNat < g.len - done c.userData := by
    have hLen : (g.advance (done c.userData)).len = g.len - done c.userData := rfl
    have hNe := hEnd.1
    rw [hLen] at hNe
    omega
  have hQueue : s.ring.queue.length < s.ring.entries := by
    have hCount := h.pending
    rw [underWay_cons, List.length_cons, underWay, List.length_append, List.length_map,
      List.length_map, List.length_append] at hCount
    have hEntries := h.room
    have hLimit := h.limit
    omega
  rw [bind_of_ok (subU64_ok (show c.result.toNat ≤ (g.advance (done c.userData)).len from hShort.le)
      counted), bind_of_ok (modify_apply _ _), bind_of_ok (push_ok (by exact hQueue))]
  have hAdvance : (g.advance (done c.userData)).advance c.result.toNat =
      g.advance (done c.userData + c.result.toNat) := IoSegment.advance_advance _ _ _
  rw [IoSegment.advance] at hAdvance
  simp only [hAdvance]
  obtain ⟨done', hFlight⟩ := h.resubmit hPieces
    (t := { updateSegment c.userData (g.advance (done c.userData + c.result.toNat)) counted with
      ring := { s.ring with queue := s.ring.queue ++
        [entryOf (g.advance (done c.userData + c.result.toNat)) c.userData] }
      pending := s.pending - 1 + 1 })
    hg hSome hShort rfl rfl rfl rfl (by simp only; omega) rfl rfl
  exact ⟨done', _, rfl, hFlight⟩

theorem completeAll_ok (hPieces : Pieces isRead S) (hRoom : io.depth ≤ io.entries)
    (completions : List Completion) : ∀ (done : Nat → Nat) (s : UringRun),
      Flight io isRead S w₀ done completions s →
      ∃ done' t, completeAll isRead completions s = .ok () t ∧ Flight io isRead S w₀ done' [] t ∧
        work S done' [] t + completions.length ≤ work S done completions s := by
  induction completions with
  | nil => exact fun done s h => ⟨done, s, rfl, h, le_rfl⟩
  | cons c rest ih =>
      intro done s h
      obtain ⟨done₁, u, hFirst, hFlight, hLess⟩ := complete_ok hPieces hRoom h
      obtain ⟨done₂, t, hRest, hEnd, hWork⟩ := ih done₁ u hFlight
      refine ⟨done₂, t, by rw [completeAll, bind_of_ok hFirst, hRest], hEnd, ?_⟩
      rw [List.length_cons]
      omega

/-- The loop ends, with nothing under way, before it has waited more often than
there is work; unless an error was seen every segment was taken up. -/
theorem rounds_ok (hPieces : Pieces isRead S) (hRoom : io.depth ≤ io.entries) (hDepth : 0 < io.depth)
    (kernel : Kernel) (fuel : Nat) : ∀ (done : Nat → Nat) (s : UringRun),
      Flight io isRead S w₀ done [] s → work S done [] s < fuel →
      ∃ done' t, rounds io kernel isRead fuel s = .ok true t ∧ Flight io isRead S w₀ done' [] t ∧
        t.pending = 0 ∧ (t.error = none → t.next = S.length) := by
  induction fuel with
  | zero => exact fun _ _ _ hFuel => absurd hFuel (Nat.not_lt_zero _)
  | succ fuel ih =>
      intro done s h hFuel
      rw [rounds, bind_of_ok (get_apply s)]
      by_cases hMore : s.next < s.segments.length ∨ 0 < s.pending
      swap
      · refine ⟨done, s, by rw [if_neg hMore]; rfl, h, by omega, fun _ => ?_⟩
        have hLength := h.length
        have hBound := h.bound
        omega
      rw [if_pos hMore]
      obtain ⟨u, hFill, hFlight, hWork, hStop⟩ := fill_ok hPieces hRoom _ s h le_rfl
      rw [bind_of_ok hFill, bind_of_ok (get_apply u)]
      by_cases hIdle : u.pending = 0
      · refine ⟨done, u, by rw [if_pos hIdle]; rfl, hFlight, hIdle, fun hNone => ?_⟩
        have hBound := hFlight.bound
        by_contra hNext
        exact hStop ⟨by omega, by omega, hNone⟩
      rw [if_neg hIdle]
      obtain ⟨completions, v, hWait, hSome, hAnswered, hSame⟩ :=
        submitAndWait_ok hPieces kernel hFlight hIdle
      obtain ⟨done₁, x, hAll, hNext, hLess⟩ := completeAll_ok hPieces hRoom completions done v hAnswered
      have hOne : 0 < completions.length := List.length_pos_of_ne_nil hSome
      obtain ⟨done₂, t, hRest, hEnd⟩ := ih done₁ x hNext (by omega)
      exact ⟨done₂, t, by rw [bind_of_ok hWait, bind_of_ok hAll, hRest], hEnd⟩

end

end HeapStore.BlockIo.UringIo
