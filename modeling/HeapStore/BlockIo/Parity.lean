import HeapStore.BlockIo.Flight

/-! The asynchronous backend against the blocking one: under every kernel it
ends, leaves nothing in flight, and moves the same bytes. -/
namespace HeapStore.BlockIo

open Effect UringIo

/-- Nothing is pushed or in flight, and nothing is counted as such. -/
structure Idle (s : UringRun) : Prop where
  queue : s.ring.queue = []
  inFlight : s.ring.inFlight = []
  pending : s.pending = 0

/-- How a served request list ends: idle, and either completed with this world
or failed on a completion that is an error. -/
def Settles (isRead : Bool) (world : World) : EStateM.Result Failure UringRun Bool → Prop
  | .ok ended t => ended = true ∧ Idle t ∧ t.world = world
  | .error e t => e = .error .io ∧ Idle t ∧ ∃ c ∈ t.completed, Faulty isRead c

/-- One wait for each byte of the segments, and one more for each segment. -/
def waitLimit (io : UringIo) (requests : List BlockReq) : Nat :=
  ((io.segmentsOf requests).map fun g => g.len + 1).sum

namespace UringIo

variable {io : UringIo} {isRead : Bool} {requests : List BlockReq} {w : World}

theorem new_ok {depth chunk : Nat} (h : UringIo.new depth chunk = .ok io) :
    0 < chunk ∧ io.chunk = chunk ∧ 0 < io.depth ∧ io.depth ≤ io.entries := by
  unfold UringIo.new at h
  split at h
  · cases h
  · rename_i hPos
    cases h
    exact ⟨Nat.pos_of_ne_zero hPos, rfl, Nat.lt_of_lt_of_le Nat.one_pos (le_max_right _ _),
      Nat.le_pow_clog (by decide) _⟩

theorem work_start (io : UringIo) (w : World) (requests : List BlockReq) :
    work (io.segmentsOf requests) (fun _ => 0) [] (io.start w requests) = waitLimit io requests := by
  rw [work, waitLimit]
  congr 1
  apply List.ext_getElem
  · simp [underWay, start]
  · intro i hLeft hRight
    simp only [List.length_map] at hRight
    simp [underWay, start, weight, hRight]

theorem Flight.idle {S : List IoSegment} {done : Nat → Nat} {s : UringRun}
    (h : Flight io isRead S w done [] s) (hPending : s.pending = 0) : Idle s := by
  have hNone := h.pending
  rw [hPending, underWay, List.map_nil, List.nil_append, List.length_map, List.length_append]
    at hNone
  exact ⟨List.eq_nil_of_length_eq_zero (by omega), List.eq_nil_of_length_eq_zero (by omega), hPending⟩

theorem run_of_rounds {kernel : Kernel} {fuel : Nat} {s t : UringRun}
    (h : rounds io kernel isRead fuel s = .ok true t) : io.run kernel isRead fuel s =
      match t.error with
      | some e => .error (.error e) t
      | none => .ok true t := by
  rw [run, bind_of_ok h, bind_of_ok (get_apply t)]
  cases t.error <;> rfl

/-- The run on the segments of separate requests ends with the requests served. -/
theorem run_settles (hDepth : 0 < io.depth) (hRoom : io.depth ≤ io.entries) (hChunk : 0 < io.chunk)
    (hSmall : io.chunk < 2 ^ 32) (kernel : Kernel) (hApart : Apart isRead requests) {fuel : Nat}
    (hFuel : waitLimit io requests < fuel) :
    Settles isRead (w.served isRead requests) (io.run kernel isRead fuel (io.start w requests)) := by
  have hPieces := segmentsOf_pieces hSmall hApart
  obtain ⟨done, t, hRun, hFlight, hPending, hTaken⟩ :=
    rounds_ok hPieces hRoom hDepth kernel fuel _ _ (start_flight hPieces w rfl)
      (by rwa [work_start])
  have hIdle := hFlight.idle hPending
  rw [run_of_rounds hRun]
  cases hError : t.error with
  | some e =>
      obtain ⟨rfl, hFault⟩ := hFlight.blame e hError
      exact ⟨rfl, hIdle, hFault⟩
  | none =>
      refine ⟨rfl, hIdle, ?_⟩
      have hNobody : underWay t [] = [] := by simp [underWay, hIdle.queue, hIdle.inFlight]
      obtain ⟨hMoving, hAll⟩ := moveAll_delivered hPieces (io.segmentsOf requests) [] w rfl
        (.refl _ w) fun g hg => by cases hg
      rw [moveAll_segmentsOf hChunk] at hMoving hAll
      refine eq_of_delivered hFlight.moving hMoving hPieces.pos (fun g hg => ?_) hAll
      obtain ⟨i, hi⟩ := List.mem_iff_getElem?.mp hg
      refine hFlight.finished hError i g hi ?_ (by rw [hNobody]; exact List.not_mem_nil)
      rw [hTaken hError]
      exact (List.getElem?_eq_some_iff.mp hi).1

end UringIo

/-- Read and write requests served through the ring, under any kernel, end as
the blocking backend serves them, however short its calls are answered. -/
theorem uring_matches_sync {depth chunk : Nat} {io : UringIo}
    (hNew : UringIo.new depth chunk = .ok io) (hChunk : chunk < 2 ^ 32) (kernel : Kernel)
    (positioned : Positioned) (w : World) :
    (∀ reads : List BlockReq, Apart true reads → ∀ fuel > waitLimit io reads,
      ∃ s, SyncIo.readVec positioned reads ⟨w, .zero, 0⟩ = .ok () s ∧
        Settles true s.world (io.readVec kernel fuel reads w)) ∧
    (∀ writes : List BlockReq, Apart false writes → ∀ fuel > waitLimit io writes,
      ∃ s, SyncIo.writeVec positioned writes ⟨w, .zero, 0⟩ = .ok () s ∧
        Settles false s.world (io.writeVec kernel fuel writes w)) := by
  obtain ⟨hPos, rfl, hDepth, hRoom⟩ := new_ok hNew
  constructor
  · intro reads hApart fuel hFuel
    obtain ⟨s, hRun, hWorld⟩ := SyncIo.readVec_ok positioned reads ⟨w, .zero, 0⟩
    exact ⟨s, hRun, hWorld ▸ run_settles hDepth hRoom hPos hChunk kernel hApart hFuel⟩
  · intro writes hApart fuel hFuel
    obtain ⟨s, hRun, hWorld⟩ := SyncIo.writeVec_ok positioned writes ⟨w, .zero, 0⟩
    exact ⟨s, hRun, hWorld ▸ run_settles hDepth hRoom hPos hChunk kernel hApart hFuel⟩

/-- A kernel that moves one byte at a time, of the operation longest in flight. -/
def Kernel.bytewise : Kernel where
  completions _ isRead size inFlight :=
    match inFlight with
    | [] => []
    | e :: _ => [⟨e.userData, if isRead ∧ size ≤ e.offset then 0 else (min 1 e.len : Nat)⟩]
  answers := fun wait isRead size inFlight hSome => by
    cases inFlight with
    | nil => exact absurd rfl hSome
    | cons e rest =>
        refine ⟨by simp, by simp, fun c hc => ?_⟩
        obtain rfl := List.mem_singleton.mp hc
        refine ⟨e, List.mem_cons_self, rfl, ?_, fun hRead hPos _ => ?_⟩
        · dsimp only
          split <;> omega
        · subst hRead
          by_cases hEnd : size ≤ e.offset
          · simp [hEnd]
          · simp only [hEnd, and_false, if_false, iff_false]
            omega

/-- Positioned calls that move one byte at a time. -/
def Positioned.bytewise : Positioned where
  processed _ isRead size offset len := if isRead ∧ size ≤ offset then 0 else min 1 len
  le_len := fun _ _ _ _ _ => by split <;> omega
  read_zero := fun _ size offset len hPos => by
    by_cases hEnd : size ≤ offset
    · simp [hEnd]
    · simp only [hEnd, and_false, if_false, iff_false]
      omega
  write_some := fun _ _ _ len hPos => by simp; omega

/-- Writes to two separate places, and an empty one within the first, through a ring
for one operation: every operation is answered short many times. -/
theorem uring_matches_sync_bytewise :
    ∃ io : UringIo, UringIo.new 0 3 = .ok io ∧
      ∃ s, SyncIo.writeVec .bytewise [⟨0, 0, 4, by decide⟩, ⟨8, 4, 2, by decide⟩, ⟨1, 0, 0, by decide⟩]
          ⟨⟨.empty, fun _ => 1⟩, .zero, 0⟩ = .ok () s ∧
        Settles false s.world (io.writeVec .bytewise
          (waitLimit io [⟨0, 0, 4, by decide⟩, ⟨8, 4, 2, by decide⟩, ⟨1, 0, 0, by decide⟩] + 1)
          [⟨0, 0, 4, by decide⟩, ⟨8, 4, 2, by decide⟩, ⟨1, 0, 0, by decide⟩] ⟨.empty, fun _ => 1⟩) := by
  obtain ⟨io, hNew⟩ : ∃ io, UringIo.new 0 3 = .ok io := ⟨_, rfl⟩
  refine ⟨io, hNew, ?_⟩
  exact (uring_matches_sync hNew (by decide) .bytewise .bytewise ⟨.empty, fun _ => 1⟩).2 _
    (by simp [Apart, dest]) _ (Nat.lt_succ_self _)

end HeapStore.BlockIo
