import HeapStore.BlockIo.SyncIo

/-! What moving bytes between file and memory does, in one step or in pieces,
and the blocking backend as the whole of each request moved in turn. -/
namespace HeapStore.BlockIo

open Effect

variable {isRead : Bool} {w : World}

theorem file_ext {f g : File} (hBytes : f.bytes = g.bytes) (hSize : f.size = g.size) : f = g := by
  cases f
  cases g
  subst hBytes hSize
  rfl

/-- Bytes past the end of the file read as zeros. -/
theorem read_past (f : File) {off count : Nat} (h : f.size ≤ off) :
    Image.read f.bytes off count = List.replicate count 0 := by
  apply List.ext_getElem (by simp)
  intro i hLeft hRight
  rw [Image.getElem_read, List.getElem_replicate]
  exact f.zero_past _ (by omega)

theorem bytes_write (f : File) (off : Nat) (buf : Bytes) :
    (f.write off buf).bytes = Image.write f.bytes off buf := by
  unfold HeapStore.File.write
  by_cases hNil : buf.isEmpty
  · rw [if_pos hNil, List.isEmpty_iff.mp hNil, Image.write_nil]
  · rw [if_neg hNil]

theorem size_write (f : File) (off : Nat) (buf : Bytes) :
    (f.write off buf).size = if buf.length = 0 then f.size else max f.size (off + buf.length) := by
  unfold HeapStore.File.write
  by_cases hNil : buf.length = 0
  · rw [if_pos hNil, if_pos (by simpa using hNil)]
  · rw [if_neg hNil, if_neg (by simpa using hNil)]

namespace World

@[simp] theorem source_transfer (w : World) (isRead : Bool) (offset pointer count : Nat) :
    (w.transfer isRead offset pointer count).source isRead = w.source isRead := by
  cases isRead <;> rfl

theorem target_transfer (w : World) (isRead : Bool) (offset pointer count : Nat) :
    (w.transfer isRead offset pointer count).target isRead =
      Image.write (w.target isRead) (dest isRead offset pointer)
        (Image.read (w.source isRead) (origin isRead offset pointer) count) := by
  cases isRead
  · exact bytes_write _ _ _
  · rfl

/-- The size that a file has after an operation of this length. -/
def grown (isRead : Bool) (size offset count : Nat) : Nat :=
  if isRead ∨ count = 0 then size else max size (offset + count)

theorem size_transfer (w : World) (isRead : Bool) (offset pointer count : Nat) :
    (w.transfer isRead offset pointer count).file.size =
      grown isRead w.file.size offset count := by
  cases isRead
  · simp [transfer, grown, size_write]
  · simp [transfer, grown]

/-- Worlds are told apart by what an operation reads, writes and extends. -/
theorem ext_of (isRead : Bool) {w v : World} (hSource : w.source isRead = v.source isRead)
    (hTarget : w.target isRead = v.target isRead) (hSize : w.file.size = v.file.size) : w = v := by
  cases w with
  | mk file memory =>
      cases v with
      | mk file' memory' =>
          cases isRead
          · rw [World.mk.injEq]
            exact ⟨file_ext hTarget hSize, hSource⟩
          · rw [World.mk.injEq]
            exact ⟨file_ext hSource hSize, hTarget⟩

@[simp] theorem transfer_zero (w : World) (isRead : Bool) (offset pointer : Nat) :
    w.transfer isRead offset pointer 0 = w := by
  refine ext_of isRead (source_transfer _ _ _ _ _) ?_ ?_
  · rw [target_transfer, Image.read_zero, Image.write_nil]
  · simp [size_transfer, grown]

/-- An operation may be cut in two. -/
theorem transfer_add (w : World) (isRead : Bool) (offset pointer m n : Nat) :
    (w.transfer isRead offset pointer m).transfer isRead (offset + m) (pointer + m) n =
      w.transfer isRead offset pointer (m + n) := by
  refine ext_of isRead (by simp) ?_ ?_
  · rw [target_transfer, target_transfer, target_transfer, source_transfer, Image.read_add,
      Image.write_append, Image.length_read]
    cases isRead <;> rfl
  · rw [size_transfer, size_transfer, size_transfer]
    cases isRead
    · simp only [grown, Bool.false_eq_true, false_or]
      split_ifs <;> omega
    · simp [grown]

/-- Past the end of the file, filling with zeros is reading. -/
theorem fillZero_eq (w : World) {offset pointer count : Nat} (h : w.file.size ≤ offset) :
    w.fillZero pointer count = w.transfer true offset pointer count := by
  rw [fillZero, transfer, if_pos rfl, read_past w.file h]

end World

namespace SyncIo

variable (kernel : Positioned)

/-- However short the calls, the rest of a read request is served as one move. -/
theorem readRest_ok (r : BlockReq) (done : Nat) (s : SyncRun) :
    ∃ t, readRest kernel r done s = .ok () t ∧
      t.world = s.world.transfer true (r.off + done) (r.pointer + done) (r.len - done) := by
  induction done using readRest.induct r generalizing s with
  | case1 done hMore ih =>
      rw [readRest, if_pos hMore, bind_of_ok (rfl : callAt kernel true _ _ _ s = _),
        bind_of_ok (modify_apply _ _)]
      set count := kernel.processed s.calls true s.world.file.size (r.off + done) (r.len - done)
        with hCount
      have hLe : count ≤ r.len - done := kernel.le_len _ _ _ _ _
      by_cases hNone : count = 0
      · rw [dif_pos hNone]
        have hPast : s.world.file.size ≤ r.off + done :=
          (kernel.read_zero _ _ _ _ (by omega)).mp (hCount ▸ hNone)
        refine ⟨_, rfl, ?_⟩
        simp only [hNone, World.transfer_zero]
        exact s.world.fillZero_eq hPast
      · rw [dif_neg hNone]
        obtain ⟨t, hRun, hWorld⟩ := ih count hNone
          { s with
            world := s.world.transfer true (r.off + done) (r.pointer + done) count
            calls := s.calls + 1
            counters := s.counters.note true count }
        refine ⟨t, hRun, hWorld.trans ?_⟩
        rw [← Nat.add_assoc, ← Nat.add_assoc, World.transfer_add]
        congr 1
        omega
  | case2 done hDone =>
      rw [readRest, if_neg hDone]
      refine ⟨s, rfl, ?_⟩
      rw [show r.len - done = 0 by omega, World.transfer_zero]

theorem writeRest_ok (r : BlockReq) (done : Nat) (s : SyncRun) :
    ∃ t, writeRest kernel r done s = .ok () t ∧
      t.world = s.world.transfer false (r.off + done) (r.pointer + done) (r.len - done) := by
  induction done using writeRest.induct r generalizing s with
  | case1 done hMore ih =>
      rw [writeRest, if_pos hMore, bind_of_ok (rfl : callAt kernel false _ _ _ s = _)]
      set count := kernel.processed s.calls false s.world.file.size (r.off + done) (r.len - done)
      have hLe : count ≤ r.len - done := kernel.le_len _ _ _ _ _
      have hSome : count ≠ 0 := kernel.write_some _ _ _ _ (by omega)
      rw [dif_neg hSome, bind_of_ok (modify_apply _ _)]
      obtain ⟨t, hRun, hWorld⟩ := ih count hSome
        { s with
          world := s.world.transfer false (r.off + done) (r.pointer + done) count
          calls := s.calls + 1
          counters := s.counters.note false count }
      refine ⟨t, hRun, hWorld.trans ?_⟩
      rw [← Nat.add_assoc, ← Nat.add_assoc, World.transfer_add]
      congr 1
      omega
  | case2 done hDone =>
      rw [writeRest, if_neg hDone]
      refine ⟨s, rfl, ?_⟩
      rw [show r.len - done = 0 by omega, World.transfer_zero]

/-- Blocking reads fill every buffer from the file. -/
theorem readVec_ok (requests : List BlockReq) (s : SyncRun) :
    ∃ t, readVec kernel requests s = .ok () t ∧ t.world = s.world.served true requests := by
  induction requests generalizing s with
  | nil => exact ⟨s, rfl, rfl⟩
  | cons r rest ih =>
      obtain ⟨u, hFirst, hMoved⟩ := readRest_ok kernel r 0 s
      obtain ⟨t, hRest, hWorld⟩ := ih u
      refine ⟨t, by rw [readVec, bind_of_ok hFirst, hRest], ?_⟩
      rw [hWorld, hMoved]
      rfl

/-- Blocking writes store every buffer to the file. -/
theorem writeVec_ok (requests : List BlockReq) (s : SyncRun) :
    ∃ t, writeVec kernel requests s = .ok () t ∧ t.world = s.world.served false requests := by
  induction requests generalizing s with
  | nil => exact ⟨s, rfl, rfl⟩
  | cons r rest ih =>
      obtain ⟨u, hFirst, hMoved⟩ := writeRest_ok kernel r 0 s
      obtain ⟨t, hRest, hWorld⟩ := ih u
      refine ⟨t, by rw [writeVec, bind_of_ok hFirst, hRest], ?_⟩
      rw [hWorld, hMoved]
      rfl

end SyncIo

end HeapStore.BlockIo
