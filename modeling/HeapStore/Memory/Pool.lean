import HeapStore.BlockIo.Requests
import HeapStore.Library.Runs
import HeapStore.Memory.AlignedBuf
import HeapStore.Storage.Stage

/-! The buffers that a paged file takes and gives back, with the pool that keeps
their memory for reuse. Whoever uses them sees byte lists. -/
namespace HeapStore

open Effect Allocation

def MAX_POOLED_BUFFERS : Nat := 16

def MAX_POOLED_BUFFER_CAPACITY : Nat := 8 * 2 ^ 20

/-- The buffers in use, in the order they were taken, and those in the pool. -/
structure Buffers where
  memory : Memory
  taken : List AlignedBuf
  pool : List AlignedBuf

abbrev BuffersM := EStateM Fault Buffers

/-- What the users of buffers do with them; numbers say which buffer in use. -/
inductive BufferCall where
  | zeroed (len : Nat)
  | takeBuffer
  | takeSized (len : Nat)
  | extendFromSlice (i : Nat) (bytes : Bytes)
  | resizeZeroed (i len : Nat)
  | copyFromSlice (i offset : Nat) (bytes : Bytes)
  | recycle (i : Nat)
  | drop (i : Nat)
  deriving DecidableEq, Repr

namespace Buffers

def onMemory {α : Type} (x : MemM α) : BuffersM α :=
  Effect.zoom Buffers.memory (fun memory s => { s with memory }) x

/-- A new buffer in use. -/
def hold (b : AlignedBuf) : BuffersM Unit := modify fun s => { s with taken := s.taken ++ [b] }

/-- Work on one of the buffers in use. -/
def update (i : Nat) (f : AlignedBuf → MemM AlignedBuf) : BuffersM Unit := do
  let s ← get
  match s.taken[i]? with
  | none => pure ()
  | some b => do
      let b ← onMemory (f b)
      modify fun s => { s with taken := s.taken.set i b }

variable (A : Runtime)

def takeBuffer : BuffersM Unit := do
  let s ← get
  match s.pool.getLast? with
  | some b => do
      modify fun s => { s with pool := s.pool.dropLast }
      hold b.clear
  | none => do
      let b ← onMemory (AlignedBuf.zeroed A 0)
      hold b.clear

/-- A panic leaves the new buffer to be dropped. -/
def takeSized (len : Nat) : BuffersM Unit := do
  takeBuffer A
  let s ← get
  update (s.taken.length - 1) fun b => b.resizeZeroed A len

/-- Give a buffer to the pool, if there is room, and else drop it. -/
def recycle (i : Nat) : BuffersM Unit := do
  let s ← get
  match s.taken[i]? with
  | none => pure ()
  | some b => do
      modify fun s => { s with taken := s.taken.eraseIdx i }
      if s.pool.length < MAX_POOLED_BUFFERS ∧ b.capacity ≤ MAX_POOLED_BUFFER_CAPACITY then
        modify fun s => { s with pool := s.pool ++ [b] }
      else onMemory b.free

def drop (i : Nat) : BuffersM Unit := do
  let s ← get
  match s.taken[i]? with
  | none => pure ()
  | some b => do
      modify fun s => { s with taken := s.taken.eraseIdx i }
      onMemory b.free

def call : BufferCall → BuffersM Unit
  | .zeroed len => do
      let b ← onMemory (AlignedBuf.zeroed A len)
      hold b
  | .takeBuffer => takeBuffer A
  | .takeSized len => takeSized A len
  | .extendFromSlice i bytes => update i fun b => b.extendFromSlice A bytes
  | .resizeZeroed i len => update i fun b => b.resizeZeroed A len
  | .copyFromSlice i offset bytes => update i fun b => do
      b.copyFromSlice offset bytes
      return b
  | .recycle i => recycle i
  | .drop i => drop i

/-- What the buffers in use hold. -/
def contents (s : Buffers) : List Bytes := s.taken.map fun b => b.content s.memory

end Buffers

/-! The same calls on byte lists, which need no memory. -/

namespace BufferCall

def overwrite (offset : Nat) (bytes content : Bytes) : Bytes :=
  content.take offset ++ bytes ++ content.drop (offset + bytes.length)

def apply : BufferCall → List Bytes → List Bytes
  | zeroed len, held => held ++ [List.replicate len 0]
  | takeBuffer, held => held ++ [[]]
  | takeSized len, held => held ++ [List.replicate len 0]
  | extendFromSlice i bytes, held => held.modify i (· ++ bytes)
  | resizeZeroed i len, held => held.modify i (PagedFile.resizeZeroed · len)
  | copyFromSlice i offset bytes, held => held.modify i (overwrite offset bytes)
  | recycle i, held => held.eraseIdx i
  | drop i, held => held.eraseIdx i

/-- A call that panics leaves the lists as they were; one buffer more may be held. -/
def unwound : BufferCall → List Bytes → List Bytes
  | takeSized _, held => held ++ [[]]
  | _, held => held

end BufferCall

/-- The sizes of a call. No slice is larger than `isize::MAX`, and a length in the last
page of the address space needs the overflow checks. -/
def BufferCall.Sized (A : Runtime) : BufferCall → Prop
  | .zeroed len | .takeSized len | .resizeZeroed _ len => A.Admits len
  | .extendFromSlice _ bytes => A.overflowChecks = true ∨ bytes.length < 2 ^ 63
  | _ => True

/-- A call that was completed, or stopped in a panic. -/
inductive BufferEvent where
  | completed (call : BufferCall)
  | panicked (call : BufferCall)

def BufferEvent.call : BufferEvent → BufferCall
  | completed call | panicked call => call

def BufferEvent.apply : BufferEvent → List Bytes → List Bytes
  | completed call => call.apply
  | panicked call => call.unwound

namespace Buffers

variable (A : Runtime)

def Ran (s : Buffers) : BufferEvent → Buffers → Prop
  | .completed c, t => call A c s = .ok () t
  | .panicked c, t => ∃ message, call A c s = .error (.panic message) t

/-- All memory of the buffers, and none but theirs, is allocated besides the rest. -/
structure Valid (foreign : List Block) (s : Buffers) : Prop where
  wellFormed : ∀ b ∈ s.taken ++ s.pool, b.WellFormed
  owned : Owned ((s.taken ++ s.pool).flatMap AlignedBuf.blocks) foreign s.memory
  few : s.pool.length ≤ MAX_POOLED_BUFFERS
  small : ∀ b ∈ s.pool, b.capacity ≤ MAX_POOLED_BUFFER_CAPACITY

variable {A} {foreign : List Block} {s t : Buffers} {b : AlignedBuf} {others all : List AlignedBuf}
  {i : Nat} {bytes : Bytes}

theorem onMemory_ok {α : Type} {x : MemM α} {a : α} {m' : Memory} (h : x s.memory = .ok a m') :
    onMemory x s = .ok a { s with memory := m' } := zoom_of_ok h

theorem onMemory_error {α : Type} {x : MemM α} {e : Fault} {m' : Memory}
    (h : x s.memory = .error e m') : onMemory x s = .error e { s with memory := m' } :=
  zoom_eq_error.mpr ⟨m', h, rfl⟩

/-! Ownership of one buffer among the others. -/

theorem owned_perm {m : Memory} (h : Owned (all.flatMap AlignedBuf.blocks) foreign m)
    (hPerm : all.Perm others) : Owned (others.flatMap AlignedBuf.blocks) foreign m :=
  h.perm (List.Perm.append_right _ (List.Perm.flatMap_right _ hPerm))

theorem owned_cons {m : Memory} : Owned ((b :: others).flatMap AlignedBuf.blocks) foreign m ↔
    Owned b.blocks (others.flatMap AlignedBuf.blocks ++ foreign) m := by
  rw [List.flatMap_cons]
  constructor <;> intro h
  · exact h.perm (by rw [List.append_assoc])
  · exact h.perm (by rw [List.append_assoc])

theorem mem_rest {c : AlignedBuf} (hc : c ∈ others) :
    ∀ d ∈ c.blocks, d ∈ others.flatMap AlignedBuf.blocks ++ foreign :=
  fun _ hd => List.mem_append_left _ (List.mem_flatMap.mpr ⟨c, hc, hd⟩)

/-- The other buffers hold what they held. -/
theorem map_content_kept {m m' : Memory} (hAll : ∀ c ∈ others, c.WellFormed)
    (hKept : Kept (others.flatMap AlignedBuf.blocks ++ foreign) m m') {some : List AlignedBuf}
    (hSome : ∀ c ∈ some, c ∈ others) :
    (some.map fun c => c.content m') = some.map fun c => c.content m := by
  apply List.map_congr_left
  intro c hc
  exact AlignedBuf.content_kept (hAll c (hSome c hc)) hKept (mem_rest (hSome c hc))

/-- What a step of the buffers keeps, and what they hold after it. -/
structure Became (foreign : List Block) (s : Buffers) (held : List Bytes) (t : Buffers) : Prop where
  valid : Valid foreign t
  kept : Kept foreign s.memory t.memory
  contents : t.contents = held

/-- A step ends well, or in a panic; it is never undefined. -/
def Ends {α : Type} (foreign : List Block) (s : Buffers) (done unwound : List Bytes) :
    EStateM.Result Fault Buffers α → Prop
  | .ok _ t => Became foreign s done t
  | .error e t => e ≠ .undefined ∧ Became foreign s unwound t

theorem Valid.became (h : Valid foreign s) : Became foreign s s.contents s :=
  ⟨h, Kept.refl _ _, rfl⟩

/-- A panic that changed no byte and no block changed nothing here. -/
theorem Valid.unchanged (h : Valid foreign s) {m' : Memory} (hSame : s.memory.Same m') :
    Became foreign s s.contents { s with memory := m' } := by
  refine ⟨⟨h.wellFormed, h.owned.same hSame, h.few, h.small⟩, .of_same _ hSame, ?_⟩
  simp only [contents, AlignedBuf.content, hSame.bytes]

/-- One more buffer is in use. -/
theorem Valid.held (h : Valid foreign s) {m' : Memory}
    (hNew : AlignedBuf.Holding ((s.taken ++ s.pool).flatMap AlignedBuf.blocks ++ foreign) s.memory bytes b m') :
    Became foreign s (s.contents ++ [bytes]) ⟨m', s.taken ++ [b], s.pool⟩ := by
  have hOwned : Owned ((b :: (s.taken ++ s.pool)).flatMap AlignedBuf.blocks) foreign m' :=
    owned_cons.mpr hNew.owned
  have hPerm : (b :: (s.taken ++ s.pool)).Perm ((s.taken ++ [b]) ++ s.pool) := by
    rw [List.append_assoc]
    exact List.perm_middle.symm
  refine ⟨⟨?_, owned_perm hOwned hPerm, h.few, h.small⟩,
    hNew.kept.mono fun _ hc => List.mem_append_right _ hc, ?_⟩
  · intro c hc
    rcases List.mem_cons.mp (hPerm.mem_iff.mpr hc) with rfl | hc
    · exact hNew.wellFormed
    · exact h.wellFormed c hc
  · rw [contents, List.map_append, List.map_singleton, hNew.content,
      map_content_kept h.wellFormed hNew.kept fun _ hc => List.mem_append_left _ hc]
    rfl

/-- One buffer in use, among all others. -/
theorem taken_perm (hGet : s.taken[i]? = some b) :
    (s.taken ++ s.pool).Perm (b :: (s.taken.eraseIdx i ++ s.pool)) := by
  obtain ⟨hi, rfl⟩ := List.getElem?_eq_some_iff.mp hGet
  exact (List.getElem_cons_eraseIdx_perm hi).symm.append_right _

theorem Valid.focus (h : Valid foreign s) (hGet : s.taken[i]? = some b) : b.WellFormed ∧
    Owned b.blocks ((s.taken.eraseIdx i ++ s.pool).flatMap AlignedBuf.blocks ++ foreign) s.memory := by
  have hPerm := taken_perm hGet
  exact ⟨h.wellFormed b (hPerm.mem_iff.mpr (List.mem_cons_self ..)), owned_cons.mp (owned_perm h.owned hPerm)⟩

/-- One buffer holds something else, and the others what they held. -/
theorem Valid.replaced (h : Valid foreign s) (hGet : s.taken[i]? = some b) {b' : AlignedBuf} {m' : Memory}
    {g : Bytes → Bytes} (hNew : AlignedBuf.Holding
      ((s.taken.eraseIdx i ++ s.pool).flatMap AlignedBuf.blocks ++ foreign) s.memory
      (g (b.content s.memory)) b' m') :
    Became foreign s (s.contents.modify i g) ⟨m', s.taken.set i b', s.pool⟩ := by
  obtain ⟨hi, hb⟩ := List.getElem?_eq_some_iff.mp hGet
  have hPerm : (b' :: (s.taken.eraseIdx i ++ s.pool)).Perm (s.taken.set i b' ++ s.pool) :=
    (List.set_perm_cons_eraseIdx hi b').symm.append_right _
  have hOthers : ∀ c ∈ s.taken.eraseIdx i ++ s.pool, c.WellFormed := fun c hc =>
    h.wellFormed c ((taken_perm hGet).mem_iff.mpr (List.mem_cons_of_mem _ hc))
  refine ⟨⟨?_, owned_perm (owned_cons.mpr hNew.owned) hPerm, h.few, h.small⟩,
    hNew.kept.mono fun _ hc => List.mem_append_right _ hc, ?_⟩
  · intro c hc
    rcases List.mem_cons.mp (hPerm.mem_iff.mpr hc) with rfl | hc
    · exact hNew.wellFormed
    · exact hOthers c hc
  · apply List.ext_getElem?
    intro j
    by_cases hj : i = j
    · subst hj
      rw [List.getElem?_modify_eq, contents, contents, List.getElem?_map, List.getElem?_map,
        List.getElem?_set_self hi, hGet]
      exact congrArg some hNew.content
    · rw [List.getElem?_modify_ne _ _ hj, contents, contents, List.getElem?_map, List.getElem?_map,
        List.getElem?_set_ne hj]
      cases hOther : s.taken[j]? with
      | none => rfl
      | some c =>
          have hc : c ∈ s.taken.eraseIdx i ++ s.pool :=
            List.mem_append_left _ (List.mem_eraseIdx_iff_getElem?.mpr ⟨j, Ne.symm hj, hOther⟩)
          exact congrArg some (AlignedBuf.content_kept (hOthers c hc) hNew.kept (mem_rest hc))

/-- Work on one buffer, by what it does to a buffer of its own. -/
theorem Valid.update (h : Valid foreign s) {f : AlignedBuf → MemM AlignedBuf} {g : Bytes → Bytes}
    (hWork : ∀ (b : AlignedBuf) (rest : List Block), b.WellFormed → Owned b.blocks rest s.memory →
      AlignedBuf.Clean s.memory
        (fun b' m' => AlignedBuf.Holding rest s.memory (g (b.content s.memory)) b' m') (f b s.memory)) :
    Ends foreign s (s.contents.modify i g) s.contents (update i f s) := by
  unfold Buffers.update
  rw [bind_of_ok (get_apply s)]
  cases hGet : s.taken[i]? with
  | none =>
      have hSame : s.contents.modify i g = s.contents := by
        apply List.modify_eq_self
        rw [contents, List.length_map]
        exact List.getElem?_eq_none_iff.mp hGet
      rw [hSame]
      exact h.became
  | some b =>
      obtain ⟨hWell, hOwned⟩ := h.focus hGet
      have hClean := hWork b _ hWell hOwned
      dsimp only
      cases hRun : f b s.memory with
      | error e m' =>
          rw [hRun] at hClean
          rw [bind_of_error (onMemory_error hRun)]
          exact ⟨hClean.1, h.unchanged hClean.2⟩
      | ok b' m' =>
          rw [hRun] at hClean
          rw [bind_of_ok (onMemory_ok hRun)]
          exact h.replaced hGet hClean

theorem Became.trans {u : Buffers} {held more : List Bytes} (h : Became foreign s held t)
    (k : Became foreign t more u) : Became foreign s more u :=
  ⟨k.valid, h.kept.trans k.kept, k.contents⟩

/-! Taking. -/

theorem Valid.zeroed (h : Valid foreign s) {len : Nat} (hFits : A.Admits len) :
    Ends foreign s (s.contents ++ [List.replicate len 0]) s.contents (call A (.zeroed len) s) := by
  have hOwned : Owned [] ((s.taken ++ s.pool).flatMap AlignedBuf.blocks ++ foreign) s.memory :=
    h.owned.perm (.refl _)
  have hClean := AlignedBuf.zeroed_clean A hOwned hFits
  change Ends _ _ _ _ ((onMemory (AlignedBuf.zeroed A len) >>= hold) s)
  cases hRun : AlignedBuf.zeroed A len s.memory with
  | error e m' =>
      rw [hRun] at hClean
      rw [bind_of_error (onMemory_error hRun)]
      exact ⟨hClean.1, h.unchanged hClean.2⟩
  | ok b m' =>
      rw [hRun] at hClean
      rw [bind_of_ok (onMemory_ok hRun)]
      exact h.held hClean

/-- A buffer of the pool, or a new one, is taken empty. -/
theorem Valid.takeBuffer (h : Valid foreign s) :
    ∃ t, takeBuffer A s = .ok () t ∧ Became foreign s (s.contents ++ [[]]) t := by
  unfold Buffers.takeBuffer
  rw [bind_of_ok (get_apply s)]
  cases hLast : s.pool.getLast? with
  | none =>
      have hOwned : Owned [] ((s.taken ++ s.pool).flatMap AlignedBuf.blocks ++ foreign) s.memory :=
        h.owned.perm (.refl _)
      have hNew : AlignedBuf.zeroed A 0 s.memory = .ok ⟨0, 0, 0⟩ s.memory := rfl
      dsimp only
      rw [bind_of_ok (onMemory_ok hNew)]
      exact ⟨_, rfl, h.held ⟨AlignedBuf.wellFormed_null, hOwned, Kept.refl _ _, rfl⟩⟩
  | some b =>
      have hPool : s.pool.dropLast ++ [b] = s.pool := List.dropLast_append_getLast? b hLast
      have hMem (c : AlignedBuf) (hc : c ∈ s.pool.dropLast) : c ∈ s.pool :=
        hPool ▸ List.mem_append_left _ hc
      have hWell : b.WellFormed :=
        h.wellFormed b (List.mem_append_right _ (hPool ▸ List.mem_append_right _ (List.mem_singleton_self b)))
      have hPerm : (s.taken ++ s.pool).Perm ((s.taken ++ [b]) ++ s.pool.dropLast) := by
        rw [← hPool, List.append_assoc, List.dropLast_concat]
        exact List.perm_append_comm.append_left _
      have hOwned := owned_perm h.owned hPerm
      rw [List.flatMap_append, List.flatMap_append, List.flatMap_singleton] at hOwned
      refine ⟨_, rfl, ⟨?_, ?_, ?_, fun c hc => h.small c (hMem c hc)⟩, Kept.refl _ _, ?_⟩
      · intro c hc
        rcases List.mem_append.mp hc with hc | hc
        · rcases List.mem_append.mp hc with hc | hc
          · exact h.wellFormed c (List.mem_append_left _ hc)
          · rw [List.mem_singleton.mp hc]
            exact hWell.withLen (Nat.zero_le _)
        · exact h.wellFormed c (List.mem_append_right _ (hMem c hc))
      · change Owned (((s.taken ++ [b.clear]) ++ s.pool.dropLast).flatMap AlignedBuf.blocks) _ _
        rw [List.flatMap_append, List.flatMap_append, List.flatMap_singleton]
        exact hOwned
      · exact (List.length_dropLast ▸ Nat.sub_le _ _).trans h.few
      · change (s.taken ++ [b.clear]).map _ = _
        rw [List.map_append]
        rfl

theorem Valid.takeSized (h : Valid foreign s) {len : Nat} (hFits : A.Admits len) :
    Ends foreign s (s.contents ++ [List.replicate len 0]) (s.contents ++ [[]]) (takeSized A len s) := by
  obtain ⟨t, hTake, hTaken⟩ := h.takeBuffer (A := A)
  unfold Buffers.takeSized
  rw [bind_of_ok hTake, bind_of_ok (get_apply t)]
  have hResized := hTaken.valid.update (i := t.taken.length - 1) (f := fun b => b.resizeZeroed A len)
    (g := (PagedFile.resizeZeroed · len)) fun b rest hWell hOwned =>
      AlignedBuf.resizeZeroed_clean A hWell hOwned hFits
  have hLast : t.taken.length - 1 = s.contents.length := by
    have hCount := congrArg List.length hTaken.contents
    rw [contents, List.length_map, List.length_append, List.length_singleton] at hCount
    omega
  have hZeros : t.contents.modify (t.taken.length - 1) (PagedFile.resizeZeroed · len) =
      s.contents ++ [List.replicate len 0] := by
    rw [hLast, hTaken.contents, PagedFile.modify_length_append s.contents [] [] _]
    simp only [PagedFile.resizeZeroed, List.take_nil, List.nil_append, List.length_nil, Nat.sub_zero]
  rw [hZeros] at hResized
  cases hRun : Buffers.update (t.taken.length - 1) (fun b => b.resizeZeroed A len) t with
  | ok _ u =>
      rw [hRun] at hResized
      exact hTaken.trans hResized
  | error e u =>
      rw [hRun] at hResized
      exact ⟨hResized.1, hTaken.trans (hTaken.contents ▸ hResized.2)⟩

/-! Giving back. -/

theorem contents_eraseIdx (m' : Memory) (hBytes : m'.bytes = s.memory.bytes) (pool : List AlignedBuf) :
    (⟨m', s.taken.eraseIdx i, pool⟩ : Buffers).contents = s.contents.eraseIdx i := by
  rw [contents, contents, List.eraseIdx_eq_take_drop_succ, List.eraseIdx_eq_take_drop_succ,
    List.map_append, List.map_take, List.map_drop]
  simp only [AlignedBuf.content, hBytes]

/-- The memory of one buffer is freed. -/
theorem Valid.freed (h : Valid foreign s) (hGet : s.taken[i]? = some b) :
    ∃ t, onMemory b.free { s with taken := s.taken.eraseIdx i } = .ok () t ∧
      Became foreign s (s.contents.eraseIdx i) t := by
  have hPerm := taken_perm hGet
  have hOwned := owned_perm h.owned hPerm
  rw [List.flatMap_cons] at hOwned
  obtain ⟨m', hFree, hBytes, hRest⟩ := AlignedBuf.free_clean (h.focus hGet).1 hOwned
  refine ⟨_, onMemory_ok (s := { s with taken := s.taken.eraseIdx i }) hFree,
    ⟨fun c hc => h.wellFormed c (hPerm.mem_iff.mpr (List.mem_cons_of_mem _ hc)), hRest, h.few, h.small⟩,
    fun _ _ _ _ _ => by rw [hBytes], contents_eraseIdx m' hBytes s.pool⟩

theorem eraseIdx_of_none (hGet : s.taken[i]? = none) : s.contents.eraseIdx i = s.contents := by
  apply List.eraseIdx_of_length_le
  rw [contents, List.length_map]
  exact List.getElem?_eq_none_iff.mp hGet

theorem Valid.drop (h : Valid foreign s) :
    Ends foreign s (s.contents.eraseIdx i) s.contents (Buffers.drop i s) := by
  unfold Buffers.drop
  rw [bind_of_ok (get_apply s)]
  cases hGet : s.taken[i]? with
  | none =>
      rw [eraseIdx_of_none hGet]
      exact h.became
  | some b =>
      obtain ⟨t, hFree, hBecame⟩ := h.freed hGet
      dsimp only
      rw [bind_of_ok (modify_apply _ s), hFree]
      exact hBecame

theorem Valid.recycle (h : Valid foreign s) :
    Ends foreign s (s.contents.eraseIdx i) s.contents (Buffers.recycle i s) := by
  unfold Buffers.recycle
  rw [bind_of_ok (get_apply s)]
  cases hGet : s.taken[i]? with
  | none =>
      rw [eraseIdx_of_none hGet]
      exact h.became
  | some b =>
      dsimp only
      rw [bind_of_ok (modify_apply _ s)]
      by_cases hRoom : s.pool.length < MAX_POOLED_BUFFERS ∧ b.capacity ≤ MAX_POOLED_BUFFER_CAPACITY
      · rw [if_pos hRoom]
        have hPerm : (s.taken ++ s.pool).Perm (s.taken.eraseIdx i ++ (s.pool ++ [b])) := by
          apply (taken_perm hGet).trans
          rw [← List.append_assoc]
          exact List.perm_append_singleton .. |>.symm
        refine ⟨⟨fun c hc => h.wellFormed c (hPerm.mem_iff.mpr hc), owned_perm h.owned hPerm, ?_, ?_⟩,
          Kept.refl _ _, contents_eraseIdx (s := s) _ rfl _⟩
        · change (s.pool ++ [b]).length ≤ _
          rw [List.length_append]
          exact hRoom.1
        · intro c hc
          rcases List.mem_append.mp hc with hc | hc
          · exact h.small c hc
          · rw [List.mem_singleton.mp hc]
            exact hRoom.2
      · rw [if_neg hRoom]
        obtain ⟨t, hFree, hBecame⟩ := h.freed hGet
        rw [hFree]
        exact hBecame

/-- One call of the buffers is one call of the lists. -/
theorem Valid.call (h : Valid foreign s) {c : BufferCall} (hFits : c.Sized A) :
    Ends foreign s (c.apply s.contents) (c.unwound s.contents) (call A c s) := by
  cases c with
  | zeroed len => exact h.zeroed hFits
  | takeBuffer =>
      obtain ⟨t, hTake, hBecame⟩ := h.takeBuffer (A := A)
      change Ends _ _ _ _ (Buffers.takeBuffer A s)
      rw [hTake]
      exact hBecame
  | takeSized len => exact h.takeSized hFits
  | extendFromSlice i bytes =>
      exact h.update fun b rest hWell hOwned => AlignedBuf.extendFromSlice_clean A hWell hOwned hFits
  | resizeZeroed i len =>
      exact h.update fun b rest hWell hOwned => AlignedBuf.resizeZeroed_clean A hWell hOwned hFits
  | copyFromSlice i offset bytes =>
      apply h.update
      intro b rest hWell hOwned
      have hClean := AlignedBuf.copyFromSlice_clean hWell hOwned offset bytes
      cases hRun : b.copyFromSlice offset bytes s.memory with
      | error e m' =>
          rw [hRun] at hClean
          rw [bind_of_error hRun]
          exact hClean
      | ok _ m' =>
          rw [hRun] at hClean
          rw [bind_of_ok hRun]
          exact hClean.2
  | recycle i => exact h.recycle
  | drop i => exact h.drop

/-- The lists after a sequence of calls. -/
def replay (events : List BufferEvent) : List Bytes := events.foldl (fun held e => e.apply held) []

theorem Valid.step {e : BufferEvent} (h : Valid foreign s) (hFits : e.call.Sized A)
    (hRan : Ran A s e t) : Became foreign s (e.apply s.contents) t := by
  cases e with
  | completed c =>
      have hCall := h.call (c := c) hFits
      rw [show Buffers.call A c s = _ from hRan] at hCall
      exact hCall
  | panicked c =>
      have hCall := h.call (c := c) hFits
      obtain ⟨message, hPanic⟩ := hRan
      rw [hPanic] at hCall
      exact hCall.2

/-- Slices of different buffers in use do not meet. -/
theorem Valid.exclusive (h : Valid foreign s) :
    s.taken.Pairwise fun a b => a.ptr + a.len ≤ b.ptr ∨ b.ptr + b.len ≤ a.ptr := by
  have hAll := (List.pairwise_append.mp h.owned.pairwise).1
  rw [List.flatMap_append] at hAll
  have hTaken := (List.pairwise_flatMap.mp (List.pairwise_append.mp hAll).1).2
  apply hTaken.imp_of_mem
  intro a b ha hb hApart
  have hWellA := h.wellFormed a (List.mem_append_left _ ha)
  have hWellB := h.wellFormed b (List.mem_append_left _ hb)
  have hFitsA := hWellA.fits
  have hFitsB := hWellB.fits
  by_cases hA : a.ptr = 0
  · have hNone := hWellA.null hA
    omega
  by_cases hB : b.ptr = 0
  · have hNone := hWellB.null hB
    omega
  rw [AlignedBuf.blocks_pos hA, AlignedBuf.blocks_pos hB] at hApart
  have hBlocks := hApart _ (List.mem_singleton_self _) _ (List.mem_singleton_self _)
  rw [Block.Apart] at hBlocks
  dsimp only at hBlocks
  omega

/-- What holds of the buffers after a sequence of calls that began without buffers. -/
structure Served (A : Runtime) (m : Memory) (events : List BufferEvent) (s : Buffers) : Prop where
  /-- No next call accesses memory that it must not. -/
  defined : ∀ c t, c.Sized A → Buffers.call A c s ≠ .error .undefined t
  /-- The buffers in use are the byte lists of the calls. -/
  slices : s.taken.map (fun b => b.deref s.memory) = (replay events).map fun bytes => .ok bytes s.memory
  /-- Besides what was allocated before, just the memory of the buffers is: none leaked, none freed twice. -/
  ledger : s.memory.live.Perm ((s.taken ++ s.pool).flatMap AlignedBuf.blocks ++ m.live)
  kept : Kept m.live m s.memory
  aligned : ∀ b ∈ s.taken, b.ptr % PAGE = 0 ∧ b.capacity % PAGE = 0 ∧ b.len ≤ b.capacity
  /-- Buffers in use can be read into in any order. -/
  reads : ∀ reqs : List BlockIo.BlockReq, (reqs.map fun r => (r.pointer, r.len)).Sublist
    (s.taken.map fun b => (b.ptr, b.len)) → BlockIo.Apart true reqs
  few : s.pool.length ≤ MAX_POOLED_BUFFERS
  small : ∀ b ∈ s.pool, b.capacity ≤ MAX_POOLED_BUFFER_CAPACITY

/-- Through any sequence of calls, also such as stop in a panic, buffers are byte
lists: memory from the pool is never seen with old bytes in it, and no call has
undefined behaviour, if the sizes are such that nothing wraps. -/
theorem calls_served {m : Memory} {events : List BufferEvent} (A : Runtime)
    (hApart : m.live.Pairwise Block.Apart) (hSized : ∀ e ∈ events, e.call.Sized A)
    (hRun : Runs.Steps (Ran A) ⟨m, [], []⟩ events s) : Served A m events s := by
  have hStart : Became m.live ⟨m, [], []⟩ (replay []) ⟨m, [], []⟩ :=
    ⟨⟨fun _ hb => absurd hb List.not_mem_nil, ⟨.refl _, hApart⟩, Nat.zero_le _,
      fun _ hb => absurd hb List.not_mem_nil⟩, Kept.refl _ _, rfl⟩
  have hStep (events : List BufferEvent) (s : Buffers) (e : BufferEvent) (t : Buffers)
      (hPrior : (∀ e ∈ events, e.call.Sized A) → Became m.live ⟨m, [], []⟩ (replay events) s)
      (hRan : Ran A s e t) (hAll : ∀ d ∈ events ++ [e], d.call.Sized A) :
      Became m.live ⟨m, [], []⟩ (replay (events ++ [e])) t := by
    have hBecame := hPrior fun d hd => hAll d (List.mem_append_left _ hd)
    have hLast := hAll e (List.mem_append_right _ (List.mem_singleton_self e))
    have hNext := hBecame.trans (hBecame.valid.step hLast hRan)
    rwa [hBecame.contents, ← show replay (events ++ [e]) = e.apply (replay events) by
      rw [replay, List.foldl_append]; rfl] at hNext
  have hEnd : Became m.live ⟨m, [], []⟩ (replay ([] ++ events)) s :=
    Runs.Steps.invariant hStep (fun _ => hStart) hRun hSized
  rw [List.nil_append] at hEnd
  have hValid := hEnd.valid
  constructor
  case defined =>
    intro c t hFits hCall
    have hClean := hValid.call hFits
    rw [hCall] at hClean
    exact hClean.1 rfl
  case slices =>
    rw [← hEnd.contents, contents, List.map_map]
    apply List.map_congr_left
    intro b hb
    obtain ⟨i, hGet⟩ := List.mem_iff_getElem?.mp hb
    obtain ⟨hWell, hOwned⟩ := hValid.focus hGet
    exact AlignedBuf.deref_ok hWell hOwned
  case ledger => exact hValid.owned.ledger
  case kept => exact hEnd.kept
  case aligned =>
    intro b hb
    have hWell := hValid.wellFormed b (List.mem_append_left _ hb)
    exact ⟨hWell.aligned, hWell.whole, hWell.fits⟩
  case reads =>
    intro reqs hReqs
    have hPairs : (s.taken.map fun b => (b.ptr, b.len)).Pairwise fun a b =>
        a.1 + a.2 ≤ b.1 ∨ b.1 + b.2 ≤ a.1 := List.pairwise_map.mpr hValid.exclusive
    exact (List.pairwise_map.mp (hPairs.sublist hReqs)).imp fun hEnds => .inr (.inr hEnds)
  case few => exact hValid.few
  case small => exact hValid.small

/-- The end of the last block. -/
def top (live : List Block) : Nat := live.foldr (fun b end' => max (b.addr + b.size) end') 0

theorem le_top {live : List Block} {b : Block} (hb : b ∈ live) : b.addr + b.size ≤ top live := by
  induction live with
  | nil => cases hb
  | cons c rest ih =>
      have hCons : top (c :: rest) = max (c.addr + c.size) (top rest) := rfl
      rcases List.mem_cons.mp hb with rfl | hb
      · omega
      · have hRest := ih hb
        omega

/-- The first page behind all live blocks. -/
def behind (live : List Block) : Nat := pageUp (top live + 1)

theorem top_lt_behind (live : List Block) : top live < behind live := le_pageUp (top live + 1)

theorem behind_apart {live : List Block} {b : Block} (size : Nat) (hb : b ∈ live) :
    Block.Apart ⟨behind live, size⟩ b := by
  have hEnd := le_top hb
  have hBehind := top_lt_behind live
  right
  dsimp only
  omega

/-- An allocator that puts every block behind all live ones, but finds no memory at
its second request; sums wrap. -/
def faltering : Runtime where
  place requests live _ := if requests = 1 then none else some (behind live)
  pos h := by
    split at h
    · exact absurd h (by simp)
    · exact Option.some.inj h ▸ Nat.zero_lt_of_lt (top_lt_behind _)
  aligned h := by
    split at h
    · exact absurd h (by simp)
    · exact Option.some.inj h ▸ pageUp_mod _
  apart h _ hb := by
    split at h
    · exact absurd h (by simp)
    · exact Option.some.inj h ▸ behind_apart _ hb
  overflowChecks := false

/-- Three bytes are stored, another buffer gets no memory, and the first is given back
and taken again. -/
theorem calls_served_reused :
    ∃ s, Runs.Steps (Ran faltering) ⟨⟨fun _ => 1, [], 0⟩, [], []⟩ [.completed (.takeSized 3),
      .completed (.copyFromSlice 0 0 [7, 8, 9]), .panicked (.zeroed 5), .completed (.recycle 0),
      .completed (.takeSized 2)] s ∧
      s.taken.map (fun b => b.deref s.memory) = [.ok [0, 0] s.memory] := by
  have hCalls : ∃ a b c d e, Ran faltering ⟨⟨fun _ => 1, [], 0⟩, [], []⟩ (.completed (.takeSized 3)) a ∧
      Ran faltering a (.completed (.copyFromSlice 0 0 [7, 8, 9])) b ∧
      Ran faltering b (.panicked (.zeroed 5)) c ∧ Ran faltering c (.completed (.recycle 0)) d ∧
      Ran faltering d (.completed (.takeSized 2)) e :=
    ⟨_, _, _, _, _, rfl, rfl, ⟨_, rfl⟩, rfl, rfl⟩
  obtain ⟨a, b, c, d, e, hA, hB, hC, hD, hE⟩ := hCalls
  have hRun := ((((Runs.Steps.refl.step hA).step hB).step hC).step hD).step hE
  refine ⟨e, hRun, (calls_served faltering List.Pairwise.nil ?_ hRun).slices⟩
  intro call hCall
  simp only [List.cons_append, List.nil_append, List.mem_cons, List.not_mem_nil, or_false] at hCall
  rcases hCall with rfl | rfl | rfl | rfl | rfl <;>
    simp [BufferEvent.call, BufferCall.Sized, Runtime.Admits, PAGE]

end Buffers

end HeapStore
