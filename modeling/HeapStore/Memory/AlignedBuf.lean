import HeapStore.Format.Codec
import HeapStore.Library.Allocation
import HeapStore.Storage.PagedFile

/-! The growable buffers of page-aligned memory that block I/O works with. They
are byte lists to their users; underneath they allocate, copy and free by address. -/
namespace HeapStore

open Effect Allocation

/-- Where memory comes from, and whether sums that do not fit panic or, as in a
release build, wrap. -/
structure Runtime extends Allocator PAGE where
  overflowChecks : Bool

/-- No size wraps that is rounded up to whole pages. -/
def Runtime.Admits (A : Runtime) (need : Nat) : Prop :=
  A.overflowChecks = true ∨ need ≤ 2 ^ 64 - PAGE

theorem Runtime.Admits.pageUp {A : Runtime} {need : Nat} (h : A.Admits need) :
    A.overflowChecks = true ∨ pageUp need < 2 ^ 64 := by
  apply h.imp_right
  simp only [HeapStore.pageUp, PAGE]
  omega

structure AlignedBuf where
  ptr : Nat
  len : Nat
  capacity : Nat
  deriving DecidableEq, Repr

namespace AlignedBuf

/-- A sum or product as a number of bytes. -/
def usize (overflowChecks : Bool) (count : Nat) (message : String) : MemM Nat :=
  if count < 2 ^ 64 then pure count
  else if overflowChecks then throw (.panic message)
  else pure (count % 2 ^ 64)

/-- No layout has more than `isize::MAX` bytes when rounded up to its alignment. -/
def layout (size : Nat) : MemM Unit :=
  if 2 ^ 63 - PAGE < size then throw (.panic "called `Result::unwrap()` on an `Err` value")
  else pure ()

def free (b : AlignedBuf) : MemM Unit :=
  if b.ptr = 0 then pure ()
  else do
    layout b.capacity
    dealloc ⟨b.ptr, b.capacity⟩

/-- Copy the bytes in use to new memory. -/
def copyTo (b : AlignedBuf) (ptr : Nat) : MemM Unit :=
  if 0 < b.len then copyNonoverlapping b.ptr ptr b.len else pure ()

/-- Set the bytes from the length in use up to another length to zero. -/
def zeroUpTo (b : AlignedBuf) (len : Nat) : MemM Unit :=
  if b.len < len then store (b.ptr + b.len) (List.replicate (len - b.len) 0) else pure ()

def reserve (A : Runtime) (b : AlignedBuf) (need : Nat) : MemM AlignedBuf :=
  if need ≤ b.capacity then pure b
  else do
    let rounded ← usize A.overflowChecks (pageUp need) "attempt to add with overflow"
    let doubled ← usize A.overflowChecks (b.capacity * 2) "attempt to multiply with overflow"
    let capacity := max rounded doubled
    layout capacity
    let ptr ← allocZeroed A.toAllocator capacity
    if ptr = 0 then throw (.panic "aligned alloc failed")
    else do
      b.copyTo ptr
      b.free
      return { b with ptr, capacity }

def zeroed (A : Runtime) (len : Nat) : MemM AlignedBuf := do
  let b ← reserve A ⟨0, 0, 0⟩ len
  return { b with len }

def extendFromSlice (A : Runtime) (b : AlignedBuf) (bytes : Bytes) : MemM AlignedBuf := do
  let need ← usize A.overflowChecks (b.len + bytes.length) "attempt to add with overflow"
  let b ← b.reserve A need
  store (b.ptr + b.len) bytes
  return { b with len := need }

def resizeZeroed (A : Runtime) (b : AlignedBuf) (len : Nat) : MemM AlignedBuf := do
  let b ← b.reserve A len
  b.zeroUpTo len
  return { b with len }

def clear (b : AlignedBuf) : AlignedBuf := { b with len := 0 }

/-- The slice that a buffer dereferences to. -/
def deref (b : AlignedBuf) : MemM Bytes := if b.ptr = 0 then pure [] else load b.ptr b.len

/-- Bytes copied to a range of the mutable slice that a buffer dereferences to. -/
def copyFromSlice (b : AlignedBuf) (offset : Nat) (bytes : Bytes) : MemM Unit :=
  if b.len < offset + bytes.length then throw (.panic "range end index out of range for slice")
  else store (b.ptr + offset) bytes

/-! What a buffer owns, and what it holds. -/

def blocks (b : AlignedBuf) : List Block := if b.ptr = 0 then [] else [⟨b.ptr, b.capacity⟩]

def content (m : Memory) (b : AlignedBuf) : Bytes := Image.read m.bytes b.ptr b.len

/-- Whole pages at a page address, or no memory at all. -/
structure WellFormed (b : AlignedBuf) : Prop where
  null : b.ptr = 0 → b.capacity = 0
  room : b.ptr ≠ 0 → 0 < b.capacity
  aligned : b.ptr % PAGE = 0
  whole : b.capacity % PAGE = 0
  small : b.capacity ≤ 2 ^ 63 - PAGE
  fits : b.len ≤ b.capacity

/-- A call ends well, or in a panic that changed no byte and no block. -/
def Clean {α : Type} (m : Memory) (post : α → Memory → Prop) : EStateM.Result Fault Memory α → Prop
  | .ok a m' => post a m'
  | .error e m' => e ≠ .undefined ∧ m.Same m'

/-- A buffer now holds these bytes, and all other memory is as before. -/
structure Holding (rest : List Block) (m : Memory) (bytes : Bytes) (b : AlignedBuf) (m' : Memory) :
    Prop where
  wellFormed : b.WellFormed
  owned : Owned b.blocks rest m'
  kept : Kept rest m m'
  content : b.content m' = bytes

section Clean

variable {α β : Type} {m : Memory} {post : α → Memory → Prop} {post' : β → Memory → Prop}
  {x : MemM α} {f : α → MemM β}

/-- Sequencing, where the first part changes nothing. -/
theorem Clean.bind (hx : Clean m (fun a m' => m' = m ∧ Clean m post' (f a m)) (x m)) :
    Clean m post' ((x >>= f) m) := by
  cases hRun : x m with
  | ok a m' =>
      rw [hRun] at hx
      obtain ⟨rfl, hNext⟩ := hx
      rwa [bind_of_ok hRun]
  | error e m' =>
      rw [hRun] at hx
      rwa [bind_of_error hRun]

theorem Clean.mono {r : EStateM.Result Fault Memory α} {post' : α → Memory → Prop} (h : Clean m post r)
    (hPost : ∀ a m', post a m' → post' a m') : Clean m post' r := by
  cases r with
  | ok a m' => exact hPost a m' h
  | error e m' => exact h

theorem usize_clean {overflowChecks : Bool} {count : Nat} (m : Memory) (message : String)
    (hFits : overflowChecks = true ∨ count < 2 ^ 64) :
    Clean m (fun n m' => m' = m ∧ n = count) (usize overflowChecks count message m) := by
  unfold usize
  by_cases hCount : count < 2 ^ 64
  · rw [if_pos hCount]
    exact ⟨rfl, rfl⟩
  · rw [if_neg hCount, if_pos (hFits.resolve_right hCount)]
    exact ⟨by simp, .refl m⟩

theorem layout_clean (m : Memory) (size : Nat) :
    Clean m (fun _ m' => m' = m ∧ size ≤ 2 ^ 63 - PAGE) (layout size m) := by
  unfold layout
  split
  · exact ⟨by simp, .refl m⟩
  · exact ⟨rfl, by omega⟩

end Clean

section Single

variable {b : AlignedBuf} {m m' : Memory} {rest : List Block} {bytes : Bytes} {len : Nat}

/-- A buffer without memory. -/
theorem wellFormed_null : (⟨0, 0, 0⟩ : AlignedBuf).WellFormed :=
  ⟨fun _ => rfl, fun h => absurd rfl h, rfl, rfl, Nat.zero_le _, Nat.le_refl _⟩

theorem WellFormed.withLen (h : b.WellFormed) (hFits : len ≤ b.capacity) :
    ({ b with len } : AlignedBuf).WellFormed :=
  ⟨h.null, h.room, h.aligned, h.whole, h.small, hFits⟩

theorem blocks_pos (hPtr : b.ptr ≠ 0) : b.blocks = [⟨b.ptr, b.capacity⟩] := if_neg hPtr

theorem blocks_null (hPtr : b.ptr = 0) : b.blocks = [] := if_pos hPtr

/-- A store within the capacity of an owned buffer. -/
theorem store_owned (h : b.WellFormed) (hOwned : Owned b.blocks rest m) {offset : Nat}
    (hRoom : offset + bytes.length ≤ b.capacity) :
    store (b.ptr + offset) bytes m = .ok () { m with bytes := Image.write m.bytes (b.ptr + offset) bytes } ∧
      Kept rest m { m with bytes := Image.write m.bytes (b.ptr + offset) bytes } := by
  by_cases hPtr : b.ptr = 0
  · have hNull := h.null hPtr
    have hNone : bytes = [] := List.eq_nil_of_length_eq_zero (by omega)
    subst hNone
    rw [Image.write_nil]
    refine ⟨?_, Kept.refl rest m⟩
    rw [store, if_pos (.inl rfl), Image.write_nil]
  · rw [blocks_pos hPtr] at hOwned
    exact ⟨hOwned.store_ok (Nat.le_add_right ..) (by dsimp only; omega),
      hOwned.kept_write (Nat.le_add_right ..) (by dsimp only; omega)⟩

/-- Freeing a buffer frees its memory, if it has any. -/
theorem free_clean (h : b.WellFormed) {mine : List Block} (hOwned : Owned (b.blocks ++ mine) rest m) :
    ∃ m', b.free m = .ok () m' ∧ m'.bytes = m.bytes ∧ Owned mine rest m' := by
  unfold free
  by_cases hPtr : b.ptr = 0
  · rw [if_pos hPtr]
    rw [blocks_null hPtr] at hOwned
    exact ⟨m, rfl, rfl, hOwned⟩
  · rw [if_neg hPtr]
    rw [blocks_pos hPtr] at hOwned
    have hLayout : layout b.capacity m = .ok () m := by
      rw [layout, if_neg (Nat.not_lt.mpr h.small)]
      rfl
    rw [bind_of_ok hLayout]
    exact hOwned.dealloc_ok

/-- The content of a buffer is kept with the rest of memory. -/
theorem content_kept (h : b.WellFormed) (hKept : Kept rest m m') (hMine : ∀ c ∈ b.blocks, c ∈ rest) :
    b.content m' = b.content m := by
  have hFits := h.fits
  by_cases hPtr : b.ptr = 0
  · have hNone : b.len = 0 := by
      have hNull := h.null hPtr
      omega
    rw [content, content, hNone, Image.read_zero, Image.read_zero]
  · rw [blocks_pos hPtr] at hMine
    exact hKept.read (hMine _ (List.mem_singleton_self _)) (Nat.le_refl _) (by dsimp only; omega)

/-- The bytes move to new memory, and the old memory is freed. -/
theorem move_ok (h : b.WellFormed) {addr size : Nat} (hTaken : Owned (⟨addr, size⟩ :: b.blocks) rest m)
    (hRoom : b.capacity ≤ size) : ∃ m₁ m₂,
      b.copyTo addr m = .ok () m₁ ∧ b.free m₁ = .ok () m₂ ∧ Owned [⟨addr, size⟩] rest m₂ ∧ Kept rest m m₂ ∧
      m₂.bytes = Image.write m.bytes addr (b.content m) := by
  have hFits := h.fits
  let m₁ : Memory := { m with bytes := Image.write m.bytes addr (b.content m) }
  have hLength : (b.content m).length = b.len := Image.length_read _ _ _
  have hCopy : b.copyTo addr m = .ok () m₁ := by
    unfold copyTo
    by_cases hLen : 0 < b.len
    · have hPtr : b.ptr ≠ 0 := fun hNull => by
        have hNone := h.null hNull
        omega
      rw [if_pos hLen]
      rw [blocks_pos hPtr] at hTaken
      exact hTaken.copy_ok hFits (by dsimp only; omega)
    · have hNone : b.len = 0 := by omega
      rw [if_neg hLen, pure_apply]
      simp only [m₁, content, hNone, Image.read_zero, Image.write_nil]
  have hKept : Kept (b.blocks ++ rest) m m₁ :=
    hTaken.kept_write (Nat.le_refl _) (by dsimp only; omega)
  have hSwapped : Owned (b.blocks ++ [⟨addr, size⟩]) rest m₁ :=
    (hTaken.withBytes _).perm (by
      rw [List.append_assoc]
      exact List.perm_middle.symm)
  obtain ⟨m₂, hFree, hBytes, hOwned⟩ := free_clean h hSwapped
  refine ⟨m₁, m₂, hCopy, hFree, hOwned, ?_, hBytes⟩
  intro c hc i hLo hHi
  rw [hBytes]
  exact hKept c (List.mem_append_right _ hc) i hLo hHi

/-- Room is made, and the bytes stay; new memory is all zeros. -/
theorem reserve_clean (A : Runtime) (h : b.WellFormed) (hOwned : Owned b.blocks rest m) {need : Nat}
    (hFits : A.Admits need) : Clean m (fun b' m' => Holding rest m (b.content m) b' m' ∧ need ≤ b'.capacity ∧
      b'.len = b.len ∧ (b.capacity < need → b.len = 0 →
        Image.read m'.bytes b'.ptr b'.capacity = List.replicate b'.capacity 0))
      (b.reserve A need m) := by
  unfold reserve
  by_cases hEnough : need ≤ b.capacity
  · rw [if_pos hEnough]
    exact ⟨⟨h, hOwned, Kept.refl rest m, rfl⟩, hEnough, rfl, fun hLess => by omega⟩
  rw [if_neg hEnough]
  have hDouble : b.capacity * 2 < 2 ^ 64 := by
    have hSmall := h.small
    simp only [PAGE] at hSmall
    omega
  apply Clean.bind
  apply (usize_clean m _ hFits.pageUp).mono
  rintro rounded _ ⟨hSame, rfl⟩
  refine ⟨hSame, ?_⟩
  apply Clean.bind
  apply (usize_clean m _ (.inr hDouble)).mono
  rintro doubled _ ⟨hSame, rfl⟩
  refine ⟨hSame, ?_⟩
  have hNeed := le_pageUp need
  have hWhole : max (pageUp need) (b.capacity * 2) % PAGE = 0 := by
    have hUp := pageUp_mod need
    have hCapacity := h.whole
    simp only [PAGE] at *
    omega
  generalize hSize : max (pageUp need) (b.capacity * 2) = size at hWhole
  have hRoom : need ≤ size ∧ b.capacity ≤ size := by omega
  apply Clean.bind
  apply (layout_clean m size).mono
  rintro _ _ ⟨hSame, hLayout⟩
  refine ⟨hSame, ?_⟩
  have hSome : 0 < size := by omega
  rcases hOwned.alloc_cases A.toAllocator hSome with ⟨m', hNull, hVain⟩ |
    ⟨addr, m₁, hAlloc, hPos, hAligned, hTaken, hKept, hZero⟩
  · rw [bind_of_ok hNull, if_pos rfl]
    exact ⟨by simp, hVain⟩
  obtain ⟨m₂, m₃, hCopy, hFree, hOwned', hKept', hBytes⟩ := move_ok h hTaken hRoom.2
  rw [bind_of_ok hAlloc, if_neg (by omega), bind_of_ok hCopy, bind_of_ok hFree]
  have hFits := h.fits
  have hContent : b.content m₁ = b.content m := content_kept h hKept fun c hc => List.mem_append_left _ hc
  have hMoved : Image.read m₃.bytes addr b.len = b.content m := by
    have hSame := Image.read_write_same m₁.bytes addr (b.content m₁)
    rwa [← hBytes, content, Image.length_read, ← content, hContent] at hSame
  have hPtr : addr ≠ 0 := by omega
  refine ⟨⟨⟨fun hNull => absurd hNull hPtr, fun _ => ?_, hAligned, hWhole, hLayout, ?_⟩, ?_, ?_, hMoved⟩,
    hRoom.1, rfl, fun _ hLen => ?_⟩
  · change 0 < size
    omega
  · change b.len ≤ size
    omega
  · rw [blocks_pos hPtr]
    exact hOwned'
  · exact (hKept.mono fun c hc => List.mem_append_right _ hc).trans hKept'
  · change Image.read m₃.bytes addr size = List.replicate size 0
    rw [hBytes, content, hLen, Image.read_zero, Image.write_nil]
    exact hZero

/-- A buffer that holds other bytes than before, after a store in its own memory. -/
theorem holding_of_store (h : b.WellFormed) (hOwned : Owned b.blocks rest m) {cells : Bytes} {offset : Nat}
    (hRoom : offset + cells.length ≤ b.capacity) (hFits : len ≤ b.capacity)
    (hBytes : Image.read (Image.write m.bytes (b.ptr + offset) cells) b.ptr len = bytes) :
    Holding rest m bytes { b with len } { m with bytes := Image.write m.bytes (b.ptr + offset) cells } :=
  ⟨h.withLen hFits, hOwned.withBytes _, (store_owned h hOwned hRoom).2, hBytes⟩

theorem Holding.trans {b' : AlignedBuf} {m'' : Memory} {first : Bytes} (h : Holding rest m first b m')
    (k : Holding rest m' bytes b' m'') : Holding rest m bytes b' m'' :=
  ⟨k.wellFormed, k.owned, h.kept.trans k.kept, k.content⟩

/-- Appending. -/
theorem extendFromSlice_clean (A : Runtime) (h : b.WellFormed) (hOwned : Owned b.blocks rest m)
    (hSlice : A.overflowChecks = true ∨ bytes.length < 2 ^ 63) : Clean m (fun b' m' => Holding rest m (b.content m ++ bytes) b' m')
      (b.extendFromSlice A bytes m) := by
  have hLen : b.len ≤ 2 ^ 63 - PAGE := h.fits.trans h.small
  have hSum : A.Admits (b.len + bytes.length) := by
    apply hSlice.imp_right
    simp only [PAGE] at hLen ⊢
    omega
  unfold extendFromSlice
  apply Clean.bind
  apply (usize_clean m _ (hSum.imp_right fun hSum => by simp only [PAGE] at hSum; omega)).mono
  rintro need _ ⟨hSame, rfl⟩
  refine ⟨hSame, ?_⟩
  have hReserved := reserve_clean A h hOwned hSum
  cases hRun : b.reserve A (b.len + bytes.length) m with
  | error e m' =>
      rw [hRun] at hReserved
      rw [bind_of_error hRun]
      exact hReserved
  | ok b' m' =>
      rw [hRun] at hReserved
      obtain ⟨hHolding, hRoom, hLen, -⟩ := hReserved
      rw [bind_of_ok hRun]
      rw [← hLen] at hRoom
      rw [bind_of_ok (store_owned hHolding.wellFormed hHolding.owned hRoom).1, ← hLen]
      apply hHolding.trans
      apply holding_of_store hHolding.wellFormed hHolding.owned hRoom hRoom
      rw [Image.read_write_end, ← hHolding.content, content]

/-- Cutting, or growing by zeros. -/
theorem resizeZeroed_clean (A : Runtime) (h : b.WellFormed) (hOwned : Owned b.blocks rest m)
    (hFits : A.Admits len) : Clean m (fun b' m' => Holding rest m (PagedFile.resizeZeroed (b.content m) len) b' m')
      (b.resizeZeroed A len m) := by
  have hReserved := reserve_clean A h hOwned hFits
  unfold resizeZeroed
  cases hRun : b.reserve A len m with
  | error e m' =>
      rw [hRun] at hReserved
      rw [bind_of_error hRun]
      exact hReserved
  | ok b' m' =>
      rw [hRun] at hReserved
      obtain ⟨hHolding, hRoom, hLen, -⟩ := hReserved
      rw [bind_of_ok hRun]
      have hCount : (b.content m).length = b'.len := by rw [hLen, content, Image.length_read]
      by_cases hLess : b'.len < len
      · have hZero : b'.zeroUpTo len m' = store (b'.ptr + b'.len) (List.replicate (len - b'.len) 0) m' := by
          rw [zeroUpTo, if_pos hLess]
        generalize hZeros : List.replicate (len - b'.len) (0 : UInt8) = zeros at hZero
        have hEnd : b'.len + zeros.length = len := by
          rw [← hZeros, List.length_replicate]
          omega
        have hTail : b'.len + zeros.length ≤ b'.capacity := by omega
        rw [bind_of_ok (hZero.trans (store_owned hHolding.wellFormed hHolding.owned hTail).1)]
        apply hHolding.trans
        apply holding_of_store hHolding.wellFormed hHolding.owned hTail hRoom
        rw [PagedFile.resizeZeroed, hCount, List.take_of_length_le (by omega), hZeros,
          ← hHolding.content, content, ← Image.read_write_end, hEnd]
      · have hZero : b'.zeroUpTo len m' = .ok () m' := by
          rw [zeroUpTo, if_neg hLess]
          rfl
        rw [bind_of_ok hZero]
        refine ⟨hHolding.wellFormed.withLen hRoom, hHolding.owned, hHolding.kept, ?_⟩
        have hZeros : len - b'.len = 0 := by omega
        rw [PagedFile.resizeZeroed, hCount, hZeros, List.replicate_zero, List.append_nil, ← hHolding.content,
          content, content, Image.take_read _ _ _ _ (by omega)]

/-- A new buffer of zeros. -/
theorem zeroed_clean (A : Runtime) (hOwned : Owned [] rest m) (hFits : A.Admits len) :
    Clean m (fun b m' => Holding rest m (List.replicate len 0) b m') (zeroed A len m) := by
  have hReserved := reserve_clean A wellFormed_null hOwned hFits
  unfold zeroed
  cases hRun : reserve A ⟨0, 0, 0⟩ len m with
  | error e m' =>
      rw [hRun] at hReserved
      rw [bind_of_error hRun]
      exact hReserved
  | ok b m' =>
      rw [hRun] at hReserved
      obtain ⟨hHolding, hRoom, -, hZeros⟩ := hReserved
      rw [bind_of_ok hRun]
      refine ⟨hHolding.wellFormed.withLen hRoom, hHolding.owned, hHolding.kept, ?_⟩
      by_cases hLen : 0 < len
      · have hNew := congrArg (List.take len) (hZeros hLen rfl)
        rwa [Image.take_read _ _ _ _ hRoom, List.take_replicate, Nat.min_eq_left hRoom] at hNew
      · have hNone : len = 0 := by omega
        subst hNone
        rfl

/-- A length that is not admitted wraps to no memory at all, and none is no request. -/
theorem zeroed_undefined {A : Runtime} (hWraps : ¬ A.Admits len) (hLen : len < 2 ^ 64) :
    zeroed A len m = .error .undefined m := by
  obtain ⟨hChecks, hLast⟩ := not_or.mp hWraps
  have hUp : pageUp len = 2 ^ 64 := by
    simp only [pageUp, PAGE] at hLast ⊢
    omega
  have hReserve : reserve A ⟨0, 0, 0⟩ len m = .error .undefined m := by
    unfold reserve
    rw [if_neg (by simp only [PAGE] at hLast; dsimp only; omega), hUp]
    simp only [Bool.not_eq_true] at hChecks
    rw [hChecks]
    rfl
  exact bind_of_error hReserve

/-- Storing into the slice. -/
theorem copyFromSlice_clean (h : b.WellFormed) (hOwned : Owned b.blocks rest m) (offset : Nat)
    (bytes : Bytes) : Clean m (fun _ m' => offset + bytes.length ≤ b.len ∧ Holding rest m
      ((b.content m).take offset ++ bytes ++ (b.content m).drop (offset + bytes.length)) b m')
      (b.copyFromSlice offset bytes m) := by
  have hFits := h.fits
  unfold copyFromSlice
  by_cases hRange : b.len < offset + bytes.length
  · rw [if_pos hRange]
    exact ⟨by simp, .refl m⟩
  have hRoom : offset + bytes.length ≤ b.capacity := by omega
  rw [if_neg hRange, (store_owned h hOwned hRoom).1]
  refine ⟨by omega, holding_of_store h hOwned (by omega) hFits ?_⟩
  have hSplit : b.len = offset + (bytes.length + (b.len - (offset + bytes.length))) := by omega
  rw [content, Image.take_read _ _ _ _ (by omega), Image.drop_read _ _ _ _ (by omega)]
  conv => lhs; rw [hSplit]
  rw [Image.read_add, Image.read_add, Image.read_write_same,
    Image.read_write_off _ _ (.inl (Nat.le_refl _)), Image.read_write_off _ _ (.inr (by omega)),
    List.append_assoc, Nat.add_assoc]

/-- The slice is what the buffer holds. -/
theorem deref_ok (h : b.WellFormed) (hOwned : Owned b.blocks rest m) : b.deref m = .ok (b.content m) m := by
  have hFits := h.fits
  unfold deref
  by_cases hPtr : b.ptr = 0
  · have hNone : b.len = 0 := by
      have hNull := h.null hPtr
      omega
    rw [if_pos hPtr, content, hNone]
    rfl
  · rw [if_neg hPtr]
    rw [blocks_pos hPtr] at hOwned
    rw [load, if_pos (hOwned.within (List.mem_singleton_self _) (Nat.le_refl _) (by dsimp only; omega))]
    rfl

end Single

end AlignedBuf

end HeapStore
