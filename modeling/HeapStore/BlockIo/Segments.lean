import HeapStore.BlockIo.Transfer
import HeapStore.BlockIo.UringIo

/-! Segments of requests: where the bytes of each belong, what a moved piece
of one leaves of the others, and the cutting of requests into chunks. -/
namespace HeapStore.BlockIo

variable {isRead : Bool} {w w₀ : World}

namespace IoSegment

def takesAt (isRead : Bool) (g : IoSegment) : Nat := origin isRead g.offset g.pointer

def putsAt (isRead : Bool) (g : IoSegment) : Nat := dest isRead g.offset g.pointer

/-- What is left of a segment after some of its bytes have moved. -/
def advance (g : IoSegment) (done : Nat) : IoSegment :=
  ⟨g.offset + done, g.pointer + done, g.len - done⟩

@[simp] theorem advance_zero (g : IoSegment) : g.advance 0 = g := rfl

theorem advance_advance (g : IoSegment) (a b : Nat) :
    (g.advance a).advance b = g.advance (a + b) := by
  simp only [advance, IoSegment.mk.injEq]
  omega

end IoSegment

/-- The targets of the segments do not meet, none is empty, and the length of
each fits the length field of a submission. -/
structure Pieces (isRead : Bool) (S : List IoSegment) : Prop where
  apart : S.Pairwise fun a b =>
    a.putsAt isRead + a.len ≤ b.putsAt isRead ∨ b.putsAt isRead + b.len ≤ a.putsAt isRead
  pos : ∀ g ∈ S, 0 < g.len
  small : ∀ g ∈ S, g.len < 2 ^ 32

theorem Pieces.apart_of_ne {S : List IoSegment} (h : Pieces isRead S) {i k : Nat} {a b : IoSegment}
    (hi : S[i]? = some a) (hk : S[k]? = some b) (hNe : i ≠ k) :
    a.putsAt isRead + a.len ≤ b.putsAt isRead ∨ b.putsAt isRead + b.len ≤ a.putsAt isRead := by
  obtain ⟨hiLt, rfl⟩ := List.getElem?_eq_some_iff.mp hi
  obtain ⟨hkLt, rfl⟩ := List.getElem?_eq_some_iff.mp hk
  rcases Nat.lt_or_gt_of_ne hNe with hLt | hGt
  · exact List.pairwise_iff_getElem.mp h.apart i k hiLt hkLt hLt
  · exact (List.pairwise_iff_getElem.mp h.apart k i hkLt hiLt hGt).symm

/-- The first `count` bytes of a segment are where they belong. -/
structure Delivered (isRead : Bool) (w₀ w : World) (g : IoSegment) (count : Nat) : Prop where
  bytes : ∀ j < count, w.target isRead (g.putsAt isRead + j) = w₀.source isRead (g.takesAt isRead + j)
  size : isRead = false → 0 < count → g.offset + count ≤ w.file.size

theorem Delivered.zero (g : IoSegment) : Delivered isRead w₀ w g 0 :=
  ⟨fun _ hj => absurd hj (Nat.not_lt_zero _), fun _ hPos => absurd hPos (Nat.lt_irrefl _)⟩

/-- A world that the segments `S` are being moved in: what is read is as it was, and only
targets of segments change. -/
structure Moving (isRead : Bool) (S : List IoSegment) (w₀ w : World) : Prop where
  source : w.source isRead = w₀.source isRead
  outside : ∀ a, (∀ g ∈ S, a < g.putsAt isRead ∨ g.putsAt isRead + g.len ≤ a) →
    w.target isRead a = w₀.target isRead a
  sizeLo : w₀.file.size ≤ w.file.size
  sizeHi : ∀ x, w₀.file.size ≤ x → (isRead = false → ∀ g ∈ S, g.offset + g.len ≤ x) →
    w.file.size ≤ x

theorem Moving.refl (S : List IoSegment) (w : World) : Moving isRead S w w :=
  ⟨rfl, fun _ _ => rfl, le_rfl, fun _ h _ => h⟩

theorem Moving.size_read {S : List IoSegment} (h : Moving true S w₀ w) :
    w.file.size = w₀.file.size :=
  Nat.le_antisymm (h.sizeHi _ le_rfl fun hFalse => by cases hFalse) h.sizeLo

section Transfer

variable {S : List IoSegment} {g other : IoSegment} {i k d count r : Nat}

/-- Moving the next bytes of one segment, away from the target of another. -/
theorem target_transfer_off (hOff : g.putsAt isRead + d + r ≤ count ∨ count < g.putsAt isRead + d) :
    (w.transfer isRead (g.offset + d) (g.pointer + d) r).target isRead count =
      w.target isRead count := by
  rw [World.target_transfer]
  refine Image.write_apply_off _ _ ?_
  rw [Image.length_read]
  cases isRead <;> simp only [IoSegment.putsAt, dest, Bool.false_eq_true, ↓reduceIte] at hOff ⊢ <;>
    omega

theorem target_transfer_in {j : Nat} (hLo : d ≤ j) (hHi : j < d + r) :
    (w.transfer isRead (g.offset + d) (g.pointer + d) r).target isRead (g.putsAt isRead + j) =
      w.source isRead (g.takesAt isRead + j) := by
  have hDest : dest isRead (g.offset + d) (g.pointer + d) = g.putsAt isRead + d := by
    cases isRead <;> rfl
  have hOrigin : origin isRead (g.offset + d) (g.pointer + d) = g.takesAt isRead + d := by
    cases isRead <;> rfl
  rw [World.target_transfer, hDest, hOrigin,
    Image.write_apply_mem _ _ (by omega) (by rw [Image.length_read]; omega), Image.getElem_read]
  congr 1
  omega

theorem size_transfer_le (w : World) (isRead : Bool) (offset pointer r : Nat) :
    w.file.size ≤ (w.transfer isRead offset pointer r).file.size := by
  rw [World.size_transfer, World.grown]
  split_ifs <;> omega

/-- The bytes of the moved segment itself. -/
theorem Delivered.extend (h : Delivered isRead w₀ w g d) (hSource : w.source isRead = w₀.source isRead) :
    Delivered isRead w₀ (w.transfer isRead (g.offset + d) (g.pointer + d) r) g (d + r) := by
  refine ⟨fun j hj => ?_, fun hWrite hPos => ?_⟩
  · rcases Nat.lt_or_ge j d with hOld | hNew
    · rw [target_transfer_off (Or.inr (by omega)), h.bytes j hOld]
    · rw [target_transfer_in hNew hj, hSource]
  · rw [World.size_transfer, World.grown, hWrite]
    rcases Nat.eq_zero_or_pos r with hNone | hSome
    · have hOld := h.size hWrite (by omega)
      simp only [hNone, or_true, if_true]
      omega
    · rw [if_neg (by simp; omega)]
      omega

/-- The bytes of every segment survive a move of any of them. -/
theorem Delivered.transfer (hPieces : Pieces isRead S) (hi : S[i]? = some g) (hk : S[k]? = some other)
    (hFits : d + r ≤ g.len) (hCount : count ≤ other.len)
    (hSource : w.source isRead = w₀.source isRead) (h : Delivered isRead w₀ w other count) :
    Delivered isRead w₀ (w.transfer isRead (g.offset + d) (g.pointer + d) r) other count := by
  refine ⟨fun j hj => ?_, fun hWrite hPos => (h.size hWrite hPos).trans (size_transfer_le ..)⟩
  by_cases hSame : i = k
  · obtain rfl : g = other := Option.some.inj ((hSame ▸ hi).symm.trans hk)
    by_cases hIn : d ≤ j ∧ j < d + r
    · rw [target_transfer_in hIn.1 hIn.2, hSource]
    · rw [target_transfer_off (by omega), h.bytes j hj]
  · rw [target_transfer_off (by have := hPieces.apart_of_ne hi hk hSame; omega), h.bytes j hj]

theorem Moving.transfer (h : Moving isRead S w₀ w) (hMem : g ∈ S) (hFits : d + r ≤ g.len) :
    Moving isRead S w₀ (w.transfer isRead (g.offset + d) (g.pointer + d) r) := by
  refine ⟨by rw [World.source_transfer, h.source], fun a ha => ?_,
    h.sizeLo.trans (size_transfer_le ..), fun x hLo hEnds => ?_⟩
  · rw [target_transfer_off (by have := ha g hMem; omega), h.outside a ha]
  · have hOld := h.sizeHi x hLo hEnds
    rw [World.size_transfer, World.grown]
    split_ifs with hKeep
    · exact hOld
    · have hWrite : isRead = false := by simpa using fun hTrue => hKeep (Or.inl hTrue)
      have hEnd := hEnds hWrite g hMem
      omega

end Transfer

/-- Two worlds in which every segment is delivered are the same. -/
theorem eq_of_delivered {S : List IoSegment} {v : World} (hw : Moving isRead S w₀ w)
    (hv : Moving isRead S w₀ v) (hPos : ∀ g ∈ S, 0 < g.len)
    (hDoneW : ∀ g ∈ S, Delivered isRead w₀ w g g.len)
    (hDoneV : ∀ g ∈ S, Delivered isRead w₀ v g g.len) : w = v := by
  refine World.ext_of isRead (hw.source.trans hv.source.symm) (funext fun a => ?_) ?_
  · by_cases hIn : ∃ g ∈ S, g.putsAt isRead ≤ a ∧ a < g.putsAt isRead + g.len
    · obtain ⟨g, hg, hLo, hHi⟩ := hIn
      have hAt : a = g.putsAt isRead + (a - g.putsAt isRead) := by omega
      rw [hAt, (hDoneW g hg).bytes _ (by omega), (hDoneV g hg).bytes _ (by omega)]
    · have hOut : ∀ g ∈ S, a < g.putsAt isRead ∨ g.putsAt isRead + g.len ≤ a := fun g hg => by
        by_contra hNot
        exact hIn ⟨g, hg, by omega⟩
      rw [hw.outside a hOut, hv.outside a hOut]
  · refine Nat.le_antisymm (hw.sizeHi _ hv.sizeLo ?_) (hv.sizeHi _ hw.sizeLo ?_)
    · exact fun hWrite g hg => (hDoneV g hg).size hWrite (hPos g hg)
    · exact fun hWrite g hg => (hDoneW g hg).size hWrite (hPos g hg)

/-- Every segment moved as a whole, one after the other. -/
def moveAll (isRead : Bool) (w : World) (S : List IoSegment) : World :=
  S.foldl (fun w g => w.transfer isRead g.offset g.pointer g.len) w

/-- Moving whole segments in turn delivers them all: `done` have been moved before. -/
theorem moveAll_delivered {S : List IoSegment} (hPieces : Pieces isRead S) (todo : List IoSegment) :
    ∀ (done : List IoSegment) (w : World), S = done ++ todo → Moving isRead S w₀ w →
      (∀ g ∈ done, Delivered isRead w₀ w g g.len) →
      Moving isRead S w₀ (moveAll isRead w todo) ∧
        ∀ g ∈ S, Delivered isRead w₀ (moveAll isRead w todo) g g.len := by
  induction todo with
  | nil =>
      intro done w hS hMoving hDone
      rw [List.append_nil] at hS
      exact ⟨hMoving, fun g hg => hDone g (hS ▸ hg)⟩
  | cons g rest ih =>
      intro done w hS hMoving hDone
      have hAt : S[done.length]? = some g := by rw [hS]; simp
      have hMem : g ∈ S := List.mem_of_getElem? hAt
      refine ih (done ++ [g]) (w.transfer isRead (g.offset + 0) (g.pointer + 0) g.len)
        (by rw [hS]; simp) (hMoving.transfer hMem (by omega)) fun other hOther => ?_
      rcases List.mem_append.mp hOther with hOld | hNew
      · obtain ⟨k, hk⟩ := List.mem_iff_getElem?.mp (show other ∈ S by rw [hS]; simp [hOld])
        exact (hDone other hOld).transfer hPieces hAt hk (by omega) le_rfl hMoving.source
      · obtain rfl : other = g := by simpa using hNew
        have hWhole := (Delivered.zero (w := w) other).extend hMoving.source (r := other.len)
        rwa [Nat.zero_add] at hWhole

namespace UringIo

/-- The pieces of a buffer from `done` on: inside it, no longer than a chunk, in order. -/
theorem mem_splitFrom {chunk : Nat} {r : BlockReq} {done : Nat} {g : IoSegment}
    (h : g ∈ splitFrom chunk r done) :
    ∃ at' ≥ done, g = ⟨r.off + at', r.pointer + at', g.len⟩ ∧ 0 < g.len ∧ g.len ≤ chunk ∧
      at' + g.len ≤ r.len := by
  induction done using splitFrom.induct chunk r with
  | case1 done hMore ih =>
      rw [splitFrom, dif_pos hMore] at h
      rcases List.mem_cons.mp h with rfl | hRest
      · exact ⟨done, le_rfl, rfl, by simp only; omega, by simp only; omega, by simp only; omega⟩
      · obtain ⟨at', hGe, hRest⟩ := ih hRest
        exact ⟨at', by omega, hRest⟩
  | case2 done hStop =>
      rw [splitFrom, dif_neg hStop] at h
      cases h

theorem splitFrom_apart (isRead : Bool) (chunk : Nat) (r : BlockReq) (done : Nat) :
    (splitFrom chunk r done).Pairwise fun a b =>
      a.putsAt isRead + a.len ≤ b.putsAt isRead ∨ b.putsAt isRead + b.len ≤ a.putsAt isRead := by
  induction done using splitFrom.induct chunk r with
  | case1 done hMore ih =>
      rw [splitFrom, dif_pos hMore]
      refine List.Pairwise.cons (fun b hb => Or.inl ?_) ih
      obtain ⟨at', hGe, hb, -⟩ := mem_splitFrom hb
      rw [hb]
      have hStep : done + min (r.len - done) chunk ≤ at' := hGe
      cases isRead
      · exact (Nat.add_assoc r.off _ _).trans_le (Nat.add_le_add_left hStep _)
      · exact (Nat.add_assoc r.pointer _ _).trans_le (Nat.add_le_add_left hStep _)
  | case2 done hStop =>
      rw [splitFrom, dif_neg hStop]
      exact List.Pairwise.nil

/-- Moving the pieces of a buffer is moving the buffer. -/
theorem moveAll_splitFrom {chunk : Nat} (hChunk : 0 < chunk) (isRead : Bool) (r : BlockReq)
    (done : Nat) (w : World) : moveAll isRead w (splitFrom chunk r done) =
      w.transfer isRead (r.off + done) (r.pointer + done) (r.len - done) := by
  induction done using splitFrom.induct chunk r generalizing w with
  | case1 done hMore ih =>
      rw [splitFrom, dif_pos hMore]
      refine (ih _).trans ?_
      rw [← Nat.add_assoc, ← Nat.add_assoc, World.transfer_add]
      have hLen : min (r.len - done) chunk + (r.len - (done + min (r.len - done) chunk)) =
          r.len - done := by omega
      exact congrArg _ hLen
  | case2 done hStop =>
      rw [splitFrom, dif_neg hStop, show r.len - done = 0 by omega, World.transfer_zero]
      rfl

variable {io : UringIo} {requests : List BlockReq}

theorem moveAll_append (isRead : Bool) (w : World) (a b : List IoSegment) :
    moveAll isRead w (a ++ b) = moveAll isRead (moveAll isRead w a) b := by
  simp [moveAll]

theorem moveAll_segmentsOf (hChunk : 0 < io.chunk) (isRead : Bool) (requests : List BlockReq)
    (w : World) : moveAll isRead w (io.segmentsOf requests) = w.served isRead requests := by
  induction requests generalizing w with
  | nil => rfl
  | cons r rest ih =>
      rw [segmentsOf, List.flatMap_cons, moveAll_append, split, moveAll_splitFrom hChunk]
      exact ih _

/-- Requests with separate targets are cut into segments with separate targets. -/
theorem segmentsOf_pieces (hChunk : io.chunk < 2 ^ 32) (hApart : Apart isRead requests) :
    Pieces isRead (io.segmentsOf requests) := by
  have hMem : ∀ g ∈ io.segmentsOf requests, 0 < g.len ∧ g.len ≤ io.chunk := fun g hg => by
    obtain ⟨r, -, hg⟩ := List.mem_flatMap.mp hg
    obtain ⟨_, _, _, hPos, hLe, _⟩ := mem_splitFrom hg
    exact ⟨hPos, hLe⟩
  refine ⟨?_, fun g hg => (hMem g hg).1, fun g hg => (hMem g hg).2.trans_lt hChunk⟩
  refine List.pairwise_flatMap.mpr ⟨fun r _ => splitFrom_apart isRead _ r 0, ?_⟩
  refine hApart.imp fun {r q} hEnds a ha b hb => ?_
  obtain ⟨atA, -, hA, hPosA, -, hInA⟩ := mem_splitFrom ha
  obtain ⟨atB, -, hB, hPosB, -, hInB⟩ := mem_splitFrom hb
  rw [hA, hB]
  cases isRead <;> simp only [IoSegment.putsAt, dest, Bool.false_eq_true, ↓reduceIte] at hEnds ⊢ <;>
    omega

end UringIo

end HeapStore.BlockIo
