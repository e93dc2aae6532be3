import HeapStore.Recovery.Scan

/-! The chunked walk is the plain scan: every buffer holds the bytes of the
file at its addresses, and enough of them at each decision. -/
namespace HeapStore

open Effect

/-- Everything staged for the data file is in the file, which has these bytes.
In a calm schedule every request succeeds. -/
structure Settled (calm : Prop) (image : Nat → UInt8) (s : Store) : Prop where
  staged : (s.paged .data).stagedWrites = []
  bytes : (s.file .data).bytes = image
  plan : calm → s.plan = []

theorem Settled.quiet {calm : Prop} {image : Nat → UInt8} {s t : Store} (h : Settled calm image s)
    (hQuiet : Quiet s t) : Settled calm image t :=
  ⟨by rw [hQuiet.paged, h.staged], by rw [hQuiet.file, h.bytes], fun hCalm => hQuiet.plan (h.plan hCalm)⟩

/-- A block request fails only in a schedule that is not calm. -/
def ReadFailure (calm : Prop) (e : Failure) : Prop := IoFailure e ∧ ¬ calm

/-- Reads up to this offset are in range of the checked sums and, in a calm
schedule, of the kernel's file offsets. -/
structure Readable (calm : Prop) (endOffset : Nat) : Prop where
  sum : endOffset + PAGE < 2 ^ 64
  reach : calm → pageUp endOffset < 2 ^ 63

/-- The sum of a checked addition exceeds 64 bits. -/
def SumOverflow (e : Failure) : Prop := e = .panic "attempt to add with overflow"

theorem Readable.mono {calm : Prop} {a b : Nat} (h : Readable calm b) (hLe : a ≤ b) : Readable calm a :=
  ⟨Nat.lt_of_le_of_lt (Nat.add_le_add_right hLe _) h.sum,
    fun hCalm => Nat.lt_of_le_of_lt (pageUp_mono hLe) (h.reach hCalm)⟩

/-- Whatever lies in pages that the kernel addresses can be read. -/
theorem readable_of_pageUp {calm : Prop} {endOffset : Nat} (hEnd : pageUp endOffset < 2 ^ 63) :
    Readable calm endOffset := ⟨PagedFile.fits_of_pageUp hEnd, fun _ => hEnd⟩

namespace PagedFile

variable {n : FileName} {off len : Nat} {s : Store}

/-- With nothing staged, an aligned read only reads. -/
theorem readAligned_meets {calm : Prop} (hStaged : (s.paged n).stagedWrites = [])
    (hPlan : calm → s.plan = []) (hFits : Readable calm (off + len)) :
    Meets (ReadFailure calm) (fun out t => out =
        (Image.read (s.file n).bytes (pageDown off) (pageUp (off + len) - pageDown off),
          off - pageDown off) ∧ Quiet s t) (readAligned n off len) s := by
  have hFlush : flush n s = .ok () s := by
    rw [flush, bind_of_ok (getPaged_apply n s)]
    simp [hStaged]
  rw [meets_iff]
  constructor
  · intro out t hRun
    rw [readAligned, bind_of_ok hFlush, bind_of_ok (pageUpU64_run hFits.sum s)] at hRun
    obtain ⟨buffer, u, hRead, hPure⟩ := bind_eq_ok.mp hRun
    cases hPure
    obtain ⟨rfl, rfl⟩ := readOne_ok hRead
    exact ⟨rfl, Quiet.tick s⟩
  · intro e t hRun
    refine ⟨?_, fun hCalm => ?_⟩
    · rcases readAligned_error hRun with hIo | ⟨-, hOver⟩
      · exact hIo
      · exact absurd hFits.sum (Nat.not_lt.mpr hOver)
    · have hDown := pageDown_le off
      have hUp := (Nat.le_add_right off len).trans (le_pageUp (off + len))
      have hRange := hFits.reach hCalm
      rw [readAligned, bind_of_ok hFlush, bind_of_ok (pageUpU64_run hFits.sum s),
        bind_of_ok (readOne_run (hPlan hCalm) (by omega))] at hRun
      cases hRun

end PagedFile

/-- The wanted bytes of an aligned read. -/
theorem field_aligned (image : Nat → UInt8) (off len : Nat) :
    field (Image.read image (pageDown off) (pageUp (off + len) - pageDown off))
      (off - pageDown off) len = Image.read image off len := by
  have hDown := pageDown_le off
  have hUp := le_pageUp (off + len)
  rw [field_read _ _ _ (by omega), Nat.add_sub_cancel' hDown]

theorem sliceOf_run {buf : Bytes} {start count : Nat} (h : start + count ≤ buf.length) (s : Store) :
    sliceOf buf start count s = .ok (field buf start count) s := by
  rw [sliceOf, if_neg (Nat.not_lt.mpr h)]
  rfl

theorem sliceFrom_run {buf : Bytes} {start : Nat} (h : start ≤ buf.length) (s : Store) :
    sliceFrom buf start s = .ok (buf.drop start) s := by
  rw [sliceFrom, if_neg (Nat.not_lt.mpr h)]
  rfl

namespace ScanBuffer

variable {image : Nat → UInt8} {b b' : ScanBuffer} {endOffset position needed fuel : Nat}
  {s : Store} {calm : Prop}

/-- The buffer holds the bytes of the image at its addresses. -/
def Copies (image : Nat → UInt8) (b : ScanBuffer) : Prop :=
  b.bytes = Image.read image b.start b.bytes.length

theorem Copies.drop (h : Copies image b) {off : Nat} (hLo : b.start ≤ off) :
    b.bytes.drop (off - b.start) = Image.read image off (b.stop - off) := by
  rcases Nat.lt_or_ge b.stop off with hPast | hIn
  · rw [List.drop_eq_nil_of_le (by unfold stop at hPast; omega),
      show b.stop - off = 0 by omega, Image.read_zero]
  · conv_lhs => rw [h]
    rw [Image.drop_read _ _ _ _ (by unfold stop at hIn; omega), Nat.add_sub_cancel' hLo]
    congr 1
    unfold stop
    omega

theorem Copies.field (h : Copies image b) {off len : Nat} (hLo : b.start ≤ off)
    (hHi : off + len ≤ b.stop) : HeapStore.field b.bytes (off - b.start) len = Image.read image off len := by
  rw [HeapStore.field, h.drop hLo, Image.take_read _ _ _ _ (by omega)]

/-- What a call that keeps the buffer a copy leaves of its old content. -/
structure Refilled (image : Nat → UInt8) (endOffset : Nat) (b b' : ScanBuffer) : Prop where
  copies : Copies image b'
  start : b'.start = b.start
  grown : b.stop ≤ b'.stop
  inside : b'.stop ≤ max b.stop endOffset

theorem discard_meets {offset keep : Nat} (hCopies : Copies image b) (hStart : b.start ≤ offset)
    (hStop : offset ≤ b.stop + keep) :
    Meets (ReadFailure calm) (fun b' t => t = s ∧ Copies image b' ∧ b'.stop = b.stop ∧ b'.start ≤ offset ∧
      b.start ≤ b'.start ∧ b'.start ≤ b'.stop) (b.discard offset keep) s := by
  unfold discard
  simp only [subU64, if_neg (Nat.not_lt.mpr hStart)]
  refine Meets.pure_bind ?_
  split
  · rename_i hMany
    have hEnough : ¬ b.bytes.length < offset - b.start - keep := by
      unfold stop at hStop
      omega
    rw [drain, if_neg hEnough]
    refine Meets.pure ⟨rfl, ?_, ?_, ?_, ?_, ?_⟩
    · unfold Copies
      simp only [List.length_drop]
      conv_lhs => rw [hCopies]
      rw [Image.drop_read _ _ _ _ (by omega)]
    · simp only [stop, List.length_drop]
      omega
    · simp only
      omega
    · simp only
      omega
    · simp only [stop, List.length_drop]
      omega
  · exact Meets.pure ⟨rfl, hCopies, rfl, hStart, Nat.le_refl _, by unfold stop; omega⟩

theorem fill_meets {available : Nat} (hSettled : Settled calm image s) (hCopies : Copies image b)
    (hEnd : Readable calm endOffset) (hAvailable : position + available = b.stop)
    (hPos : 0 < fuel) (hFuel : endOffset + 1 ≤ fuel + b.stop) :
    Meets (ReadFailure calm) (fun out t => Refilled image endOffset b out.1 ∧ Quiet s t ∧
      (out.2 = true → position + needed ≤ out.1.stop) ∧
      (out.2 = false → endOffset ≤ out.1.stop ∧ out.1.stop < position + needed))
      (fill endOffset needed fuel available b) s := by
  induction fuel generalizing available b s with
  | zero => omega
  | succ fuel ih =>
      have hSame : Refilled image endOffset b b := ⟨hCopies, rfl, Nat.le_refl _, Nat.le_max_left _ _⟩
      rw [fill]
      split
      · rename_i hEnough
        exact Meets.pure ⟨hSame, Quiet.refl s, fun _ => (by omega : position + needed ≤ b.stop), nofun⟩
      rename_i hMore
      split
      · rename_i hUsedUp
        exact Meets.pure ⟨hSame, Quiet.refl s, nofun,
          fun _ => ⟨hUsedUp, (by omega : b.stop < position + needed)⟩⟩
      rename_i hLeft
      have hLen : min RECOVERY_SCAN_CHUNK_SIZE (endOffset - b.stop) ≤ endOffset - b.stop :=
        Nat.min_le_right _ _
      have hLenPos : 0 < min RECOVERY_SCAN_CHUNK_SIZE (endOffset - b.stop) := by
        have : 0 < RECOVERY_SCAN_CHUNK_SIZE := by decide
        omega
      refine Meets.bind (PagedFile.readAligned_meets hSettled.staged hSettled.plan
        (hEnd.mono (by omega))) ?_
      rintro ⟨chunk, chunkOffset⟩ t ⟨hOut, hQuiet⟩
      cases hOut
      have hDown := pageDown_le b.stop
      have hUp := le_pageUp (b.stop + min RECOVERY_SCAN_CHUNK_SIZE (endOffset - b.stop))
      refine Meets.bind_of_ok (sliceOf_run (by rw [Image.length_read]; omega) t) ?_
      simp only [field_aligned, hSettled.bytes]
      have hNew : Copies image ⟨b.start, b.bytes ++
          Image.read image b.stop (min RECOVERY_SCAN_CHUNK_SIZE (endOffset - b.stop))⟩ := by
        unfold Copies
        simp only [List.length_append, Image.length_read]
        conv_lhs => rw [hCopies]
        rw [Image.read_add]
        rfl
      have hStop : ScanBuffer.stop ⟨b.start, b.bytes ++
          Image.read image b.stop (min RECOVERY_SCAN_CHUNK_SIZE (endOffset - b.stop))⟩ =
          b.stop + min RECOVERY_SCAN_CHUNK_SIZE (endOffset - b.stop) := by
        simp only [stop, List.length_append, Image.length_read]
        omega
      refine (ih (hSettled.quiet hQuiet) hNew (by rw [hStop]; omega) (by omega)
        (by rw [hStop]; omega)).mono (fun _ h => h) ?_
      rintro ⟨b', enough⟩ u ⟨hRefilled, hQuiet', hTrue, hFalse⟩
      refine ⟨⟨hRefilled.copies, hRefilled.start, ?_, ?_⟩, hQuiet.trans hQuiet', hTrue, hFalse⟩
      · exact (by omega : b.stop ≤ _).trans hRefilled.grown
      · refine hRefilled.inside.trans ?_
        rw [hStop]
        omega

/-- Bytes up to a position inside the range are made available. -/
theorem ensureAvailable_meets (hSettled : Settled calm image s) (hCopies : Copies image b)
    (hEnd : Readable calm endOffset) (hPosition : position ≤ b.stop)
    (hInside : b.stop ≤ endOffset) :
    Meets (ReadFailure calm) (fun out t => Refilled image endOffset b out.1 ∧ out.1.stop ≤ endOffset ∧
        Quiet s t ∧ out.2 = decide (position + needed ≤ endOffset) ∧
        (out.2 = true → position + needed ≤ out.1.stop))
      (b.ensureAvailable endOffset position needed) s := by
  unfold ensureAvailable
  simp only [subU64, if_neg (Nat.not_lt.mpr hPosition)]
  refine Meets.pure_bind ?_
  refine (fill_meets hSettled hCopies hEnd (show position + (b.stop - position) = b.stop by omega)
    (by omega) (by omega)).mono (fun _ h => h) ?_
  rintro ⟨b', enough⟩ u ⟨hRefilled, hQuiet, hTrue, hFalse⟩
  have hIn := hRefilled.inside
  refine ⟨hRefilled, by simp only at *; omega, hQuiet, ?_, hTrue⟩
  simp only at *
  cases enough with
  | true =>
      have := hTrue rfl
      simp only [true_eq_decide_iff]
      omega
  | false =>
      have := hFalse rfl
      simp only [false_eq_decide_iff]
      omega

end ScanBuffer

namespace WalkState

variable {σ : Type}

/-- The walk without its buffer. -/
def plain (w : WalkState σ) : Scanned σ := ⟨w.position, w.stats, w.seen⟩

@[simp] theorem plain_position (w : WalkState σ) : w.plain.position = w.position := rfl

/-- The buffer is a copy of the file around the position. -/
structure Ready (image : Nat → UInt8) (endOffset : Nat) (w : WalkState σ) : Prop where
  copies : w.buffer.Copies image
  start : w.buffer.start ≤ w.position
  stop : w.position ≤ w.buffer.stop
  inside : w.buffer.stop ≤ max endOffset w.position

end WalkState

namespace WalkRange

open ScanBuffer

variable {σ : Type} {r : WalkRange} {image : Nat → UInt8} {visitor : Visitor σ} {s : Store}
  {calm : Prop}

theorem resync_meets {position searchOffset fuel : Nat} {b : ScanBuffer} (hSettled : Settled calm image s)
    (hEnd : Readable calm r.endOffset) (hCopies : b.Copies image)
    (hStart : b.start ≤ searchOffset) (hStop : searchOffset ≤ b.stop + 3)
    (hPosition : position < searchOffset) (hHeld : position ≤ b.stop)
    (hInside : b.stop ≤ r.endOffset)
    (hBefore : ∀ k, position + 1 ≤ k → k < searchOffset → ¬ MagicAt image k)
    (hPos : 0 < fuel) (hFuel : r.endOffset + 2 ≤ fuel + searchOffset) :
    Meets (ReadFailure calm) (fun out t => out.1 = nextMagic image (position + 1) r.endOffset ∧
        out.2.Copies image ∧ out.2.stop ≤ r.endOffset ∧
        (∀ off, out.1 = some off → out.2.start ≤ off ∧ off ≤ out.2.stop) ∧ Quiet s t)
      (r.resync position fuel searchOffset b) s := by
  induction fuel generalizing searchOffset b s with
  | zero => omega
  | succ fuel ih =>
      rw [resync]
      refine Meets.bind (discard_meets hCopies hStart hStop) ?_
      rintro b₁ t ⟨rfl, hCopies₁, hStop₁, hStart₁, -, hStart₁'⟩
      refine Meets.bind (ensureAvailable_meets hSettled hCopies₁ hEnd (by omega) (by omega)) ?_
      rintro ⟨b₂, enough⟩ u ⟨hRefilled, hInside₂, hQuiet, hEnough, hAvailable⟩
      simp only at hRefilled hInside₂ hEnough hAvailable ⊢
      have hStart₂ := hRefilled.start
      have hGrown := hRefilled.grown
      have hNeeded : position + (searchOffset - position + 4) = searchOffset + 4 := by omega
      rw [hNeeded] at hEnough hAvailable
      cases enough with
      | false =>
          simp only [Bool.false_eq_true, if_false]
          have hShort : r.endOffset < searchOffset + 4 := by simpa using hEnough
          have hNone : nextMagic image (position + 1) r.endOffset = none :=
            nextMagic_eq_none.mpr fun k hLo hHi => hBefore k hLo (by omega)
          exact Meets.pure ⟨hNone.symm, hRefilled.copies, hInside₂, nofun, hQuiet⟩
      | true =>
          have hLong := hAvailable rfl
          simp only [if_true, subU64, if_neg (show ¬ searchOffset < b₂.start by omega)]
          refine Meets.pure_bind ?_
          have hSlice : searchOffset - b₂.start ≤ b₂.bytes.length := by
            unfold ScanBuffer.stop at hLong
            omega
          refine Meets.bind_of_ok (sliceFrom_run hSlice u) ?_
          rw [hRefilled.copies.drop (by omega), findMagic_read,
            show searchOffset + (b₂.stop - searchOffset) = b₂.stop by omega]
          cases hNext : nextMagic image searchOffset b₂.stop with
          | some off =>
              obtain ⟨hLo, hHi, hMagic, hFirst⟩ := nextMagic_eq_some hNext
              simp only [Option.map_some, show searchOffset + (off - searchOffset) = off by omega]
              have hFound : nextMagic image (position + 1) r.endOffset = some off :=
                nextMagic_of_first (by omega) (by omega) hMagic fun k hkLo hkHi => by
                  rcases Nat.lt_or_ge k searchOffset with hLt | hGe
                  · exact hBefore k hkLo hLt
                  · exact hFirst k hGe hkHi
              refine Meets.pure ⟨hFound.symm, hRefilled.copies, hInside₂, ?_, hQuiet⟩
              rintro _ ⟨⟩
              exact ⟨(by omega : b₂.start ≤ off), (by omega : off ≤ b₂.stop)⟩
          | none =>
              simp only [Option.map_none]
              have hClear := nextMagic_eq_none.mp hNext
              refine (ih (hSettled.quiet hQuiet) hRefilled.copies (by omega) (by omega) (by omega)
                (by omega) hInside₂ ?_ (by omega) (by omega)).mono (fun _ h => h) ?_
              · intro k hkLo hkHi
                rcases Nat.lt_or_ge k searchOffset with hLt | hGe
                · exact hBefore k hkLo hLt
                · exact hClear k hGe (by omega)
              · rintro out v ⟨hFound, hOut, hIn, hHeld', hQuiet'⟩
                exact ⟨hFound, hOut, hIn, hHeld', hQuiet.trans hQuiet'⟩

/-- How a pass may fail: in a block request, or at a record end beyond 64 bits. -/
def WalkFailure (calm : Prop) (overflows : Bool) (e : Failure) : Prop :=
  ReadFailure calm e ∨ (SumOverflow e ∧ overflows = true)

theorem fitting_meets (position : Nat) (decoded : Option RecordHeader) :
    Meets (fun e => SumOverflow e ∧ (decoded.any fun header =>
          decide (2 ^ 64 ≤ position + headerLen r.withBucket + header.len)) = true)
      (fun out t => t = s ∧ out = decoded.filter fun header =>
          decide (position + headerLen r.withBucket + header.len ≤ r.endOffset))
      (r.fitting position decoded) s := by
  cases decoded with
  | none => exact Meets.pure ⟨rfl, rfl⟩
  | some header =>
      rw [fitting]
      by_cases hOver : 2 ^ 64 ≤ position + headerLen r.withBucket + header.len
      · simp only [addU64, if_pos hOver]
        exact Meets.of_error (bind_of_error rfl) ⟨rfl, by simpa using hOver⟩
      · simp only [addU64, if_neg hOver]
        refine Meets.of_ok rfl ⟨rfl, ?_⟩
        simp [Option.filter]

theorem visit_meets {w : WalkState σ} {header : RecordHeader} (hSettled : Settled calm image s)
    (hEnd : Readable calm r.endOffset) (hReady : w.Ready image r.endOffset)
    (hFits : w.position + headerLen r.withBucket + header.len ≤ r.endOffset) :
    Meets (ReadFailure calm) (fun out t => (out.1.plain, out.2) = r.scanVisit image visitor w.plain header ∧
        out.1.Ready image r.endOffset ∧ Quiet s t) (r.visit visitor w header) s := by
  have hInside := hReady.inside
  unfold visit
  refine Meets.bind (ensureAvailable_meets hSettled hReady.copies hEnd hReady.stop (by omega)) ?_
  rintro ⟨b, enough⟩ t ⟨hRefilled, hInside', hQuiet, hEnough, hAvailable⟩
  simp only at hRefilled hInside' hEnough hAvailable ⊢
  obtain rfl : enough = true := by
    rw [hEnough, decide_eq_true_iff]
    omega
  have hStart := hRefilled.start
  have hReadyStart := hReady.start
  have hLong := hAvailable rfl
  have hStart' : b.start ≤ w.position := by omega
  have hOffset : w.position - b.start + headerLen r.withBucket =
      w.position + headerLen r.withBucket - b.start := by omega
  simp only [if_true, subU64, if_neg (show ¬ w.position < b.start by omega)]
  refine Meets.pure_bind ?_
  have hSlice : w.position - b.start + headerLen r.withBucket + header.len ≤ b.bytes.length := by
    unfold ScanBuffer.stop at hLong
    omega
  refine Meets.bind_of_ok (sliceOf_run hSlice t) ?_
  refine Meets.pure ⟨?_, ?_, hQuiet⟩
  · simp only [hOffset, hRefilled.copies.field (show b.start ≤ w.position + headerLen r.withBucket by omega)
      (show w.position + headerLen r.withBucket + header.len ≤ b.stop by omega)]
    rfl
  · exact ⟨hRefilled.copies, show b.start ≤ w.position + headerLen r.withBucket + header.len by omega,
      show w.position + headerLen r.withBucket + header.len ≤ b.stop by omega,
      hInside'.trans (Nat.le_max_left _ _)⟩

theorem skip_meets {w : WalkState σ} (hSettled : Settled calm image s)
    (hEnd : Readable calm r.endOffset) (hReady : w.Ready image r.endOffset)
    (hInside : w.buffer.stop ≤ r.endOffset) :
    Meets (ReadFailure calm) (fun out t => (out.1.plain, out.2) = r.scanSkip image w.plain ∧
        (out.2 = true → out.1.Ready image r.endOffset) ∧ Quiet s t) (r.skip w) s := by
  unfold skip scanSkip
  cases hResync : r.allowResync with
  | false =>
      simp only [Bool.false_eq_true, if_false]
      exact Meets.pure ⟨rfl, fun h => absurd h Bool.false_ne_true, Quiet.refl s⟩
  | true =>
      simp only [if_true]
      have hStart := hReady.start
      have hStop := hReady.stop
      refine Meets.bind (resync_meets hSettled hEnd hReady.copies (by omega) (by omega)
        (Nat.lt_succ_self _) hStop hInside (fun k _ _ => by omega) (by omega) (by omega)) ?_
      rintro ⟨found, b⟩ t ⟨hFound, hCopies, hIn, hHeld, hQuiet⟩
      have hNext : nextMagic image (w.plain.position + 1) r.endOffset = found := hFound.symm
      simp only [hNext]
      cases found with
      | some off =>
          obtain ⟨hLo, hHi⟩ := hHeld off rfl
          exact Meets.pure
            ⟨rfl, fun _ => ⟨hCopies, hLo, hHi, hIn.trans (Nat.le_max_left _ _)⟩, hQuiet⟩
      | none => exact Meets.pure ⟨rfl, fun h => absurd h Bool.false_ne_true, hQuiet⟩

/-- One pass of the walk is one pass of the plain scan. -/
theorem pass_meets {w : WalkState σ} (hSettled : Settled calm image s)
    (hEnd : Readable calm r.endOffset) (hReady : w.Ready image r.endOffset) :
    Meets (WalkFailure calm (r.overflowAt image w.position))
      (fun out t => (out.1.plain, out.2) = r.scanPass image visitor w.plain ∧
        (out.2 = true → out.1.Ready image r.endOffset) ∧ Quiet s t) (r.pass visitor w) s := by
  have hIo : ∀ e, ReadFailure calm e → WalkFailure calm (r.overflowAt image w.position) e := fun _ h => Or.inl h
  unfold pass
  refine Meets.bind ((discard_meets hReady.copies hReady.start
    (show w.position ≤ w.buffer.stop + 0 from hReady.stop)).mono hIo
    fun _ _ h => h) ?_
  rintro b t ⟨rfl, hCopies, hStop, hStart, -, -⟩
  have hHeld := hReady.stop
  have hInside := hReady.inside
  by_cases hPast : r.endOffset < w.position + headerLen r.withBucket
  · have hScan : r.scanPass image visitor w.plain = (w.plain, false) := if_pos hPast
    rw [if_pos hPast, hScan]
    exact Meets.pure ⟨rfl, fun h => absurd h Bool.false_ne_true, Quiet.refl t⟩
  rw [if_neg hPast]
  refine Meets.bind ((ensureAvailable_meets hSettled hCopies hEnd (by omega) (by omega)).mono hIo
    fun _ _ h => h) ?_
  rintro ⟨b', enough⟩ u ⟨hRefilled, hInside', hQuiet, hEnough, hAvailable⟩
  simp only at hRefilled hInside' hEnough hAvailable ⊢
  obtain rfl : enough = true := by
    rw [hEnough, decide_eq_true_iff]
    omega
  have hLong := hAvailable rfl
  have hStart' : b'.start ≤ w.position := by
    have := hRefilled.start
    omega
  simp only [if_true, subU64, if_neg (Nat.not_lt.mpr hStart')]
  refine Meets.pure_bind ?_
  have hSlice : w.position - b'.start ≤ b'.bytes.length := by
    unfold ScanBuffer.stop at hLong
    omega
  refine Meets.bind_of_ok (sliceFrom_run hSlice u) ?_
  -- the header is decoded from the bytes of the file
  have hDecode : RecordHeader.decode (b'.bytes.drop (w.position - b'.start)) r.withBucket =
      RecordHeader.decode (Image.read image w.position (headerLen r.withBucket)) r.withBucket := by
    rw [hRefilled.copies.drop hStart', ← RecordHeader.decode_take _ _ (Nat.le_refl _),
      Image.take_read _ _ _ _ (by omega)]
  rw [hDecode]
  refine Meets.bind ((fitting_meets (r := r) w.position _).mono
    (fun e h => Or.inr ⟨h.1, by rw [overflowAt, h.2, Bool.and_true, decide_eq_true_iff]; omega⟩)
    fun _ _ h => h) ?_
  rintro header z ⟨rfl, hHeader⟩
  obtain rfl : header = r.headerAt image w.position := hHeader
  have hReady' : WalkState.Ready image r.endOffset { w with buffer := b' } :=
    ⟨hRefilled.copies, hStart', show w.position ≤ b'.stop by omega,
      hInside'.trans (Nat.le_max_left _ _)⟩
  have hScan : r.scanPass image visitor w.plain = _ := if_neg hPast
  have hPosition : w.plain.position = w.position := rfl
  rw [hScan, hPosition]
  cases hHeader : r.headerAt image w.position with
  | some header =>
      have hFits : w.position + headerLen r.withBucket + header.len ≤ r.endOffset := by
        have hFilter := (Option.filter_eq_some_iff.mp hHeader).2
        simpa using hFilter
      refine (visit_meets (hSettled.quiet hQuiet) hEnd hReady' hFits).mono hIo ?_
      rintro out v ⟨hOut, hNext, hQuiet'⟩
      exact ⟨hOut, fun _ => hNext, hQuiet.trans hQuiet'⟩
  | none =>
      refine (skip_meets (hSettled.quiet hQuiet) hEnd hReady' hInside').mono hIo ?_
      rintro out v ⟨hOut, hNext, hQuiet'⟩
      exact ⟨hOut, hNext, hQuiet.trans hQuiet'⟩

/-- The walk loop never uses up its fuel, since every pass that goes on moves forward. -/
theorem loop_meets {fuel : Nat} {w : WalkState σ} (hSettled : Settled calm image s)
    (hEnd : Readable calm r.endOffset) (hReady : w.Ready image r.endOffset)
    (hFuel : r.endOffset - w.position < fuel) :
    Meets (WalkFailure calm (r.scanOverflows image visitor fuel w.plain))
      (fun out t => out.plain = r.scan image visitor fuel w.plain ∧ Quiet s t)
      (r.loop visitor fuel w) s := by
  induction fuel generalizing w s with
  | zero => omega
  | succ fuel ih =>
      unfold loop scan scanOverflows
      have hPass : Meets _ _ (r.pass visitor w) s := pass_meets hSettled hEnd hReady
      refine Meets.bind (hPass.mono ?_ fun _ _ h => h) ?_
      · rintro e (hIo | ⟨hOver, hAt⟩)
        · exact Or.inl hIo
        · exact Or.inr ⟨hOver, by simp [hAt]⟩
      rintro ⟨next, continueWalk⟩ t ⟨hNext, hReady', hQuiet⟩
      simp only at hNext hReady' ⊢
      rw [← hNext]
      cases continueWalk with
      | false =>
          simp only [Bool.false_eq_true, if_false]
          exact Meets.pure ⟨rfl, hQuiet⟩
      | true =>
          have hForward : w.position < next.position ∧ next.position ≤ r.endOffset :=
            scanPass_advances hNext.symm
          simp only [if_true]
          refine (ih (hSettled.quiet hQuiet) (hReady' rfl) (by omega)).mono ?_ ?_
          · rintro e (hIo | ⟨hOver, hAt⟩)
            · exact Or.inl hIo
            · exact Or.inr ⟨hOver, by simp [hAt]⟩
          · rintro out u ⟨hOut, hQuiet'⟩
            exact ⟨hOut, hQuiet.trans hQuiet'⟩

end WalkRange

/-- With nothing staged for the data file, the walk makes the visits of the plain scan. -/
theorem walk_settled_meets {σ : Type} (r : WalkRange) (startOffset : Nat) (visitor : Visitor σ)
    (seen : σ) {s : Store} {calm : Prop} {image : Nat → UInt8} (hSettled : Settled calm image s)
    (hEnd : Readable calm r.endOffset) :
    Meets (WalkRange.WalkFailure calm (r.scanOverflows image visitor (r.endOffset - startOffset + 1)
        ⟨startOffset, ⟨0, 0, 0, startOffset⟩, seen⟩))
      (fun out t => out = ((r.scanFrom image startOffset visitor seen).stats,
          (r.scanFrom image startOffset visitor seen).seen) ∧ Quiet s t)
      (walk r startOffset visitor seen) s := by
  have hReady : WalkState.Ready image r.endOffset
      (⟨⟨startOffset, []⟩, startOffset, ⟨0, 0, 0, startOffset⟩, seen⟩ : WalkState σ) :=
    ⟨rfl, Nat.le_refl _, by simp [ScanBuffer.stop], by simp [ScanBuffer.stop]⟩
  have hLoop : Meets _ _ (r.loop visitor (r.endOffset - startOffset + 1)
      ⟨⟨startOffset, []⟩, startOffset, ⟨0, 0, 0, startOffset⟩, seen⟩) s :=
    WalkRange.loop_meets hSettled hEnd hReady (Nat.lt_succ_self _)
  have hFlush := PagedFile.flush_of_staged_nil hSettled.staged
  unfold walk
  refine Meets.bind_of_ok hFlush (hLoop.bind ?_)
  rintro out t ⟨hOut, hQuiet⟩
  refine Meets.pure ⟨?_, hQuiet⟩
  have hScan : out.plain = r.scanFrom image startOffset visitor seen := hOut
  rw [← hScan]
  rfl

end HeapStore
