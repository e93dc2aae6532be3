import HeapStore.Recovery.Walk
import HeapStore.Storage.Stage
import Mathlib.Data.List.Range

/-! The plain scan: the walk without chunks and buffers, over the contiguous
bytes of the file. The walk makes the same visits and returns the same counts. -/
namespace HeapStore

open Effect

/-- The record magic stands at this address. -/
def MagicAt (image : Nat → UInt8) (off : Nat) : Prop := Image.read image off 4 = recordMagic

instance (image : Nat → UInt8) (off : Nat) : Decidable (MagicAt image off) :=
  inferInstanceAs (Decidable (_ = _))

/-- The first magic at or after an address, inside the range. -/
def nextMagic (image : Nat → UInt8) (lo endOffset : Nat) : Option Nat :=
  (List.range' lo (endOffset - 3 - lo)).find? fun off => decide (MagicAt image off)

structure Scanned (σ : Type) where
  position : Nat
  stats : WalkStats
  seen : σ

namespace WalkRange

variable {σ : Type}

/-- The header of a record that lies inside the range. -/
def headerAt (r : WalkRange) (image : Nat → UInt8) (off : Nat) : Option RecordHeader :=
  (RecordHeader.decode (Image.read image off (headerLen r.withBucket)) r.withBucket).filter
    fun header => decide (off + headerLen r.withBucket + header.len ≤ r.endOffset)

/-- Whether the stored payload counts as intact. -/
def payloadValid (r : WalkRange) (image : Nat → UInt8) (off : Nat) (header : RecordHeader) : Bool :=
  !r.integrity ||
    crc32c (Image.read image (off + headerLen r.withBucket) header.len) == header.crc

/-- The state after a record was shown to the visitor. -/
def scanVisit (r : WalkRange) (image : Nat → UInt8) (visitor : Visitor σ) (w : Scanned σ)
    (header : RecordHeader) : Scanned σ × Bool :=
  let valid := r.payloadValid image w.position header
  let (seen, continueWalk) := visitor w.seen w.position header valid
  let stop := w.position + headerLen r.withBucket + header.len
  (⟨stop,
    { w.stats with
      records := w.stats.records + 1
      badPayload := w.stats.badPayload + if valid then 0 else 1
      lastEnd := stop }, seen⟩, continueWalk)

def scanSkip (r : WalkRange) (image : Nat → UInt8) (w : Scanned σ) : Scanned σ × Bool :=
  if r.allowResync then
    match nextMagic image (w.position + 1) r.endOffset with
    | some off => (⟨off, { w.stats with resyncs := w.stats.resyncs + 1 }, w.seen⟩, true)
    | none => (w, false)
  else (w, false)

def scanPass (r : WalkRange) (image : Nat → UInt8) (visitor : Visitor σ) (w : Scanned σ) :
    Scanned σ × Bool :=
  if r.endOffset < w.position + headerLen r.withBucket then (w, false)
  else match r.headerAt image w.position with
    | some header => r.scanVisit image visitor w header
    | none => r.scanSkip image w

def scan (r : WalkRange) (image : Nat → UInt8) (visitor : Visitor σ) : Nat → Scanned σ → Scanned σ
  | 0, w => w
  | fuel + 1, w =>
      let next := r.scanPass image visitor w
      if next.2 then scan r image visitor fuel next.1 else next.1

/-- A header at this position gives a record end that is no 64-bit number. -/
def overflowAt (r : WalkRange) (image : Nat → UInt8) (off : Nat) : Bool :=
  decide (off + headerLen r.withBucket ≤ r.endOffset) && (RecordHeader.decode (Image.read image off (headerLen r.withBucket)) r.withBucket).any
    fun header => decide (2 ^ 64 ≤ off + headerLen r.withBucket + header.len)

/-- The scan comes to such a header. -/
def scanOverflows (r : WalkRange) (image : Nat → UInt8) (visitor : Visitor σ) :
    Nat → Scanned σ → Bool
  | 0, _ => false
  | fuel + 1, w =>
      let next := r.scanPass image visitor w
      r.overflowAt image w.position || (next.2 && scanOverflows r image visitor fuel next.1)

/-- The scan of a whole range. -/
def scanFrom (r : WalkRange) (image : Nat → UInt8) (startOffset : Nat) (visitor : Visitor σ)
    (seen : σ) : Scanned σ :=
  r.scan image visitor (r.endOffset - startOffset + 1)
    ⟨startOffset, ⟨0, 0, 0, startOffset⟩, seen⟩

end WalkRange

theorem length_recordMagic : recordMagic.length = 4 := by simp [recordMagic]

theorem nextMagic_eq_some {image : Nat → UInt8} {lo endOffset off : Nat}
    (h : nextMagic image lo endOffset = some off) :
    lo ≤ off ∧ off + 4 ≤ endOffset ∧ MagicAt image off ∧
      ∀ k, lo ≤ k → k < off → ¬ MagicAt image k := by
  obtain ⟨hMagic, before, after, hRange, hBefore⟩ := List.find?_eq_some_iff_append.mp h
  have hMem : off ∈ List.range' lo (endOffset - 3 - lo) := by simp [hRange]
  rw [List.mem_range'_1] at hMem
  refine ⟨hMem.1, by omega, by simpa using hMagic, fun k hLo hHi => ?_⟩
  have hAll := List.range'_eq_append_iff.mp hRange
  obtain ⟨count, hCount, hLeft, hRight⟩ := hAll
  have hOff : off = lo + count := by
    have hHead := congrArg List.head? hRight
    rw [List.head?_cons, List.head?_range'] at hHead
    split at hHead
    · cases hHead
    · simpa using hHead
  have hIn : k ∈ before := by
    rw [hLeft, List.mem_range'_1]
    omega
  simpa using hBefore k hIn

theorem nextMagic_eq_none {image : Nat → UInt8} {lo endOffset : Nat} :
    nextMagic image lo endOffset = none ↔
      ∀ k, lo ≤ k → k + 4 ≤ endOffset → ¬ MagicAt image k := by
  rw [nextMagic, List.find?_eq_none]
  constructor
  · intro h k hLo hHi
    have hMem : k ∈ List.range' lo (endOffset - 3 - lo) := by
      rw [List.mem_range'_1]
      omega
    simpa using h k hMem
  · intro h k hMem
    rw [List.mem_range'_1] at hMem
    simpa using h k hMem.1 (by omega)

/-- The first magic is unique. -/
theorem nextMagic_of_first {image : Nat → UInt8} {lo endOffset off : Nat} (hLo : lo ≤ off)
    (hHi : off + 4 ≤ endOffset) (hMagic : MagicAt image off)
    (hBefore : ∀ k, lo ≤ k → k < off → ¬ MagicAt image k) :
    nextMagic image lo endOffset = some off := by
  cases h : nextMagic image lo endOffset with
  | none => exact absurd hMagic (nextMagic_eq_none.mp h off hLo hHi)
  | some found =>
      obtain ⟨hFoundLo, -, hFound, hFoundBefore⟩ := nextMagic_eq_some h
      rcases Nat.lt_trichotomy found off with hLt | rfl | hGt
      · exact absurd hFound (hBefore found hFoundLo hLt)
      · rfl
      · exact absurd hMagic (hFoundBefore off hLo hGt)

/-- Searching a buffer is searching the addresses that it holds. -/
theorem findMagic_read (image : Nat → UInt8) (off count : Nat) :
    findMagic (Image.read image off count) = (nextMagic image off (off + count)).map (· - off) := by
  induction count generalizing off with
  | zero =>
      have hNone : nextMagic image off (off + 0) = none :=
        nextMagic_eq_none.mpr fun k hLo hHi => by omega
      rw [hNone]
      rfl
  | succ count ih =>
      rw [Image.read_succ, findMagic, ← Image.read_succ]
      by_cases hMagic : (Image.read image off (count + 1)).take 4 = recordMagic
      · have hLong : 4 ≤ count + 1 := by
          have hLength := congrArg List.length hMagic
          rw [length_recordMagic, List.length_take, Image.length_read] at hLength
          omega
        rw [if_pos hMagic]
        rw [Image.take_read _ _ _ _ hLong] at hMagic
        rw [nextMagic_of_first (Nat.le_refl off) (by omega) hMagic (fun k _ _ => by omega)]
        simp
      · rw [if_neg hMagic, ih (off + 1)]
        have hNot : off + 4 ≤ off + (count + 1) → ¬ MagicAt image off := fun hLong hAt => by
          rw [Image.take_read _ _ _ _ (by omega)] at hMagic
          exact hMagic hAt
        cases hNext : nextMagic image (off + 1) (off + 1 + count) with
        | none =>
            have hNone : nextMagic image off (off + (count + 1)) = none := by
              rw [nextMagic_eq_none] at hNext ⊢
              intro k hLo hHi
              rcases Nat.eq_or_lt_of_le hLo with rfl | hLt
              · exact hNot hHi
              · exact hNext k hLt (by omega)
            rw [hNone]
            rfl
        | some found =>
            obtain ⟨hLo, hHi, hAt, hBefore⟩ := nextMagic_eq_some hNext
            rw [nextMagic_of_first (show off ≤ found by omega) (by omega) hAt]
            · simp only [Option.map_some, Option.some.injEq]
              omega
            · intro k hkLo hkHi
              rcases Nat.eq_or_lt_of_le hkLo with rfl | hLt
              · exact hNot (by omega)
              · exact hBefore k hLt hkHi

namespace WalkRange

/-- A pass that goes on moves forward, and not past the range. -/
theorem scanPass_advances {σ : Type} {r : WalkRange} {image : Nat → UInt8} {visitor : Visitor σ}
    {w next : Scanned σ} (h : r.scanPass image visitor w = (next, true)) :
    w.position < next.position ∧ next.position ≤ r.endOffset := by
  unfold scanPass at h
  split at h
  · cases h
  cases hHeader : r.headerAt image w.position with
  | some header =>
      simp only [hHeader] at h
      have hFits := (Option.filter_eq_some_iff.mp hHeader).2
      rw [decide_eq_true_iff] at hFits
      have hNext := congrArg (fun x => x.1.position) h
      have hPos : w.position + headerLen r.withBucket + header.len = next.position := hNext
      have hSize : 0 < headerLen r.withBucket := by cases r.withBucket <;> decide
      omega
  | none =>
      simp only [hHeader] at h
      unfold scanSkip at h
      split at h
      · cases hMagic : nextMagic image (w.position + 1) r.endOffset with
        | some off =>
            simp only [hMagic] at h
            obtain ⟨hLo, hHi, -⟩ := nextMagic_eq_some hMagic
            have hPos : off = next.position := congrArg (fun x => x.1.position) h
            omega
        | none =>
            simp only [hMagic] at h
            cases h
      · cases h

end WalkRange

end HeapStore
