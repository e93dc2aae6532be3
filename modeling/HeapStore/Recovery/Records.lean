import HeapStore.Recovery.Scan
import HeapStore.Storage.DataFile

/-! Records laid out in an image: each is stored whole, none touches another,
and the bytes between them are zero. A scan then visits the records themselves. -/
namespace HeapStore

/-- A stored record: where it starts, its header, and the payload bytes that
are there now. -/
structure Record where
  off : Nat
  header : RecordHeader
  payload : Bytes

namespace Record

variable (withBucket : Bool) (r : Record)

def bytes : Bytes := r.header.encode withBucket ++ r.payload

def totalLen : Nat := headerLen withBucket + r.header.len

def stop : Nat := r.off + r.totalLen withBucket

def slot : Slot := ⟨r.off, r.totalLen withBucket⟩

/-- The payload passes the integrity check. -/
def intact (integrity : Bool) : Bool := !integrity || crc32c r.payload == r.header.crc

/-- The header is what its bytes decode to, and it names the payload's length. -/
structure WellFormed : Prop where
  range : r.header.InRange
  visible : r.header.visible withBucket = r.header
  length : r.payload.length = r.header.len

/-- Two records share no byte. -/
def Apart (a b : Record) : Prop := a.stop withBucket ≤ b.off ∨ b.stop withBucket ≤ a.off

variable {withBucket r}

theorem Apart.symm {a b : Record} (h : Apart withBucket a b) : Apart withBucket b a := Or.symm h

theorem WellFormed.length_bytes (h : r.WellFormed withBucket) :
    (r.bytes withBucket).length = r.totalLen withBucket := by
  rw [bytes, List.length_append, RecordHeader.length_encode, h.length, totalLen]

end Record

theorem headerLen_ge (withBucket : Bool) : 30 ≤ headerLen withBucket := by
  cases withBucket <;> decide

theorem headerLen_le (withBucket : Bool) : headerLen withBucket ≤ 38 := by
  cases withBucket <;> decide

theorem Record.off_lt_stop (withBucket : Bool) (r : Record) : r.off < r.stop withBucket := by
  have := headerLen_ge withBucket
  rw [Record.stop, Record.totalLen]
  omega

/-- An image that stores exactly these records behind the header page. -/
structure Laid (withBucket : Bool) (records : List Record) (image : Nat → UInt8) : Prop where
  formed : ∀ r ∈ records, r.WellFormed withBucket
  holds : ∀ r ∈ records, Image.Holds image r.off (r.bytes withBucket)
  apart : records.Pairwise (Record.Apart withBucket)
  base : ∀ r ∈ records, PAGE ≤ r.off
  blank : ∀ i, PAGE ≤ i → (∀ r ∈ records, i < r.off ∨ r.stop withBucket ≤ i) → image i = 0

/-- The magic and every record start with a byte that blank space does not have. -/
theorem recordMagic_head : recordMagic = 0x52 :: recordMagic.tail := by decide

theorem MagicAt.ne_zero {image : Nat → UInt8} {off : Nat} (h : MagicAt image off) : image off ≠ 0 := by
  rw [MagicAt, recordMagic_head, Image.read_succ, List.cons.injEq] at h
  rw [h.1]
  decide

theorem magicAt_of_decode {image : Nat → UInt8} {off : Nat} {withBucket : Bool} {h : RecordHeader}
    (hDecode : RecordHeader.decode (Image.read image off (headerLen withBucket)) withBucket = some h) :
    MagicAt image off := by
  have hLen := headerLen_ge withBucket
  have hMagic := RecordHeader.magic_of_decode withBucket hDecode
  rw [fieldNat, field_read _ _ _ (by omega), Nat.add_zero] at hMagic
  have hEncode := LittleEndian.encode_decode (Image.read image off 4)
  rw [Image.length_read, hMagic] at hEncode
  exact hEncode.symm

/-- Nothing decodes where blank space begins. -/
theorem decode_of_zero {image : Nat → UInt8} {off : Nat} (withBucket : Bool) (h : image off = 0) :
    RecordHeader.decode (Image.read image off (headerLen withBucket)) withBucket = none := by
  cases hDecode : RecordHeader.decode (Image.read image off (headerLen withBucket)) withBucket with
  | none => rfl
  | some header => exact absurd h (magicAt_of_decode hDecode).ne_zero

namespace Laid

variable {withBucket : Bool} {records : List Record} {image : Nat → UInt8} {r : Record}

theorem read_bytes (h : Laid withBucket records image) (hr : r ∈ records) :
    Image.read image r.off (r.totalLen withBucket) = r.bytes withBucket := by
  have hHolds := (Image.holds_iff_read _ _ _).mp (h.holds r hr)
  rwa [(h.formed r hr).length_bytes] at hHolds

theorem read_header (h : Laid withBucket records image) (hr : r ∈ records) :
    Image.read image r.off (headerLen withBucket) = r.header.encode withBucket := by
  have hBytes := congrArg (List.take (headerLen withBucket)) (h.read_bytes hr)
  rwa [Image.take_read _ _ _ _ (by rw [Record.totalLen]; omega), Record.bytes,
    List.take_left' (by simp)] at hBytes

theorem read_payload (h : Laid withBucket records image) (hr : r ∈ records) :
    Image.read image (r.off + headerLen withBucket) r.header.len = r.payload := by
  have hBytes := congrArg (List.drop (headerLen withBucket)) (h.read_bytes hr)
  rwa [Image.drop_read _ _ _ _ (by rw [Record.totalLen]; omega), Record.bytes,
    List.drop_left' (by simp), Record.totalLen, Nat.add_sub_cancel_left] at hBytes

theorem decode (h : Laid withBucket records image) (hr : r ∈ records) :
    RecordHeader.decode (Image.read image r.off (headerLen withBucket)) withBucket =
      some r.header := by
  have hDecode := RecordHeader.decode_encode r.header withBucket (h.formed r hr).range []
  rw [List.append_nil, (h.formed r hr).visible] at hDecode
  rw [h.read_header hr, hDecode]

theorem magicAt (h : Laid withBucket records image) (hr : r ∈ records) : MagicAt image r.off :=
  magicAt_of_decode (h.decode hr)

/-- Two records of a laid image that share a byte are the same. -/
theorem eq_of_overlap (h : Laid withBucket records image) {a b : Record} (ha : a ∈ records)
    (hb : b ∈ records) {i : Nat} (hAi : a.off ≤ i ∧ i < a.stop withBucket)
    (hBi : b.off ≤ i ∧ i < b.stop withBucket) : a = b := by
  by_contra hNe
  rcases List.mem_iff_getElem.mp ha with ⟨m, hm, rfl⟩
  rcases List.mem_iff_getElem.mp hb with ⟨n, hn, rfl⟩
  have hPair := List.pairwise_iff_getElem.mp h.apart
  rcases Nat.lt_trichotomy m n with hLt | rfl | hGt
  · have := hPair m n hm hn hLt
    rw [Record.Apart] at this
    omega
  · exact hNe rfl
  · have := hPair n m hn hm hGt
    rw [Record.Apart] at this
    omega

/-- Two records of a laid image that start at one place are the same. -/
theorem eq_of_off (h : Laid withBucket records image) {a b : Record} (ha : a ∈ records)
    (hb : b ∈ records) (hOff : a.off = b.off) : a = b :=
  h.eq_of_overlap ha hb ⟨hOff.le, hOff ▸ a.off_lt_stop withBucket⟩
    ⟨Nat.le_refl _, b.off_lt_stop withBucket⟩

end Laid

namespace WalkRange

variable {σ : Type} {w : WalkRange} {records : List Record} {image : Nat → UInt8} {r : Record}

theorem headerAt_record (h : Laid w.withBucket records image) (hr : r ∈ records)
    (hStop : r.stop w.withBucket ≤ w.endOffset) : w.headerAt image r.off = some r.header := by
  rw [headerAt, h.decode hr, Option.filter_some, if_pos]
  rw [Record.stop, Record.totalLen, ← Nat.add_assoc] at hStop
  simpa using hStop

theorem headerAt_zero {off : Nat} (h : image off = 0) : w.headerAt image off = none := by
  rw [headerAt, decode_of_zero _ h]
  rfl

theorem overflowAt_record (h : Laid w.withBucket records image) (hr : r ∈ records)
    (hStop : r.stop w.withBucket < 2 ^ 64) : w.overflowAt image r.off = false := by
  rw [Record.stop, Record.totalLen, ← Nat.add_assoc] at hStop
  rw [overflowAt, h.decode hr, Option.any_some, Bool.and_eq_false_iff]
  right
  rw [decide_eq_false_iff_not]
  omega

theorem overflowAt_zero {off : Nat} (h : image off = 0) : w.overflowAt image off = false := by
  rw [overflowAt, decode_of_zero _ h, Option.any_none, Bool.and_false]

theorem overflowAt_past {off : Nat} (h : w.endOffset < off + headerLen w.withBucket) :
    w.overflowAt image off = false := by
  rw [overflowAt, decide_eq_false (by omega), Bool.false_and]

theorem payloadValid_record (h : Laid w.withBucket records image) (hr : r ∈ records) :
    w.payloadValid image r.off r.header = r.intact w.integrity := by
  rw [payloadValid, h.read_payload hr, Record.intact]

/-- One pass at a record shows it to the visitor. -/
theorem scanPass_record (h : Laid w.withBucket records image) (hr : r ∈ records)
    (hStop : r.stop w.withBucket ≤ w.endOffset) (visitor : Visitor σ) (stats : WalkStats)
    (seen : σ) :
    w.scanPass image visitor ⟨r.off, stats, seen⟩ =
      (⟨r.stop w.withBucket,
        { stats with
          records := stats.records + 1
          badPayload := stats.badPayload + if r.intact w.integrity then 0 else 1
          lastEnd := r.stop w.withBucket },
        (visitor seen r.off r.header (r.intact w.integrity)).1⟩,
        (visitor seen r.off r.header (r.intact w.integrity)).2) := by
  have hIn : ¬ w.endOffset < r.off + headerLen w.withBucket := by
    rw [Record.stop, Record.totalLen] at hStop
    omega
  have hEnd : r.off + headerLen w.withBucket + r.header.len = r.stop w.withBucket := by
    rw [Record.stop, Record.totalLen, Nat.add_assoc]
  simp only [scanPass, if_neg hIn, headerAt_record h hr hStop, scanVisit, payloadValid_record h hr,
    hEnd]

/-- A visitor shown a list of records, until it stops. -/
def visitAll (visitor : Visitor σ) (integrity : Bool) : List Record → σ → σ × Bool
  | [], seen => (seen, true)
  | r :: rest, seen =>
      let next := visitor seen r.off r.header (r.intact integrity)
      if next.2 then visitAll visitor integrity rest next.1 else next

/-- Records that lie back to back from one address to another. -/
inductive Chain (withBucket : Bool) : Nat → Nat → List Record → Prop where
  | nil (lo : Nat) : Chain withBucket lo lo []
  | cons (r : Record) {hi : Nat} {rest : List Record} (tail : Chain withBucket (r.stop withBucket) hi rest) :
      Chain withBucket r.off hi (r :: rest)

theorem Chain.le {withBucket : Bool} {lo hi : Nat} {recs : List Record}
    (h : Chain withBucket lo hi recs) : lo ≤ hi := by
  induction h with
  | nil => exact Nat.le_refl _
  | cons r tail ih => exact (Nat.le_of_lt (r.off_lt_stop withBucket)).trans ih

theorem scanPass_stop {off : Nat} (hResync : w.allowResync = false)
    (hStop : image off = 0 ∨ w.endOffset < off + headerLen w.withBucket) (visitor : Visitor σ)
    (stats : WalkStats) (seen : σ) :
    w.scanPass image visitor ⟨off, stats, seen⟩ = (⟨off, stats, seen⟩, false) := by
  rw [scanPass]
  split
  · rfl
  rename_i hIn
  rcases hStop with hZero | hPast
  · simp [headerAt_zero hZero, scanSkip, hResync]
  · exact absurd hPast hIn

/-- Without resync a scan visits the records of a chain and stops behind it,
where no record starts. -/
theorem scan_chain {lo hi fuel : Nat} {recs : List Record} (h : Laid w.withBucket records image)
    (hChain : Chain w.withBucket lo hi recs) (hMem : ∀ r ∈ recs, r ∈ records)
    (hResync : w.allowResync = false) (hHi : hi ≤ w.endOffset) (hEnd : w.endOffset < 2 ^ 64)
    (hStop : image hi = 0 ∨ w.endOffset < hi + headerLen w.withBucket)
    (visitor : Visitor σ) (stats : WalkStats) (seen : σ) (hFuel : w.endOffset < fuel + lo) :
    (w.scan image visitor fuel ⟨lo, stats, seen⟩).seen =
        (visitAll visitor w.integrity recs seen).1 ∧
      w.scanOverflows image visitor fuel ⟨lo, stats, seen⟩ = false := by
  induction hChain generalizing fuel stats seen with
  | nil off =>
      obtain ⟨fuel, rfl⟩ : ∃ k, fuel = k + 1 := ⟨fuel - 1, by omega⟩
      have hOver : w.overflowAt image off = false :=
        hStop.elim overflowAt_zero overflowAt_past
      simp [scan, scanOverflows, scanPass_stop hResync hStop, hOver, visitAll]
  | @cons r hi rest tail ih =>
      have hLe := tail.le
      have hLt := r.off_lt_stop w.withBucket
      obtain ⟨fuel, rfl⟩ : ∃ k, fuel = k + 1 := ⟨fuel - 1, by omega⟩
      have hr := hMem r (List.mem_cons_self ..)
      have hPass := scanPass_record (w := w) h hr (hLe.trans hHi) visitor stats seen
      have hOver := overflowAt_record (w := w) h hr (show r.stop w.withBucket < 2 ^ 64 by omega)
      simp only [scan, scanOverflows, visitAll, hPass, hOver, Bool.false_or]
      cases hGo : (visitor seen r.off r.header (r.intact w.integrity)).2 with
      | false => simp
      | true =>
          simp only [if_true, Bool.true_and]
          exact ih (fun s hs => hMem s (List.mem_cons_of_mem _ hs)) hHi hStop _ _ (by omega)

/-- From blank space the scan resyncs at the next record. -/
theorem nextMagic_record {lo : Nat} (h : Laid w.withBucket records image) (hr : r ∈ records)
    (hBase : PAGE ≤ lo) (hLo : lo ≤ r.off) (hStop : r.stop w.withBucket ≤ w.endOffset)
    (hClear : ∀ s ∈ records, s.stop w.withBucket ≤ lo ∨ r.off ≤ s.off) :
    nextMagic image lo w.endOffset = some r.off := by
  have hLen := headerLen_ge w.withBucket
  apply nextMagic_of_first hLo
  · rw [Record.stop, Record.totalLen] at hStop
    omega
  · exact h.magicAt hr
  · intro k hkLo hkHi hMagic
    refine hMagic.ne_zero (h.blank k (by omega) fun s hs => ?_)
    have := hClear s hs
    omega

theorem nextMagic_blank {lo endOffset : Nat} (h : Laid w.withBucket records image)
    (hBase : PAGE ≤ lo) (hClear : ∀ s ∈ records, s.stop w.withBucket ≤ lo) :
    nextMagic image lo endOffset = none := by
  rw [nextMagic_eq_none]
  intro k hkLo _ hMagic
  refine hMagic.ne_zero (h.blank k (by omega) fun s hs => ?_)
  have := hClear s hs
  omega

/-- With resync a scan visits all records of a laid image in file order. -/
theorem scan_sorted {lo fuel : Nat} {recs : List Record} (h : Laid w.withBucket records image)
    (hSorted : recs.Pairwise fun a b => a.stop w.withBucket ≤ b.off)
    (hMem : ∀ r ∈ recs, r ∈ records)
    (hCover : ∀ r ∈ records, r.stop w.withBucket ≤ lo ∨ r ∈ recs)
    (hGe : ∀ r ∈ recs, lo ≤ r.off) (hBase : PAGE ≤ lo) (hResync : w.allowResync = true)
    (hIn : ∀ r ∈ recs, r.stop w.withBucket ≤ w.endOffset) (hEnd : w.endOffset < 2 ^ 64)
    (visitor : Visitor σ) (stats : WalkStats) (seen : σ) (hFuel : w.endOffset < fuel + lo) :
    (w.scan image visitor fuel ⟨lo, stats, seen⟩).seen =
        (visitAll visitor w.integrity recs seen).1 ∧
      w.scanOverflows image visitor fuel ⟨lo, stats, seen⟩ = false := by
  induction fuel generalizing lo recs stats seen with
  | zero =>
      cases recs with
      | nil => exact ⟨rfl, rfl⟩
      | cons r rest =>
          have hLt := r.off_lt_stop w.withBucket
          have hStop := hIn r (List.mem_cons_self ..)
          have hLo := hGe r (List.mem_cons_self ..)
          omega
  | succ fuel ih =>
      cases recs with
      | nil =>
          have hAll : ∀ s ∈ records, s.stop w.withBucket ≤ lo := fun s hs => by
            rcases hCover s hs with hDone | hMem
            · exact hDone
            · cases hMem
          have hZero : image lo = 0 := h.blank lo hBase fun s hs => Or.inr (hAll s hs)
          have hNext : nextMagic image (lo + 1) w.endOffset = none :=
            nextMagic_blank h (by omega) fun s hs => (hAll s hs).trans (Nat.le_succ lo)
          have hPass : w.scanPass image visitor ⟨lo, stats, seen⟩ = (⟨lo, stats, seen⟩, false) := by
            rw [scanPass]
            split
            · rfl
            · simp [headerAt_zero hZero, scanSkip, hResync, hNext]
          simp [scan, scanOverflows, hPass, overflowAt_zero hZero, visitAll]
      | cons r rest =>
          have hr := hMem r (List.mem_cons_self ..)
          have hStop := hIn r (List.mem_cons_self ..)
          have hLo := hGe r (List.mem_cons_self ..)
          have hLt := r.off_lt_stop w.withBucket
          obtain ⟨hHead, hRest⟩ := List.pairwise_cons.mp hSorted
          rcases Nat.eq_or_lt_of_le hLo with rfl | hBefore
          · have hPass := scanPass_record (w := w) h hr hStop visitor stats seen
            have hOver := overflowAt_record (w := w) h hr (show r.stop w.withBucket < 2 ^ 64 by omega)
            simp only [scan, scanOverflows, visitAll, hPass, hOver, Bool.false_or]
            cases hGo : (visitor seen r.off r.header (r.intact w.integrity)).2 with
            | false => simp
            | true =>
                simp only [if_true, Bool.true_and]
                refine ih hRest (fun s hs => hMem s (List.mem_cons_of_mem _ hs)) ?_ hHead
                  (by omega) (fun s hs => hIn s (List.mem_cons_of_mem _ hs)) _ _ (by omega)
                intro s hs
                rcases hCover s hs with hDone | hs'
                · exact Or.inl (by omega)
                · rcases List.mem_cons.mp hs' with rfl | hs'
                  · exact Or.inl (Nat.le_refl _)
                  · exact Or.inr hs'
          · -- blank space up to the next record
            have hOthers : ∀ s ∈ records, s.stop w.withBucket ≤ lo ∨ r.off ≤ s.off := fun s hs => by
              rcases hCover s hs with hDone | hs'
              · exact Or.inl hDone
              · rcases List.mem_cons.mp hs' with rfl | hs'
                · exact Or.inr (Nat.le_refl _)
                · exact Or.inr ((Nat.le_of_lt hLt).trans (hHead s hs'))
            have hZero : image lo = 0 := h.blank lo hBase fun s hs => by
              have := hOthers s hs
              omega
            have hNext : nextMagic image (lo + 1) w.endOffset = some r.off :=
              nextMagic_record h hr (by omega) hBefore hStop fun s hs => by
                have := hOthers s hs
                omega
            have hIn' : ¬ w.endOffset < lo + headerLen w.withBucket := by
              rw [Record.stop, Record.totalLen] at hStop
              omega
            have hPass : w.scanPass image visitor ⟨lo, stats, seen⟩ =
                (⟨r.off, { stats with resyncs := stats.resyncs + 1 }, seen⟩, true) := by
              rw [scanPass, if_neg hIn', headerAt_zero hZero]
              simp [scanSkip, hResync, hNext]
            simp only [scan, scanOverflows, hPass, overflowAt_zero hZero, if_true, Bool.false_or,
              Bool.true_and]
            refine ih hSorted hMem ?_ ?_ (by omega) hIn _ _ (by omega)
            · intro s hs
              rcases hCover s hs with hDone | hs'
              · exact Or.inl (by omega)
              · exact Or.inr hs'
            · intro s hs
              rcases List.mem_cons.mp hs with rfl | hs
              · exact Nat.le_refl _
              · exact (Nat.le_of_lt hLt).trans (hHead s hs)

end WalkRange

namespace WalkRange

variable {withBucket : Bool} {lo hi : Nat} {recs : List Record} {r : Record}

theorem Chain.concat (h : Chain withBucket lo hi recs) (hOff : r.off = hi) :
    Chain withBucket lo (r.stop withBucket) (recs ++ [r]) := by
  induction h with
  | nil lo =>
      subst hOff
      exact .cons r (.nil _)
  | cons first tail ih => exact .cons first (ih hOff)

theorem Chain.bounds (h : Chain withBucket lo hi recs) (hr : r ∈ recs) :
    lo ≤ r.off ∧ r.stop withBucket ≤ hi := by
  induction h with
  | nil lo => cases hr
  | cons first tail ih =>
      have hLt := first.off_lt_stop withBucket
      rcases List.mem_cons.mp hr with rfl | hr
      · exact ⟨Nat.le_refl _, tail.le⟩
      · have := ih hr
        omega

/-- Every record of a chain ends before its last one starts. -/
theorem Chain.before (h : Chain withBucket lo hi (recs ++ [r])) {old : Record} (hOld : old ∈ recs) :
    old.stop withBucket ≤ r.off := by
  induction recs generalizing lo with
  | nil => cases hOld
  | cons first rest ih =>
      cases h with
      | cons _ tail =>
          rcases List.mem_cons.mp hOld with rfl | hOld
          · exact (tail.bounds (List.mem_append_right _ (List.mem_singleton_self r))).1
          · exact ih tail hOld

/-- A chain splits where its list does. -/
theorem Chain.split {a b : List Record} (h : Chain withBucket lo hi (a ++ b)) :
    ∃ mid, Chain withBucket lo mid a ∧ Chain withBucket mid hi b := by
  induction a generalizing lo with
  | nil => exact ⟨lo, .nil lo, h⟩
  | cons first rest ih =>
      cases h with
      | cons _ tail =>
          obtain ⟨mid, hLeft, hRight⟩ := ih tail
          exact ⟨mid, .cons first hLeft, hRight⟩

theorem Chain.eq_of_nil (h : Chain withBucket lo hi []) : hi = lo := by
  cases h
  rfl

/-- The records of a chain say where it ends. -/
theorem Chain.end_unique {other : Nat} (h : Chain withBucket lo hi recs)
    (k : Chain withBucket lo other recs) : hi = other := by
  induction h with
  | nil => exact k.eq_of_nil.symm
  | @cons first _ rest tail ih =>
      generalize first.off = start at k
      cases k with
      | cons _ tail' => exact ih tail'

/-- A chain ends where its last record does. -/
theorem Chain.stop_last (h : Chain withBucket lo hi (recs ++ [r])) : hi = r.stop withBucket := by
  obtain ⟨mid, -, hRight⟩ := h.split
  cases hRight with
  | cons _ tail => exact tail.eq_of_nil

/-- Every record takes at least the bytes of its header. -/
theorem Chain.length_le (h : Chain withBucket lo hi recs) :
    lo + headerLen withBucket * recs.length ≤ hi := by
  induction h with
  | nil lo => simp
  | cons first tail ih =>
      rw [Record.stop, Record.totalLen] at ih
      rw [List.length_cons, Nat.mul_succ]
      omega

end WalkRange

end HeapStore
