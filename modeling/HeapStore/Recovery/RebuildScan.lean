import HeapStore.Recovery.Newest
import HeapStore.Recovery.Rebuild
import HeapStore.Recovery.WalkScan

/-! What a rebuild sees of the data file: every record once, in file order,
whatever its payload holds. Of the records that pass the integrity check, the
table keeps one with the greatest version of each number. -/
namespace HeapStore

open Effect

/-! The table of found records. -/

section Table

variable {l : List FoundRecord} {f : FoundRecord} {id : Nat}

theorem lookup_keepNewest (table : NewestTable) (f : FoundRecord) (id : Nat) :
    (keepNewest table f).lookup id =
      if f.id = id ∧ ∀ e, table.lookup id = some e → e.version ≤ f.version then some f
      else table.lookup id := by
  have hInsert : (table.insert f.id f).lookup id = if f.id = id then some f else table.lookup id := by
    by_cases hId : f.id = id
    · subst hId
      simp [AList.lookup_insert]
    · simp [AList.lookup_insert_ne (Ne.symm hId), hId]
  by_cases hId : f.id = id
  · subst hId
    cases hEntry : table.lookup f.id with
    | none => simp [keepNewest, hEntry, AList.lookup_insert]
    | some e =>
        by_cases hVersion : e.version ≤ f.version
        · simp [keepNewest, hEntry, hVersion, AList.lookup_insert]
        · simp [keepNewest, hEntry, hVersion]
  · rw [if_neg fun h => hId h.1]
    unfold keepNewest
    split
    · rw [hInsert, if_neg hId]
    · split
      · rw [hInsert, if_neg hId]
      · rfl

/-- The table has an entry for exactly the numbers that were found, and it is a
found record with the greatest version. -/
theorem lookup_foldl_keepNewest_max (l : List FoundRecord) (id : Nat) :
    match (l.foldl keepNewest ∅).lookup id with
    | some f => f ∈ l ∧ f.id = id ∧ ∀ g ∈ l, g.id = id → g.version ≤ f.version
    | none => ∀ g ∈ l, g.id ≠ id := by
  induction l using List.reverseRecOn with
  | nil => simp
  | append_singleton init last ih =>
      rw [List.foldl_append, List.foldl_cons, List.foldl_nil, lookup_keepNewest]
      by_cases hTake : last.id = id ∧ ∀ e, (init.foldl keepNewest ∅).lookup id = some e →
          e.version ≤ last.version
      · rw [if_pos hTake]
        refine ⟨by simp, hTake.1, fun g hg hId => ?_⟩
        rcases List.mem_append.mp hg with hOld | hLast
        · cases hEntry : (init.foldl keepNewest ∅).lookup id with
          | none =>
              rw [hEntry] at ih
              exact absurd hId (ih g hOld)
          | some e =>
              rw [hEntry] at ih
              exact (ih.2.2 g hOld hId).trans (hTake.2 e hEntry)
        · rw [List.mem_singleton.mp hLast]
      · rw [if_neg hTake]
        cases hEntry : (init.foldl keepNewest ∅).lookup id with
        | none =>
            rw [hEntry] at ih
            intro g hg
            rcases List.mem_append.mp hg with hOld | hLast
            · exact ih g hOld
            · rw [List.mem_singleton.mp hLast]
              intro hId
              exact hTake ⟨hId, fun e he => by simp [hEntry] at he⟩
        | some e =>
            rw [hEntry] at ih
            refine ⟨List.mem_append_left _ ih.1, ih.2.1, fun g hg hId => ?_⟩
            rcases List.mem_append.mp hg with hOld | hLast
            · exact ih.2.2 g hOld hId
            · rw [List.mem_singleton.mp hLast] at hId ⊢
              by_contra hLess
              refine hTake ⟨hId, fun x hx => ?_⟩
              rw [hEntry] at hx
              cases hx
              omega

end Table

/-- Whatever the order in which records are found, the table keeps the newest
of each number when versions ascend in the order of writing. -/
theorem lookup_keepNewest_perm {withBucket : Bool} {log recs : List Record} (hPerm : recs.Perm log)
    (hAscending : Ascending log) (id : Nat) :
    ((recs.map (Record.found withBucket)).foldl keepNewest ∅).lookup id =
      (newest log id).map (Record.found withBucket) := by
  have hTable := lookup_foldl_keepNewest_max (recs.map (Record.found withBucket)) id
  cases hEntry : ((recs.map (Record.found withBucket)).foldl keepNewest ∅).lookup id with
  | none =>
      rw [hEntry] at hTable
      have hNone : newest log id = none := newest_eq_none.mpr fun r hr hId =>
        hTable (r.found withBucket) (List.mem_map_of_mem (hPerm.mem_iff.mpr hr)) hId
      rw [hNone, Option.map_none]
  | some f =>
      rw [hEntry] at hTable
      obtain ⟨hMem, hId, hMax⟩ := hTable
      obtain ⟨x, hx, rfl⟩ := List.mem_map.mp hMem
      have hx := hPerm.mem_iff.mp hx
      obtain ⟨r, hNewest⟩ := newest_of_mem hx hId
      obtain ⟨hr, hSame⟩ := newest_eq_some hNewest
      rcases hAscending.le_newest hNewest hx hId with rfl | hLess
      · rw [hNewest, Option.map_some]
      · have hLe := hMax (r.found withBucket) (List.mem_map_of_mem (hPerm.mem_iff.mpr hr)) hSame
        exact absurd hLe (Nat.not_le_of_lt hLess)

/-! File order. -/

/-- Records in the order of their addresses. -/
def inFileOrder (log : List Record) : List Record := log.mergeSort fun a b => decide (a.off ≤ b.off)

theorem inFileOrder_perm (log : List Record) : (inFileOrder log).Perm log := List.mergeSort_perm ..

/-- In file order each record of a laid image ends before the next one starts. -/
theorem Laid.inFileOrder {withBucket : Bool} {log : List Record} {image : Nat → UInt8}
    (h : Laid withBucket log image) :
    (HeapStore.inFileOrder log).Pairwise fun a b => a.stop withBucket ≤ b.off := by
  have hApart : (HeapStore.inFileOrder log).Pairwise (Record.Apart withBucket) :=
    (inFileOrder_perm log).symm.pairwise h.apart Record.Apart.symm
  have hSorted : (HeapStore.inFileOrder log).Pairwise fun a b => decide (a.off ≤ b.off) = true :=
    List.pairwise_mergeSort (fun a b c hab hbc => by simp only [decide_eq_true_eq] at *; omega)
      (fun a b => by simp only [Bool.or_eq_true, decide_eq_true_eq]; omega) log
  refine (hApart.and hSorted).imp fun {a b} ⟨hApart, hOff⟩ => ?_
  rcases hApart with hBefore | hAfter
  · exact hBefore
  · have hOff : a.off ≤ b.off := of_decide_eq_true hOff
    have := b.off_lt_stop withBucket
    omega

namespace WalkRange

variable {σ : Type} {w : WalkRange} {records : List Record} {image : Nat → UInt8} {r : Record}

/-- A visitor that counts its calls, and those with a damaged payload. -/
def tally (visitor : Visitor σ) : Visitor (σ × Nat × Nat) := fun seen off header valid =>
  let next := visitor seen.1 off header valid
  ((next.1, seen.2.1 + 1, seen.2.2 + if valid then 0 else 1), next.2)

/-- A state of a scan, with its statistics seen. -/
def tallied (w : Scanned σ) : Scanned (σ × Nat × Nat) :=
  ⟨w.position, w.stats, (w.seen, w.stats.records, w.stats.badPayload)⟩

theorem scanPass_tally (r : WalkRange) (image : Nat → UInt8) (visitor : Visitor σ) (w : Scanned σ) :
    r.scanPass image (tally visitor) (tallied w) =
      (tallied (r.scanPass image visitor w).1, (r.scanPass image visitor w).2) := by
  have hPosition : (tallied w).position = w.position := rfl
  rw [scanPass, scanPass, hPosition]
  by_cases hEnd : r.endOffset < w.position + headerLen r.withBucket
  · rw [if_pos hEnd, if_pos hEnd]
  · rw [if_neg hEnd, if_neg hEnd]
    cases hHeader : r.headerAt image w.position with
    | some header => rfl
    | none =>
        simp only [scanSkip, hPosition]
        cases hResync : r.allowResync with
        | false => rfl
        | true => cases hNext : nextMagic image (w.position + 1) r.endOffset <;> rfl

/-- The statistics of a scan count the calls of its visitor. -/
theorem scan_tally (r : WalkRange) (image : Nat → UInt8) (visitor : Visitor σ) (fuel : Nat)
    (w : Scanned σ) :
    r.scan image (tally visitor) fuel (tallied w) = tallied (r.scan image visitor fuel w) := by
  induction fuel generalizing w with
  | zero => rfl
  | succ fuel ih =>
      rw [scan, scan, scanPass_tally]
      cases hGo : (r.scanPass image visitor w).2 with
      | false => rfl
      | true => exact ih _

/-- A visitor that never stops sees all of a list. -/
theorem visitAll_onward {visitor : Visitor σ} (hOn : ∀ seen off header valid,
    (visitor seen off header valid).2 = true) (integrity : Bool) (recs : List Record) (seen : σ) :
    visitAll visitor integrity recs seen =
      (recs.foldl (fun seen r => (visitor seen r.off r.header (r.intact integrity)).1) seen, true) := by
  induction recs generalizing seen with
  | nil => rfl
  | cons r rest ih => rw [visitAll, hOn, if_pos rfl, ih, List.foldl_cons]

theorem foldl_tally (visitor : Visitor σ) (integrity : Bool) (recs : List Record) (seen : σ) (n m : Nat) :
    recs.foldl (fun seen r => (tally visitor seen r.off r.header (r.intact integrity)).1) (seen, n, m) =
      (recs.foldl (fun seen r => (visitor seen r.off r.header (r.intact integrity)).1) seen,
        n + recs.length, m + (recs.filter fun r => !r.intact integrity).length) := by
  induction recs generalizing seen n m with
  | nil => rfl
  | cons r rest ih =>
      rw [List.foldl_cons, List.foldl_cons, tally, ih]
      cases hIntact : r.intact integrity
      · simp [hIntact]
        omega
      · simp [hIntact]
        omega

/-- A scan with resync over a laid image sees every record once, in file order. -/
theorem scanFrom_laid {visitor : Visitor σ} (h : Laid w.withBucket records image)
    (hOn : ∀ seen off header valid, (visitor seen off header valid).2 = true)
    (hResync : w.allowResync = true) (hIn : ∀ r ∈ records, r.stop w.withBucket ≤ w.endOffset)
    (hEnd : w.endOffset < 2 ^ 64) (seen : σ) :
    (w.scanFrom image PAGE visitor seen).seen =
        (inFileOrder records).foldl
          (fun seen r => (visitor seen r.off r.header (r.intact w.integrity)).1) seen ∧
      (w.scanFrom image PAGE visitor seen).stats.records = records.length ∧
      (w.scanFrom image PAGE visitor seen).stats.badPayload =
        (records.filter fun r => !r.intact w.integrity).length ∧
      w.scanOverflows image visitor (w.endOffset - PAGE + 1) ⟨PAGE, ⟨0, 0, 0, PAGE⟩, seen⟩ = false := by
  have hMem : ∀ r ∈ inFileOrder records, r ∈ records := fun r hr => (inFileOrder_perm records).mem_iff.mp hr
  have hFuel : w.endOffset < w.endOffset - PAGE + 1 + PAGE := by omega
  have hScan {τ : Type} (v : Visitor τ) (seen : τ) := scan_sorted (w := w) h h.inFileOrder hMem
    (fun r hr => Or.inr ((inFileOrder_perm records).mem_iff.mpr hr)) (fun r hr => h.base r (hMem r hr))
    (Nat.le_refl PAGE) hResync (fun r hr => hIn r (hMem r hr)) hEnd v ⟨0, 0, 0, PAGE⟩ seen hFuel
  have hCounted := congrArg Scanned.seen
    (scan_tally w image visitor (w.endOffset - PAGE + 1) ⟨PAGE, ⟨0, 0, 0, PAGE⟩, seen⟩)
  have hOnTally : ∀ (seen : σ × Nat × Nat) off header valid,
      (tally visitor seen off header valid).2 = true := fun seen off header valid => hOn seen.1 off header valid
  rw [tallied, (hScan (tally visitor) _).1, visitAll_onward hOnTally, foldl_tally, tallied, Prod.mk.injEq,
    Prod.mk.injEq] at hCounted
  obtain ⟨hSeen, hRecords, hBad⟩ := hCounted
  refine ⟨hSeen.symm, ?_, ?_, (hScan visitor seen).2⟩
  · rw [scanFrom, ← hRecords, (inFileOrder_perm records).length_eq, Nat.zero_add]
  · rw [scanFrom, ← hBad, ((inFileOrder_perm records).filter _).length_eq, Nat.zero_add]

end WalkRange

/-! What a rebuild makes of the records it sees. -/

section Visits

variable {integrity : Bool} {headerSize : Nat}

/-- The records that pass the integrity check. -/
def intactOf (integrity : Bool) (log : List Record) : List Record := log.filter fun r => r.intact integrity

theorem mem_intactOf {log : List Record} {r : Record} :
    r ∈ intactOf integrity log ↔ r ∈ log ∧ r.intact integrity = true := List.mem_filter

theorem rebuildVisitor_onward (headerSize : Nat) (st : RebuildState) (off : Nat) (header : RecordHeader)
    (valid : Bool) : (rebuildVisitor headerSize st off header valid).2 = true := by
  cases valid <;> rfl

/-- Damaged records are passed over. -/
theorem foldl_rebuildVisitor (integrity : Bool) (headerSize : Nat) (recs : List Record) (st : RebuildState) :
    recs.foldl (fun st r => (rebuildVisitor headerSize st r.off r.header (r.intact integrity)).1) st =
      (intactOf integrity recs).foldl
        (fun st r => (rebuildVisitor headerSize st r.off r.header true).1) st := by
  induction recs generalizing st with
  | nil => rfl
  | cons r rest ih =>
      rw [List.foldl_cons, ih]
      cases hIntact : r.intact integrity
      · simp [intactOf, hIntact, rebuildVisitor]
      · simp [intactOf, hIntact]

theorem foldl_rebuildVisitor_latest (withBucket : Bool) (recs : List Record) (st : RebuildState) :
    (recs.foldl (fun st r => (rebuildVisitor (headerLen withBucket) st r.off r.header true).1) st).latestRecords =
      (recs.map (Record.found withBucket)).foldl keepNewest st.latestRecords := by
  induction recs generalizing st with
  | nil => rfl
  | cons r rest ih =>
      rw [List.foldl_cons, ih]
      rfl

/-- The runs of records that one bucket has back to back. -/
def runsOf (withBucket : Bool) (recs : List Record) : List BucketRun :=
  recs.foldl (fun runs r => addToRuns runs r.header.bucket r.off (r.stop withBucket)) []

theorem foldl_rebuildVisitor_runs (withBucket : Bool) (recs : List Record) (st : RebuildState) :
    (recs.foldl (fun st r => (rebuildVisitor (headerLen withBucket) st r.off r.header true).1) st).bucketRuns =
      recs.foldl (fun runs r => addToRuns runs r.header.bucket r.off (r.stop withBucket)) st.bucketRuns := by
  induction recs generalizing st with
  | nil => rfl
  | cons r rest ih =>
      rw [List.foldl_cons, ih]
      rfl

end Visits

end HeapStore
