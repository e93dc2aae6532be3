import HeapStore.Recovery.WalkScan
import Mathlib.Logic.Relation

/-! The plain scan as a relation, without a bound on its passes. It ends from
every state, and the chunked walk ends where it ends, unless it comes to a
header whose record end is no 64-bit number. -/
namespace HeapStore

open Effect

namespace WalkRange

section Scan

variable {σ : Type} (r : WalkRange) (image : Nat → UInt8) (visitor : Visitor σ)

/-- Passes that go on lead from one state of the plain scan to another. -/
def Reaches : Scanned σ → Scanned σ → Prop :=
  Relation.ReflTransGen fun w next => r.scanPass image visitor w = (next, true)

/-- The last state of the plain scan from a state on. -/
def EndsIn (w out : Scanned σ) : Prop :=
  ∃ last, r.Reaches image visitor w last ∧ r.scanPass image visitor last = (out, false)

/-- The state in which a scan starts. -/
def scanStart (startOffset : Nat) (seen : σ) : Scanned σ :=
  ⟨startOffset, ⟨0, 0, 0, startOffset⟩, seen⟩

variable {r image visitor} {w next out other : Scanned σ} {fuel : Nat}

/-- Enough passes for the rest of the range end the scan. -/
theorem endsIn_scan (hFuel : r.endOffset - w.position < fuel) :
    r.EndsIn image visitor w (r.scan image visitor fuel w) := by
  induction fuel generalizing w with
  | zero => omega
  | succ fuel ih =>
      cases hPass : r.scanPass image visitor w with
      | mk next goes =>
          rw [scan, hPass]
          cases goes with
          | false => exact ⟨w, .refl, hPass⟩
          | true =>
              obtain ⟨hLess, hInside⟩ := scanPass_advances hPass
              obtain ⟨last, hReach, hLast⟩ := ih (w := next) (by omega)
              exact ⟨last, .head hPass hReach, hLast⟩

/-- The scan ends in one state only. -/
theorem EndsIn.unique (h : r.EndsIn image visitor w out) (hOther : r.EndsIn image visitor w other) :
    out = other := by
  obtain ⟨last, hReach, hLast⟩ := h
  obtain ⟨last', hReach', hLast'⟩ := hOther
  induction hReach using Relation.ReflTransGen.head_induction_on with
  | refl =>
      rcases Relation.ReflTransGen.cases_head hReach' with rfl | ⟨next, hNext, -⟩
      · rw [hLast] at hLast'
        exact congrArg Prod.fst hLast'
      · rw [hLast] at hNext
        cases hNext
  | head hStep _ ih =>
      rcases Relation.ReflTransGen.cases_head hReach' with rfl | ⟨next, hNext, hRest⟩
      · rw [hStep] at hLast'
        cases hLast'
      · rw [hStep] at hNext
        cases hNext
        exact ih hRest

/-- The bounded check for overflowing headers looks at every state of the scan. -/
theorem scanOverflows_iff (hFuel : r.endOffset - w.position < fuel) :
    r.scanOverflows image visitor fuel w = true ↔
      ∃ last, r.Reaches image visitor w last ∧ r.overflowAt image last.position = true := by
  induction fuel generalizing w with
  | zero => omega
  | succ fuel ih =>
      cases hPass : r.scanPass image visitor w with
      | mk next goes =>
          rw [scanOverflows, hPass]
          simp only [Bool.or_eq_true, Bool.and_eq_true]
          constructor
          · rintro (hHere | ⟨rfl, hLater⟩)
            · exact ⟨w, .refl, hHere⟩
            · obtain ⟨hLess, hInside⟩ := scanPass_advances hPass
              obtain ⟨last, hReach, hOver⟩ := (ih (w := next) (by omega)).mp hLater
              exact ⟨last, .head hPass hReach, hOver⟩
          · rintro ⟨last, hReach, hOver⟩
            rcases Relation.ReflTransGen.cases_head hReach with rfl | ⟨step, hStep, hRest⟩
            · exact .inl hOver
            · rw [hPass] at hStep
              cases hStep
              obtain ⟨hLess, hInside⟩ := scanPass_advances hPass
              exact .inr ⟨rfl, (ih (w := next) (by omega)).mpr ⟨last, hRest, hOver⟩⟩

end Scan

/-! The walk at an overflowing header. -/

section Overflow

open ScanBuffer

variable {σ : Type} {r : WalkRange} {image : Nat → UInt8} {visitor : Visitor σ} {s : Store}
  {w : WalkState σ} {fuel : Nat} {calm : Prop}

/-- The program does not complete: where no request of it fails, a sum overflows. -/
structure Overflows {α : Type} (calm : Prop) (x : StoreM α) (s : Store) : Prop where
  stops : Meets (fun e => ReadFailure calm e ∨ SumOverflow e) (fun _ _ => False) x s

theorem Overflows.bind {α β : Type} {x : StoreM α} (h : Overflows calm x s) (f : α → StoreM β) :
    Overflows calm (x >>= f) s := ⟨h.stops.bind fun _ _ hNever => hNever.elim⟩

/-- The walk returns what the plain scan gathers, unless a request fails or the
scan comes to an overflowing header. -/
theorem walk_reaches_meets {startOffset : Nat} {seen : σ} (hSettled : Settled calm image s)
    (hEnd : Readable calm r.endOffset) :
    Meets (fun e => ReadFailure calm e ∨ ∃ last, r.Reaches image visitor (scanStart startOffset seen) last ∧
        r.overflowAt image last.position = true)
      (fun out _ => out = ((r.scanFrom image startOffset visitor seen).stats,
        (r.scanFrom image startOffset visitor seen).seen))
      (walk r startOffset visitor seen) s := by
  refine (walk_settled_meets r startOffset visitor seen hSettled hEnd).mono ?_ fun _ _ h => h.1
  rintro e (hIo | ⟨-, hOver⟩)
  · exact Or.inl hIo
  · exact Or.inr ((scanOverflows_iff (Nat.lt_succ_self _)).mp hOver)

theorem endsIn_scanFrom (r : WalkRange) (image : Nat → UInt8) (startOffset : Nat) (visitor : Visitor σ)
    (seen : σ) :
    r.EndsIn image visitor (scanStart startOffset seen) (r.scanFrom image startOffset visitor seen) :=
  endsIn_scan (Nat.lt_succ_self _)

end Overflow

/-- Every call of a visitor is noted with its arguments, in order. -/
def recording {σ : Type} (visitor : Visitor σ) : Visitor (σ × List (Nat × RecordHeader × Bool)) :=
  fun seen off header valid =>
    let (next, continueWalk) := visitor seen.1 off header valid
    ((next, seen.2 ++ [(off, header, valid)]), continueWalk)

end WalkRange

open WalkRange

section Results

variable {σ : Type} {r : WalkRange} {startOffset : Nat} {visitor : Visitor σ} {seen : σ} {s : Store}

/-- If no record end that the scan computes overflows, the chunked walk makes
exactly the visitor calls of the plain scan and returns its counts. The scan
ends in one state; a walk that fails does so in a request, and it completes
when no request fails. -/
theorem walk_eq_plainScan (hStaged : (s.paged .data).stagedWrites = [])
    (hEnd : pageUp r.endOffset < 2 ^ 63)
    (hFits : ∀ last, r.Reaches (s.file .data).bytes (recording visitor)
      (scanStart startOffset (seen, [])) last →
        r.overflowAt (s.file .data).bytes last.position = false) :
    ∃ out, (∀ other, r.EndsIn (s.file .data).bytes (recording visitor)
        (scanStart startOffset (seen, [])) other ↔ other = out) ∧
      (∀ result t, walk r startOffset (recording visitor) (seen, []) s = .ok result t →
        result = (out.stats, out.seen)) ∧
      (∀ e t, walk r startOffset (recording visitor) (seen, []) s = .error e t → IoFailure e) ∧
      (s.plan = [] →
        ∃ t, walk r startOffset (recording visitor) (seen, []) s = .ok (out.stats, out.seen) t) := by
  have hMeets {calm : Prop} (hCalm : calm → s.plan = []) :
      Meets _ _ (walk r startOffset (recording visitor) (seen, [])) s :=
    walk_reaches_meets (⟨hStaged, rfl, hCalm⟩ : Settled calm (s.file .data).bytes s)
      (readable_of_pageUp hEnd)
  have hEnds := endsIn_scanFrom r (s.file .data).bytes startOffset (recording visitor) (seen, [])
  refine ⟨r.scanFrom (s.file .data).bytes startOffset (recording visitor) (seen, []), ?unique, ?result,
    ?failure, ?completes⟩
  case unique =>
    intro other
    constructor
    · intro hOther
      exact hOther.unique hEnds
    · rintro rfl
      exact hEnds
  case result =>
    intro result t hRun
    exact (hMeets False.elim).ok hRun
  case failure =>
    intro e t hRun
    rcases (hMeets False.elim).failsOnly e t hRun with hIo | ⟨last, hReach, hOver⟩
    · exact hIo.1
    · cases hOver.symm.trans (hFits last hReach)
  case completes =>
    intro hPlan
    have hCalm := hMeets fun (_ : True) => hPlan
    cases hRun : walk r startOffset (recording visitor) (seen, []) s with
    | ok result t =>
        obtain rfl := hCalm.ok hRun
        exact ⟨t, rfl⟩
    | error e t =>
        rcases hCalm.failsOnly e t hRun with hIo | ⟨last, hReach, hOver⟩
        · exact absurd trivial hIo.2
        · cases hOver.symm.trans (hFits last hReach)

end Results

/-- A visitor that goes on at every record. -/
def onward : Visitor Unit := fun seen _ _ _ => (seen, true)

/-- A data file with one record of three bytes behind the header page. -/
def oneRecord : Store :=
  Store.empty.setDisk .data (File.empty.write PAGE
    (RecordHeader.encode ⟨3, 0, 9, 0, crc32c [1, 2, 3]⟩ false ++ [1, 2, 3]))

def oneRecordRange : WalkRange := ⟨false, true, PAGE + 33, true⟩

theorem oneRecord_fits (last : Scanned (Unit × List (Nat × RecordHeader × Bool)))
    (hReach : oneRecordRange.Reaches (oneRecord.file .data).bytes (recording onward)
      (scanStart PAGE ((), [])) last) :
    oneRecordRange.overflowAt (oneRecord.file .data).bytes last.position = false := by
  by_contra hOver
  rw [Bool.not_eq_false] at hOver
  have hFuel : oneRecordRange.endOffset -
      (scanStart PAGE ((), ([] : List (Nat × RecordHeader × Bool)))).position < 34 := by decide
  have hSome := (scanOverflows_iff hFuel).mpr ⟨last, hReach, hOver⟩
  have hNone : oneRecordRange.scanOverflows (oneRecord.file .data).bytes (recording onward) 34
      (scanStart PAGE ((), [])) = false := by decide +kernel
  cases hSome.symm.trans hNone

theorem walk_eq_plainScan_record :
    ∃ out t, oneRecordRange.EndsIn (oneRecord.file .data).bytes (recording onward)
        (scanStart PAGE ((), [])) out ∧
      walk oneRecordRange PAGE (recording onward) ((), []) oneRecord =
        .ok (out.stats, out.seen) t := by
  obtain ⟨out, hEnds, -, -, hRun⟩ :=
    walk_eq_plainScan (s := oneRecord) rfl (by decide) oneRecord_fits
  obtain ⟨t, hRun⟩ := hRun rfl
  exact ⟨out, t, (hEnds out).mpr rfl, hRun⟩

end HeapStore
