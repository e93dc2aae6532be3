import HeapStore.Storage.Stage

/-! A flush that fails: the staged writes were taken out of the handle before
the first request, and nothing puts them back. -/
namespace HeapStore

open Effect PagedFile

/-- What a failed flush should leave of a file: all that was staged before it,
so that the presented content is the same and a later flush writes it. -/
structure LosesNothing (n : FileName) (s t : Store) : Prop where
  logical : t.logical n = s.logical n
  pendingBytes : (t.paged n).pendingBytes = (s.paged n).pendingBytes
  hasPending : (t.paged n).hasPending = (s.paged n).hasPending
  tails : ∀ p page, (t.paged n).tailPages p = some page → page = Image.read (t.file n).bytes p PAGE
  retry : ∀ u, flush n t = .ok () u → (u.file n).bytes = s.logical n

/-- What a failed flush does leave: an empty staging table with its old count,
and a file that no later flush completes. -/
structure Dropped (n : FileName) (s t : Store) : Prop where
  before : (s.paged n).stagedWrites ≠ []
  staged : (t.paged n).stagedWrites = []
  pendingBytes : (t.paged n).pendingBytes = (s.paged n).pendingBytes
  logical : t.logical n = (t.file n).bytes
  retry : flush n t = .ok () t

namespace PagedFile

variable {n : FileName} {w : StagedWrite} {s t : Store} {e : Failure}

/-- The staging table and its count are as they were. -/
def Untaken (n : FileName) (s t : Store) : Prop :=
  (t.paged n).stagedWrites = (s.paged n).stagedWrites ∧
    (t.paged n).pendingBytes = (s.paged n).pendingBytes

theorem Untaken.refl (s : Store) : Untaken n s s := ⟨rfl, rfl⟩

theorem Untaken.trans {s t u : Store} (h : Untaken n s t) (k : Untaken n t u) : Untaken n s u :=
  ⟨k.1.trans h.1, k.2.trans h.2⟩

theorem Untaken.of_paged (h : t.paged = s.paged) : Untaken n s t := by
  rw [Untaken, h]
  exact ⟨rfl, rfl⟩

theorem readOne_untaken (m : FileName) (off len : Nat) : Keeps (Untaken n) (readOne m off len) := by
  intro s
  cases hRun : readOne m off len s with
  | ok buf t => exact final_of_ok hRun ▸ .of_paged (by rw [(readOne_ok hRun).2]; rfl)
  | error e t => exact final_of_error hRun ▸ .of_paged (by rw [(readOne_error hRun).2]; rfl)

theorem lastPage_untaken (w : StagedWrite) (last : Nat) : Keeps (Untaken n) (lastPage n w last) := by
  refine Keeps.bind (R := Untaken n) Untaken.trans (fun s => Untaken.refl s) fun pf => ?_
  split
  · exact Keeps.pure Untaken.refl _
  · split
    · exact Keeps.pure Untaken.refl _
    · exact readOne_untaken n last PAGE

theorem suffixPage_untaken (w : StagedWrite) : Keeps (Untaken n) (suffixPage n w) := by
  unfold suffixPage
  split
  · exact Keeps.bind (R := Untaken n) Untaken.trans (lastPage_untaken w _) fun page => Keeps.pure Untaken.refl _
  · exact Keeps.pure Untaken.refl _

/-- Sealing edits tail pages only, whether it completes or fails. -/
theorem sealWrite_untaken (w : StagedWrite) : Keeps (Untaken n) (sealWrite n w) := by
  refine Keeps.bind (R := Untaken n) Untaken.trans (suffixPage_untaken w) fun suffix => ?_
  refine Keeps.bind (R := Untaken n) Untaken.trans (fun s => ?_) fun _ => Keeps.pure Untaken.refl _
  change Untaken n s (s.setPaged n ((s.paged n).retail w (sealedBuffer w suffix)))
  rw [Untaken, Store.setPaged_paged, Function.update_self]
  exact ⟨rfl, rfl⟩

theorem sealWrites_untaken (ws : List StagedWrite) : Keeps (Untaken n) (sealWrites n ws) := by
  induction ws with
  | nil => exact Keeps.pure Untaken.refl _
  | cons w rest ih =>
      refine Keeps.bind (R := Untaken n) Untaken.trans (sealWrite_untaken w) fun request => ?_
      exact Keeps.bind (R := Untaken n) Untaken.trans ih fun requests => Keeps.pure Untaken.refl _

theorem writeVec_untaken (m : FileName) (requests : List (Nat × Bytes)) :
    Keeps (Untaken n) (writeVec m requests) := by
  intro s
  refine .of_paged ?_
  unfold final writeVec
  cases s.outcome with
  | failure written => rfl
  | success =>
      dsimp only
      by_cases hAll : (requests.takeWhile fun request =>
          inFileRange request.1 request.2.length).length = requests.length
      · rw [if_pos hAll]
        rfl
      · rw [if_neg hAll]
        rfl

/-- A failed flush has emptied the staging table. -/
theorem flush_error_dropped (hRun : flush n s = .error e t) : Dropped n s t := by
  by_cases hEmpty : (s.paged n).stagedWrites = []
  · rw [flush_of_staged_nil hEmpty] at hRun
    cases hRun
  rw [flush, bind_of_ok (getPaged_apply n s)] at hRun
  simp only [List.isEmpty_iff, hEmpty, if_false] at hRun
  rw [bind_of_ok (modifyPaged_apply n _ s)] at hRun
  have hTaken : Untaken n (s.setPaged n { s.paged n with stagedWrites := [] }) t := by
    rcases bind_eq_error.mp hRun with hSeal | ⟨requests, u, hSeal, hRest⟩
    · exact (sealWrites_untaken _).error hSeal
    refine ((sealWrites_untaken _).ok hSeal).trans ?_
    rcases bind_eq_error.mp hRest with hWrite | ⟨_, v, _, hDone⟩
    · exact (writeVec_untaken n requests).error hWrite
    · cases hDone
  rw [Untaken, Store.setPaged_paged, Function.update_self] at hTaken
  refine ⟨hEmpty, hTaken.1, hTaken.2, ?_, flush_of_staged_nil hTaken.1⟩
  rw [Store.logical, hTaken.1]
  rfl

/-- A completed flush has emptied the staging table. -/
theorem flush_staged (hRun : flush n s = .ok () t) : (t.paged n).stagedWrites = [] := by
  by_cases hEmpty : (s.paged n).stagedWrites = []
  · rw [flush_of_staged_nil hEmpty] at hRun
    cases hRun
    exact hEmpty
  rw [flush, bind_of_ok (getPaged_apply n s)] at hRun
  simp only [List.isEmpty_iff, hEmpty, if_false] at hRun
  rw [bind_of_ok (modifyPaged_apply n _ s)] at hRun
  obtain ⟨requests, u, hSeal, hRun⟩ := bind_eq_ok.mp hRun
  obtain ⟨_, v, hWrite, hDone⟩ := bind_eq_ok.mp hRun
  have hTaken := ((sealWrites_untaken (n := n) _).ok hSeal).trans ((writeVec_untaken n requests).ok hWrite)
  rw [Untaken, Store.setPaged_paged, Function.update_self] at hTaken
  rw [modifyPaged_apply] at hDone
  cases hDone
  rw [Store.setPaged_paged, Function.update_self]
  exact hTaken.1

end PagedFile

/-- No failed flush keeps what was staged: the handle reports nothing staged,
while its count of pending bytes still stands. -/
theorem failed_flush_loses {n : FileName} {s t : Store} {e : Failure}
    (hRun : flush n s = .error e t) : ¬ LosesNothing n s t := by
  intro hKept
  have hDropped := flush_error_dropped hRun
  have hPending := hKept.hasPending
  simp only [hasPending, hDropped.staged, List.isEmpty_nil, Bool.not_true, Bool.not_eq_eq_eq_not,
    Bool.not_false, Eq.comm (a := false)] at hPending
  exact hDropped.before (List.isEmpty_iff.mp hPending)

/-- One staged byte behind the header page; the last page is read, and its write fails. -/
def oneStaged : Store :=
  { Store.empty with plan := [.success, .failure []] }.setPaged .data
    { PagedFile.fresh with stagedWrites := [⟨PAGE, [1], none⟩], pendingBytes := 1 }

theorem oneStaged_flush : ∃ e t, flush .data oneStaged = .error e t := ⟨_, _, rfl⟩

theorem failed_flush_loses_oneStaged :
    ∃ e t, flush .data oneStaged = .error e t ∧ ¬ LosesNothing .data oneStaged t := by
  obtain ⟨e, t, hRun⟩ := oneStaged_flush
  exact ⟨e, t, hRun, failed_flush_loses hRun⟩

/-- The staged byte is gone: a later flush completes and the file does not have it. -/
theorem oneStaged_byte_lost :
    ∃ e t u, flush .data oneStaged = .error e t ∧ flush .data t = .ok () u ∧
      (u.file .data).bytes PAGE = 0 ∧ oneStaged.logical .data PAGE = 1 :=
  ⟨_, _, _, rfl, rfl, rfl, rfl⟩

end HeapStore
