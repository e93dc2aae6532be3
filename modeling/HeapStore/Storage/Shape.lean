import HeapStore.Storage.Stage

/-! Pending writes can be flushed whatever the file holds: only the lengths of
the cached pages and the offsets matter, not that they agree with the file. -/
namespace HeapStore

open Effect

namespace PagedFile

variable {n : FileName} {w : StagedWrite} {s t : Store}

/-- All cached pages of a handle are whole pages. -/
structure Shaped (n : FileName) (s : Store) : Prop where
  heads : ∀ w ∈ (s.paged n).stagedWrites, ∀ page, w.head = some page → page.length = PAGE
  tails : ∀ p page, (s.paged n).tailPages p = some page → page.length = PAGE

theorem Coherent.shaped (h : Coherent n s) : Shaped n s := by
  constructor
  case heads =>
    intro w hw page hPage
    rw [(h.captured w hw).head] at hPage
    split at hPage
    · cases hPage
    · cases hPage
      simp
  case tails =>
    intro p page hPage
    rw [(h.tails p page hPage).2]
    simp

theorem length_resizeZeroed (buffer : Bytes) (len : Nat) : (resizeZeroed buffer len).length = len := by
  simp only [resizeZeroed, List.length_append, List.length_take, List.length_replicate]
  omega

theorem base_le_pageDown_endOffset (w : StagedWrite) : w.base ≤ pageDown w.endOffset :=
  le_pageDown_of_mod (pageDown_mod _) (Nat.le_add_right _ _)

/-- A sealed write has whole pages. -/
theorem length_sealedBuffer {suffix : Option Bytes}
    (hSuffix : ∀ page, suffix = some page → page.length = PAGE ∧ w.endOffset % PAGE ≠ 0) :
    (sealedBuffer w suffix).length = w.stop - w.base := by
  cases suffix with
  | none => exact length_resizeZeroed _ _
  | some page =>
      obtain ⟨hPage, hMod⟩ := hSuffix page rfl
      have hStop : w.stop = pageDown w.endOffset + PAGE := pageUp_eq_pageDown_add hMod
      have hBase := base_le_pageDown_endOffset w
      have hDown := pageDown_le w.endOffset
      have hUp := lt_pageDown_add w.endOffset
      have hLength := length_resizeZeroed w.buffer (pageUp w.endOffset - w.base)
      have hSame : pageUp w.endOffset = w.stop := rfl
      simp only [sealedBuffer, List.length_append, List.length_take, List.length_drop, hLength, hPage]
      omega

theorem lastPage_length {last : Nat} {page : Bytes}
    (hHead : ∀ page, w.head = some page → page.length = PAGE)
    (hTails : ∀ p page, (s.paged n).tailPages p = some page → page.length = PAGE)
    (hRun : lastPage n w last s = .ok page t) : page.length = PAGE ∧ t.paged = s.paged := by
  rw [lastPage, bind_of_ok (getPaged_apply n s)] at hRun
  split at hRun
  · rename_i hOwn
    cases hRun
    obtain ⟨head, hSome⟩ := Option.isSome_iff_exists.mp hOwn.2
    exact ⟨by rw [hSome]; exact hHead head hSome, rfl⟩
  · cases hCached : (s.paged n).tailPages last with
    | some cached =>
        simp only [hCached] at hRun
        cases hRun
        exact ⟨hTails _ _ hCached, rfl⟩
    | none =>
        simp only [hCached] at hRun
        obtain ⟨rfl, rfl⟩ := readOne_ok hRun
        exact ⟨by simp, rfl⟩

theorem sealWrite_shaped {request : Nat × Bytes}
    (hHead : ∀ page, w.head = some page → page.length = PAGE)
    (hTails : ∀ p page, (s.paged n).tailPages p = some page → page.length = PAGE)
    (hRun : sealWrite n w s = .ok request t) :
    request.1 = w.base ∧ request.2.length = w.stop - w.base ∧
      ∀ p page, (t.paged n).tailPages p = some page → page.length = PAGE := by
  obtain ⟨suffix, u, hSuffix, hRun⟩ := bind_eq_ok.mp hRun
  cases hRun
  have hLast : (∀ page, suffix = some page → page.length = PAGE ∧ w.endOffset % PAGE ≠ 0) ∧
      u.paged = s.paged := by
    unfold suffixPage at hSuffix
    split at hSuffix
    · rename_i hMod
      obtain ⟨page, v, hPage, hPure⟩ := bind_eq_ok.mp hSuffix
      cases hPure
      obtain ⟨hLength, hSame⟩ := lastPage_length hHead hTails hPage
      exact ⟨fun other hOther => by cases hOther; exact ⟨hLength, hMod⟩, hSame⟩
    · cases hSuffix
      exact ⟨nofun, rfl⟩
  obtain ⟨hPage, hSame⟩ := hLast
  have hLength := length_sealedBuffer hPage
  refine ⟨rfl, hLength, ?_⟩
  intro p page hTail
  rw [Store.setPaged_paged, Function.update_self, hSame] at hTail
  unfold retail at hTail
  simp only at hTail
  split at hTail
  · rename_i hMod
    by_cases hLast : p = pageDown w.endOffset
    · subst hLast
      rw [Function.update_self] at hTail
      cases hTail
      have hStop : w.stop = pageDown w.endOffset + PAGE := pageUp_eq_pageDown_add hMod
      have hBase := base_le_pageDown_endOffset w
      rw [length_field, hLength]
      omega
    · rw [Function.update_of_ne hLast] at hTail
      split at hTail
      · cases hTail
      · exact hTails p page hTail
  · simp only at hTail
    split at hTail
    · cases hTail
    · exact hTails p page hTail

theorem sealWrites_shaped {ws : List StagedWrite} {requests : List (Nat × Bytes)}
    (hHeads : ∀ w ∈ ws, ∀ page, w.head = some page → page.length = PAGE)
    (hTails : ∀ p page, (s.paged n).tailPages p = some page → page.length = PAGE)
    (hRun : sealWrites n ws s = .ok requests t) :
    ∀ request ∈ requests, ∃ w ∈ ws, request.1 = w.base ∧ request.2.length = w.stop - w.base := by
  induction ws generalizing s requests with
  | nil =>
      cases hRun
      exact nofun
  | cons w rest ih =>
      obtain ⟨first, u, hFirst, hRun⟩ := bind_eq_ok.mp hRun
      obtain ⟨others, v, hOthers, hPure⟩ := bind_eq_ok.mp hRun
      cases hPure
      obtain ⟨hBase, hLength, hKept⟩ := sealWrite_shaped (hHeads w (by simp)) hTails hFirst
      intro request hRequest
      rcases List.mem_cons.mp hRequest with rfl | hLater
      · exact ⟨w, by simp, hBase, hLength⟩
      · obtain ⟨other, hOther, hParts⟩ :=
          ih (fun w hw => hHeads w (by simp [hw])) hKept hOthers request hLater
        exact ⟨other, by simp [hOther], hParts⟩

/-- Whole cached pages and addressable writes are enough for a flush. -/
theorem Shaped.flush_run (h : Shaped n s) (hPlan : s.plan = []) (hReach : InReach n s) :
    ∃ t, flush n s = .ok () t ∧ t.plan = [] := by
  rw [flush, bind_of_ok (getPaged_apply n s)]
  by_cases hEmpty : (s.paged n).stagedWrites = []
  · exact ⟨s, by simp [hEmpty], hPlan⟩
  simp only [List.isEmpty_iff, hEmpty, if_false]
  rw [bind_of_ok (modifyPaged_apply n _ s)]
  obtain ⟨requests, u, hSeal, hPlan'⟩ := sealWrites_run (n := n)
    (s := s.setPaged n { s.paged n with stagedWrites := [] }) hPlan hReach
  have hShaped := sealWrites_shaped h.heads (by simpa using h.tails) hSeal
  have hRange : ∀ request ∈ requests, request.1 + request.2.length < 2 ^ 63 := by
    intro request hRequest
    obtain ⟨w, hw, hBase, hLength⟩ := hShaped request hRequest
    have hStop := hReach w hw
    have hLe := base_le_pageDown_endOffset w
    have hUp := pageDown_le_pageUp w.endOffset
    have hSame : pageUp w.endOffset = w.stop := rfl
    omega
  have hWrite := writeVec_run (n := n) hPlan' hRange
  rw [bind_of_ok hSeal, bind_of_ok hWrite]
  exact ⟨_, rfl, hPlan'⟩

end PagedFile

end HeapStore
