import HeapStore.Storage.Guarded

/-! Work on one file leaves the others alone, and recovery, reads and deletions
leave the data file alone. -/
namespace HeapStore

open Effect PagedFile

/-- Apart from one file nothing is written, and no other handle changes. -/
structure Only (n : FileName) (s t : Store) : Prop where
  disk : ∀ m, m ≠ n → t.disk m = s.disk m
  paged : ∀ m, m ≠ n → t.paged m = s.paged m
  issued : ∃ new, t.issued = s.issued ++ new ∧ ∀ w ∈ new, w.file = n

namespace Only

variable {n : FileName} {s t u : Store} {α β : Type}

theorem refl (n : FileName) (s : Store) : Only n s s :=
  ⟨fun _ _ => rfl, fun _ _ => rfl, [], by simp, by simp⟩

theorem trans (h : Only n s t) (k : Only n t u) : Only n s u where
  disk m hm := (k.disk m hm).trans (h.disk m hm)
  paged m hm := (k.paged m hm).trans (h.paged m hm)
  issued := by
    obtain ⟨first, hFirst, hMine⟩ := h.issued
    obtain ⟨second, hSecond, hYours⟩ := k.issued
    refine ⟨first ++ second, by rw [hSecond, hFirst, List.append_assoc], fun w hw => ?_⟩
    rcases List.mem_append.mp hw with hOld | hNew
    · exact hMine w hOld
    · exact hYours w hNew

/-- A step that issues nothing. -/
theorem of_silent (hIssued : t.issued = s.issued) (hDisk : ∀ m, m ≠ n → t.disk m = s.disk m)
    (hPaged : ∀ m, m ≠ n → t.paged m = s.paged m) : Only n s t :=
  ⟨hDisk, hPaged, [], by rw [hIssued, List.append_nil], by simp⟩

theorem bind {x : StoreM α} {f : α → StoreM β} (hx : Keeps (Only n) x)
    (hf : ∀ a, Keeps (Only n) (f a)) : Keeps (Only n) (x >>= f) :=
  Keeps.bind (R := Only n) Only.trans hx hf

theorem pure (a : α) : Keeps (Only n) (Pure.pure a : StoreM α) := Keeps.pure (refl n) a

theorem throw (e : Failure) : Keeps (Only n) (MonadExcept.throw e : StoreM α) := Keeps.throw (refl n) e

theorem getPaged (m : FileName) : Keeps (Only n) (getPaged m) := Keeps.same (refl n) fun _ => rfl

theorem modifyPaged (f : PagedFile → PagedFile) : Keeps (Only n) (modifyPaged n f) := fun s =>
  of_silent rfl (fun _ _ => rfl) fun m hm => by
    rw [final_of_ok (modifyPaged_apply n f s), Store.setPaged_paged, Function.update_of_ne hm]

/-! Requests. -/

theorem readVec (m : FileName) (requests : List (Nat × Nat)) : Keeps (Only n) (readVec m requests) := by
  intro s
  cases hRun : HeapStore.readVec m requests s with
  | ok buffers t =>
      rw [final_of_ok hRun, (readVec_ok hRun).2]
      exact of_silent rfl (fun _ _ => rfl) fun _ _ => rfl
  | error e t =>
      rw [final_of_error hRun, (readVec_error hRun).2]
      exact of_silent rfl (fun _ _ => rfl) fun _ _ => rfl

theorem pageUpU64 (off : Nat) : Keeps (Only n) (pageUpU64 off : StoreM Nat) := by
  unfold HeapStore.pageUpU64
  split
  · exact throw _
  · exact pure _

theorem readOne (m : FileName) (off len : Nat) : Keeps (Only n) (readOne m off len) :=
  bind (readVec m _) fun _ => pure _

theorem sync (m : FileName) : Keeps (Only n) (sync m) := by
  intro s
  unfold final HeapStore.sync
  cases s.outcome <;> exact of_silent rfl (fun _ _ => rfl) fun _ _ => rfl

theorem truncate (n : FileName) : Keeps (Only n) (truncate n) := by
  intro s
  unfold final HeapStore.truncate
  cases s.outcome with
  | failure written => exact of_silent rfl (fun _ _ => rfl) fun _ _ => rfl
  | success =>
      have hCut : Only n s (s.tick.setDisk n .empty) :=
        of_silent rfl (fun m hm => Function.update_of_ne hm _ _) fun _ _ => rfl
      exact hCut

theorem writeVec (n : FileName) (requests : List (Nat × Bytes)) : Keeps (Only n) (writeVec n requests) := by
  intro s
  have hIssued (t : Store) (file : File) (ht : t = ((s.noteIssued n requests).tick).setDisk n file) :
      Only n s t := by
    subst ht
    refine ⟨fun m hm => Function.update_of_ne hm _ _, fun _ _ => rfl, [_], rfl, fun w hw => ?_⟩
    rw [List.mem_singleton.mp hw]
  unfold final HeapStore.writeVec
  cases s.outcome with
  | failure written => exact hIssued _ _ rfl
  | success =>
      dsimp only
      split
      · rename_i hRun
        split at hRun <;> cases hRun
        exact hIssued _ _ rfl
      · rename_i hRun
        split at hRun <;> cases hRun
        exact hIssued _ _ rfl

/-! The cache of a file. -/

theorem lastPage (w : StagedWrite) (last : Nat) : Keeps (Only n) (lastPage n w last) := by
  apply bind (getPaged n)
  intro pf
  split
  · exact pure _
  split
  · exact pure _
  · exact readOne n _ _

theorem suffixPage (w : StagedWrite) : Keeps (Only n) (suffixPage n w) := by
  unfold PagedFile.suffixPage
  split
  · exact bind (lastPage w _) fun _ => pure _
  · exact pure _

theorem sealWrite (w : StagedWrite) : Keeps (Only n) (sealWrite n w) :=
  bind (suffixPage w) fun _ => bind (modifyPaged _) fun _ => pure _

theorem sealWrites (ws : List StagedWrite) : Keeps (Only n) (sealWrites n ws) := by
  induction ws with
  | nil => exact pure _
  | cons w rest ih => exact bind (sealWrite w) fun _ => bind ih fun _ => pure _

theorem flush (n : FileName) : Keeps (Only n) (flush n) := by
  apply bind (getPaged n)
  intro pf
  split
  · exact pure _
  apply bind (modifyPaged _)
  intro _
  apply bind (sealWrites _)
  intro requests
  exact bind (writeVec n _) fun _ => modifyPaged _

theorem captureHead (off : Nat) : Keeps (Only n) (captureHead n off) := by
  apply bind (getPaged n)
  intro pf
  split
  · exact pure _
  split
  · exact pure _
  · exact bind (readOne n _ _) fun _ => pure _

theorem stage (n : FileName) (off : Nat) (parts : List Bytes) : Keeps (Only n) (stage n off parts) := by
  apply bind (getPaged n)
  intro pf
  split
  · exact throw _
  split
  · exact modifyPaged _
  apply bind
  · apply bind (getPaged n)
    intro pf
    split
    · exact flush n
    · exact pure _
  intro _
  apply bind
  · apply bind (pageUpU64 _)
    intro newEnd
    apply bind (getPaged n)
    intro pf
    split
    · exact flush n
    · exact pure _
  intro _
  exact bind (captureHead off) fun _ => modifyPaged _

theorem create (n : FileName) (kind layout : UInt8) : Keeps (Only n) (create n kind layout) := by
  apply bind (truncate n)
  intro _
  apply bind (modifyPaged _)
  intro _
  apply bind (writeVec n _)
  intro _
  exact bind (sync n) fun _ => modifyPaged _

end Only

/-- The data file is as before, nothing is staged for it, and no write to it was issued. -/
structure Spared (s t : Store) : Prop where
  disk : t.disk .data = s.disk .data
  staged : (t.paged .data).stagedWrites = []
  issued : ∃ new, t.issued = s.issued ++ new ∧ ∀ w ∈ new, w.file ≠ .data

/-- With nothing staged for it, the data file is spared. -/
def Sparing (s t : Store) : Prop := (s.paged .data).stagedWrites = [] → Spared s t

namespace Spared

variable {n : FileName} {s t u : Store}

theorem refl (hNone : (s.paged .data).stagedWrites = []) : Spared s s :=
  ⟨rfl, hNone, [], by simp, by simp⟩

theorem trans (h : Spared s t) (k : Spared t u) : Spared s u where
  disk := k.disk.trans h.disk
  staged := k.staged
  issued := by
    obtain ⟨first, hFirst, hMine⟩ := h.issued
    obtain ⟨second, hSecond, hYours⟩ := k.issued
    refine ⟨first ++ second, by rw [hSecond, hFirst, List.append_assoc], fun w hw => ?_⟩
    rcases List.mem_append.mp hw with hOld | hNew
    · exact hMine w hOld
    · exact hYours w hNew

theorem of_only (h : Only n s t) (hn : n ≠ .data) (hNone : (s.paged .data).stagedWrites = []) :
    Spared s t where
  disk := h.disk _ hn.symm
  staged := by rw [h.paged _ hn.symm, hNone]
  issued := by
    obtain ⟨new, hIssued, hMine⟩ := h.issued
    exact ⟨new, hIssued, fun w hw => hMine w hw ▸ hn⟩

/-- A new handle for a file, with nothing staged if it is the data file. -/
theorem setPaged (hNone : (s.paged .data).stagedWrites = []) {pf : PagedFile}
    (hNew : n = .data → pf.stagedWrites = []) : Spared s (s.setPaged n pf) := by
  refine ⟨rfl, ?_, [], by simp [Store.setPaged], by simp⟩
  rw [Store.setPaged_paged, Function.update_apply]
  split
  · rename_i hn
    exact hNew hn.symm
  · exact hNone

/-- Opening and recovery, reads and commits spare the data file. -/
theorem restoring : Restoring Sparing where
  refl _ := refl
  trans hFirst hSecond hNone := (hFirst hNone).trans (hSecond (hFirst hNone).staged)
  readVec n requests s := of_only (Only.readVec (n := .index) n requests s) (by decide)
  sync n s := of_only (Only.sync (n := .index) n s) (by decide)
  flush n s hNone := by
    cases n with
    | data =>
        rw [final_of_ok (flush_of_staged_nil hNone)]
        exact refl hNone
    | index => exact of_only (Only.flush .index s) (by decide) hNone
    | registry => exact of_only (Only.flush .registry s) (by decide) hNone
  stageMeta n hn off parts s := of_only (Only.stage n off parts s) hn
  createMeta n hn kind layout s := of_only (Only.create n kind layout s) hn
  noteAlloc upto s hNone := setPaged hNone fun _ => hNone
  reset n s hNone := setPaged hNone fun _ => rfl
  handle n s t hKept hNone := (hKept hNone).trans
    (setPaged (hKept hNone).staged fun hn => by rw [hn, hNone])

end Spared

end HeapStore
