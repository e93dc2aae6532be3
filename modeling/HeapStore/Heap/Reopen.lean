import HeapStore.Heap.Run
import HeapStore.Placement.Resumed

/-! Closing a flushed heap and opening its files again: the headers are
accepted, nothing is rebuilt, and the placement opens on files at rest. -/
namespace HeapStore

open Effect PagedFile IndexFile

namespace Heap

variable {P : Type} [Placement P]

/-- The files of a store, without handles. -/
def closed (u : Store) : Store := { u with paged := fun _ => .fresh }

/-- The files of a heap as opening finds them, all of whole pages. -/
structure AtRest (P : Type) [Placement P] (s : Store) : Prop where
  plan : s.plan = []
  handles : ∀ n, s.paged n = .fresh
  whole : ∀ n, (s.file n).Whole
  present : ∀ n, HasFile P n → (s.disk n).isSome
  header : ∀ n, HasFile P n → HeaderAt P n (s.file n).bytes

namespace AtRest

variable {s t : Store} {slots : Nat → SlotState} {clean : Prop}

theorem logical (h : AtRest P s) (n : FileName) : s.logical n = (s.file n).bytes := by
  rw [Store.logical, h.handles]
  rfl

theorem fileRange (h : AtRest P s) (n : FileName) : pageUp (s.file n).size < 2 ^ 63 := by
  rw [pageUp_of_mod (h.whole n).pages]
  exact (h.whole n).range

/-- The files as opening works on them: a data file at rest and an index with these slots. -/
theorem holding (h : AtRest P s) (hSlots : SlotsAt slots (s.file .index).bytes) :
    Holding True clean (s.file .data).bytes slots s where
  settled := ⟨by rw [h.handles]; rfl, rfl, fun _ => h.plan⟩
  coherent := coherent_fresh (h.handles .index)
  slots := by
    rw [h.logical]
    exact hSlots
  reach _ w hw := by
    rw [h.handles] at hw
    cases hw

/-! The headers of the files are accepted. -/

theorem openFile (h : AtRest P s) {n : FileName} (hFile : HasFile P n) :
    PagedFile.open n (fileKind n) (Placement.layout P) s = .ok () s := by
  have hDirect : openDirect n s = .ok () s := by rw [openDirect, if_pos (h.present n hFile)]
  have hHandle : modifyPaged n (fun _ => .fresh) s = .ok () s := by
    rw [modifyPaged_apply]
    congr 1
    rw [Store.setPaged, ← h.handles n, Function.update_eq_self]
  have hRead := readOne_run (n := n) h.plan (show 0 + PAGE < 2 ^ 63 by decide)
  have hPage : Image.read (s.file n).bytes 0 PAGE =
      FileHeader.encode ⟨fileKind n, Placement.layout P⟩ := by
    have hHeader := (Image.holds_iff_read _ _ _).mp (h.header n hFile)
    rwa [FileHeader.length_encode] at hHeader
  rw [PagedFile.open, bind_of_ok hDirect, bind_of_ok hHandle, bind_of_ok hRead, hPage,
    FileHeader.decode_encode]
  simp only [and_self, if_true]
  rfl

theorem openFiles_run (h : AtRest P s) : openFiles P s = .ok () s := by
  have hData : PagedFile.open .data 'D'.toUInt8 (Placement.layout P) s = .ok () s :=
    h.openFile (n := .data) (hasFile_data P)
  have hIndex : PagedFile.open .index 'I'.toUInt8 (Placement.layout P) s = .ok () s :=
    h.openFile (n := .index) (hasFile_index P)
  rw [openFiles, bind_of_ok hData, bind_of_ok hIndex]
  split
  · rename_i hBucket
    exact h.openFile (n := .registry) fun _ => hBucket
  · rfl

theorem metadataIsBroken_run (h : AtRest P s) {n : FileName} (hFile : HasFile P n) :
    metadataIsBroken P n (fileKind n) s = .ok false s := by
  have hExists : fileExists n s = .ok true s := by rw [fileExists, h.present n hFile]
  rw [metadataIsBroken, bind_of_ok hExists]
  simp only [if_true]
  rw [bind_of_ok (attempt_of_ok (h.openFile hFile))]
  rfl

theorem openExisting_run (h : AtRest P s) (order : HashOrder) (config : HeapConfig) :
    openExisting P order config s = .ok ⟨false, 0, .none⟩ s := by
  have hIndex : metadataIsBroken P .index 'I'.toUInt8 s = .ok false s :=
    h.metadataIsBroken_run (n := .index) (hasFile_index P)
  have hNeeds : needsRebuild P s = .ok false s := by
    rw [needsRebuild, bind_of_ok hIndex]
    simp only [Bool.false_eq_true, if_false]
    split
    · rename_i hBucket
      exact h.metadataIsBroken_run (n := .registry) fun _ => hBucket
    · rfl
  rw [openExisting, bind_of_ok hNeeds]
  simp only [Bool.false_eq_true, if_false]
  rw [bind_of_ok h.openFiles_run]
  rfl

/-- Opening a heap on files at rest opens its placement, and rebuilds only
when the placement reports corrupt metadata. -/
theorem open_eq (h : AtRest P s) (order : HashOrder) (config : HeapConfig) :
    Heap.open P order config s = openPlacement order config false ⟨false, 0, .none⟩ s := by
  have hExists : fileExists .data s = .ok true s := by rw [fileExists, h.present .data (hasFile_data P)]
  rw [Heap.open, bind_of_ok hExists]
  simp only [if_true]
  rw [bind_of_ok (h.openExisting_run order config)]

/-- A heap opens on files at rest exactly when its placement does, unless the
placement reports corrupt metadata. -/
theorem open_iff (h : AtRest P s) {order : HashOrder} {config : HeapConfig}
    (hUncorrupt : ∀ e u, Placement.open (P := P) order config false s = .error e u →
      ∀ what offset, e ≠ .error (.corrupt what offset)) {p : P} {report : RecoveryReport} :
    Heap.open P order config s = .ok (p, report) t ↔
      ∃ restored, Placement.open (P := P) order config false s = .ok (p, restored) t ∧
        report = ⟨false, restored, .none⟩ := by
  rw [h.open_eq, openPlacement]
  cases hRun : Placement.open (P := P) order config false s with
  | ok out u =>
      obtain ⟨q, restored⟩ := out
      simp only [EStateM.Result.ok.injEq, Prod.mk.injEq]
      constructor
      · rintro ⟨⟨rfl, rfl⟩, rfl⟩
        exact ⟨restored, ⟨⟨rfl, rfl⟩, rfl⟩, rfl⟩
      · rintro ⟨_, ⟨⟨rfl, rfl⟩, rfl⟩, rfl⟩
        exact ⟨⟨rfl, rfl⟩, rfl⟩
  | error e u =>
      have hNot := hUncorrupt e u hRun
      constructor
      · intro hOk
        split at hOk
        · rename_i hMatch
          cases hMatch
        · rename_i what offset v hMatch
          cases hMatch
          exact absurd rfl (hNot what offset)
        · cases hOk
      · rintro ⟨_, hOk, -⟩
        cases hOk

/-! What opening leaves behind. -/

variable {upto : Nat}

theorem paged_data (h : AtRest P s) (hWork : IndexWork (IndexWork.noted s upto) t) :
    t.paged .data = { PagedFile.fresh with allocatedEnd := upto } := by
  rw [hWork.data]
  simp [IndexWork.noted, h.handles, PagedFile.fresh]

theorem paged_registry (h : AtRest P s) (hWork : IndexWork (IndexWork.noted s upto) t) :
    t.paged .registry = .fresh := by
  rw [hWork.registry]
  simp [IndexWork.noted, h.handles]

theorem logical_registry (h : AtRest P s) (hWork : IndexWork (IndexWork.noted s upto) t) :
    t.logical .registry = (s.file .registry).bytes := by
  rw [Store.logical, h.paged_registry hWork, hWork.file (by decide)]
  rfl

theorem logical_data (hHolding : Holding True clean (s.file .data).bytes slots t) :
    t.logical .data = (s.file .data).bytes := by
  rw [Store.logical, hHolding.settled.staged, hHolding.settled.bytes]
  rfl

/-- Opening leaves files that present what they hold. -/
theorem coherent (h : AtRest P s) (hHolding : Holding True clean (s.file .data).bytes slots t)
    (hWork : IndexWork (IndexWork.noted s upto) t) (n : FileName) : Coherent n t := by
  have hPaged := h.paged_data hWork
  cases n with
  | data => exact coherent_of_clear (by rw [hPaged]; rfl) (by rw [hPaged]; rfl) (by rw [hPaged]; rfl)
  | index => exact hHolding.coherent
  | registry => exact coherent_fresh (h.paged_registry hWork)

/-- Nothing but slots is staged when opening is done. -/
theorem inReach (h : AtRest P s) (hWork : IndexWork (IndexWork.noted s upto) t)
    (hHolding : Holding True clean (s.file .data).bytes slots t) (hClean : clean) (n : FileName) :
    InReach n t := by
  intro w hw
  cases n with
  | data =>
      rw [h.paged_data hWork] at hw
      cases hw
  | index => exact hHolding.reach hClean w hw
  | registry =>
      rw [h.paged_registry hWork] at hw
      cases hw

/-- A placement that was opened is sound for the records of the data file and
the slots that it left. -/
theorem sound [LawfulPlacement P] {config : HeapConfig} {L : Ledger} {p : P} (h : AtRest P s)
    (hData : Laid (Placement.withBucket P) L.log (s.file .data).bytes)
    (hHolding : Holding True clean (s.file .data).bytes L.slots t)
    (hWork : IndexWork (IndexWork.noted s upto) t)
    (hFaithful : L.Faithful (Placement.withBucket P) config.integrity)
    (hKeeps : LawfulPlacement.Keeps config (⟨p, t⟩ : Placed P) L.log L.rows) :
    Sound config L (⟨p, t⟩ : Placed P) := by
  have hIndexOld : Coherent .index (IndexWork.noted s upto) :=
    IndexWork.coherent_noted.mpr (coherent_fresh (h.handles .index))
  refine ⟨hWork.plan h.plan, h.coherent hHolding hWork, fun n => ?_, fun n hn => ?_, fun n hn => ?_, ?_,
    hHolding.slots, hFaithful, hKeeps⟩
  · change (t.file n).Whole
    by_cases hIndex : n = .index
    · subst hIndex
      exact hWork.whole hIndexOld (h.whole .index)
    · rw [hWork.file hIndex]
      exact h.whole n
  · change (t.disk n).isSome
    by_cases hIndex : n = .index
    · subst hIndex
      exact hWork.present (h.present .index hn)
    · rw [hWork.disk n hIndex]
      exact h.present n hn
  · have hOld := h.header n hn
    change HeaderAt P n (t.logical n)
    cases n with
    | data => rwa [logical_data hHolding]
    | index =>
        refine hOld.congr fun i _ hHi => ?_
        rw [FileHeader.length_encode, Nat.zero_add] at hHi
        rw [hWork.head i hHi]
        change (s.file .index).bytes i = s.logical .index i
        rw [h.logical]
    | registry => rwa [h.logical_registry hWork]
  · change Laid _ L.log (t.logical .data)
    rw [logical_data hHolding]
    exact hData

end AtRest

/-- The files of a heap with nothing staged are at rest. -/
theorem Sound.atRest [LawfulPlacement P] {config : HeapConfig} {L : Ledger} {s : Placed P}
    (h : Sound config L s) (hStaged : ∀ n, HasFile P n → (s.store.paged n).stagedWrites = []) :
    AtRest P (closed s.store) where
  plan := h.plan
  handles _ := rfl
  whole := h.whole
  present := h.present
  header n hn := by
    have hHeader := h.header n hn
    rw [Store.logical, hStaged n hn] at hHeader
    exact hHeader

end Heap

end HeapStore
