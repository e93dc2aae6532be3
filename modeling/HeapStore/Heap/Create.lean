import HeapStore.Heap.Operations

/-! Opening a store that has no files yet: they are created, and the heap is
sound for the empty ledger. -/
namespace HeapStore

open Effect PagedFile

/-- No files, no open handles, and block requests succeed. -/
structure Blank (s : Store) : Prop where
  disk : ∀ n, s.disk n = none
  paged : ∀ n, s.paged n = .fresh
  plan : s.plan = []

/-- A file that was created: a header page under a handle with nothing cached. -/
structure CreatedFile (n : FileName) (kind layout : UInt8) (s t : Store) : Prop where
  disk : t.disk n = some (File.empty.write 0 (FileHeader.encode ⟨kind, layout⟩))
  handle : t.paged n = { PagedFile.fresh with allocatedEnd := PAGE }
  otherDisk : ∀ m, m ≠ n → t.disk m = s.disk m
  otherHandle : ∀ m, m ≠ n → t.paged m = s.paged m
  plan : s.plan = [] → t.plan = []

theorem create_ok {n : FileName} {kind layout : UInt8} {s t : Store}
    (hRun : PagedFile.create n kind layout s = .ok () t) : CreatedFile n kind layout s t := by
  obtain ⟨_, a, hTruncate, hRun⟩ := bind_eq_ok.mp hRun
  obtain ⟨_, b, hFresh, hRun⟩ := bind_eq_ok.mp hRun
  obtain ⟨_, c, hWrite, hRun⟩ := bind_eq_ok.mp hRun
  obtain ⟨_, d, hSync, hRun⟩ := bind_eq_ok.mp hRun
  have hA : a = s.tick.setDisk n .empty := by
    unfold truncate at hTruncate
    split at hTruncate
    · cases hTruncate
    · cases hTruncate
      rfl
  cases hFresh
  obtain rfl := writeVec_ok hWrite
  obtain rfl := sync_ok hSync
  cases hRun
  subst hA
  refine ⟨?_, ?_, fun m hm => ?_, fun m hm => ?_, fun hPlan => ?_⟩
  · simp [File.writes, Store.noteIssued]
  · simp [Store.noteIssued, PagedFile.fresh]
  · simp [Store.noteIssued, Function.update_of_ne hm]
  · simp [Store.noteIssued, Function.update_of_ne hm]
  · simp [Store.noteIssued, hPlan]

/-- A handle with nothing staged and nothing cached is coherent. -/
theorem coherent_of_clear {n : FileName} {s : Store} (hStaged : (s.paged n).stagedWrites = [])
    (hTails : (s.paged n).tailPages = fun _ => none) (hPending : (s.paged n).pendingBytes = 0) :
    Coherent n s where
  apart := by
    rw [hStaged]
    exact .nil
  captured w hw := by
    rw [hStaged] at hw
    cases hw
  tails p page hPage := by
    rw [hTails] at hPage
    cases hPage
  pending := by rw [hStaged, hPending]; rfl

theorem coherent_fresh {n : FileName} {s : Store} (h : s.paged n = .fresh) : Coherent n s :=
  coherent_of_clear (by rw [h]; rfl) (by rw [h]; rfl) (by rw [h]; rfl)

namespace CreatedFile

variable {n : FileName} {kind layout : UInt8} {s t : Store}

theorem file (h : CreatedFile n kind layout s t) :
    t.file n = File.empty.write 0 (FileHeader.encode ⟨kind, layout⟩) := by
  rw [Store.file, h.disk]
  rfl

theorem coherent (h : CreatedFile n kind layout s t) : Coherent n t :=
  coherent_of_clear (by rw [h.handle]; rfl) (by rw [h.handle]; rfl) (by rw [h.handle]; rfl)

theorem logical (h : CreatedFile n kind layout s t) :
    t.logical n = Image.write (fun _ => 0) 0 (FileHeader.encode ⟨kind, layout⟩) := by
  rw [Store.logical, h.handle, h.file]
  simp only [PagedFile.fresh, Store.overlay_nil, File.write]
  rfl

theorem whole (h : CreatedFile n kind layout s t) : (t.file n).Whole := by
  have hLength : (FileHeader.encode ⟨kind, layout⟩).length = PAGE := FileHeader.length_encode _
  rw [h.file]
  constructor
  · rw [File.size_write _ (by rw [hLength]; exact PAGE_pos), hLength]
    rfl
  · rw [File.size_write _ (by rw [hLength]; exact PAGE_pos), hLength]
    decide

theorem headed (h : CreatedFile n kind layout s t) :
    Image.Holds (t.logical n) 0 (FileHeader.encode ⟨kind, layout⟩) := by
  rw [h.logical]
  exact Image.holds_write_same _ _ _

/-- Behind its header page the file is blank. -/
theorem blank (h : CreatedFile n kind layout s t) {i : Nat} (hi : PAGE ≤ i) : t.logical n i = 0 := by
  rw [h.logical, Image.write_apply_ge]
  rw [FileHeader.length_encode, Nat.zero_add]
  exact hi

end CreatedFile

namespace Heap

variable {P : Type} [Placement P]

/-- A file of a new store: a header page if the placement has this file, and nothing else. -/
structure NewFile (P : Type) [Placement P] (n : FileName) (t : Store) : Prop where
  coherent : Coherent n t
  whole : (t.file n).Whole
  headed : HasFile P n → HeaderAt P n (t.logical n)
  present : HasFile P n → (t.disk n).isSome
  blank : ∀ i, PAGE ≤ i → t.logical n i = 0
  staged : (t.paged n).stagedWrites = []

theorem NewFile.congr {n : FileName} {s t : Store} (h : NewFile P n s) (hDisk : t.disk n = s.disk n)
    (hPaged : t.paged n = s.paged n) : NewFile P n t := by
  have hFile : t.file n = s.file n := by rw [Store.file, Store.file, hDisk]
  have hLogical : t.logical n = s.logical n := by rw [Store.logical, Store.logical, hFile, hPaged]
  exact
    { coherent := Refreshed.coherent_congr h.coherent hPaged hDisk
      whole := hFile ▸ h.whole
      headed := hLogical ▸ h.headed
      present := hDisk ▸ h.present
      blank := hLogical ▸ h.blank
      staged := hPaged ▸ h.staged }

theorem NewFile.created {n : FileName} {s t : Store}
    (h : CreatedFile n (fileKind n) (Placement.layout P) s t) : NewFile P n t where
  coherent := h.coherent
  whole := h.whole
  headed _ := h.headed
  present _ := by rw [h.disk]; rfl
  blank _ hi := h.blank hi
  staged := by rw [h.handle]; rfl

theorem NewFile.missing {n : FileName} {t : Store} (hDisk : t.disk n = none)
    (hPaged : t.paged n = .fresh) (hNot : ¬ HasFile P n) : NewFile P n t := by
  have hFile : t.file n = .empty := by rw [Store.file, hDisk]; rfl
  have hLogical : t.logical n = fun _ => 0 := by
    rw [Store.logical, hFile, hPaged]
    rfl
  exact
    { coherent := coherent_fresh hPaged
      whole := by
        rw [hFile]
        exact ⟨rfl, by decide⟩
      headed := fun h => absurd h hNot
      present := fun h => absurd h hNot
      blank := fun i _ => by rw [hLogical]
      staged := by rw [hPaged]; rfl }

/-- The files that creating a store makes, and no others. -/
structure CreatedAll (P : Type) [Placement P] (t : Store) : Prop where
  files : ∀ n, NewFile P n t
  allocated : (t.paged .data).allocatedEnd = PAGE
  size : (t.file .data).size = PAGE
  plan : t.plan = []

theorem createFiles_ok {s t : Store} (h : Blank s) (hRun : createFiles P s = .ok () t) :
    CreatedAll P t := by
  obtain ⟨_, a, hData, hRun⟩ := bind_eq_ok.mp hRun
  obtain ⟨_, b, hIndex, hRegistry⟩ := bind_eq_ok.mp hRun
  have hA := create_ok hData
  have hB := create_ok hIndex
  have hLast : (∀ m, m ≠ .registry → t.disk m = b.disk m ∧ t.paged m = b.paged m) ∧
      NewFile P .registry t ∧ (b.plan = [] → t.plan = []) := by
    cases hWith : Placement.withBucket P with
    | true =>
        rw [hWith] at hRegistry
        have hC := create_ok hRegistry
        exact ⟨fun m hm => ⟨hC.otherDisk m hm, hC.otherHandle m hm⟩, .created hC, hC.plan⟩
    | false =>
        rw [hWith] at hRegistry
        cases hRegistry
        refine ⟨fun _ _ => ⟨rfl, rfl⟩, .missing ?_ ?_ fun hHas => ?_, id⟩
        · rw [hB.otherDisk _ (by decide), hA.otherDisk _ (by decide), h.disk]
        · rw [hB.otherHandle _ (by decide), hA.otherHandle _ (by decide), h.paged]
        · exact absurd ((hHas rfl).symm.trans hWith) (by decide)
  obtain ⟨hSame, hThird, hPlan⟩ := hLast
  have hDataDisk : t.disk .data = a.disk .data :=
    ((hSame .data (by decide)).1).trans (hB.otherDisk _ (by decide))
  have hDataPaged : t.paged .data = a.paged .data :=
    ((hSame .data (by decide)).2).trans (hB.otherHandle _ (by decide))
  refine ⟨fun n => ?_, ?_, ?_, hPlan (hB.plan (hA.plan h.plan))⟩
  · cases n with
    | data => exact (NewFile.created (P := P) hA).congr hDataDisk hDataPaged
    | index =>
        exact (NewFile.created (P := P) hB).congr (hSame .index (by decide)).1
          (hSame .index (by decide)).2
    | registry => exact hThird
  · rw [hDataPaged, hA.handle]
  · have hLength : (FileHeader.encode ⟨'D'.toUInt8, Placement.layout P⟩).length = PAGE :=
      FileHeader.length_encode _
    rw [Store.file, hDataDisk, hA.disk, Option.getD_some,
      File.size_write _ (by rw [hLength]; exact PAGE_pos), hLength]
    rfl

variable [LawfulPlacement P] {config : HeapConfig} {s : Store} {h : Heap P}

/-- A heap that was opened on these files. -/
structure OpenedOn (config : HeapConfig) (s : Store) (h : Heap P) : Prop where
  run : ∃ order report, Heap.open P order config s = .ok (h.placement, report) h.store
  count : h.operationsSinceSync = 0

/-- A heap that was opened without files is sound for the empty ledger. -/
theorem OpenedOn.created (hOpened : OpenedOn config s h) (hBlank : Blank s) (hConfig : LawfulPlacement.Accepts P config) :
    Sound config .empty h.placed := by
  obtain ⟨order, report, hRun⟩ := hOpened.run
  have hAbsent : (s.disk .data).isSome = false := by rw [hBlank.disk]; rfl
  obtain ⟨present, a, hExists, hRun⟩ := bind_eq_ok.mp hRun
  cases hExists
  rw [hAbsent] at hRun
  simp only [Bool.false_eq_true, if_false] at hRun
  obtain ⟨_, b, hCreate, hRun⟩ := bind_eq_ok.mp hRun
  have hNew := createFiles_ok hBlank hCreate
  obtain ⟨restored, hPlacement⟩ : ∃ restored,
      Placement.open order config true b = .ok (h.placement, restored) h.store := by
    rw [openPlacement] at hRun
    cases hOpen : Placement.open (P := P) order config true b with
    | ok out t =>
        rw [hOpen] at hRun
        simp only [EStateM.Result.ok.injEq, Prod.mk.injEq] at hRun
        exact ⟨out.2, by rw [← hRun.1.1, ← hRun.2]⟩
    | error e t =>
        rw [hOpen] at hRun
        cases e with
        | panic message => cases hRun
        | error e => cases e <;> simp at hRun
  have hRows : Rows [] (b.logical .registry) :=
    ⟨fun i hi => by simp at hi, fun i hi => (hNew.files .registry).blank i hi⟩
  have hFiles : NewFiles b :=
    { roomy := ⟨(hNew.files .data).whole, by rw [hNew.allocated, hNew.size]⟩
      allocated := hNew.allocated
      coherent := (hNew.files .registry).coherent
      tail := Or.inl (hNew.files .registry).staged
      registry := hRows }
  obtain ⟨hReserved, hKeeps⟩ := LawfulPlacement.create hConfig hFiles hPlacement
  have hCoherent : ∀ n, Coherent n h.store := fun n => by
    cases n with
    | data => exact hReserved.coherent_data (hNew.files .data).coherent
    | index => exact hReserved.coherent_index (hNew.files .index).coherent
    | registry => exact hReserved.coherent (hNew.files .registry).coherent
  have hWhole : ∀ n, (h.store.file n).Whole := fun n => by
    by_cases hn : n = .data
    · subst hn
      exact (LawfulPlacement.roomy hKeeps).whole
    · rw [hReserved.file hn]
      exact (hNew.files n).whole
  have hPresent : ∀ n, HasFile P n → (h.store.disk n).isSome := fun n hn => by
    by_cases hIs : n = .data
    · subst hIs
      exact hReserved.present ((hNew.files .data).present hn)
    · rw [hReserved.disk n hIs]
      exact (hNew.files n).present hn
  exact
    { plan := hReserved.plan hNew.plan
      coherent := hCoherent
      whole := hWhole
      present := hPresent
      header := fun n hn => Sound.header_reserved ((hNew.files n).headed hn) hReserved
      data :=
        { formed := fun r hr => by cases hr
          holds := fun r hr => by cases hr
          apart := .nil
          base := fun r hr => by cases hr
          blank := fun i hi _ => by
            change h.store.logical .data i = 0
            rw [hReserved.logical_data]
            exact (hNew.files .data).blank i hi }
      index := SlotsAt.blank.congr fun i hi => by
        change h.store.logical .index i = 0
        rw [hReserved.logical_index]
        exact (hNew.files .index).blank i hi
      faithful := .empty _ _
      placed := hKeeps }

end Heap

end HeapStore
