import HeapStore.Heap.Damage

/-! Opening the files of one layout as the other: it is refused by the header of
the data file, before anything is written. -/
namespace HeapStore

open Effect PagedFile IndexFile

/-- Nothing but handles and the schedule of requests differs. -/
structure Looked (s t : Store) : Prop where
  disk : t.disk = s.disk
  durable : t.durable = s.durable
  issued : t.issued = s.issued
  plan : s.plan = [] → t.plan = []

namespace Looked

variable {s t u : Store}

theorem refl (s : Store) : Looked s s := ⟨rfl, rfl, rfl, id⟩

theorem trans (h : Looked s t) (k : Looked t u) : Looked s u :=
  ⟨k.disk.trans h.disk, k.durable.trans h.durable, k.issued.trans h.issued,
    fun hPlan => k.plan (h.plan hPlan)⟩

theorem setPaged (s : Store) (n : FileName) (pf : PagedFile) : Looked s (s.setPaged n pf) :=
  ⟨rfl, rfl, rfl, id⟩

theorem tick (s : Store) : Looked s s.tick := ⟨rfl, rfl, rfl, fun hPlan => by simp [Store.tick, hPlan]⟩

theorem file (h : Looked s t) (n : FileName) : t.file n = s.file n := by
  rw [Store.file, Store.file, h.disk]

end Looked

/-- How opening a file can end: accepted for its header, or refused for a failed
request or another header. It only looks at the store. -/
inductive OpenEnds (n : FileName) (kind layout : UInt8) (s : Store) :
    EStateM.Result Failure Store Unit → Prop where
  | accepted (t : Store) (looked : Looked s t) (present : (s.disk n).isSome)
      (header : FileHeader.decode (Image.read (s.file n).bytes 0 PAGE) = some ⟨kind, layout⟩) :
      OpenEnds n kind layout s (.ok () t)
  | refused (e : HeapError) (t : Store) (looked : Looked s t)
      (reason : s.plan = [] → (s.disk n).isSome → e = .corrupt "file header" 0) :
      OpenEnds n kind layout s (.error (.error e) t)

theorem PagedFile.open_ends (n : FileName) (kind layout : UInt8) (s : Store) :
    OpenEnds n kind layout s (PagedFile.open n kind layout s) := by
  by_cases hPresent : (s.disk n).isSome
  case neg =>
    have hDirect : openDirect n s = .error (.error .io) s := by rw [openDirect, if_neg hPresent]
    rw [PagedFile.open, bind_of_error hDirect]
    exact .refused _ _ (.refl s) fun _ hSome => absurd hSome hPresent
  have hDirect : openDirect n s = .ok () s := by rw [openDirect, if_pos hPresent]
  rw [PagedFile.open, bind_of_ok hDirect, bind_of_ok (modifyPaged_apply n _ _)]
  have hHandle := Looked.setPaged s n .fresh
  have hTick := hHandle.trans (.tick _)
  cases hRead : readOne n 0 PAGE (s.setPaged n .fresh) with
  | error e t =>
      rcases bind_eq_error.mp hRead with hVec | ⟨_, _, -, hPure⟩
      · obtain ⟨rfl, rfl⟩ := readVec_error hVec
        rw [bind_of_error hRead]
        refine .refused _ _ hTick fun hPlan _ => ?_
        have hRun := readOne_run (n := n) (s := s.setPaged n .fresh) hPlan
          (show 0 + PAGE < 2 ^ 63 by decide)
        rw [hRun] at hRead
        cases hRead
      · cases hPure
  | ok page t =>
      obtain ⟨buffers, u, hVec, hPure⟩ := bind_eq_ok.mp hRead
      obtain ⟨hOut, hTicked⟩ := readVec_ok hVec
      have hPage : page = Image.read (s.file n).bytes 0 PAGE := by
        cases hPure
        rw [hOut]
        rfl
      have hLooked : Looked s t := by
        cases hPure
        exact hTicked ▸ hTick
      rw [bind_of_ok hRead, hPage]
      cases hDecode : FileHeader.decode (Image.read (s.file n).bytes 0 PAGE) with
      | none => exact .refused _ _ hLooked fun _ _ => rfl
      | some header =>
          by_cases hSame : header.kind = kind ∧ header.layout = layout
          · obtain ⟨hKind, hLayout⟩ := hSame
            simp only [hKind, hLayout, and_self, if_true]
            exact .accepted _ hLooked hPresent (by rw [hDecode, ← hKind, ← hLayout])
          · simp only [hSame, if_false]
            exact .refused _ _ hLooked fun _ _ => rfl

namespace Heap

variable {P Q : Type} [Placement P] [Placement Q] {config : HeapConfig} {first h : Heap P}
  {events : List Event} {s t : Store}

/-- Whether metadata is broken is found out by looking. -/
theorem metadataIsBroken_looks (n : FileName) (kind : UInt8) (s : Store) :
    ∃ broken t, metadataIsBroken Q n kind s = .ok broken t ∧ Looked s t := by
  have hExists : fileExists n s = .ok (s.disk n).isSome s := rfl
  rw [metadataIsBroken, bind_of_ok hExists]
  by_cases hPresent : (s.disk n).isSome = true
  case neg =>
    rw [if_neg hPresent]
    exact ⟨true, s, rfl, .refl s⟩
  rw [if_pos hPresent]
  have hEnds := PagedFile.open_ends n kind (Placement.layout Q) s
  cases hRun : PagedFile.open n kind (Placement.layout Q) s with
  | ok _ t =>
      rw [hRun] at hEnds
      cases hEnds with
      | accepted _ looked =>
          rw [bind_of_ok (attempt_of_ok hRun)]
          exact ⟨false, t, rfl, looked⟩
  | error e t =>
      rw [hRun] at hEnds
      cases hEnds with
      | refused e _ looked =>
          rw [bind_of_ok (attempt_of_error hRun)]
          exact ⟨true, t, rfl, looked⟩

theorem needsRebuild_looks (s : Store) : ∃ broken t, needsRebuild Q s = .ok broken t ∧ Looked s t := by
  obtain ⟨index, t, hIndex, hLooked⟩ := metadataIsBroken_looks (Q := Q) .index 'I'.toUInt8 s
  rw [needsRebuild, bind_of_ok hIndex]
  cases index with
  | true => exact ⟨true, t, rfl, hLooked⟩
  | false =>
      by_cases hBucket : Placement.withBucket Q = true
      · obtain ⟨registry, u, hRegistry, hMore⟩ := metadataIsBroken_looks (Q := Q) .registry 'R'.toUInt8 t
        refine ⟨registry, u, ?_, hLooked.trans hMore⟩
        simp only [Bool.false_eq_true, if_false, hBucket, if_true]
        exact hRegistry
      · refine ⟨false, t, ?_, hLooked⟩
        simp only [Bool.false_eq_true, if_false, hBucket]
        rfl

/-- A data file with another header is refused, and nothing is changed, whatever
the other files are and whichever requests fail. -/
theorem open_refused (order : HashOrder) (config : HeapConfig) (hPresent : (s.disk .data).isSome)
    (hOther : FileHeader.decode (Image.read (s.file .data).bytes 0 PAGE) ≠
      some ⟨'D'.toUInt8, Placement.layout Q⟩) :
    ∃ e t, Heap.open Q order config s = .error (.error e) t ∧ Looked s t ∧
      (s.plan = [] → e = .corrupt "file header" 0) := by
  have hExists : fileExists .data s = .ok true s := by rw [fileExists, hPresent]
  obtain ⟨broken, t, hNeeds, hLooked⟩ := needsRebuild_looks (Q := Q) s
  obtain ⟨e, u, hRun, hMore, hReason⟩ : ∃ e u,
      PagedFile.open .data 'D'.toUInt8 (Placement.layout Q) t = .error (.error e) u ∧ Looked t u ∧
        (t.plan = [] → e = .corrupt "file header" 0) := by
    have hEnds := PagedFile.open_ends .data 'D'.toUInt8 (Placement.layout Q) t
    cases hOpen : PagedFile.open .data 'D'.toUInt8 (Placement.layout Q) t with
    | ok _ u =>
        rw [hOpen] at hEnds
        cases hEnds with
        | accepted _ _ _ header =>
            rw [hLooked.file] at header
            exact absurd header hOther
    | error e u =>
        rw [hOpen] at hEnds
        cases hEnds with
        | refused e _ looked reason =>
            exact ⟨e, u, rfl, looked, fun hPlan => reason hPlan (by rw [hLooked.disk]; exact hPresent)⟩
  refine ⟨e, u, ?_, hLooked.trans hMore, fun hPlan => hReason (hLooked.plan hPlan)⟩
  rw [Heap.open, bind_of_ok hExists, if_pos rfl]
  apply bind_of_error
  rw [openExisting, bind_of_ok hNeeds]
  cases broken with
  | true => exact bind_of_error (bind_of_error hRun)
  | false => exact bind_of_error (bind_of_error hRun)

/-- The files of a dropped heap, whatever became of its metadata, cannot be opened
in the other layout, and the attempt changes none of them. -/
theorem other_layout_refused [LawfulPlacement P] [ReopenablePlacement P] {start : Store}
    (hBlank : Blank start) (hConfig : config.Usable) (hOpened : OpenedOn config start first) (hReach : AllInReach first.store)
    (hLife : Lifetime config first events h) (hCount : ∀ id, updateCount events id ≤ 65534)
    (hData : s.disk .data = (close h).disk .data) (hOther : Placement.layout Q ≠ Placement.layout P)
    (order : HashOrder) (config' : HeapConfig) :
    ∃ e t, Heap.open Q order config' s = .error (.error e) t ∧ Looked s t ∧
      (s.plan = [] → e = .corrupt "file header" 0) := by
  obtain ⟨L, hAlive⟩ := hLife.alive hConfig (hOpened.alive hBlank hConfig hReach) hCount
  obtain ⟨u, hClosed, hFlushed, hStaged⟩ := hAlive.sound.dropped hAlive.reach
  have hDisk : s.disk .data = u.disk .data := by rw [hData, hClosed]; rfl
  have hFile : s.file .data = u.file .data := by rw [Store.file, Store.file, hDisk]
  have hHeader : HeaderAt P .data (u.logical .data) := hFlushed.header .data (hasFile_data P)
  rw [Store.logical, hStaged .data (hasFile_data P), Store.overlay_nil, ← hFile] at hHeader
  have hPage := (Image.holds_iff_read _ _ _).mp hHeader
  rw [FileHeader.length_encode] at hPage
  refine open_refused order config' (by rw [hDisk]; exact hFlushed.present .data (hasFile_data P)) ?_
  rw [hPage, FileHeader.decode_encode]
  intro hSame
  exact hOther (congrArg FileHeader.layout (Option.some.inj hSame)).symm

/-- A heap with one record that has lost its index is not opened as a bucket store. -/
theorem other_layout_refused_first :
    ∃ (first h : Heap AppendPlacement) (s t : Store),
      OpenedOn ⟨.none, true, 2 ^ 20, 2 ^ 20, PAGE, 1, 2 ^ 20⟩ .empty first ∧
      Lifetime ⟨.none, true, 2 ^ 20, 2 ^ 20, PAGE, 1, 2 ^ 20⟩ first [.inserted 0 0 [7]] h ∧
      s.disk .data = (close h).disk .data ∧ s.disk .index = none ∧
      Heap.open BucketPlacement ⟨id, fun _ => .refl _⟩ ⟨.none, true, 2 ^ 20, 2 ^ 20, PAGE, 1, 2 ^ 20⟩ s =
        .error (.error (.corrupt "file header" 0)) t ∧ Looked s t := by
  have hBlank : Blank .empty := ⟨fun _ => rfl, fun _ => rfl, rfl⟩
  obtain ⟨first, hOpened, hPlacement, hFirst⟩ := exists_opened
    ⟨.none, true, 2 ^ 20, 2 ^ 20, PAGE, 1, 2 ^ 20⟩ hBlank (by decide)
  obtain ⟨h, M, hInsert, -, hMid⟩ := hFirst.insert 0 [7]
    (by decide) (by rw [hPlacement]; decide) (by rw [hPlacement]; exact addressable_of_lt (by decide))
  rw [hPlacement] at hInsert hMid
  have hLife : Lifetime _ first [.inserted 0 0 [7]] h :=
    Runs.Steps.refl.step ⟨.performed hInsert, hMid.reach⟩
  let s : Store := { close h with disk := Function.update (close h).disk .index none, plan := [] }
  obtain ⟨e, t, hRun, hLooked, hReason⟩ := other_layout_refused (s := s) (Q := BucketPlacement) hBlank
    ⟨by decide, by decide, by decide⟩ hOpened hFirst.reach hLife (fun id => Nat.zero_le _) rfl (by decide)
    ⟨id, fun _ => .refl _⟩ ⟨.none, true, 2 ^ 20, 2 ^ 20, PAGE, 1, 2 ^ 20⟩
  rw [hReason rfl] at hRun
  exact ⟨first, h, s, t, hOpened, hLife, rfl, rfl, hRun, hLooked⟩

end Heap

end HeapStore
