import HeapStore.Heap.OtherLayout
import HeapStore.Recovery.PlainScan

/-! When a rebuild panics: its walk comes to a record end beyond 64 bits, or an
intact record has a number whose slot lies beyond them. On every other data file
it ends, and what it fails with is an error of a request or a header. -/
namespace HeapStore

open Effect PagedFile IndexFile

/-! What the scan of a rebuild gathers. -/

namespace WalkRange

variable {σ : Type} {r : WalkRange} {image : Nat → UInt8} {visitor : Visitor σ} {w next out : Scanned σ}

/-- A pass that goes on has shown a record to the visitor or only moved. -/
theorem scanPass_onward (h : r.scanPass image visitor w = (next, true)) :
    (∃ header, r.headerAt image w.position = some header ∧
      next.position = w.position + headerLen r.withBucket + header.len ∧
      next.seen = (visitor w.seen w.position header (r.payloadValid image w.position header)).1) ∨
    (r.headerAt image w.position = none ∧ next.seen = w.seen ∧ w.position < next.position) := by
  have hForward := (scanPass_advances h).1
  rw [scanPass] at h
  split at h
  · cases h
  cases hHeader : r.headerAt image w.position with
  | some header =>
      simp only [hHeader] at h
      left
      exact ⟨header, rfl, (congrArg (fun x => x.1.position) h).symm, (congrArg (fun x => x.1.seen) h).symm⟩
  | none =>
      simp only [hHeader, scanSkip] at h
      split at h
      · cases hMagic : nextMagic image (w.position + 1) r.endOffset with
        | some off =>
            simp only [hMagic] at h
            exact Or.inr ⟨rfl, (congrArg (fun x => x.1.seen) h).symm, hForward⟩
        | none =>
            simp only [hMagic] at h
            cases h
      · cases h

/-- A visitor that never stops is not in the last pass. -/
theorem scanPass_last (hOn : ∀ seen off header valid, (visitor seen off header valid).2 = true)
    (h : r.scanPass image visitor w = (out, false)) : out = w ∧
      (r.headerAt image w.position = none ∨ r.endOffset < w.position + headerLen r.withBucket) := by
  rw [scanPass] at h
  split at h
  · rename_i hEnd
    cases h
    exact ⟨rfl, Or.inr hEnd⟩
  cases hHeader : r.headerAt image w.position with
  | some header =>
      simp only [hHeader] at h
      have hGoes := congrArg Prod.snd h
      cases (hOn _ _ _ _).symm.trans hGoes
  | none =>
      simp only [hHeader, scanSkip] at h
      refine ⟨?_, Or.inl rfl⟩
      split at h
      · cases hMagic : nextMagic image (w.position + 1) r.endOffset with
        | some off =>
            simp only [hMagic] at h
            cases h
        | none =>
            simp only [hMagic] at h
            cases h
            rfl
      · cases h
        rfl

end WalkRange

/-- The range that a rebuild walks. -/
def rebuildRange (layout : UInt8) (integrity : Bool) (f : File) : WalkRange :=
  ⟨layout == LAYOUT_BUCKET, integrity, f.size, true⟩

/-- The states that the scan of a rebuild comes to. -/
def Surveys (layout : UInt8) (integrity : Bool) (f : File) (w : Scanned RebuildState) : Prop :=
  (rebuildRange layout integrity f).Reaches f.bytes (rebuildVisitor (headerLen (layout == LAYOUT_BUCKET)))
    (WalkRange.scanStart PAGE ⟨∅, []⟩) w

/-- A header that the scan of a rebuild comes to, with a payload that passes the check. -/
def Finds (layout : UInt8) (integrity : Bool) (f : File) (header : RecordHeader) : Prop :=
  ∃ w, Surveys layout integrity f w ∧
    (rebuildRange layout integrity f).headerAt f.bytes w.position = some header ∧
    (rebuildRange layout integrity f).payloadValid f.bytes w.position header = true

/-- The end of a slot can be computed, and rounded up to a page. -/
def SlotFits (id : Nat) : Prop := Slot.fileOffset id + SLOT_SIZE + PAGE < 2 ^ 64

section Survey

variable {layout : UInt8} {integrity : Bool} {f : File} {w next out : Scanned RebuildState}
  {header : RecordHeader} {id : Nat} {table : NewestTable} {found : FoundRecord}

theorem length_keys_keepNewest_le :
    (keepNewest table found).keys.length ≤ table.keys.length + 1 := by
  have hInsert : (table.insert found.id found).keys.length ≤ table.keys.length + 1 := by
    rw [AList.keys_insert, List.length_cons]
    exact Nat.succ_le_succ List.length_erase_le
  unfold keepNewest
  split
  · exact hInsert
  · split
    · exact hInsert
    · exact Nat.le_succ _

/-- What the scan has gathered at a position: the numbers of found headers, and no
more runs and numbers than there are record headers behind the position. -/
structure Gathered (layout : UInt8) (integrity : Bool) (f : File) (w : Scanned RebuildState) : Prop where
  named : ∀ id e, w.seen.latestRecords.lookup id = some e →
    e.id = id ∧ ∃ header, Finds layout integrity f header ∧ header.id = id
  runs : PAGE + headerLen (layout == LAYOUT_BUCKET) * w.seen.bucketRuns.length ≤ w.position
  numbers : PAGE + headerLen (layout == LAYOUT_BUCKET) * w.seen.latestRecords.keys.length ≤ w.position

theorem Gathered.kept (h : Gathered layout integrity f w) (hSeen : next.seen = w.seen)
    (hLess : w.position ≤ next.position) : Gathered layout integrity f next where
  named := by
    rw [hSeen]
    exact h.named
  runs := by
    rw [hSeen]
    exact h.runs.trans hLess
  numbers := by
    rw [hSeen]
    exact h.numbers.trans hLess

theorem Surveys.gathered (h : Surveys layout integrity f w) : Gathered layout integrity f w := by
  induction h with
  | refl => exact ⟨nofun, Nat.le_refl _, Nat.le_refl _⟩
  | @tail w next hReach hStep ih =>
      rcases WalkRange.scanPass_onward hStep with ⟨header, hHeader, hPosition, hSeen⟩ | ⟨-, hSeen, hLess⟩
      · have hSize : (rebuildRange layout integrity f).withBucket = (layout == LAYOUT_BUCKET) := rfl
        rw [hSize] at hPosition
        cases hValid : (rebuildRange layout integrity f).payloadValid f.bytes w.position header with
        | false =>
            rw [hValid] at hSeen
            exact ih.kept hSeen (by omega)
        | true =>
            rw [hValid] at hSeen
            have hFinds : Finds layout integrity f header := ⟨w, hReach, hHeader, hValid⟩
            constructor
            case named =>
              intro id e hEntry
              rw [hSeen] at hEntry
              have hEntry : (keepNewest w.seen.latestRecords (.ofHeader _ w.position header)).lookup id =
                some e := hEntry
              rw [lookup_keepNewest] at hEntry
              split at hEntry
              · rename_i hTaken
                cases hEntry
                exact ⟨hTaken.1, header, hFinds, hTaken.1⟩
              · exact ih.named id e hEntry
            case runs =>
              rw [hSeen, hPosition]
              have hRuns := ih.runs
              have hLength := length_addToRuns_le w.seen.bucketRuns header.bucket w.position
                (w.position + (headerLen (layout == LAYOUT_BUCKET) + header.len))
              have hMul := Nat.mul_le_mul_left (headerLen (layout == LAYOUT_BUCKET)) hLength
              rw [Nat.mul_succ] at hMul
              change _ + _ * (addToRuns ..).length ≤ _
              omega
            case numbers =>
              rw [hSeen, hPosition]
              have hNumbers := ih.numbers
              have hMul := Nat.mul_le_mul_left (headerLen (layout == LAYOUT_BUCKET))
                (@length_keys_keepNewest_le w.seen.latestRecords
                  (.ofHeader (headerLen (layout == LAYOUT_BUCKET)) w.position header))
              rw [Nat.mul_succ] at hMul
              change _ + _ * (keepNewest ..).keys.length ≤ _
              omega
      · exact ih.kept hSeen hLess.le

/-- The state in which the scan of a rebuild ends. -/
def surveyedFile (layout : UInt8) (integrity : Bool) (f : File) : Scanned RebuildState :=
  (rebuildRange layout integrity f).scanFrom f.bytes PAGE
    (rebuildVisitor (headerLen (layout == LAYOUT_BUCKET))) ⟨∅, []⟩

theorem surveyedFile_ends (layout : UInt8) (integrity : Bool) (f : File) :
    (rebuildRange layout integrity f).EndsIn f.bytes (rebuildVisitor (headerLen (layout == LAYOUT_BUCKET)))
      (WalkRange.scanStart PAGE ⟨∅, []⟩) (surveyedFile layout integrity f) :=
  WalkRange.endsIn_scanFrom ..

theorem surveyedFile_surveys (layout : UInt8) (integrity : Bool) (f : File) :
    Surveys layout integrity f (surveyedFile layout integrity f) := by
  obtain ⟨last, hReach, hLast⟩ := surveyedFile_ends layout integrity f
  rw [(WalkRange.scanPass_last (rebuildVisitor_onward _) hLast).1]
  exact hReach

/-- The number of rows of the registry that a rebuild writes: one for each run of
intact records, and one for each region that an intact record is in. -/
def rowCount (order : HashOrder) (layout : UInt8) (integrity : Bool) (config : HeapConfig) (f : File) : Nat :=
  (surveyedFile layout integrity f).seen.bucketRuns.length +
    (regionRows order config.regionSlots (surveyedFile layout integrity f).seen.latestRecords).length

/-- No sum that a rebuild of this data file makes leaves 64 bits, and no number
is divided by a region size of zero. -/
structure Rebuildable (order : HashOrder) (layout : UInt8) (integrity : Bool) (config : HeapConfig)
    (f : File) : Prop where
  ends : ∀ w, Surveys layout integrity f w →
    (rebuildRange layout integrity f).overflowAt f.bytes w.position = false
  slots : ∀ header, Finds layout integrity f header → SlotFits header.id
  regions : layout = LAYOUT_BUCKET → ∀ header, Finds layout integrity f header → config.regionSlots ≠ 0
  rows : layout = LAYOUT_BUCKET →
    PAGE + REGISTRY_ROW_SIZE * rowCount order layout integrity config f + PAGE < 2 ^ 64

/-- No position of the scan lies behind the file. -/
theorem Surveys.inside (h : Surveys layout integrity f w) : w.position ≤ max PAGE f.size := by
  induction h with
  | refl => exact Nat.le_max_left _ _
  | tail _ hStep _ => exact (WalkRange.scanPass_advances hStep).2.trans (Nat.le_max_right _ _)

theorem length_regionRows_le (order : HashOrder) (regionSlots : Nat) (table : NewestTable) :
    (regionRows order regionSlots table).length ≤ table.keys.length := by
  rw [regionRows, List.length_mergeSort, List.length_map]
  exact length_regionBuckets_le order regionSlots table

/-- The rows of a rebuilt registry fit for every data file of at most 2^62 bytes. -/
theorem rowCount_fits (order : HashOrder) (integrity : Bool) (config : HeapConfig)
    (hSize : f.size ≤ 2 ^ 62) :
    PAGE + REGISTRY_ROW_SIZE * rowCount order LAYOUT_BUCKET integrity config f + PAGE < 2 ^ 64 := by
  have hEnd := surveyedFile_surveys LAYOUT_BUCKET integrity f
  have hRuns := hEnd.gathered.runs
  have hNumbers := hEnd.gathered.numbers
  have hInside := hEnd.inside
  have hRegions := length_regionRows_le order config.regionSlots
    (surveyedFile LAYOUT_BUCKET integrity f).seen.latestRecords
  have hHeader : headerLen (LAYOUT_BUCKET == LAYOUT_BUCKET) = 38 := rfl
  rw [hHeader] at hRuns hNumbers
  rw [rowCount, PAGE, REGISTRY_ROW_SIZE] at *
  omega

end Survey

/-! How the parts of a rebuild fail. -/

section Parts

variable {s t : Store} {e : Failure} {id : Nat} {found : List FoundRecord}

theorem stageSlot_failsOnly {slot : Option Slot} (hFits : SlotFits id) :
    FailsOnly IoFailure (stageSlot id slot) s := by
  intro e t hRun
  have hLength : [slotBytes slot].flatten.length = SLOT_SIZE := by
    cases slot <;> simp [slotBytes, SLOT_SIZE]
  have hOffset : Slot.fileOffset id < 2 ^ 64 := by
    rw [SlotFits] at hFits
    omega
  rw [stageSlot, bind_of_ok (slotOffset_run hOffset)] at hRun
  rcases stage_error hRun with hIo | ⟨-, hOver⟩
  · exact hIo
  · rw [hLength] at hOver
    exact absurd hFits (Nat.not_lt.mpr hOver)

theorem flush_failsOnly (n : FileName) : FailsOnly IoFailure (PagedFile.flush n) s :=
  fun _ _ => flush_error

theorem flushLarge_failsOnly : FailsOnly IoFailure flushLarge s := by
  intro e t hRun
  rw [flushLarge, bind_of_ok (getPaged_apply .index s)] at hRun
  split at hRun
  · exact flush_error hRun
  · cases hRun

theorem stageLatest_failsOnly (hFits : ∀ f ∈ found, SlotFits f.id) :
    FailsOnly IoFailure (stageLatest found) s := by
  induction found generalizing s with
  | nil => exact FailsOnly.pure _ _ _
  | cons f rest ih =>
      refine FailsOnly.bind (stageSlot_failsOnly (hFits f (List.mem_cons_self ..))) fun _ t _ => ?_
      refine FailsOnly.bind flushLarge_failsOnly fun _ u _ => ?_
      exact ih fun g hg => hFits g (List.mem_cons_of_mem _ hg)

theorem create_failsOnly (n : FileName) (kind layout : UInt8) :
    FailsOnly IoFailure (PagedFile.create n kind layout) s := by
  refine FailsOnly.bind (fun e t hRun => ?_) fun _ _ _ => ?_
  · unfold truncate at hRun
    split at hRun
    · cases hRun
      rfl
    · cases hRun
  refine FailsOnly.bind (fun e t hRun => by cases hRun) fun _ _ _ => ?_
  refine FailsOnly.bind (fun e t => writeVec_error) fun _ _ _ => ?_
  exact FailsOnly.bind (fun e t => sync_error) fun _ _ _ e t hRun => by cases hRun

theorem stageRows_failsOnly {rows : List RegistryRow} {registryEnd : Nat}
    (hFits : registryEnd + REGISTRY_ROW_SIZE * rows.length + PAGE < 2 ^ 64) :
    FailsOnly IoFailure (stageRows registryEnd rows) s := by
  induction rows generalizing registryEnd s with
  | nil => exact FailsOnly.pure _ _ _
  | cons row rest ih =>
      rw [List.length_cons, Nat.mul_succ] at hFits
      refine FailsOnly.bind (fun e t hRun => ?_) fun _ t _ => ih (by omega)
      rcases stage_error hRun with hIo | ⟨-, hOver⟩
      · exact hIo
      · rw [List.flatten_singleton, RegistryRow.length_encode] at hOver
        omega

/-- Where rows were staged up to an end, that end fits. -/
theorem stageRows_ok {rows : List RegistryRow} {registryEnd stop : Nat}
    (hRun : stageRows registryEnd rows s = .ok stop t) :
    stop = registryEnd + REGISTRY_ROW_SIZE * rows.length ∧
      (registryEnd + PAGE < 2 ^ 64 → stop + PAGE < 2 ^ 64) := by
  induction rows generalizing registryEnd s with
  | nil =>
      cases hRun
      exact ⟨rfl, id⟩
  | cons row rest ih =>
      obtain ⟨_, u, hStage, hRest⟩ := bind_eq_ok.mp hRun
      obtain ⟨hStop, hFits⟩ := ih hRest
      have hHere := stage_fits hStage
      rw [List.flatten_singleton, RegistryRow.length_encode] at hHere
      rw [List.length_cons, Nat.mul_succ]
      exact ⟨by omega, fun _ => hFits hHere⟩

/-- The rows of a rebuilt registry have 64-bit positions. -/
theorem rebuildRegistry_failsOnly {order : HashOrder} {layout : UInt8} {config : HeapConfig}
    {st : RebuildState} (hRegion : st.latestRecords.keys ≠ [] → config.regionSlots ≠ 0)
    (hFits : PAGE + REGISTRY_ROW_SIZE * (st.bucketRuns.length +
      (regionRows order config.regionSlots st.latestRecords).length) + PAGE < 2 ^ 64) :
    FailsOnly IoFailure (rebuildRegistry order layout config st) s := by
  rw [Nat.mul_add] at hFits
  refine FailsOnly.bind (create_failsOnly _ _ _) fun _ _ _ => ?_
  refine FailsOnly.bind (stageRows_failsOnly ?_) fun stop _ hRun => ?_
  · rw [List.length_map]
    omega
  have hStop := (stageRows_ok hRun).1
  rw [List.length_map] at hStop
  have hDivides : ¬ (config.regionSlots = 0 ∧ st.latestRecords.keys ≠ []) := fun h => hRegion h.2 h.1
  simp only [hDivides, if_false]
  refine FailsOnly.bind (stageRows_failsOnly ?_) fun _ _ _ => ?_
  · omega
  exact FailsOnly.bind (flush_failsOnly _) fun _ _ _ e t => sync_error

end Parts

section Rebuild

variable {order : HashOrder} {layout : UInt8} {integrity : Bool} {config : HeapConfig} {s t : Store}
  {stats : WalkStats}

/-- A failure that the caller gets as an error value. -/
def Returned (e : Failure) : Prop := ∃ error, e = .error error

theorem failsOnly_returned {α : Type} {x : StoreM α} (h : FailsOnly IoFailure x s) :
    FailsOnly Returned x s := fun e t hRun => ⟨.io, h e t hRun⟩

/-- An opened data file has the same bytes, and nothing is staged for it. -/
theorem open_settled (hRun : PagedFile.open .data 'D'.toUInt8 layout s = .ok () t) :
    Settled False (s.file .data).bytes t ∧ t.file .data = s.file .data := by
  obtain ⟨_, u, hDirect, hRun⟩ := bind_eq_ok.mp hRun
  obtain ⟨_, v, hFresh, hRun⟩ := bind_eq_ok.mp hRun
  obtain ⟨page, w, hRead, hRun⟩ := bind_eq_ok.mp hRun
  unfold openDirect at hDirect
  split at hDirect
  case isFalse => cases hDirect
  cases hDirect
  cases hFresh
  obtain ⟨-, rfl⟩ := readOne_ok hRead
  have hSame : (s.setPaged .data PagedFile.fresh).tick = t := by
    cases hDecode : FileHeader.decode page with
    | none =>
        simp only [hDecode] at hRun
        cases hRun
    | some header =>
        simp only [hDecode] at hRun
        split at hRun
        · cases hRun
          rfl
        · cases hRun
  subst hSame
  exact ⟨⟨by simp [Store.tick, PagedFile.fresh], rfl, nofun⟩, rfl⟩

theorem open_failsOnly (n : FileName) (kind : UInt8) :
    FailsOnly Returned (PagedFile.open n kind layout) s := by
  intro e t hRun
  have hEnds := PagedFile.open_ends n kind layout s
  rw [hRun] at hEnds
  cases hEnds with
  | refused error => exact ⟨error, rfl⟩

/-- The walk of a rebuild returns what the scan gathers, however its requests end. -/
theorem walk_rebuild_meets {f : File} (hSettled : Settled False f.bytes s) (hSize : pageUp f.size < 2 ^ 63) :
    Meets (fun e => IoFailure e ∨ ∃ w, Surveys layout integrity f w ∧
        (rebuildRange layout integrity f).overflowAt f.bytes w.position = true)
      (fun out _ => out.2 = (surveyedFile layout integrity f).seen)
      (walk (rebuildRange layout integrity f) PAGE
        (rebuildVisitor (headerLen (layout == LAYOUT_BUCKET))) ⟨∅, []⟩) s := by
  have hEnd : Readable False (rebuildRange layout integrity f).endOffset := readable_of_pageUp hSize
  have hWalk : Meets _ _ (walk (rebuildRange layout integrity f) PAGE
    (rebuildVisitor (headerLen (layout == LAYOUT_BUCKET))) ⟨∅, []⟩) s :=
    WalkRange.walk_reaches_meets hSettled hEnd
  refine hWalk.mono ?_ ?_
  · rintro e (hIo | ⟨last, hReach, hOver⟩)
    · exact Or.inl hIo.1
    · exact Or.inr ⟨last, hReach, hOver⟩
  · rintro ⟨stats, st⟩ _ hOut
    exact (Prod.mk.inj hOut).2

/-- A rebuild of such a data file does not panic, whichever requests fail. -/
theorem Rebuildable.failsOnly (h : Rebuildable order layout integrity config (s.file .data))
    (hSize : pageUp (s.file .data).size < 2 ^ 63) :
    FailsOnly Returned (rebuild order layout integrity config) s := by
  have hGathered := (surveyedFile_surveys layout integrity (s.file .data)).gathered
  refine FailsOnly.bind (open_failsOnly _ _) fun _ t hOpen => ?_
  obtain ⟨hSettled, hFile⟩ := open_settled hOpen
  refine FailsOnly.bind (fun e u hRun => by cases hRun) fun size u hRun => ?_
  cases hRun
  rw [hFile]
  have hWalk : Meets _ _ (walk (rebuildRange layout integrity (s.file .data)) PAGE
    (rebuildVisitor (headerLen (layout == LAYOUT_BUCKET))) ⟨∅, []⟩) t := walk_rebuild_meets hSettled hSize
  refine FailsOnly.bind (fun e u hRun => ?_) fun out u hRun => ?_
  · rcases hWalk.failsOnly e u hRun with hIo | ⟨w, hSurveys, hOver⟩
    · exact ⟨.io, hIo⟩
    · rw [h.ends w hSurveys] at hOver
      cases hOver
  have hSeen := hWalk.ok hRun
  obtain ⟨stats, st⟩ := out
  dsimp only at hSeen ⊢
  subst hSeen
  refine FailsOnly.bind (failsOnly_returned (create_failsOnly _ _ _)) fun _ v _ => ?_
  refine FailsOnly.bind (failsOnly_returned (stageLatest_failsOnly fun e he => ?_)) fun _ v _ => ?_
  · obtain ⟨id, hEntry⟩ := mem_latestInOrder.mp he
    obtain ⟨hId, header, hFinds, hHeader⟩ := hGathered.named id e hEntry
    rw [hId, ← hHeader]
    exact h.slots header hFinds
  refine FailsOnly.bind (failsOnly_returned (flush_failsOnly _)) fun _ w _ => ?_
  refine FailsOnly.bind (fun e x hSync => ⟨.io, sync_error hSync⟩) fun _ x _ => ?_
  split
  case isFalse => exact FailsOnly.pure _ _ _
  rename_i hBucket
  have hBucket : layout = LAYOUT_BUCKET := by simpa using hBucket
  refine FailsOnly.bind (failsOnly_returned (rebuildRegistry_failsOnly (fun hKeys => ?_) (h.rows hBucket)))
    fun _ _ _ => FailsOnly.pure _ _ _
  obtain ⟨id, hMem⟩ := List.exists_mem_of_ne_nil _ hKeys
  rw [← AList.mem_keys, ← AList.lookup_isSome, Option.isSome_iff_exists] at hMem
  obtain ⟨e, hEntry⟩ := hMem
  obtain ⟨-, header, hFinds, -⟩ := hGathered.named id e hEntry
  exact h.regions hBucket header hFinds

end Rebuild

/-! One record under any number. -/

end HeapStore
