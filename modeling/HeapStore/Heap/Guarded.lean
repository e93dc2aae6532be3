import HeapStore.Heap.Heap
import HeapStore.Storage.Guarded

/-! Recovery, allocation and the calls of a heap keep what their requests and
cache operations keep: one lemma for each function of the source. -/
namespace HeapStore

open Effect PagedFile

namespace Reading

variable {R : Store → Store → Prop} {α σ : Type}

/-! The record walk. -/

/-- Catching an error changes the answer, not the store. -/
theorem attempt (_ : Reading R) {x : StoreM α} (hx : Keeps R x) : Keeps R (attempt x) := by
  intro s
  have hKept := hx s
  unfold final at hKept ⊢
  unfold HeapStore.attempt
  cases hRun : x s with
  | ok a t =>
      rw [hRun] at hKept
      exact hKept
  | error e t =>
      rw [hRun] at hKept
      cases e <;> exact hKept

/-- The bounds checks of the walk touch no store, also where they panic. -/
theorem sliceOf (h : Reading R) (buf : Bytes) (start count : Nat) :
    Keeps R (sliceOf buf start count) := by
  unfold HeapStore.sliceOf
  split
  · exact h.throw _
  · exact h.pure _

theorem sliceFrom (h : Reading R) (buf : Bytes) (start : Nat) : Keeps R (sliceFrom buf start) := by
  unfold HeapStore.sliceFrom
  split
  · exact h.throw _
  · exact h.pure _

/-- Scanned bytes are dropped in memory. -/
theorem discard (h : Reading R) (b : ScanBuffer) (offset keep : Nat) :
    Keeps R (b.discard offset keep) := by
  apply h.bind (h.subU64 _ _)
  intro scanned
  split
  · unfold ScanBuffer.drain
    split
    · exact h.throw _
    · exact h.pure _
  · exact h.pure _

/-- By induction on the fuel; every round is one aligned read. -/
theorem fill (h : Reading R) (endOffset needed fuel available : Nat) (b : ScanBuffer) :
    Keeps R (ScanBuffer.fill endOffset needed fuel available b) := by
  induction fuel generalizing available b with
  | zero => exact h.throw _
  | succ fuel ih =>
      unfold ScanBuffer.fill
      split
      · exact h.pure _
      split
      · exact h.pure _
      apply h.bind (h.readAligned .data _ _)
      rintro ⟨chunk, chunkOffset⟩
      exact h.bind (h.sliceOf _ _ _) fun part => ih _ _

/-- The buffer is filled up to what is needed. -/
theorem ensureAvailable (h : Reading R) (b : ScanBuffer) (endOffset position needed : Nat) :
    Keeps R (b.ensureAvailable endOffset position needed) :=
  h.bind (h.subU64 _ _) fun _ => h.fill _ _ _ _ _

variable (r : WalkRange) (visitor : Visitor σ)

/-- By induction on the fuel; every round reads on and searches the buffer. -/
theorem resync (h : Reading R) (position fuel searchOffset : Nat) (b : ScanBuffer) :
    Keeps R (r.resync position fuel searchOffset b) := by
  induction fuel generalizing searchOffset b with
  | zero => exact h.throw _
  | succ fuel ih =>
      apply h.bind (h.discard _ _ _)
      intro b
      apply h.bind (h.ensureAvailable _ _ _ _)
      rintro ⟨b, enough⟩
      dsimp only
      split
      · apply h.bind (h.subU64 _ _)
        intro searchIndex
        apply h.bind (h.sliceFrom _ _)
        intro rest
        cases findMagic rest with
        | none => exact ih _ _
        | some relativeOffset => exact h.pure _
      · exact h.pure _

/-- The end of a record is summed with one checked addition. -/
theorem fitting (h : Reading R) (position : Nat) (header : Option RecordHeader) :
    Keeps R (r.fitting position header) := by
  cases header with
  | none => exact h.pure _
  | some header => exact h.bind (h.addU64 _ _) fun _ => h.pure _

/-- A visit reads the payload and calls the visitor, which has no store. -/
theorem visit (h : Reading R) (w : WalkState σ) (header : RecordHeader) :
    Keeps R (r.visit visitor w header) := by
  apply h.bind (h.ensureAvailable _ _ _ _)
  rintro ⟨b, enough⟩
  dsimp only
  split
  · exact h.bind (h.subU64 _ _) fun _ => h.bind (h.sliceOf _ _ _) fun _ => h.pure _
  · exact h.pure _

theorem skip (h : Reading R) (w : WalkState σ) : Keeps R (r.skip w) := by
  unfold WalkRange.skip
  split
  · apply h.bind (h.resync r _ _ _ _)
    rintro ⟨found, b⟩
    cases found <;> exact h.pure _
  · exact h.pure _

/-- A pass reads a header and then visits or skips. -/
theorem pass (h : Reading R) (w : WalkState σ) : Keeps R (r.pass visitor w) := by
  apply h.bind (h.discard _ _ _)
  intro b
  split
  · exact h.pure _
  apply h.bind (h.ensureAvailable _ _ _ _)
  rintro ⟨b, enough⟩
  dsimp only
  split
  · apply h.bind (h.subU64 _ _)
    intro bufferOffset
    apply h.bind (h.sliceFrom _ _)
    intro rest
    apply h.bind (h.fitting r _ _)
    intro header
    cases header with
    | none => exact h.skip r _
    | some header => exact h.visit r visitor _ _
  · exact h.pure _

/-- By induction on the fuel; the loop is a pass and the rest of the loop. -/
theorem loop (h : Reading R) (fuel : Nat) (w : WalkState σ) : Keeps R (r.loop visitor fuel w) := by
  induction fuel generalizing w with
  | zero => exact h.throw _
  | succ fuel ih =>
      apply h.bind (h.pass r visitor w)
      rintro ⟨next, continueWalk⟩
      cases continueWalk with
      | false => exact h.pure _
      | true => exact ih next

/-- The walk is a flush of the data file and the loop. -/
theorem walk (h : Reading R) (startOffset : Nat) (seen : σ) :
    Keeps R (walk r startOffset visitor seen) :=
  h.bind (h.flush .data) fun _ => h.bind (h.loop r visitor _ _) fun _ => h.pure _

/-- The older record is read where there is one, and an error is taken for an answer. -/
theorem supersedes (h : Reading R) (d : DataFile) (f : FoundRecord) (state : SlotState) :
    Keeps R (supersedes d f state) := by
  cases state with
  | empty => exact h.pure _
  | deleted slot => exact h.pure _
  | live slot =>
      unfold HeapStore.supersedes
      dsimp only
      split
      · exact h.pure _
      apply h.bind (h.attempt (h.readHeader d _ _))
      intro existing
      cases existing <;> exact h.pure _

end Reading

/-- The index is flushed and synced if anything was staged for it. -/
theorem Observing.publishRestored {R : Store → Store → Prop} (h : Observing R) (restored : Nat) : Keeps R (publishRestored restored) := by
  unfold HeapStore.publishRestored
  split
  · exact h.bind (h.flush .index) fun _ => h.sync .index
  · exact h.pure _

namespace Restoring

variable {R : Store → Store → Prop}

/-! Rebuilding. -/

/-- By induction on the records found; a full table is flushed on the way. -/
theorem stageLatest (h : Restoring R) (found : List FoundRecord) : Keeps R (stageLatest found) := by
  induction found with
  | nil => exact h.pure _
  | cons f rest ih =>
      apply h.bind (h.stageSlot _ _)
      intro _
      apply h.bind
      · apply h.bind (h.getPaged .index)
        intro pf
        split
        · exact h.flush .index
        · exact h.pure _
      · exact fun _ => ih

/-- By induction on the registry rows. -/
theorem stageRows (h : Restoring R) (registryEnd : Nat) (rows : List RegistryRow) :
    Keeps R (stageRows registryEnd rows) := by
  induction rows generalizing registryEnd with
  | nil => exact h.pure _
  | cons row rest ih => exact h.bind (h.stageMeta .registry (by decide) _ _) fun _ => ih _

/-- The registry is created anew and gets its rows. -/
theorem rebuildRegistry (h : Restoring R) (order : HashOrder) (layout : UInt8) (config : HeapConfig)
    (st : RebuildState) : Keeps R (rebuildRegistry order layout config st) := by
  apply h.bind (h.createMeta .registry (by decide) _ _)
  intro _
  apply h.bind (h.stageRows _ _)
  intro registryEnd
  split
  · exact h.throw _
  · exact h.bind (h.stageRows _ _) fun _ => h.bind (h.flush .registry) fun _ => h.sync .registry

/-- A rebuild only reads the data file; it creates and stages metadata. -/
theorem rebuild (h : Restoring R) (order : HashOrder) (layout : UInt8) (integrity : Bool)
    (config : HeapConfig) : Keeps R (rebuild order layout integrity config) := by
  apply h.bind (h.open .data _ _)
  intro _
  apply h.bind (h.size .data)
  intro dataSize
  apply h.bind (h.walk _ _ _ _)
  rintro ⟨stats, st⟩
  apply h.bind (h.createMeta .index (by decide) _ _)
  intro _
  apply h.bind (h.stageLatest _)
  intro _
  apply h.bind (h.flush .index)
  intro _
  apply h.bind (h.sync .index)
  intro _
  split
  · exact h.bind (h.rebuildRegistry _ _ _ _) fun _ => h.pure _
  · exact h.pure _

end Restoring

/-- The stores of two placed states are related. -/
def Placed.Over {P : Type} (R : Store → Store → Prop) (a b : Placed P) : Prop := R a.store b.store

/-- A placement whose calls keep what their requests and cache operations keep. -/
class GuardedPlacement (P : Type) [Placement P] : Prop where
  create {R : Store → Store → Prop} (h : Guarded R) (order : HashOrder) (config : HeapConfig) :
    Keeps R (Placement.open (P := P) order config true)
  reopen {R : Store → Store → Prop} (h : Restoring R) (order : HashOrder) (config : HeapConfig) :
    Keeps R (Placement.open (P := P) order config false)
  alloc {R : Store → Store → Prop} (h : Guarded R) (config : HeapConfig) (bucket totalLen : Nat) :
    Keeps (Placed.Over R) (Placement.alloc config bucket totalLen : PlaceM P (Nat × Nat))
  allocUpdate {R : Store → Store → Prop} (h : Guarded R) (config : HeapConfig) (bucket totalLen : Nat) :
    Keeps (Placed.Over R) (Placement.allocUpdate config bucket totalLen : PlaceM P Nat)

namespace Guarded

variable {R : Store → Store → Prop} {P α β : Type}

/-! Programs over a placement. -/

/-- A call of the allocator that leaves the store as it is keeps every such relation. -/
theorem placedSame (h : Guarded R) {x : PlaceM P α} (hSame : ∀ s, (final x s).store = s.store) :
    Keeps (Placed.Over R) x := by
  intro s
  rw [Placed.Over, hSame s]
  exact h.refl _

theorem placedPure (h : Guarded R) (a : α) : Keeps (Placed.Over R) (pure a : PlaceM P α) :=
  h.placedSame fun _ => rfl

theorem placedThrow (h : Guarded R) (e : Failure) : Keeps (Placed.Over R) (throw e : PlaceM P α) :=
  h.placedSame fun _ => rfl

theorem placedBind (h : Guarded R) {x : PlaceM P α} {f : α → PlaceM P β}
    (hx : Keeps (Placed.Over R) x) (hf : ∀ a, Keeps (Placed.Over R) (f a)) :
    Keeps (Placed.Over R) (x >>= f) := Keeps.bind (R := Placed.Over R) h.trans hx hf

/-- Storage calls are embedded with the allocator untouched. -/
theorem placedOnStore {x : StoreM α} (hx : Keeps R x) :
    Keeps (Placed.Over R) (Placed.onStore x : PlaceM P α) := hx.zoom fun _ _ hKept => hKept

theorem placedSubU64 (h : Guarded R) (a b : Nat) :
    Keeps (Placed.Over R) (subU64 a b : PlaceM P Nat) := by
  unfold HeapStore.subU64
  split
  · exact h.placedThrow _
  · exact h.placedPure _

theorem placedAddU64 (h : Guarded R) (a b : Nat) :
    Keeps (Placed.Over R) (addU64 a b : PlaceM P Nat) := by
  unfold HeapStore.addU64
  split
  · exact h.placedThrow _
  · exact h.placedPure _

theorem getPlacement (h : Guarded R) : Keeps (Placed.Over R) (Placed.getPlacement : PlaceM P P) :=
  h.placedSame fun _ => rfl

theorem modifyPlacement (h : Guarded R) (f : P → P) :
    Keeps (Placed.Over R) (Placed.modifyPlacement f) := h.placedSame fun _ => rfl

end Guarded

namespace AppendPlacement

variable {R : Store → Store → Prop}

/-- By induction on the slots of a chunk. -/
theorem noteSlots_keeps (h : Reading R) (id : Nat) (chunks : List Bytes) (scan : SlotScan) :
    Keeps R (noteSlots id chunks scan) := by
  induction chunks generalizing id scan with
  | nil => exact h.pure _
  | cons chunk rest ih =>
      unfold noteSlots
      cases Slot.state chunk with
      | empty => exact ih _ _
      | live slot => exact h.bind (h.addU64 _ _) fun _ => ih _ _
      | deleted slot => exact h.bind (h.addU64 _ _) fun _ => ih _ _

/-- By induction on the fuel; every round is one aligned read of the index. -/
theorem scanIndex_keeps (h : Reading R) (indexSize fuel offset : Nat) (scan : SlotScan) :
    Keeps R (scanIndex indexSize fuel offset scan) := by
  induction fuel generalizing offset scan with
  | zero => exact h.pure _
  | succ fuel ih =>
      unfold scanIndex
      split
      · apply h.bind (h.readAligned .index _ _)
        rintro ⟨buffer, bufferOffset⟩
        exact h.bind (noteSlots_keeps h _ _ _) fun _ => ih _ _
      · exact h.pure _

/-- By induction on the records behind the last slot. -/
theorem restoreTail_keeps (h : Restoring R) (found : List FoundRecord) (st : Restore) :
    Keeps R (restoreTail found st) := by
  induction found generalizing st with
  | nil => exact h.pure _
  | cons f rest ih =>
      unfold restoreTail
      split
      · exact h.bind (h.stageSlot _ _) fun _ => ih _
      split
      · exact ih _
      · exact h.pure _

/-- By induction on the numbers that may have a newer record. -/
theorem restoreUpdates_keeps (h : Restoring R) (d : DataFile) (updates : NewestTable) (ids : List Nat)
    (restored : Nat) : Keeps R (restoreUpdates d updates ids restored) := by
  induction ids generalizing restored with
  | nil => exact h.pure _
  | cons id rest ih =>
      unfold restoreUpdates
      cases updates.lookup id with
      | none => exact ih _
      | some f =>
          apply h.bind (h.readSlotState id)
          intro state
          apply h.bind (h.supersedes d f state)
          intro newer
          cases newer with
          | false => exact ih _
          | true => exact h.bind (h.stageSlot _ _) fun _ => ih _

theorem allocUpdate_keeps (h : Guarded R) (config : HeapConfig) (bucket totalLen : Nat) :
    Keeps (Placed.Over R) (allocUpdate config bucket totalLen) := by
  apply h.placedBind h.getPlacement
  intro p
  apply h.placedBind (Guarded.placedOnStore (h.ensureAlloc _ _))
  intro _
  exact h.placedBind (h.modifyPlacement _) fun _ => h.placedPure _

theorem reopen_keeps (h : Restoring R) (order : HashOrder) (config : HeapConfig) :
    Keeps R (AppendPlacement.open order config false) := by
  apply h.bind (h.size .index)
  intro indexSize
  apply h.bind (scanIndex_keeps h.toReading _ _ _ _)
  intro scan
  apply h.bind (h.size .data)
  intro dataEnd
  apply h.bind (h.walk _ _ _ _)
  rintro ⟨stats, tail⟩
  apply h.bind (restoreTail_keeps h _ _)
  intro st
  apply h.bind (restoreUpdates_keeps h _ _ _ _)
  intro restored
  apply h.bind (h.publishRestored _)
  intro _
  apply h.bind (h.size .data)
  intro dataSize
  exact h.bind (h.noteAlloc _) fun _ => h.pure _

instance : GuardedPlacement AppendPlacement where
  create h order config := h.bind (h.ensureAlloc _ _) fun _ => h.pure _
  reopen h order config := reopen_keeps h order config
  alloc h config bucket totalLen := by
    apply h.placedBind (allocUpdate_keeps h config bucket totalLen)
    intro offset
    apply h.placedBind h.getPlacement
    intro p
    exact h.placedBind (h.modifyPlacement _) fun _ => h.placedPure _
  allocUpdate h config bucket totalLen := allocUpdate_keeps h config bucket totalLen

end AppendPlacement

namespace BucketPlacement

variable {R : Store → Store → Prop} {config : HeapConfig}

/-! Opening. -/

/-- A row is replayed in memory. -/
theorem replayRow_keeps (h : Reading R) (p : BucketPlacement) (row : RegistryRow) :
    Keeps R (replayRow p row) := by
  unfold replayRow
  dsimp only
  split
  · exact h.bind (h.addU64 _ _) fun _ => h.pure _
  split
  · exact h.bind (h.addU64 _ _) fun _ => h.pure _
  · exact h.throw _

/-- By induction on the rows; a hole ends the replay. -/
theorem replayRows_keeps (h : Reading R) (chunks : List Bytes) (p : BucketPlacement) :
    Keeps R (replayRows chunks p) := by
  induction chunks generalizing p with
  | nil => exact h.pure _
  | cons chunk rest ih =>
      unfold replayRows
      cases RegistryRow.decode chunk with
      | some row => exact h.bind (replayRow_keeps h _ _) fun p => ih p
      | none =>
          dsimp only
          split
          · exact h.pure _
          · exact h.throw _

/-- The whole registry is read at once. -/
theorem replay_keeps (h : Reading R) (p : BucketPlacement) : Keeps R (replay p) := by
  apply h.bind (h.size .registry)
  intro registrySize
  split
  · apply h.bind (h.readAligned .registry _ _)
    rintro ⟨buffer, bufferOffset⟩
    exact replayRows_keeps h _ _
  · exact h.pure _

/-- By induction on the regions, each with one aligned read of the index. -/
theorem scanRegions_keeps (h : Reading R) (regions : List Extent) (known : KnownSlots) :
    Keeps R (scanRegions regions known) := by
  induction regions generalizing known with
  | nil => exact h.pure _
  | cons region rest ih =>
      apply h.bind (h.slotOffset _)
      intro off
      split
      · exact h.throw _
      apply h.bind (h.readAligned .index _ _)
      rintro ⟨buffer, bufferOffset⟩
      exact h.bind (ih _) fun _ => h.pure _

/-- By induction on the slots of a region. -/
theorem usedBySlots_keeps (h : Reading R) (extent : Extent) (states : List SlotState) (used : Nat) :
    Keeps R (usedBySlots extent states used) := by
  induction states generalizing used with
  | nil => exact h.pure _
  | cons state rest ih =>
      have hSlot (slot : Slot) : Keeps R (usedBySlots extent (.live slot :: rest) used) := by
        unfold usedBySlots
        dsimp only
        split
        · exact h.bind (h.addU64 _ _) fun _ => ih _
        · exact ih _
      cases state with
      | empty => exact ih _
      | live slot => exact hSlot slot
      | deleted slot => exact hSlot slot

theorem restoreFound_keeps (h : Restoring R) (d : DataFile) (known : KnownSlots) (best : NewestTable)
    (ids : List Nat) (restored : Nat) : Keeps R (restoreFound d known best ids restored) := by
  induction ids generalizing restored with
  | nil => exact h.pure _
  | cons id rest ih =>
      unfold restoreFound
      cases best.lookup id with
      | none => exact ih _
      | some f =>
          apply h.bind (h.supersedes d f _)
          intro newer
          cases newer with
          | false => exact ih _
          | true => exact h.bind (h.stageSlot _ _) fun _ => ih _

theorem recoverBucket_keeps (h : Restoring R) (order : HashOrder) (d : DataFile) (state : BucketState)
    (restored : Nat) : Keeps R (recoverBucket order d state restored) := by
  apply h.bind (scanRegions_keeps h.toReading _ _)
  rintro ⟨slots, known⟩
  dsimp only
  split
  · exact h.pure _
  apply h.bind (h.walk _ _ _ _)
  rintro ⟨stats, scan⟩
  apply h.bind (usedBySlots_keeps h.toReading _ _ _)
  intro used
  apply h.bind (restoreFound_keeps h _ _ _ _ _)
  intro restored
  split
  · exact h.throw _
  · exact h.pure _

theorem recoverBuckets_keeps (h : Restoring R) (order : HashOrder) (d : DataFile)
    (states : List BucketState) (restored : Nat) :
    Keeps R (recoverBuckets order d states restored) := by
  induction states generalizing restored with
  | nil => exact h.pure _
  | cons state rest ih =>
      apply h.bind (recoverBucket_keeps h _ _ _ _)
      rintro ⟨state, restored⟩
      exact h.bind (ih _) fun _ => h.pure _

/-! Allocation. -/

theorem pushRow_keeps (h : Guarded R) (row : RegistryRow) : Keeps (Placed.Over R) (pushRow row) := by
  apply h.placedBind h.getPlacement
  intro p
  exact h.placedBind (Guarded.placedOnStore (h.stageMeta .registry (by decide) _ _)) fun _ => h.modifyPlacement _

theorem takeExtent_keeps (h : Guarded R) (need : Nat) :
    Keeps (Placed.Over R) (takeExtent config need) := by
  apply h.placedBind h.getPlacement
  intro p
  split
  · exact h.placedThrow _
  rename_i grant next hSearch
  apply h.placedBind (h.modifyPlacement _)
  intro _
  cases grant with
  | whole => exact h.placedBind (h.placedSubU64 _ _) fun _ => h.placedPure _
  | missing => exact h.placedThrow _
  | grow =>
      apply h.placedBind h.getPlacement
      intro p
      apply h.placedBind (Guarded.placedOnStore (h.ensureAlloc _ _))
      intro _
      exact h.placedBind (h.modifyPlacement _) fun _ => h.placedPure _
  | cut i =>
      apply h.placedBind h.getPlacement
      intro p
      cases lastExtent? p.states i with
      | none => exact h.placedThrow _
      | some victim =>
          apply h.placedBind (h.placedSubU64 _ _)
          intro size
          exact h.placedBind (h.modifyPlacement _) fun _ => h.placedPure _

/-- An extent is taken, and its row is pushed. -/
theorem grantExtent_keeps (h : Guarded R) (i need : Nat) :
    Keeps (Placed.Over R) (grantExtent config i need) := by
  apply h.placedBind (takeExtent_keeps h need)
  intro extent
  apply h.placedBind h.getPlacement
  intro p
  exact h.placedBind (pushRow_keeps h _) fun _ => h.modifyPlacement _

/-- A region is numbered, and its row is pushed. -/
theorem grantRegion_keeps (h : Guarded R) (i : Nat) :
    Keeps (Placed.Over R) (grantRegion config i) := by
  apply h.placedBind h.getPlacement
  intro p
  apply h.placedBind (h.placedAddU64 _ _)
  intro nextRegion
  apply h.placedBind (h.modifyPlacement _)
  intro _
  exact h.placedBind (pushRow_keeps h _) fun _ => h.modifyPlacement _

/-- A new bucket gets both, one after the other. -/
theorem bucketIndex_keeps (h : Guarded R) (bucket need : Nat) :
    Keeps (Placed.Over R) (bucketIndex config bucket need) := by
  apply h.placedBind h.getPlacement
  intro p
  cases p.bucketIndices bucket with
  | some i => exact h.placedPure _
  | none =>
      apply h.placedBind (h.modifyPlacement _)
      intro _
      apply h.placedBind (grantExtent_keeps h _ _)
      intro _
      exact h.placedBind (grantRegion_keeps h _) fun _ => h.placedPure _

theorem checkedExtentSize_keeps (h : Guarded R) (totalLen : Nat) :
    Keeps (Placed.Over R) (checkedExtentSize config totalLen : PlaceM BucketPlacement Nat) := by
  unfold checkedExtentSize pageUpU64
  apply h.placedBind
  · split
    · exact h.placedThrow _
    · exact h.placedPure _
  · exact fun _ => h.placedPure _

/-- The record goes into the last extent or into one that is granted for it. -/
theorem placeBytes_keeps (h : Guarded R) (i totalLen : Nat) :
    Keeps (Placed.Over R) (placeBytes config i totalLen) := by
  apply h.placedBind h.getPlacement
  intro p
  cases lastExtent? p.states i with
  | none => exact h.placedThrow _
  | some extent =>
      apply h.placedBind (h.placedAddU64 _ _)
      intro stop
      split
      · exact h.placedBind (h.modifyPlacement _) fun _ => h.placedPure _
      apply h.placedBind (checkedExtentSize_keeps h _)
      intro need
      apply h.placedBind (grantExtent_keeps h _ _)
      intro _
      apply h.placedBind h.getPlacement
      intro p
      cases lastExtent? p.states i with
      | none => exact h.placedThrow _
      | some extent => exact h.placedBind (h.modifyPlacement _) fun _ => h.placedPure _

/-- The number comes from the last region or from one that is granted for it. -/
theorem nextNumber_keeps (h : Guarded R) (i : Nat) :
    Keeps (Placed.Over R) (nextNumber config i) := by
  apply h.placedBind h.getPlacement
  intro p
  split
  · exact h.placedThrow _
  split
  · exact h.placedBind (h.modifyPlacement _) fun _ => h.placedPure _
  apply h.placedBind (grantRegion_keeps h _)
  intro _
  apply h.placedBind h.getPlacement
  intro p
  split
  · exact h.placedThrow _
  · exact h.placedBind (h.modifyPlacement _) fun _ => h.placedPure _

theorem allocUpdate_keeps (h : Guarded R) (bucket totalLen : Nat) :
    Keeps (Placed.Over R) (allocUpdate config bucket totalLen) := by
  apply h.placedBind h.getPlacement
  intro p
  cases p.bucketIndices bucket with
  | none => exact h.placedThrow _
  | some i => exact placeBytes_keeps h _ _

theorem reopen_keeps (h : Restoring R) (order : HashOrder) :
    Keeps R (BucketPlacement.open order config false) := by
  apply h.bind (replay_keeps h.toReading _)
  intro p
  apply h.bind (h.size .data)
  intro dataSize
  apply h.bind (h.noteAlloc _)
  intro _
  apply h.bind (recoverBuckets_keeps h _ _ _ _)
  rintro ⟨states, restored⟩
  exact h.bind (h.publishRestored _) fun _ => h.pure _

theorem alloc_keeps (h : Guarded R) (bucket totalLen : Nat) :
    Keeps (Placed.Over R) (alloc config bucket totalLen) := by
  unfold alloc
  apply h.placedBind (checkedExtentSize_keeps h _)
  intro need
  apply h.placedBind (bucketIndex_keeps h _ _)
  intro i
  apply h.placedBind (placeBytes_keeps h _ _)
  intro offset
  exact h.placedBind (nextNumber_keeps h _) fun _ => h.placedPure _

instance : GuardedPlacement BucketPlacement where
  create h _ _ := h.bind (h.ensureAlloc _ _) fun _ => h.pure _
  reopen h order _ := reopen_keeps h order
  alloc h _ bucket totalLen := alloc_keeps h bucket totalLen
  allocUpdate h _ bucket totalLen := allocUpdate_keeps h bucket totalLen

end BucketPlacement

namespace Heap

variable {R : Store → Store → Prop} {P α β : Type} {config : HeapConfig}

/-- The stores of two heaps are related. -/
def Over (R : Store → Store → Prop) (a b : Heap P) : Prop := R a.store b.store

/-! Programs over a heap. -/

/-- A call of the heap that leaves the store as it is keeps every such relation. -/
theorem same_keeps (h : Reading R) {x : HeapM P α} (hSame : ∀ s, (final x s).store = s.store) :
    Keeps (Over R) x := by
  intro s
  rw [Over, hSame s]
  exact h.refl _

theorem pure_keeps (h : Reading R) (a : α) : Keeps (Over R) (pure a : HeapM P α) :=
  same_keeps h fun _ => rfl

theorem throw_keeps (h : Reading R) (e : Failure) : Keeps (Over R) (throw e : HeapM P α) :=
  same_keeps h fun _ => rfl

theorem bind_keeps (h : Reading R) {x : HeapM P α} {f : α → HeapM P β} (hx : Keeps (Over R) x)
    (hf : ∀ a, Keeps (Over R) (f a)) : Keeps (Over R) (x >>= f) :=
  Keeps.bind (R := Over R) h.trans hx hf

/-- Calls of the allocator are embedded with the rest of the heap untouched. -/
theorem onPlaced_keeps {x : PlaceM P α} (hx : Keeps (Placed.Over R) x) :
    Keeps (Over R) (onPlaced x) := hx.zoom fun _ _ hKept => hKept

theorem onStore_keeps {x : StoreM α} (hx : Keeps R x) : Keeps (Over R) (onStore x : HeapM P α) :=
  onPlaced_keeps (Guarded.placedOnStore hx)

/-! Reads and commits. -/

/-- A deleted or unused number is an error without a write. -/
theorem liveSlot_keeps (h : Reading R) (id : Nat) :
    Keeps (Over R) (liveSlot id : HeapM P Slot) := by
  apply bind_keeps h (onStore_keeps (h.readSlot id))
  intro slot
  cases slot with
  | none => exact throw_keeps h _
  | some slot => exact pure_keeps h _

/-- By induction on the slots of the batch. -/
theorem batchItems_keeps (h : Reading R) (pairs : List (Nat × Option Slot)) :
    Keeps (Over R) (batchItems pairs : HeapM P (List DataFile.ReadItem)) := by
  induction pairs with
  | nil => exact pure_keeps h _
  | cons pair rest ih =>
      obtain ⟨id, slot⟩ := pair
      cases slot with
      | none => exact throw_keeps h _
      | some slot => exact bind_keeps h ih fun _ => pure_keeps h _

/-- A file with nothing staged is left alone. -/
theorem flushPending_keeps (h : Observing R) (n : FileName) : Keeps R (flushPending n) := by
  apply h.bind (h.getPaged n)
  intro pf
  split
  · exact h.bind (h.flush n) fun _ => h.sync n
  · exact h.pure _

variable [Placement P]

/-- The order of a commit: registry, data, index. -/
theorem commitFiles_keeps (h : Observing R) : Keeps R (commitFiles P) := by
  apply h.bind
  · unfold commitRegistry
    split
    · exact flushPending_keeps h .registry
    · exact h.pure _
  · exact fun _ => h.bind (h.flush .data) fun _ => h.bind (h.sync .data) fun _ => h.flush .index

/-- Whichever policy is set, at most one commit follows a write. -/
theorem afterWrite_keeps (h : Observing R) : Keeps (Over R) (afterWrite config : HeapM P Unit) := by
  have hCommit : Keeps (Over R) (commit : HeapM P Unit) := onStore_keeps (commitFiles_keeps h)
  have hLimit : Keeps (Over R) (do
      let pending ← pendingBytes
      if config.pendingLimit < pending then commit else return () : HeapM P Unit) := by
    apply bind_keeps h.toReading (same_keeps h.toReading fun _ => rfl)
    intro pending
    split
    · exact hCommit
    · exact pure_keeps h.toReading _
  apply bind_keeps h.toReading (same_keeps h.toReading fun _ => rfl)
  intro _
  apply bind_keeps h.toReading (same_keeps h.toReading fun _ => rfl)
  intro g
  dsimp only
  split <;> split
  exacts [hCommit, hLimit, hCommit, hLimit]

/-- A read follows its slot to the record. -/
theorem read_keeps (h : Reading R) (id : Nat) : Keeps (Over R) (read config id : HeapM P Bytes) := by
  apply bind_keeps h (liveSlot_keeps h id)
  intro slot
  exact bind_keeps h (onStore_keeps (h.readRecord _ _ _ _)) fun _ => pure_keeps h _

/-- A batch reads its slots first and then its records. -/
theorem readBatch_keeps (h : Reading R) (ids : List Nat) :
    Keeps (Over R) (readBatch config ids : HeapM P (List Bytes)) := by
  apply bind_keeps h (onStore_keeps (h.readSlots ids))
  intro slots
  exact bind_keeps h (batchItems_keeps h _) fun _ => onStore_keeps (h.readMany _ _)

/-- A flush is a commit after which the index is synced as well. -/
theorem flush_keeps (h : Observing R) : Keeps (Over R) (flush : HeapM P Unit) := by
  apply onStore_keeps
  apply h.bind (commitFiles_keeps (P := P) h)
  intro _
  apply h.bind (h.flush .index)
  intro _
  apply h.bind (h.sync .index)
  intro _
  split
  · exact h.sync .registry
  · exact h.pure _

/-! Mutations. -/

/-- A deletion stages a tombstone in the index only. -/
theorem delete_keeps (h : Restoring R) (id : Nat) :
    Keeps (Over R) (delete config id : HeapM P Unit) := by
  apply bind_keeps h.toReading (liveSlot_keeps h.toReading id)
  intro old
  exact bind_keeps h.toReading (onStore_keeps (h.stageTombstone _ _)) fun _ =>
    afterWrite_keeps h.toObserving

variable [GuardedPlacement P]

/-- An insertion stages its record before its slot. -/
theorem insertInto_keeps (h : Guarded R) (bucket : Nat) (payload : Bytes) :
    Keeps (Over R) (insertInto config bucket payload : HeapM P Nat) := by
  apply bind_keeps h.toReading (onPlaced_keeps (GuardedPlacement.alloc h _ _ _))
  rintro ⟨off, id⟩
  apply bind_keeps h.toReading (onStore_keeps (h.stageRecord _ _ _ _ _ _))
  intro _
  apply bind_keeps h.toReading (onStore_keeps (h.stageSlot _ _))
  intro _
  exact bind_keeps h.toReading (afterWrite_keeps h.toObserving) fun _ => pure_keeps h.toReading _

theorem update_keeps (h : Guarded R) (id : Nat) (payload : Bytes) :
    Keeps (Over R) (update config id payload : HeapM P Unit) := by
  apply bind_keeps h.toReading (liveSlot_keeps h.toReading id)
  intro slot
  apply bind_keeps h.toReading (onStore_keeps (h.readHeader _ _ _))
  intro old
  apply bind_keeps h.toReading (onPlaced_keeps (GuardedPlacement.allocUpdate h _ _ _))
  intro off
  apply bind_keeps h.toReading (onStore_keeps (h.stageRecord _ _ _ _ _ _))
  intro _
  exact bind_keeps h.toReading (onStore_keeps (h.stageSlot _ _)) fun _ =>
    afterWrite_keeps h.toObserving

/-! Opening. -/

omit [GuardedPlacement P] in
/-- The files of the layout are opened, two or three of them. -/
theorem openFiles_keeps (h : Restoring R) : Keeps R (openFiles P) := by
  apply h.bind (h.open .data _ _)
  intro _
  apply h.bind (h.open .index _ _)
  intro _
  split
  · exact h.open .registry _ _
  · exact h.pure _

omit [GuardedPlacement P] in
theorem createFiles_keeps (h : Guarded R) : Keeps R (createFiles P) := by
  apply h.bind (h.create .data _ _)
  intro _
  apply h.bind (h.create .index _ _)
  intro _
  split
  · exact h.create .registry _ _
  · exact h.pure _

omit [GuardedPlacement P] in
/-- A metadata file is looked at by opening it. -/
theorem metadataIsBroken_keeps (h : Restoring R) (n : FileName) (kind : UInt8) :
    Keeps R (metadataIsBroken P n kind) := by
  apply h.bind (h.same fun _ => rfl)
  intro present
  split
  · exact h.bind (h.attempt (h.open n _ _)) fun _ => h.pure _
  · exact h.pure _

omit [GuardedPlacement P] in
theorem needsRebuild_keeps (h : Restoring R) : Keeps R (needsRebuild P) := by
  apply h.bind (metadataIsBroken_keeps h .index _)
  intro indexIsBroken
  split
  · exact h.pure _
  split
  · exact metadataIsBroken_keeps h .registry _
  · exact h.pure _

omit [GuardedPlacement P] in
/-- The handle of the data file outlives the rebuild, which opens one of its own. -/
theorem rebuildUnderData_keeps (h : Restoring R) (order : HashOrder) :
    Keeps R (rebuildUnderData P order config) := by
  have hReopened (stats : WalkStats) : Keeps R (do
      PagedFile.open .index 'I'.toUInt8 (Placement.layout P)
      if Placement.withBucket P then do
        PagedFile.open .registry 'R'.toUInt8 (Placement.layout P)
        return stats
      else return stats) := by
    apply h.bind (h.open .index _ _)
    intro _
    split
    · exact h.bind (h.open .registry _ _) fun _ => h.pure _
    · exact h.pure _
  intro s
  have hRebuild := h.rebuild order (Placement.layout P) config.integrity config s
  have hStart : final (rebuildUnderData P order config) s = final (do
      let stats ← HeapStore.rebuild order (Placement.layout P) config.integrity config
      modifyPaged .data fun _ => s.paged .data
      PagedFile.open .index 'I'.toUInt8 (Placement.layout P)
      if Placement.withBucket P then do
        PagedFile.open .registry 'R'.toUInt8 (Placement.layout P)
        return stats
      else return stats) s := rfl
  rw [hStart]
  cases hRun : HeapStore.rebuild order (Placement.layout P) config.integrity config s with
  | error e t =>
      rw [final_of_error hRun] at hRebuild
      rw [final_of_error (bind_of_error hRun)]
      exact hRebuild
  | ok stats t =>
      rw [final_of_ok hRun] at hRebuild
      have hBack := h.handle .data s t hRebuild
      unfold final
      rw [bind_of_ok hRun, bind_of_ok (modifyPaged_apply .data _ t)]
      exact h.trans hBack (hReopened stats _)

theorem reopenRebuilt_keeps (h : Restoring R) (order : HashOrder) :
    Keeps R (reopenRebuilt P order config) := by
  apply h.bind (rebuildUnderData_keeps h order)
  intro stats
  exact h.bind (GuardedPlacement.reopen h order config) fun _ => h.pure _

/-- Allocator state that does not open is rebuilt once. -/
theorem openPlacement_keeps (h : Restoring R) (order : HashOrder) (created : Bool)
    (report : RecoveryReport) (hOpen : Keeps R (Placement.open (P := P) order config created)) :
    Keeps R (openPlacement (P := P) order config created report) := by
  intro s
  have hPlaced := hOpen s
  unfold final openPlacement
  cases hRun : Placement.open (P := P) order config created s with
  | ok out t =>
      rw [final_of_ok hRun] at hPlaced
      exact hPlaced
  | error e t =>
      rw [final_of_error hRun] at hPlaced
      cases e with
      | panic message => exact hPlaced
      | error e =>
          cases e with
          | corrupt what offset =>
              dsimp only
              by_cases hRebuilt : (!created && !report.rebuilt) = true
              · rw [if_pos hRebuilt]
                exact h.trans hPlaced (reopenRebuilt_keeps (P := P) h order t)
              · rw [if_neg hRebuilt]
                exact hPlaced
          | _ => exact hPlaced

omit [GuardedPlacement P] in
theorem openExisting_keeps (h : Restoring R) (order : HashOrder) :
    Keeps R (openExisting P order config) := by
  apply h.bind (needsRebuild_keeps h)
  intro broken
  split
  · exact h.bind (h.rebuild _ _ _ _) fun _ => h.bind (openFiles_keeps h) fun _ => h.pure _
  · exact h.bind (openFiles_keeps h) fun _ => h.pure _

/-- An existing store is opened by recovery alone. -/
theorem reopen_keeps (h : Restoring R) (order : HashOrder) (s : Store)
    (hPresent : (s.disk .data).isSome) : R s (final (Heap.open P order config) s) := by
  have hOpened : Keeps R (openExisting P order config >>= fun report =>
      openPlacement (P := P) order config false report) :=
    h.bind (openExisting_keeps h order) fun report =>
      openPlacement_keeps h order false report (GuardedPlacement.reopen h order config)
  have hStart : final (Heap.open P order config) s = final (openExisting P order config >>=
      fun report => openPlacement (P := P) order config false report) s := by
    have hExists : fileExists .data s = .ok true s := by rw [fileExists, hPresent]
    unfold final Heap.open
    rw [bind_of_ok hExists, if_pos rfl]
  rw [hStart]
  exact hOpened s

/-- A store is opened by recovery or else created. -/
theorem open_keeps (h : Guarded R) (order : HashOrder) : Keeps R (Heap.open P order config) := by
  apply h.bind (h.same fun _ => rfl)
  intro present
  split
  · exact h.bind (openExisting_keeps h.toRestoring order) fun _ =>
      openPlacement_keeps h.toRestoring order _ _ (GuardedPlacement.reopen h.toRestoring order config)
  · exact h.bind (createFiles_keeps h) fun _ =>
      openPlacement_keeps h.toRestoring order _ _ (GuardedPlacement.create h order config)

end Heap

end HeapStore
