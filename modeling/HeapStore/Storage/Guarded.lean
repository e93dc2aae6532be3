import HeapStore.Storage.DataFile
import HeapStore.Storage.FlushFailure
import HeapStore.Storage.IndexFile

/-! What every call keeps when the requests and cache operations under it keep
it, however they end: with success, with an error of the file system, or with a
panic. Nothing is assumed of the files. -/
namespace HeapStore

open Effect PagedFile

/-- A relation between stores that read requests and flushes keep, whatever their outcome. -/
structure Reading (R : Store → Store → Prop) : Prop where
  refl : ∀ s, R s s
  trans : ∀ {s t u}, R s t → R t u → R s u
  readVec : ∀ n requests, Keeps R (readVec n requests)
  flush : ∀ n, Keeps R (PagedFile.flush n)

/-- A relation that syncs keep as well. -/
structure Observing (R : Store → Store → Prop) : Prop extends Reading R where
  sync : ∀ n, Keeps R (sync n)

/-- The same for what recovery does: it writes the metadata files, and drops handles. -/
structure Restoring (R : Store → Store → Prop) : Prop extends Observing R where
  stageMeta : ∀ n, n ≠ .data → ∀ off parts, Keeps R (PagedFile.stage n off parts)
  createMeta : ∀ n, n ≠ .data → ∀ kind layout, Keeps R (PagedFile.create n kind layout)
  noteAlloc : ∀ upto, Keeps R (PagedFile.noteAlloc .data upto)
  reset : ∀ n s, R s (s.setPaged n .fresh)
  handle : ∀ n s t, R s t → R s (t.setPaged n (s.paged n))

/-- The same for everything that a heap does to its files. -/
structure Guarded (R : Store → Store → Prop) : Prop extends Restoring R where
  stageData : ∀ off parts, Keeps R (PagedFile.stage .data off parts)
  createData : ∀ kind layout, Keeps R (PagedFile.create .data kind layout)
  ensureAlloc : ∀ upto chunk, Keeps R (PagedFile.ensureAlloc .data upto chunk)

namespace Reading

variable {R : Store → Store → Prop} {α β : Type}

theorem pure (h : Reading R) (a : α) : Keeps R (Pure.pure a : StoreM α) := Keeps.pure h.refl a

theorem throw (h : Reading R) (e : Failure) : Keeps R (MonadExcept.throw e : StoreM α) :=
  Keeps.throw h.refl e

theorem bind (h : Reading R) {x : StoreM α} {f : α → StoreM β} (hx : Keeps R x)
    (hf : ∀ a, Keeps R (f a)) : Keeps R (x >>= f) := Keeps.bind (R := R) h.trans hx hf

/-- A call that leaves the store as it is keeps every such relation. -/
theorem same (h : Reading R) {x : StoreM α} (hSame : ∀ s, final x s = s) : Keeps R x :=
  Keeps.same h.refl hSame

theorem getPaged (h : Reading R) (n : FileName) : Keeps R (getPaged n) := h.same fun _ => rfl

theorem size (h : Reading R) (n : FileName) : Keeps R (PagedFile.size n) := h.same fun _ => rfl

/-- The checked arithmetic touches no store, also where it panics. -/
theorem addU64 (h : Reading R) (a b : Nat) : Keeps R (addU64 a b : StoreM Nat) := by
  unfold HeapStore.addU64
  split
  · exact h.throw _
  · exact h.pure _

theorem subU64 (h : Reading R) (a b : Nat) : Keeps R (subU64 a b : StoreM Nat) := by
  unfold HeapStore.subU64
  split
  · exact h.throw _
  · exact h.pure _

theorem pageUpU64 (h : Reading R) (off : Nat) : Keeps R (pageUpU64 off : StoreM Nat) := by
  unfold HeapStore.pageUpU64
  split
  · exact h.throw _
  · exact h.pure _

/-- A single read is one request. -/
theorem readOne (h : Reading R) (n : FileName) (off len : Nat) : Keeps R (readOne n off len) :=
  h.bind (h.readVec n _) fun _ => h.pure _

/-- An aligned read flushes and then makes one request. -/
theorem readAligned (h : Reading R) (n : FileName) (off len : Nat) :
    Keeps R (readAligned n off len) := by
  apply h.bind (h.flush n)
  intro _
  apply h.bind (h.pageUpU64 _)
  intro stop
  exact h.bind (h.readOne n _ _) fun _ => h.pure _

/-! Slots. -/

/-- The offset of a slot is computed with two checked operations. -/
theorem slotOffset (h : Reading R) (id : Nat) : Keeps R (IndexFile.slotOffset id) := by
  unfold IndexFile.slotOffset
  split
  · exact h.throw _
  · exact h.addU64 _ _

/-- Both readings of a slot start from its bytes. -/
theorem readSlotBytes (h : Reading R) (id : Nat) : Keeps R (IndexFile.readSlotBytes id) := by
  apply h.bind (h.slotOffset id)
  intro off
  apply h.bind (h.readAligned .index off SLOT_SIZE)
  rintro ⟨buffer, bufferOffset⟩
  exact h.pure _

theorem readSlotState (h : Reading R) (id : Nat) : Keeps R (IndexFile.readSlotState id) :=
  h.bind (h.readSlotBytes id) fun _ => h.pure _

theorem readSlot (h : Reading R) (id : Nat) : Keeps R (IndexFile.readSlot id) :=
  h.bind (h.readSlotBytes id) fun _ => h.pure _

/-- By induction on the numbers, each with its own checked offset. -/
theorem slotOffsets (h : Reading R) (ids : List Nat) : Keeps R (IndexFile.slotOffsets ids) := by
  induction ids with
  | nil => exact h.pure _
  | cons id rest ih => exact h.bind (h.slotOffset id) fun _ => h.bind ih fun _ => h.pure _

/-- A batch of slots is one flush and one request. -/
theorem readSlots (h : Reading R) (ids : List Nat) : Keeps R (IndexFile.readSlots ids) := by
  apply h.bind (h.flush .index)
  intro _
  apply h.bind (h.slotOffsets ids)
  intro offsets
  exact h.bind (h.readVec .index _) fun _ => h.pure _

/-! Records. -/

variable (d : DataFile)

/-- Parsing looks at bytes in memory only, however it is answered. -/
theorem parse (h : Reading R) (buffer : Bytes) (bufferOffset totalLen expectId offset : Nat) :
    Keeps R (d.parse buffer bufferOffset totalLen expectId offset) := by
  unfold DataFile.parse
  cases RecordHeader.decode (buffer.drop bufferOffset) d.withBucket with
  | none => exact h.throw _
  | some header =>
      dsimp only
      split
      · exact h.throw _
      apply h.bind (h.addU64 _ _)
      intro recordLen
      split
      · exact h.throw _
      split
      · exact h.throw _
      · exact h.pure _

/-- A record is read aligned and then parsed. -/
theorem readRecord (h : Reading R) (off totalLen expectId : Nat) :
    Keeps R (d.readRecord off totalLen expectId) := by
  apply h.bind (h.readAligned .data off totalLen)
  rintro ⟨buffer, bufferOffset⟩
  exact h.parse d _ _ _ _ _

/-- The header alone is read the same way. -/
theorem readHeader (h : Reading R) (off expectId : Nat) : Keeps R (d.readHeader off expectId) := by
  apply h.bind (h.readAligned .data off d.recordHeaderLen)
  rintro ⟨buffer, bufferOffset⟩
  dsimp only
  cases RecordHeader.decode (buffer.drop bufferOffset) d.withBucket with
  | none => exact h.throw _
  | some header =>
      dsimp only
      split
      · exact h.throw _
      · exact h.pure _

/-- By induction on the members of a group. -/
theorem parseMembers (h : Reading R) (items : List DataFile.ReadItem) (group : DataFile.ReadGroup)
    (buffer : Bytes) (members : List Nat) (out : List Bytes) :
    Keeps R (d.parseMembers items group buffer members out) := by
  induction members generalizing out with
  | nil => exact h.pure _
  | cons itemIndex rest ih =>
      unfold DataFile.parseMembers
      cases items[itemIndex]? with
      | none => exact ih out
      | some item =>
          apply h.bind (h.parse d _ _ _ _ _)
          rintro ⟨header, payload⟩
          exact ih _

/-- By induction on the groups with their buffers. -/
theorem parseGroups (h : Reading R) (items : List DataFile.ReadItem)
    (groups : List (DataFile.ReadGroup × Bytes)) (out : List Bytes) :
    Keeps R (d.parseGroups items groups out) := by
  induction groups generalizing out with
  | nil => exact h.pure _
  | cons group rest ih => exact h.bind (h.parseMembers d _ _ _ _ _) fun out => ih out

/-- A batch of records is one flush, one request and the parsing of its groups. -/
theorem readMany (h : Reading R) (items : List DataFile.ReadItem) : Keeps R (d.readMany items) := by
  apply h.bind (h.flush .data)
  intro _
  split
  · exact h.throw _
  · exact h.bind (h.readVec .data _) fun _ => h.parseGroups d _ _ _

end Reading

namespace Restoring

variable {R : Store → Store → Prop}

/-- Slots are staged for the index, which is a metadata file. -/
theorem stageSlot (h : Restoring R) (id : Nat) (slot : Option Slot) :
    Keeps R (IndexFile.stageSlot id slot) :=
  h.bind (h.slotOffset id) fun _ => h.stageMeta .index (by decide) _ _

theorem stageTombstone (h : Restoring R) (id : Nat) (slot : Slot) :
    Keeps R (IndexFile.stageTombstone id slot) :=
  h.bind (h.slotOffset id) fun _ => h.stageMeta .index (by decide) _ _

/-- Looking whether a file is there changes nothing. -/
theorem openDirect (h : Restoring R) (n : FileName) : Keeps R (openDirect n) := by
  apply h.same
  intro s
  by_cases hFile : (s.disk n).isSome = true <;> simp [HeapStore.openDirect, final, hFile]

/-- A handle may be dropped at any time. -/
theorem modifyPaged_fresh (h : Restoring R) (n : FileName) :
    Keeps R (modifyPaged n fun _ => .fresh) := fun s => h.reset n s

/-- A file is opened through a fresh handle, and its first page is read. -/
theorem «open» (h : Restoring R) (n : FileName) (kind layout : UInt8) :
    Keeps R (PagedFile.open n kind layout) := by
  apply h.bind (h.openDirect n)
  intro _
  apply h.bind (h.modifyPaged_fresh n)
  intro _
  apply h.bind (h.readOne n 0 PAGE)
  intro page
  cases FileHeader.decode page with
  | none => exact h.throw _
  | some header =>
      dsimp only
      split
      · exact h.pure _
      · exact h.throw _

end Restoring

namespace Guarded

variable {R : Store → Store → Prop}

/-- Records are staged for the data file. -/
theorem stageRecord (h : Guarded R) (d : DataFile) (off bucket id version : Nat) (payload : Bytes) :
    Keeps R (d.stageRecord off bucket id version payload) := h.stageData _ _

/-- Whichever file is created, one of the two assumptions speaks of it. -/
theorem create (h : Guarded R) (n : FileName) (kind layout : UInt8) :
    Keeps R (PagedFile.create n kind layout) := by
  cases n with
  | data => exact h.createData kind layout
  | index => exact h.createMeta .index (by decide) kind layout
  | registry => exact h.createMeta .registry (by decide) kind layout

end Guarded

end HeapStore
