import HeapStore.Heap.Lifetime
import HeapStore.Heap.Rebuilt
import HeapStore.Storage.Untouched

/-! Rebuilding after damage: whatever happens to the payload bytes of a flushed
store and to its metadata, the rebuilt index names the newest record of each
number that still passes its check. -/
namespace HeapStore

open Effect PagedFile IndexFile

/-- Payload bytes of stored records were changed, and nothing else in the file. -/
structure PayloadsChanged (withBucket : Bool) (log : List Record) (before after : File) : Prop where
  size : after.size = before.size
  outside : ∀ i, (∀ r ∈ log, i < r.off + headerLen withBucket ∨ r.stop withBucket ≤ i) →
    after.bytes i = before.bytes i

/-- A record with the payload that an image holds in its place. -/
def Record.now (withBucket : Bool) (image : Nat → UInt8) (r : Record) : Record :=
  { r with payload := Image.read image (r.off + headerLen withBucket) r.header.len }

theorem PayloadsChanged.refl (withBucket : Bool) (log : List Record) (f : File) :
    PayloadsChanged withBucket log f f := ⟨rfl, fun _ _ => rfl⟩

/-- A write into the payload of one record changes payloads only. -/
theorem PayloadsChanged.write {withBucket : Bool} {log : List Record} {f : File} {r : Record} {off : Nat}
    {cells : Bytes} (hr : r ∈ log) (hLo : r.off + headerLen withBucket ≤ off)
    (hHi : off + cells.length ≤ r.stop withBucket) (hSize : r.stop withBucket ≤ f.size) :
    PayloadsChanged withBucket log f (f.write off cells) := by
  unfold File.write
  split
  · exact ⟨rfl, fun _ _ => rfl⟩
  · refine ⟨Nat.max_eq_left (hHi.trans hSize), fun i hOut => Image.write_apply_off _ _ ?_⟩
    rcases hOut r hr with hBefore | hBehind
    · exact Or.inl (by omega)
    · exact Or.inr (by omega)

section Changed

variable {withBucket : Bool} {log : List Record} {before after : File} {r : Record}

/-- No byte of another record lies in the header of a record. -/
theorem PayloadsChanged.header (h : PayloadsChanged withBucket log before after)
    (hLaid : Laid withBucket log before.bytes) (hr : r ∈ log) {i : Nat} (hi : i < headerLen withBucket) :
    after.bytes (r.off + i) = before.bytes (r.off + i) := by
  refine h.outside _ fun other hOther => ?_
  by_contra hInside
  rw [not_or, Nat.not_lt, Nat.not_le] at hInside
  have hStop : r.off + headerLen withBucket ≤ r.stop withBucket := by
    rw [Record.stop, Record.totalLen]
    omega
  have hSame := hLaid.eq_of_overlap hr hOther (i := r.off + i) ⟨by omega, by omega⟩
    ⟨by omega, hInside.2⟩
  subst hSame
  omega

/-- The changed file is laid out with the records as they are now. -/
theorem PayloadsChanged.laid (h : PayloadsChanged withBucket log before after)
    (hLaid : Laid withBucket log before.bytes) :
    Laid withBucket (log.map (Record.now withBucket after.bytes)) after.bytes where
  formed x hx := by
    obtain ⟨r, hr, rfl⟩ := List.mem_map.mp hx
    have hForm := hLaid.formed r hr
    exact ⟨hForm.range, hForm.visible, Image.length_read ..⟩
  holds x hx := by
    obtain ⟨r, hr, rfl⟩ := List.mem_map.mp hx
    have hLength : (r.header.encode withBucket).length = headerLen withBucket :=
      RecordHeader.length_encode ..
    have hHeader : Image.read after.bytes r.off (headerLen withBucket) = r.header.encode withBucket := by
      rw [← hLaid.read_header hr]
      refine Image.read_congr fun i hLo hHi => ?_
      obtain ⟨k, rfl⟩ := Nat.exists_eq_add_of_le hLo
      exact h.header hLaid hr (by omega)
    change Image.Holds after.bytes r.off (r.header.encode withBucket ++
      Image.read after.bytes (r.off + headerLen withBucket) r.header.len)
    rw [Image.holds_iff_read, List.length_append, hLength, Image.length_read, Image.read_add, hHeader]
  apart := by
    rw [List.pairwise_map]
    exact hLaid.apart
  base x hx := by
    obtain ⟨r, hr, rfl⟩ := List.mem_map.mp hx
    exact hLaid.base r hr
  blank i hi hOut := by
    have hApart : ∀ r ∈ log, i < r.off ∨ r.stop withBucket ≤ i := fun r hr =>
      hOut (r.now withBucket after.bytes) (List.mem_map_of_mem hr)
    rw [h.outside i fun r hr => ?_]
    · exact hLaid.blank i hi hApart
    · rcases hApart r hr with hLt | hGe
      · exact Or.inl (by omega)
      · exact Or.inr hGe

theorem Ascending.now (h : Ascending log) (image : Nat → UInt8) :
    Ascending (log.map (Record.now withBucket image)) := by
  rw [Ascending, List.pairwise_map]
  exact h

end Changed

/-! Bounds that a rebuild of a heap's files stays in. -/

section Bounds

variable {withBucket : Bool} {log : List Record} {lo hi : Nat}

/-- Records that lie one behind the other take at least the bytes of their headers. -/
theorem length_sorted_le (hSorted : log.Pairwise fun a b => a.stop withBucket ≤ b.off)
    (hLo : ∀ r ∈ log, lo ≤ r.off) (hHi : ∀ r ∈ log, r.stop withBucket ≤ hi) (hLe : lo ≤ hi) :
    lo + headerLen withBucket * log.length ≤ hi := by
  induction log generalizing lo with
  | nil => simpa using hLe
  | cons r rest ih =>
      obtain ⟨hHead, hRest⟩ := List.pairwise_cons.mp hSorted
      have hTail := @ih (r.stop withBucket) hRest hHead
        (fun x hx => hHi x (List.mem_cons_of_mem _ hx)) (hHi r (List.mem_cons_self ..))
      have hFirst := hLo r (List.mem_cons_self ..)
      rw [Record.stop, Record.totalLen] at hTail
      rw [List.length_cons, Nat.mul_succ]
      omega

theorem length_addToRuns_le (runs : List BucketRun) (bucket start stop : Nat) :
    (addToRuns runs bucket start stop).length ≤ runs.length + 1 := by
  unfold addToRuns
  split
  · rename_i run hLast
    split
    · rw [List.length_append, List.length_dropLast, List.length_singleton]
      omega
    · simp
  · simp

/-- A fold whose steps add at most one adds at most the number of its steps. -/
theorem foldl_size_le {α β : Type} {f : β → α → β} (size : β → Nat)
    (hStep : ∀ b a, size (f b a) ≤ size b + 1) (l : List α) (b : β) :
    size (l.foldl f b) ≤ size b + l.length := by
  induction l generalizing b with
  | nil => exact Nat.le_refl _
  | cons a rest ih =>
      have hRest := ih (f b a)
      have hFirst := hStep b a
      rw [List.foldl_cons, List.length_cons]
      omega

theorem length_runsOf_le (withBucket : Bool) (recs : List Record) :
    (runsOf withBucket recs).length ≤ recs.length := by
  have hFold := foldl_size_le List.length (fun runs (r : Record) =>
    length_addToRuns_le runs r.header.bucket r.off (r.stop withBucket)) recs []
  rwa [List.length_nil, Nat.zero_add] at hFold

theorem length_regionBuckets_le (order : HashOrder) (regionSlots : Nat) (table : NewestTable) :
    (regionBuckets order regionSlots table).entries.length ≤ table.keys.length := by
  rw [regionBuckets, ← (order.perm table.keys).length_eq]
  refine (foldl_size_le (fun regions : AList fun _ : Nat => Nat => regions.entries.length)
    (fun regions id => ?_) _ _).trans ?_
  · split
    · exact Nat.le_succ _
    · dsimp only
      split
      · exact Nat.le_succ _
      · rename_i hNew
        rw [AList.entries_insert_of_notMem hNew, List.length_cons]
  · simp

/-- A rebuild writes at most two rows for a record. -/
theorem length_rebuiltRows_le (order : HashOrder) (config : HeapConfig) (layout : UInt8) (integrity : Bool)
    (log : List Record) : (rebuiltRows order config layout integrity log).length ≤ 2 * log.length := by
  have hRuns : (surveyed layout integrity log).bucketRuns.length ≤ log.length := by
    rw [surveyed_runs]
    refine (length_runsOf_le ..).trans ?_
    rw [← (inFileOrder_perm log).length_eq]
    exact List.length_filter_le ..
  have hKeys : (surveyed layout integrity log).latestRecords.keys.length ≤ log.length := by
    have hSubset : (surveyed layout integrity log).latestRecords.keys ⊆
        log.map fun r => r.header.id := fun id hId => by
      rw [← AList.mem_keys, ← AList.lookup_isSome, Option.isSome_iff_exists] at hId
      obtain ⟨f, hLookup⟩ := hId
      obtain ⟨r, hr, -, -, hSame⟩ := surveyed_entry hLookup
      exact List.mem_map.mpr ⟨r, hr, hSame⟩
    have hSub := (List.subperm_of_subset (AList.keys_nodup _) hSubset).length_le
    rwa [List.length_map] at hSub
  have hRegions := length_regionBuckets_le order config.regionSlots (surveyed layout integrity log).latestRecords
  rw [rebuiltRows, List.length_append, List.length_map, regionRows, List.length_mergeSort, List.length_map]
  omega

/-- Slots in use lie within their file. -/
theorem addressable_of_slotsAt {slots : Nat → SlotState} {f : File} {id : Nat} (hSlots : SlotsAt slots f.bytes)
    (hWhole : f.Whole) (hUsed : slots id ≠ .empty) : Addressable id := by
  have hInside : Slot.fileOffset id < f.size := by
    by_contra hOut
    refine hUsed ?_
    have hZero : Image.read f.bytes (Slot.fileOffset id) SLOT_SIZE =
        Image.read (fun _ => 0) (Slot.fileOffset id) SLOT_SIZE :=
      Image.read_congr fun i hLo hHi => f.zero_past i (by omega)
    rw [← hSlots id, hZero]
    exact SlotsAt.blank id
  have hPage := pageDown_le (Slot.fileOffset id)
  rw [Addressable, slot_inside]
  have hSize := hWhole.pages
  have hRange := hWhole.range
  have hDown := pageDown_mod (Slot.fileOffset id)
  rw [PAGE] at *
  omega

end Bounds

namespace Heap

/-- A placement whose layout byte says whether its records name buckets. -/
class NamedLayout (P : Type) [Placement P] : Prop where
  layout : (Placement.layout P == LAYOUT_BUCKET) = Placement.withBucket P

instance : NamedLayout AppendPlacement := ⟨rfl⟩

instance : NamedLayout BucketPlacement := ⟨rfl⟩

variable {P : Type} [Placement P] [LawfulPlacement P] {config : HeapConfig} {h h' : Heap P}
  {L : Ledger} {events : List Event} {s t : Store}

/-- Dropping a sound heap leaves the files of a flushed one. -/
theorem Sound.dropped (hSound : Sound config L h.placed) (hReach : AllInReach h.store) :
    ∃ u, close h = closed u ∧ Sound config L (⟨h.placement, u⟩ : Placed P) ∧
      ∀ n, HasFile P n → (u.paged n).stagedWrites = [] := by
  obtain ⟨u, hFlush, -⟩ := flush_run hSound.coherent hSound.plan hReach
  obtain ⟨hAll, hFlushed⟩ := flush_ok hSound hFlush
  refine ⟨u, ?_, hFlushed, fun n hn => hAll.staged hn⟩
  rw [close, final_of_ok hFlush]
  rfl

/-- The data file of a dropped heap holds exactly its records. -/
theorem Sound.laid_dropped (hSound : Sound config L h.placed) (hReach : AllInReach h.store) :
    Laid (Placement.withBucket P) L.log ((close h).file .data).bytes := by
  obtain ⟨u, hClosed, hFlushed, hStaged⟩ := hSound.dropped hReach
  have hData := hFlushed.data
  rw [hClosed]
  rwa [Store.logical, hStaged .data (hasFile_data P)] at hData

/-- The files of a dropped heap after payload bytes of its records were changed;
what became of the metadata does not matter. -/
structure Damaged (h : Heap P) (L : Ledger) (s : Store) : Prop where
  plan : s.plan = []
  present : (s.disk .data).isSome
  payloads : PayloadsChanged (Placement.withBucket P) L.log ((close h).file .data) (s.file .data)

/-- The records of a heap with the payloads that a data file holds now. -/
def recordsNow (P : Type) [Placement P] (L : Ledger) (s : Store) : List Record :=
  L.log.map (Record.now (Placement.withBucket P) (s.file .data).bytes)

theorem Damaged.archive [NamedLayout P] (hDamaged : Damaged h L s) (hSound : Sound config L h.placed)
    (hReach : AllInReach h.store) : Archive (Placement.layout P) (recordsNow P L s) s := by
  obtain ⟨u, hClosed, hFlushed, hStaged⟩ := hSound.dropped hReach
  have hRest := hFlushed.atRest hStaged
  have hSize : (s.file .data).size = (u.file .data).size := by
    rw [hDamaged.payloads.size, hClosed]
    rfl
  have hWhole := hFlushed.whole .data
  exact {
    plan := hDamaged.plan
    whole := ⟨by rw [hSize]; exact hWhole.pages, by rw [hSize]; exact hWhole.range⟩
    present := hDamaged.present
    header := fun i hi => by
      have hLength : (FileHeader.encode ⟨'D'.toUInt8, Placement.layout P⟩).length = PAGE :=
        FileHeader.length_encode _
      rw [hDamaged.payloads.outside _ fun r hr => Or.inl ?_, hClosed]
      · exact hRest.header .data (hasFile_data P) i hi
      · have hBase := (LawfulPlacement.bounds hSound.placed hr).1
        omega
    laid := by
      rw [NamedLayout.layout]
      exact hDamaged.payloads.laid (hSound.laid_dropped hReach)
    inside := fun x hx => by
      obtain ⟨r, hr, rfl⟩ := List.mem_map.mp hx
      rw [NamedLayout.layout, hSize]
      exact (LawfulPlacement.bounds hFlushed.placed hr).2.trans
        (LawfulPlacement.roomy hFlushed.placed).reserved }

/-- The numbers of a flushed heap's records are addressable. -/
theorem Sound.addressable (hSound : Sound config L h.placed) (hReach : AllInReach h.store) {r : Record}
    (hr : r ∈ L.log) : Addressable r.header.id := by
  obtain ⟨u, -, hFlushed, hStaged⟩ := hSound.dropped hReach
  have hIndex := hFlushed.index
  rw [Store.logical, hStaged .index (hasFile_index P)] at hIndex
  exact addressable_of_slotsAt hIndex (hFlushed.whole .index)
    ((hFlushed.faithful.written r.header.id).mpr ⟨r, hr, rfl⟩)

/-- The rows of a rebuild fit a registry file where the data file has at most 2^61 bytes. -/
theorem rows_range {layout : UInt8} {log : List Record} (hArchive : Archive layout log s)
    (order : HashOrder) (integrity : Bool) (hSize : (s.file .data).size ≤ 2 ^ 61)
    (hBucket : layout = LAYOUT_BUCKET) :
    pageUp (PAGE + REGISTRY_ROW_SIZE * (rebuiltRows order config layout integrity log).length) < 2 ^ 63 := by
  have hRows := length_rebuiltRows_le order config layout integrity log
  have hMem : ∀ r ∈ inFileOrder log, r ∈ log := fun r hr => (inFileOrder_perm log).mem_iff.mp hr
  have hBase : PAGE ≤ (s.file .data).size := page_le_size hArchive.header hArchive.whole
  have hLength := @length_sorted_le _ _ PAGE _ hArchive.laid.inFileOrder
    (fun r hr => hArchive.laid.base r (hMem r hr)) (fun r hr => hArchive.inside r (hMem r hr)) hBase
  rw [(inFileOrder_perm log).length_eq, hBucket] at hLength
  have hHeader : headerLen (LAYOUT_BUCKET == LAYOUT_BUCKET) = 38 := rfl
  rw [hHeader] at hLength
  have hUp := pageUp_lt (PAGE + REGISTRY_ROW_SIZE * (rebuiltRows order config layout integrity log).length)
  rw [PAGE, REGISTRY_ROW_SIZE] at *
  omega

/-- Payload bytes of some records were changed so that their checksums fail, and
no other byte of the data file. -/
structure Spoiled (h : Heap P) (L : Ledger) (damaged : Record → Bool) (s : Store) : Prop
    extends Damaged h L s where
  kept : ∀ r ∈ L.log, damaged r = false →
    (r.now (Placement.withBucket P) (s.file .data).bytes).payload = r.payload
  broken : ∀ r ∈ L.log, damaged r = true →
    crc32c (r.now (Placement.withBucket P) (s.file .data).bytes).payload ≠ r.header.crc

omit [LawfulPlacement P] in
/-- With integrity on, exactly the spoiled records fail the check. -/
theorem Spoiled.intact_now {damaged : Record → Bool} (h : Spoiled h' L damaged s)
    (hFaithful : L.Faithful (Placement.withBucket P) true) {r : Record} (hr : r ∈ L.log) :
    (r.now (Placement.withBucket P) (s.file .data).bytes).intact true = !damaged r := by
  cases hDamaged : damaged r with
  | false =>
      have hBefore := hFaithful.intact r hr
      rw [Record.intact] at hBefore ⊢
      rw [h.kept r hr hDamaged]
      exact hBefore
  | true =>
      have hBroken := h.broken r hr hDamaged
      have hHeader : (r.now (Placement.withBucket P) (s.file .data).bytes).header = r.header := rfl
      rw [Record.intact, hHeader]
      simpa using hBroken

/-- New payloads do not change which record is the newest. -/
theorem newestSlots_now (withBucket : Bool) (image : Nat → UInt8) (log : List Record) :
    newestSlots withBucket (log.map (Record.now withBucket image)) = newestSlots withBucket log := by
  funext id
  have hNewest : newest (log.map (Record.now withBucket image)) id =
      (newest log id).map (Record.now withBucket image) := by
    rw [newest, newest, List.filter_map, List.getLast?_map]
    rfl
  rw [newestSlots, newestSlots, hNewest]
  cases newest log id <;> rfl

omit [LawfulPlacement P] in
theorem Spoiled.newestSlots {damaged : Record → Bool} (h : Spoiled h' L damaged s)
    (hFaithful : L.Faithful (Placement.withBucket P) true) :
    HeapStore.newestSlots (Placement.withBucket P) (intactOf true (recordsNow P L s)) =
      HeapStore.newestSlots (Placement.withBucket P) (L.log.filter fun r => !damaged r) := by
  rw [intactOf, recordsNow, List.filter_map, newestSlots_now]
  exact congrArg _ (List.filter_congr fun r hr => h.intact_now hFaithful hr)

omit [LawfulPlacement P] in
theorem Spoiled.count {damaged : Record → Bool} (h : Spoiled h' L damaged s)
    (hFaithful : L.Faithful (Placement.withBucket P) true) :
    ((recordsNow P L s).filter fun r => !r.intact true).length = (L.log.filter damaged).length := by
  rw [recordsNow, List.filter_map, List.length_map]
  refine congrArg List.length (List.filter_congr fun r hr => ?_)
  rw [Function.comp_apply, h.intact_now hFaithful hr, Bool.not_not]

/-- Turning to the registry does not change the other files. -/
theorem registry_keeps (order : HashOrder) (layout : UInt8) (config : HeapConfig) (st : RebuildState) :
    Keeps (Only .registry) (rebuildRegistry order layout config st) := by
  have hRows (rows : List RegistryRow) : ∀ registryEnd, Keeps (Only .registry) (stageRows registryEnd rows) := by
    induction rows with
    | nil => exact fun _ => Only.pure _
    | cons row rest ih => exact fun registryEnd => Only.bind (Only.stage _ _ _) fun _ => ih _
  refine Only.bind (Only.create _ _ _) fun _ => Only.bind (hRows _ _) fun _ => ?_
  split
  · exact Only.throw _
  · exact Only.bind (hRows _ _) fun _ => Only.bind (Only.flush _) fun _ => Only.sync _

/-- The work of a rebuild on its files, once the index is written. -/
theorem registry_kept {order : HashOrder} {layout : UInt8} {stats : WalkStats} {st : RebuildState} {t : Store} :
    Only .registry t (final (if (layout == LAYOUT_BUCKET) = true then do
      rebuildRegistry order layout config st
      return stats
    else return stats : StoreM WalkStats) t) := by
  split
  · exact Only.bind (registry_keeps order layout config st) (fun _ => Only.pure _) t
  · exact Only.pure _ t

/-- With integrity on, after any life of a heap and any spoiling of payloads, a
rebuild writes an index in which every number has the slot of the record that was
written last among its records with intact payloads; it counts every written
record once, and exactly the spoiled ones as damaged. Where its registry is no
file of an impossible size, the rebuild succeeds. -/
theorem rebuild_newest_intact [ReopenablePlacement P] [NamedLayout P] {start : Store} (hBlank : Blank start)
    (hConfig : config.Usable) (hIntegrity : config.integrity = true) (hOpened : OpenedOn config start h)
    (hReach : AllInReach h.store) (hLife : Lifetime config h events h')
    (hCount : ∀ id, updateCount events id ≤ 65534) :
    ∃ L : Ledger, L.Historic (Placement.withBucket P) events ∧
      Laid (Placement.withBucket P) L.log ((close h').file .data).bytes ∧
      (∀ r ∈ L.log, r.intact true = true) ∧
      ∀ s damaged order, Spoiled h' L damaged s →
        SlotsAt (newestSlots (Placement.withBucket P) (L.log.filter fun r => !damaged r))
          ((final (rebuild order (Placement.layout P) true config) s).file .index).bytes ∧
        (final (rebuild order (Placement.layout P) true config) s).disk .data = s.disk .data ∧
        (∀ stats t, rebuild order (Placement.layout P) true config s = .ok stats t →
          stats.records = L.log.length ∧ stats.badPayload = (L.log.filter damaged).length) ∧
        ((Placement.withBucket P = true → (s.file .data).size ≤ 2 ^ 61) →
          ∃ stats t, rebuild order (Placement.layout P) true config s = .ok stats t) := by
  obtain ⟨L, hAlive⟩ := hLife.alive hConfig (hOpened.alive hBlank hConfig hReach) hCount
  have hHistoric : L.Historic (Placement.withBucket P) events := hAlive.historic
  have hFaithful : L.Faithful (Placement.withBucket P) true := hIntegrity ▸ hAlive.sound.faithful
  refine ⟨L, hHistoric, hAlive.sound.laid_dropped hAlive.reach, hFaithful.intact,
    fun s damaged order hSpoiled => ?_⟩
  have hArchive := hSpoiled.toDamaged.archive hAlive.sound hAlive.reach
  have hIds : ∀ r ∈ recordsNow P L s, r.intact true = true → Addressable r.header.id := by
    intro x hx _
    obtain ⟨r, hr, rfl⟩ := List.mem_map.mp hx
    exact hAlive.sound.addressable hAlive.reach (r := r) hr
  have hAscending : Ascending (recordsNow P L s) := (hHistoric.ascending hCount).now _
  obtain ⟨stats, e, hRecords, hBad, hIndex, hStart⟩ := rebuild_index_run order config true hArchive hIds
  have hKept : Only .registry e (final (rebuild order (Placement.layout P) true config) s) := by
    rw [final_congr hStart]
    exact registry_kept
  refine ⟨?index, ?data, ?counts, ?completes⟩
  case index =>
    have hSlots := hIndex.slots
    rw [rebuiltSlots_eq hAscending, NamedLayout.layout, hSpoiled.newestSlots hFaithful] at hSlots
    rw [Store.file, hKept.disk _ (by decide)]
    exact hSlots
  case data =>
    rw [hKept.disk _ (by decide)]
    exact hIndex.disk _ (by decide)
  case counts =>
    intro got t hRun
    have hSame : got = stats := by
      rw [hStart] at hRun
      split at hRun
      · obtain ⟨_, u, -, hPure⟩ := bind_eq_ok.mp hRun
        cases hPure
        rfl
      · cases hRun
        rfl
    rw [hSame, hRecords, hBad, hSpoiled.count hFaithful, recordsNow, List.length_map]
    exact ⟨rfl, rfl⟩
  case completes =>
    intro hSize
    obtain ⟨stats, t, hRun, -⟩ := rebuild_run order config true hArchive hConfig.regionSlots hIds fun hBucket =>
      rows_range hArchive order true (hSize (by rw [← NamedLayout.layout, hBucket]; rfl)) hBucket
    exact ⟨stats, t, hRun⟩

/-- The payload byte of the second of two records is changed. -/
theorem spoil_second {a b : Record} {f : File} (hLaid : Laid false [a, b] f.bytes)
    (hA : a.payload = [7]) (hB : b.payload = [8]) :
    PayloadsChanged false [a, b] f (f.write (b.off + 30) [9]) ∧
      (a.now false (f.write (b.off + 30) [9]).bytes).payload = [7] ∧
      (b.now false (f.write (b.off + 30) [9]).bytes).payload = [9] ∧ a.off ≠ b.off := by
  have hLenA := (hLaid.formed a (by simp)).length
  have hLenB := (hLaid.formed b (by simp)).length
  have hReadA := hLaid.read_payload (show a ∈ [a, b] by simp)
  have hReadB := hLaid.read_payload (show b ∈ [a, b] by simp)
  have hHeader : headerLen false = 30 := rfl
  rw [hA, List.length_singleton] at hLenA
  rw [hB, List.length_singleton] at hLenB
  have hStopA : a.stop false = a.off + 31 := by rw [Record.stop, Record.totalLen, ← hLenA, hHeader]
  have hStopB : b.stop false = b.off + 31 := by rw [Record.stop, Record.totalLen, ← hLenB, hHeader]
  have hApart : a.off + 31 ≤ b.off ∨ b.off + 31 ≤ a.off := by
    have hPair := hLaid.apart
    rwa [List.pairwise_pair, Record.Apart, hStopA, hStopB] at hPair
  rw [← hLenA, hA, hHeader] at hReadA
  rw [← hLenB, hB, hHeader] at hReadB
  have hInside : b.off + 31 ≤ f.size := by
    by_contra hOut
    rw [Image.read_succ, Image.read_zero, f.zero_past _ (by omega)] at hReadB
    cases hReadB
  have hBytes : (f.write (b.off + 30) [9]).bytes = Image.write f.bytes (b.off + 30) [9] := rfl
  refine ⟨.write (show b ∈ [a, b] by simp) (Nat.le_refl _) hStopB.ge (hStopB.trans_le hInside), ?_, ?_, by omega⟩
  · change Image.read _ (a.off + headerLen false) a.header.len = _
    rw [← hLenA, hHeader, hBytes, Image.read_write_off _ _ (by rw [List.length_singleton]; omega)]
    exact hReadA
  · change Image.read _ (b.off + headerLen false) b.header.len = _
    rw [← hLenB, hHeader, hBytes]
    exact Image.read_write_same f.bytes (b.off + 30) [9]

/-- One record was written and then a second version of it, whose payload byte is
changed afterwards: the index names the first version. -/
theorem rebuild_newest_intact_spoiled :
    ∃ (first h : Heap AppendPlacement) (a b : Record) (s t : Store) (stats : WalkStats),
      OpenedOn ⟨.none, true, 2 ^ 20, 2 ^ 20, PAGE, 1, 2 ^ 20⟩ .empty first ∧
      Lifetime ⟨.none, true, 2 ^ 20, 2 ^ 20, PAGE, 1, 2 ^ 20⟩ first [.inserted 0 0 [7], .updated 0 [8]] h ∧
      a.payload = [7] ∧ b.payload = [8] ∧ Laid false [a, b] ((close h).file .data).bytes ∧
      (s.file .data).bytes = Image.write ((close h).file .data).bytes (b.off + 30) [9] ∧
      rebuild ⟨id, fun _ => .refl _⟩ LAYOUT_APPEND true ⟨.none, true, 2 ^ 20, 2 ^ 20, PAGE, 1, 2 ^ 20⟩ s =
        .ok stats t ∧
      stats.records = 2 ∧ stats.badPayload = 1 ∧
      Slot.state (Image.read (t.file .index).bytes (Slot.fileOffset 0) SLOT_SIZE) = .live (a.slot false) := by
  have hBlank : Blank .empty := ⟨fun _ => rfl, fun _ => rfl, rfl⟩
  obtain ⟨first, hOpened, hPlacement, hFirst⟩ := exists_opened
    ⟨.none, true, 2 ^ 20, 2 ^ 20, PAGE, 1, 2 ^ 20⟩ hBlank (by decide)
  obtain ⟨mid, M, hInsert, hMoved, hMid⟩ := hFirst.insert 0 [7]
    (by decide) (by rw [hPlacement]; decide) (by rw [hPlacement]; exact addressable_of_lt (by decide))
  rw [hPlacement] at hInsert hMid hMoved
  obtain ⟨h, N, hUpdate, -, hEnd⟩ := hMid.update 0 [8] (show values [.inserted 0 0 [7]] 0 = some [7] from rfl)
    (by rw [hMoved]; decide)
  have hLife : Lifetime _ first [.inserted 0 0 [7], .updated 0 [8]] h :=
    (Runs.Steps.refl.step ⟨.performed hInsert, hMid.reach⟩).step ⟨.performed hUpdate, hEnd.reach⟩
  obtain ⟨L, hHistoric, hLaid, hIntact, hRebuild⟩ := rebuild_newest_intact hBlank
    ⟨by decide, by decide, by decide⟩ rfl hOpened hFirst.reach hLife
    (fun id => List.countP_le_length.trans (by decide))
  obtain ⟨a, b, hLog⟩ : ∃ a b, L.log = [a, b] := by
    have hLength := congrArg List.length hHistoric.writes
    rw [List.length_map] at hLength
    exact List.length_eq_two.mp hLength
  have hWrites := hHistoric.writes
  rw [hLog] at hWrites hLaid hIntact
  have hPayloads : a.payload = [7] ∧ b.payload = [8] ∧ a.header.id = 0 := by
    simp only [List.map_cons, List.map_nil, List.filterMap_cons, Event.write, List.filterMap_nil,
      List.cons.injEq, Prod.mk.injEq, and_true] at hWrites
    exact ⟨hWrites.1.2, hWrites.2.2, hWrites.1.1⟩
  obtain ⟨hPayloadA, hPayloadB, hIdA⟩ := hPayloads
  obtain ⟨hChanged, hNowA, hNowB, hNe⟩ := spoil_second hLaid hPayloadA hPayloadB
  let s : Store := { close h with
    disk := Function.update (close h).disk .data (some (((close h).file .data).write (b.off + 30) [9]))
    plan := [] }
  have hFile : s.file .data = ((close h).file .data).write (b.off + 30) [9] := by
    simp [s, Store.file]
  have hSpoiled : Spoiled h L (fun r => r.off == b.off) s := by
    refine ⟨⟨rfl, by simp [s], ?_⟩, fun r hr hOther => ?_, fun r hr hSame => ?_⟩
    · rw [hFile, hLog]
      exact hChanged
    · rw [hLog, List.mem_pair] at hr
      rcases hr with rfl | rfl
      · rw [hFile, hPayloadA]
        exact hNowA
      · simp at hOther
    · rw [hLog, List.mem_pair] at hr
      rcases hr with rfl | rfl
      · exact absurd (by simpa using hSame) hNe
      · have hCrc : crc32c [8] = r.header.crc := by
          have hBefore := hIntact r (by simp)
          rw [Record.intact, hPayloadB] at hBefore
          simpa using hBefore
        rw [hFile, ← hCrc]
        change crc32c (r.now false _).payload ≠ _
        rw [hNowB]
        decide +kernel
  obtain ⟨hIndex, -, hCounts, hCompletes⟩ := hRebuild s _ ⟨id, fun _ => .refl _⟩ hSpoiled
  obtain ⟨stats, t, hRun⟩ := hCompletes fun hBucket => absurd hBucket (by decide)
  obtain ⟨hRecords, hBad⟩ := hCounts stats t hRun
  have hSlot := hIndex 0
  rw [final_of_ok hRun] at hSlot
  have hKept : [a, b].filter (fun r => !(r.off == b.off)) = [a] := by simp [hNe]
  rw [hLog, hKept] at hSlot
  have hFirstOnly : newestSlots false [a] 0 = .live (a.slot false) := by
    simp [newestSlots, newest, hIdA]
  refine ⟨first, h, a, b, s, t, stats, hOpened, hLife, hPayloadA, hPayloadB, hLaid, by rw [hFile]; rfl, hRun,
    ?_, ?_, hSlot.trans hFirstOnly⟩
  · rw [hRecords, hLog]
    rfl
  · rw [hBad, hLog]
    simp [hNe]

end Heap

end HeapStore
