import HeapStore.Placement.Lawful
import HeapStore.Storage.RecordReads
import HeapStore.Storage.Slots
import HeapStore.Heap.Heap

/-! The ledger of a heap: every record written so far, in the order of
writing, what each number's slot says, and the registry rows. A store is sound
for a ledger when its three files present exactly that. -/
namespace HeapStore

open Effect PagedFile

structure Ledger where
  log : List Record
  slots : Nat → SlotState
  rows : List RegistryRow

namespace Ledger

def empty : Ledger := ⟨[], fun _ => .empty, []⟩

/-- A record is written, and the slot of its number names it. -/
def put (L : Ledger) (withBucket : Bool) (r : Record) (new : List RegistryRow) : Ledger :=
  ⟨L.log ++ [r], Function.update L.slots r.header.id (.live (r.slot withBucket)), L.rows ++ new⟩

/-- A slot becomes a tombstone. -/
def bury (L : Ledger) (id : Nat) (slot : Slot) : Ledger :=
  { L with slots := Function.update L.slots id (.deleted slot) }

/-- The payload that a number stands for, if any. -/
def value (L : Ledger) (id : Nat) : Option Bytes :=
  match L.slots id with
  | .live slot => (L.log.find? fun r => r.off == slot.offset).map Record.payload
  | _ => none

/-- Slots name records of their number, and every written number has a slot. -/
structure Faithful (withBucket integrity : Bool) (L : Ledger) : Prop where
  intact : ∀ r ∈ L.log, r.intact integrity = true
  written : ∀ id, L.slots id ≠ .empty ↔ ∃ r ∈ L.log, r.header.id = id
  named : ∀ id slot, (L.slots id).place = some slot →
    ∃ r ∈ L.log, r.header.id = id ∧ r.slot withBucket = slot

namespace Faithful

variable {withBucket integrity : Bool} {L : Ledger} {r : Record}

theorem empty (withBucket integrity : Bool) : Faithful withBucket integrity Ledger.empty := by
  constructor <;> simp [Ledger.empty, SlotState.place]

theorem put (h : Faithful withBucket integrity L) (hIntact : r.intact integrity = true)
    (new : List RegistryRow) : Faithful withBucket integrity (L.put withBucket r new) where
  intact x hx := by
    rcases List.mem_append.mp hx with hx | hx
    · exact h.intact x hx
    · rw [List.mem_singleton] at hx
      exact hx ▸ hIntact
  written id := by
    by_cases hId : id = r.header.id
    · subst hId
      simp [Ledger.put]
    · have hOld := h.written id
      simp only [Ledger.put, Function.update_of_ne hId, List.mem_append, List.mem_singleton]
      rw [hOld]
      constructor
      · rintro ⟨x, hx, hSame⟩
        exact ⟨x, Or.inl hx, hSame⟩
      · rintro ⟨x, hx | rfl, hSame⟩
        · exact ⟨x, hx, hSame⟩
        · exact absurd hSame.symm hId
  named id slot hPlace := by
    by_cases hId : id = r.header.id
    · subst hId
      simp only [Ledger.put, Function.update_self, SlotState.place, Option.some.injEq] at hPlace
      exact ⟨r, List.mem_append_right _ (List.mem_singleton_self r), rfl, hPlace⟩
    · simp only [Ledger.put, Function.update_of_ne hId] at hPlace
      obtain ⟨x, hx, hBoth⟩ := h.named id slot hPlace
      exact ⟨x, List.mem_append_left _ hx, hBoth⟩

theorem bury (h : Faithful withBucket integrity L) {id : Nat} {slot : Slot}
    (hLive : L.slots id = .live slot) : Faithful withBucket integrity (L.bury id slot) where
  intact := h.intact
  written k := by
    by_cases hId : k = id
    · subst hId
      rw [show (L.bury k slot).log = L.log from rfl, ← h.written k, hLive]
      simp [Ledger.bury]
    · simpa [Ledger.bury, Function.update_of_ne hId] using h.written k
  named k other hPlace := by
    by_cases hId : k = id
    · subst hId
      simp only [Ledger.bury, Function.update_self, SlotState.place, Option.some.injEq] at hPlace
      exact h.named k other (by rw [hLive, ← hPlace]; rfl)
    · simp only [Ledger.bury, Function.update_of_ne hId] at hPlace
      exact h.named k other hPlace

end Faithful

end Ledger

/-- One more record in blank space behind the header page. -/
theorem Laid.concat {withBucket : Bool} {records : List Record} {image : Nat → UInt8} {r : Record}
    (h : Laid withBucket records image) (hForm : r.WellFormed withBucket)
    (hApart : ∀ old ∈ records, Record.Apart withBucket old r) (hBase : PAGE ≤ r.off) :
    Laid withBucket (records ++ [r]) (Image.write image r.off (r.bytes withBucket)) := by
  have hLength := hForm.length_bytes
  refine ⟨?_, ?_, ?_, ?_, ?_⟩
  · intro x hx
    rcases List.mem_append.mp hx with hx | hx
    · exact h.formed x hx
    · rw [List.mem_singleton] at hx
      exact hx ▸ hForm
  · intro x hx
    rcases List.mem_append.mp hx with hx | hx
    · refine (h.holds x hx).write_off _ ?_
      have hAway := hApart x hx
      rw [(h.formed x hx).length_bytes, hLength]
      simpa only [Record.Apart, Record.stop] using hAway
    · rw [List.mem_singleton] at hx
      subst hx
      exact Image.holds_write_same _ _ _
  · refine List.pairwise_append.mpr ⟨h.apart, by simp, fun a ha b hb => ?_⟩
    rw [List.mem_singleton] at hb
    exact hb ▸ hApart a ha
  · intro x hx
    rcases List.mem_append.mp hx with hx | hx
    · exact h.base x hx
    · rw [List.mem_singleton] at hx
      exact hx ▸ hBase
  · intro i hi hOut
    have hMine := hOut r (List.mem_append_right _ (List.mem_singleton_self r))
    rw [Image.write_apply_off _ _ (by rw [hLength]; exact hMine)]
    exact h.blank i hi fun x hx => hOut x (List.mem_append_left _ hx)

namespace Heap

/-- The kind that the header of a file names. -/
def fileKind : FileName → UInt8
  | .data => 'D'.toUInt8
  | .index => 'I'.toUInt8
  | .registry => 'R'.toUInt8

/-- The files that a heap with this placement has. -/
def HasFile (P : Type) [Placement P] (n : FileName) : Prop :=
  n = .registry → Placement.withBucket P = true

theorem hasFile_data (P : Type) [Placement P] : HasFile P .data := fun h => absurd h (by decide)

theorem hasFile_index (P : Type) [Placement P] : HasFile P .index := fun h => absurd h (by decide)

/-- The header page of a file. -/
def HeaderAt (P : Type) [Placement P] (n : FileName) (image : Nat → UInt8) : Prop :=
  Image.Holds image 0 (FileHeader.encode ⟨fileKind n, Placement.layout P⟩)

variable {P : Type} [Placement P] [LawfulPlacement P]

/-- The store presents a ledger, and the placement fits it. -/
structure Sound (config : HeapConfig) (L : Ledger) (s : Placed P) : Prop where
  plan : s.store.plan = []
  coherent : ∀ n, Coherent n s.store
  whole : ∀ n, (s.store.file n).Whole
  present : ∀ n, HasFile P n → (s.store.disk n).isSome
  header : ∀ n, HasFile P n → HeaderAt P n (s.store.logical n)
  data : Laid (Placement.withBucket P) L.log (s.store.logical .data)
  index : SlotsAt L.slots (s.store.logical .index)
  faithful : L.Faithful (Placement.withBucket P) config.integrity
  placed : LawfulPlacement.Keeps config s L.log L.rows

/-- What a flush, a sync or a read may change below a sound heap: nothing that
the files present. -/
structure Refreshed (s t : Store) : Prop where
  upkeep : (∀ n, Coherent n s) → Upkeep s t
  plan : s.plan = [] → t.plan = []
  coherent : (∀ n, Coherent n s) → ∀ n, Coherent n t
  whole : (∀ n, Coherent n s) → (∀ n, (s.file n).Whole) → ∀ n, (t.file n).Whole
  present : ∀ n, (s.disk n).isSome → (t.disk n).isSome
  logical : ∀ n, t.logical n = s.logical n
  reach : ∀ n, InReach n s → InReach n t
  snug : (∀ n, Coherent n s) → Snug s → Snug t

namespace Refreshed

variable {s t u : Store}

theorem refl (s : Store) : Refreshed s s :=
  ⟨fun _ => Upkeep.refl s, id, id, fun _ => id, fun _ => id, fun _ => rfl, fun _ => id, fun _ => id⟩

theorem trans (h : Refreshed s t) (k : Refreshed t u) : Refreshed s u where
  upkeep hCoherent := (h.upkeep hCoherent).trans (k.upkeep (h.coherent hCoherent))
  plan hPlan := k.plan (h.plan hPlan)
  coherent hCoherent := k.coherent (h.coherent hCoherent)
  whole hCoherent hWhole := k.whole (h.coherent hCoherent) (h.whole hCoherent hWhole)
  present n hSome := k.present n (h.present n hSome)
  logical n := (k.logical n).trans (h.logical n)
  reach n hReach := k.reach n (h.reach n hReach)
  snug hCoherent hSnug := k.snug (h.coherent hCoherent) (h.snug hCoherent hSnug)

theorem coherent_congr {n : FileName} (h : Coherent n s) (hPaged : t.paged n = s.paged n)
    (hDisk : t.disk n = s.disk n) : Coherent n t := by
  have hFile : t.file n = s.file n := by rw [Store.file, Store.file, hDisk]
  refine ⟨hPaged ▸ h.apart, ?_, ?_, hPaged ▸ h.pending⟩
  · rw [hPaged, hFile]
    exact h.captured
  · rw [hPaged, hFile]
    exact h.tails

/-- The files and handles are as they were. -/
theorem of_same (hDisk : t.disk = s.disk) (hPaged : t.paged = s.paged)
    (hPlan : s.plan = [] → t.plan = []) : Refreshed s t where
  upkeep _ := by
    refine Upkeep.of_registry (by rw [hPaged]) (fun hRoomy => ⟨?_, ?_⟩) (by rw [hPaged]) (by rw [hDisk])
    · rw [Store.file, hDisk]
      exact hRoomy.whole
    · rw [Store.file, hDisk, hPaged]
      exact hRoomy.reserved
  plan := hPlan
  coherent h n := coherent_congr (h n) (by rw [hPaged]) (by rw [hDisk])
  whole _ h n := by
    rw [Store.file, hDisk]
    exact h n
  present n hSome := by rwa [hDisk]
  logical n := by rw [Store.logical, Store.logical, Store.file, Store.file, hDisk, hPaged]
  reach n hReach := by rwa [InReach, hPaged]
  snug _ hSnug := hSnug.congr (by rw [hDisk]) (by rw [hPaged])

theorem quiet (h : Quiet s t) : Refreshed s t := of_same h.disk h.paged h.plan

theorem flushed {n : FileName} (h : Flushed n s t) : Refreshed s t where
  upkeep hCoherent := by
    cases n with
    | data => exact Upkeep.flushed_data h (hCoherent .data)
    | index => exact Upkeep.of_index h.frame
    | registry => exact Upkeep.flushed_registry h
  plan := h.frame.plan
  coherent hCoherent m := by
    by_cases hm : m = n
    · exact hm ▸ h.coherent
    · exact coherent_congr (hCoherent m) (h.frame.paged m hm) (h.frame.disk m hm)
  whole hCoherent hWhole m := by
    by_cases hm : m = n
    · subst hm
      exact h.whole (hCoherent m) (hWhole m)
    · rw [h.frame.file hm]
      exact hWhole m
  present m hSome := by
    by_cases hm : m = n
    · subst hm
      exact h.frame.present hSome
    · rwa [h.frame.disk m hm]
  logical m := by
    by_cases hm : m = n
    · subst hm
      exact h.logical
    · exact h.frame.logical hm
  reach m hReach := by
    by_cases hm : m = n
    · subst hm
      exact h.reach
    · rw [InReach, h.frame.paged m hm]
      exact hReach
  snug hCoherent hSnug := hSnug.flushed h (hCoherent n)

end Refreshed

/-- What reading may do: data and index are flushed, nothing is synced. -/
structure Inspected (s t : Store) : Prop extends Refreshed s t where
  durable : t.durable = s.durable
  registry : t.disk .registry = s.disk .registry

theorem Inspected.flushed {n : FileName} {s t : Store} (hn : .registry ≠ n) (h : Flushed n s t) :
    Inspected s t :=
  ⟨.flushed h, h.frame.durable, h.frame.disk _ hn⟩

theorem Inspected.trans {s t u : Store} (h : Inspected s t) (k : Inspected t u) : Inspected s u :=
  ⟨h.toRefreshed.trans k.toRefreshed, k.durable.trans h.durable, k.registry.trans h.registry⟩

namespace Sound

variable {config : HeapConfig} {L : Ledger} {s t : Placed P} {u v : Store} {r : Record}

theorem refreshed (h : Sound config L s) (hRefreshed : Refreshed s.store u) :
    Sound config L (⟨s.placement, u⟩ : Placed P) where
  plan := hRefreshed.plan h.plan
  coherent := hRefreshed.coherent h.coherent
  whole := hRefreshed.whole h.coherent h.whole
  present n hn := hRefreshed.present n (h.present n hn)
  header n hn := by
    change HeaderAt P n (u.logical n)
    rw [hRefreshed.logical]
    exact h.header n hn
  data := by
    change Laid _ _ (u.logical .data)
    rw [hRefreshed.logical]
    exact h.data
  index := by
    change SlotsAt _ (u.logical .index)
    rw [hRefreshed.logical]
    exact h.index
  faithful := h.faithful
  placed := LawfulPlacement.upkeep h.placed (hRefreshed.upkeep h.coherent)

omit [LawfulPlacement P] in
/-- A reservation leaves the headers of the files. -/
theorem header_reserved {n : FileName} (hOld : HeaderAt P n (u.logical n)) (hReserved : Reserved u v) :
    HeaderAt P n (v.logical n) := by
  cases n with
  | data => rwa [hReserved.logical_data]
  | index => rwa [hReserved.logical_index]
  | registry =>
      refine hOld.congr fun i _ hHi => (hReserved.head i ?_).symm
      rwa [FileHeader.length_encode, Nat.zero_add] at hHi

omit [LawfulPlacement P] in
/-- Bytes behind the header page leave the header in place. -/
theorem header_write {n : FileName} {image : Nat → UInt8} (h : HeaderAt P n image) {off : Nat}
    (bytes : Bytes) (hOff : PAGE ≤ off) : HeaderAt P n (Image.write image off bytes) := by
  refine h.write_off bytes (Or.inl ?_)
  rw [FileHeader.length_encode, Nat.zero_add]
  exact hOff

omit [LawfulPlacement P] in
theorem slot_state (hBase : PAGE ≤ r.off) (hRange : r.stop (Placement.withBucket P) < 2 ^ 63) :
    Slot.state (r.slot (Placement.withBucket P)).encode = .live (r.slot (Placement.withBucket P)) := by
  rw [Record.stop] at hRange
  refine Slot.state_live ?_ ?_ ?_
  · exact PAGE_pos.trans_le hBase
  · change r.off < 2 ^ 63
    omega
  · change r.totalLen _ < 2 ^ 64
    omega

/-- A record is staged in the place that was allocated for it, then its slot. -/
theorem put {new : List RegistryRow} (h : Sound config L s) (hReserved : Reserved s.store t.store)
    (hKeeps : LawfulPlacement.Keeps config t (L.log ++ [r]) (L.rows ++ new))
    (hForm : r.WellFormed (Placement.withBucket P)) (hIntact : r.intact config.integrity = true)
    (hData : Staged .data r.off (r.bytes (Placement.withBucket P)) t.store u)
    (hIndex : Staged .index (Slot.fileOffset r.header.id)
      (r.slot (Placement.withBucket P)).encode u v) :
    Sound config (L.put (Placement.withBucket P) r new) (⟨t.placement, v⟩ : Placed P) := by
  have hMem : r ∈ L.log ++ [r] := List.mem_append_right _ (List.mem_singleton_self r)
  obtain ⟨hBase, hStop⟩ := LawfulPlacement.bounds hKeeps hMem
  have hRoomy := LawfulPlacement.roomy hKeeps
  have hRange := Nat.lt_of_le_of_lt (hStop.trans hRoomy.reserved) hRoomy.whole.range
  have hDataT := hReserved.coherent_data (h.coherent .data)
  have hIndexT := hReserved.coherent_index (h.coherent .index)
  have hIndexU := Refreshed.coherent_congr hIndexT (hData.frame.paged .index (by decide))
    (hData.frame.disk .index (by decide))
  have hSlot : PAGE ≤ Slot.fileOffset r.header.id := Nat.le_add_right _ _
  have hLogical : ∀ n, n ≠ .index → v.logical n = u.logical n := fun n hn => hIndex.frame.logical hn
  have hLogicalIndex : u.logical .index = s.store.logical .index := by
    rw [hData.frame.logical (by decide), hReserved.logical_index]
  refine ⟨hIndex.frame.plan (hData.frame.plan (hReserved.plan h.plan)), ?_, ?_, ?_, ?_, ?_, ?_, ?_, ?_⟩
  · intro n
    cases n with
    | data =>
        exact Refreshed.coherent_congr hData.coherent (hIndex.frame.paged .data (by decide))
          (hIndex.frame.disk .data (by decide))
    | index => exact hIndex.coherent
    | registry =>
        have hRegistry := hReserved.coherent (h.coherent .registry)
        have hRegistryU := Refreshed.coherent_congr hRegistry
          (hData.frame.paged .registry (by decide)) (hData.frame.disk .registry (by decide))
        exact Refreshed.coherent_congr hRegistryU (hIndex.frame.paged .registry (by decide))
          (hIndex.frame.disk .registry (by decide))
  · intro n
    change (v.file n).Whole
    cases n with
    | data =>
        rw [hIndex.frame.file (by decide)]
        exact hData.whole hDataT hRoomy.whole
    | index =>
        refine hIndex.whole hIndexU ?_
        rw [hData.frame.file (by decide), hReserved.file (by decide)]
        exact h.whole .index
    | registry =>
        rw [hIndex.frame.file (by decide), hData.frame.file (by decide), hReserved.file (by decide)]
        exact h.whole .registry
  · intro n hn
    change (v.disk n).isSome
    have hOld := h.present n hn
    cases n with
    | data =>
        rw [hIndex.frame.disk .data (by decide)]
        exact hData.frame.present (hReserved.present hOld)
    | index =>
        refine hIndex.frame.present ?_
        rwa [hData.frame.disk .index (by decide), hReserved.disk .index (by decide)]
    | registry =>
        rwa [hIndex.frame.disk .registry (by decide), hData.frame.disk .registry (by decide),
          hReserved.disk .registry (by decide)]
  · intro n hn
    have hOld := header_reserved (h.header n hn) hReserved
    change HeaderAt P n (v.logical n)
    cases n with
    | data =>
        rw [hLogical .data (by decide), hData.logical]
        exact header_write hOld _ hBase
    | index =>
        rw [hIndex.logical, hData.frame.logical (by decide)]
        exact header_write hOld _ hSlot
    | registry =>
        rw [hLogical .registry (by decide), hData.frame.logical (by decide)]
        exact hOld
  · change Laid _ _ (v.logical .data)
    rw [hLogical .data (by decide), hData.logical, hReserved.logical_data]
    exact h.data.concat hForm (fun old hOld => LawfulPlacement.apart hKeeps hOld) hBase
  · change SlotsAt _ (v.logical .index)
    rw [hIndex.logical, hLogicalIndex]
    have hWrite := h.index.write r.header.id (Slot.length_encode (r.slot (Placement.withBucket P)))
    rwa [slot_state hBase hRange] at hWrite
  · exact h.faithful.put hIntact new
  · exact LawfulPlacement.upkeep hKeeps ((hData.upkeep_data hDataT).trans (Upkeep.of_index hIndex.frame))

/-- A tombstone is staged over a live slot. -/
theorem bury {id : Nat} {slot : Slot} (h : Sound config L s) (hLive : L.slots id = .live slot)
    (hIndex : Staged .index (Slot.fileOffset id) slot.tombstone.encode s.store u) :
    Sound config (L.bury id slot) (⟨s.placement, u⟩ : Placed P) := by
  have hSlot : PAGE ≤ Slot.fileOffset id := Nat.le_add_right _ _
  have hRefreshed : ∀ n, n ≠ .index → u.logical n = s.store.logical n := fun n hn =>
    hIndex.frame.logical hn
  have hState : Slot.state slot.tombstone.encode = .deleted slot := by
    have hRead := h.index id
    rw [hLive] at hRead
    obtain ⟨-, hOffset, hTotal⟩ := Slot.offset_of_live hRead
    exact Slot.state_tombstone hOffset hTotal
  refine ⟨hIndex.frame.plan h.plan, ?_, ?_, ?_, ?_, ?_, ?_, h.faithful.bury hLive, ?_⟩
  · intro n
    by_cases hn : n = .index
    · exact hn ▸ hIndex.coherent
    · exact Refreshed.coherent_congr (h.coherent n) (hIndex.frame.paged n hn) (hIndex.frame.disk n hn)
  · intro n
    by_cases hn : n = .index
    · subst hn
      exact hIndex.whole (h.coherent .index) (h.whole .index)
    · change (u.file n).Whole
      rw [hIndex.frame.file hn]
      exact h.whole n
  · intro n hn
    by_cases hIs : n = .index
    · subst hIs
      exact hIndex.frame.present (h.present .index hn)
    · change (u.disk n).isSome
      rw [hIndex.frame.disk n hIs]
      exact h.present n hn
  · intro n hn
    change HeaderAt P n (u.logical n)
    by_cases hIs : n = .index
    · subst hIs
      rw [hIndex.logical]
      exact header_write (h.header .index hn) _ hSlot
    · rw [hRefreshed n hIs]
      exact h.header n hn
  · change Laid _ _ (u.logical .data)
    rw [hRefreshed .data (by decide)]
    exact h.data
  · change SlotsAt _ (u.logical .index)
    rw [hIndex.logical]
    have hWrite := h.index.write id (Slot.length_encode slot.tombstone)
    rwa [hState] at hWrite
  · exact LawfulPlacement.upkeep h.placed (Upkeep.of_index hIndex.frame)

end Sound

end Heap

end HeapStore
