import HeapStore.Heap.AppendRuns
import HeapStore.Heap.Reopen

/-! Opening an append store whose index is older than its data: what the data
file holds is caught up with, and only the tombstones of the index remain. -/
namespace HeapStore

open Effect PagedFile IndexFile WalkRange

namespace Heap

open AppendPlacement

variable {config : HeapConfig} {h older newer : Heap AppendPlacement} {L M : Ledger}
  {early late events : List Event} {s t : Store} {id : Nat}

/-- The files of an append store, just opened, all of whole pages. -/
structure JustOpened (s : Store) : Prop where
  plan : s.plan = []
  handles : ∀ n, s.paged n = .fresh
  whole : ∀ n, (s.file n).Whole
  present : ∀ n, HasFile AppendPlacement n → (s.disk n).isSome
  header : ∀ n, HasFile AppendPlacement n → HeaderAt AppendPlacement n (s.file n).bytes

theorem JustOpened.atRest (h : JustOpened s) : AtRest AppendPlacement s :=
  ⟨h.plan, h.handles, h.whole, h.present, h.header⟩

/-- A recovered store is sound for the records of its data file. -/
theorem JustOpened.sound {log : List Record} {cursor next : Nat} {slots slots' : Nat → SlotState}
    (h : JustOpened s) (hStored : Stored config log cursor slots s)
    (hHolding : Holding True True (s.file .data).bytes slots' t)
    (hWork : IndexWork (IndexWork.noted s (s.file .data).size) t)
    (hFaithful : (⟨log, slots', []⟩ : Ledger).Faithful false config.integrity)
    (hNumbers : ∀ id, (∃ r ∈ log, r.header.id = id) ↔ id < next) :
    Sound config ⟨log, slots', []⟩ (⟨⟨cursor, next⟩, t⟩ : Placed AppendPlacement) := by
  have hPaged := h.atRest.paged_data hWork
  have hFile : t.file .data = s.file .data := hWork.file (by decide)
  refine h.atRest.sound hStored.laid hHolding hWork hFaithful
    { chain := hStored.chain
      reserved := ?_
      roomy := ⟨by rw [hFile]; exact h.whole .data, by rw [hPaged, hFile]⟩
      numbers := hNumbers
      rows := rfl }
  change cursor ≤ (t.paged .data).allocatedEnd
  rw [hPaged]
  exact hStored.inside

/-- Opening a store whose slots name records of its chain takes up the tail
behind them, as far as it continues the numbers. -/
theorem JustOpened.opens {log before tail : List Record} {cursor : Nat} {slots : Nat → SlotState}
    (h : JustOpened s) (hStored : Stored config log cursor slots s) (hLog : log = before ++ tail)
    (hCaught : Caught config (s.file .data).bytes slots before tail (scanned slots s).maxEnd cursor
      (s.file .data).size (scanned slots s).nextId) (order : HashOrder) :
    ∃ restored t, AppendPlacement.open order config false s =
        .ok (⟨cursor, nextAfter (scanned slots s).nextId (continued (scanned slots s).nextId tail)⟩,
          restored) t ∧
      Holding True True (s.file .data).bytes
        (recovered slots (continued (scanned slots s).nextId tail)) t ∧
      IndexWork (IndexWork.noted s (s.file .data).size) t := by
  obtain ⟨hTail, hOver⟩ := hCaught.tailOf_eq
  have hSane : Sane config (s.file .data).bytes slots (s.file .data).size (scanned slots s) := by
    refine ⟨fun id slot hPlace => ?_, hOver, fun f hf => ?_⟩
    · obtain ⟨r, hr, -, rfl⟩ := hStored.named id slot hPlace
      have hStop := (hStored.chain.bounds hr).2.trans hStored.inside
      have hRange := hStored.data.range
      change r.stop false < 2 ^ 64
      omega
    · rw [hTail] at hf
      obtain ⟨r, hr, rfl⟩ := List.mem_map.mp hf
      exact hStored.addressable r (hLog ▸ List.mem_append_right _ hr)
  have hRecovery : recovery order config (s.file .data).bytes slots (s.file .index).size
      (s.file .data).size = ⟨⟨cursor, nextAfter (scanned slots s).nextId
        (continued (scanned slots s).nextId tail)⟩,
        recovered slots (continued (scanned slots s).nextId tail)⟩ := by
    rw [recovery_scanned, recoveryFrom_of_caught hCaught]
  have hMeets := open_meets order config
    (h.atRest.holding hStored.slotted)
    (by rw [h.handles]; rfl) hStored.index_range hStored.data_range fun (_ : True) => hSane
  rw [hRecovery] at hMeets
  cases hRun : AppendPlacement.open order config false s with
  | error e t => exact absurd (hMeets.failsOnly e t hRun) not_refuses
  | ok out t =>
      obtain ⟨hOut, hHolding, hWork⟩ := hMeets.ok hRun
      simp only at hOut
      exact ⟨out.2, t, by rw [← hOut], hHolding, hWork⟩

/-! An index as of an earlier operation. -/

/-- The files of an append store, just opened, where the index has the slots of
one heap and the data file the records of another. -/
structure LeftBehind (older newer : Heap AppendPlacement) (s : Store) : Prop where
  plan : s.plan = []
  handles : ∀ n, s.paged n = .fresh
  whole : ∀ n, (s.file n).Whole
  present : ∀ n, HasFile AppendPlacement n → (s.disk n).isSome
  index : (s.file .index).bytes = older.store.logical .index
  data : (s.file .data).bytes = newer.store.logical .data
  inside : newer.placement.cursor ≤ (s.file .data).size

/-- What the slot of a number says. -/
def slotState (h : Heap AppendPlacement) (id : Nat) : SlotState :=
  Slot.state (Image.read (h.store.logical .index) (Slot.fileOffset id) SLOT_SIZE)

/-- The index is caught up with the data: what was deleted early stays deleted,
and all else has the payload that was written last. -/
structure CaughtUp (config : HeapConfig) (early events : List Event) (h : Heap AppendPlacement) :
    Prop where
  deleted : ∀ id, .deleted id ∈ early ↔ ∃ slot, slotState h id = .deleted slot
  buried : ∀ id, .deleted id ∈ early → ∃ h', read config id h = .error (.error (.notFound id)) h'
  newest : ∀ id payload, .deleted id ∉ early → latest events id = some payload →
    ∃ h', read config id h = .ok payload h'
  unwritten : ∀ id, latest events id = none → slotState h id = .empty

theorem LeftBehind.justOpened (hLeft : LeftBehind older newer s) (hOlder : Sound config L older.placed)
    (hNewer : Sound config M newer.placed) : JustOpened s where
  plan := hLeft.plan
  handles := hLeft.handles
  whole := hLeft.whole
  present := hLeft.present
  header n hn := by
    cases n with
    | data =>
        rw [hLeft.data]
        exact hNewer.header .data hn
    | index =>
        rw [hLeft.index]
        exact hOlder.header .index hn
    | registry => exact absurd (hn rfl) (by decide)

/-- The records of a ledger stay, in their order. -/
theorem log_prefix (hGrows : L.Grows false late M) : ∃ tail, M.log = L.log ++ tail :=
  hGrows.preserves (I := fun N => ∃ tail, N.log = L.log ++ tail)
    (fun N e N' hOld hStep => by
      obtain ⟨tail, hTail⟩ := hOld
      cases hStep with
      | inserted r => exact ⟨tail ++ [r], by rw [Ledger.put, hTail, List.append_assoc]⟩
      | updated _ r => exact ⟨tail ++ [r], by rw [Ledger.put, hTail, List.append_assoc]⟩
      | deleted => exact ⟨tail, hTail⟩
      | observed => exact ⟨tail, hTail⟩)
    ⟨[], by simp⟩

/-- The scan of an index finds where its heap was. -/
theorem Sound.scanned_eq {log : List Record} {cursor : Nat} {placed : Placed AppendPlacement}
    (hSound : Sound config L placed) (hHistoric : L.Historic false early)
    (hStored : Stored config log cursor L.slots s) :
    scanned L.slots s = ⟨placed.placement.nextId, placed.placement.cursor⟩ := by
  have hScan := scanned_spec L.slots s
  generalize scanned L.slots s = scan at hScan
  have hUsed : ∀ id, L.slots id ≠ .empty ↔ id < placed.placement.nextId := fun id => by
    rw [hHistoric.written]
    exact hSound.placed.numbers id
  have hPlaced : ∀ id, L.slots id ≠ .empty → ∃ slot, (L.slots id).place = some slot ∧
      id < slotCount (s.file .index).size := fun id hSlot => by
    have hCount : id < slotCount (s.file .index).size := by
      by_contra hPast
      exact hSlot (hStored.empty_past (Nat.not_lt.mp hPast))
    cases hState : L.slots id with
    | empty => exact absurd hState hSlot
    | live slot => exact ⟨slot, rfl, hCount⟩
    | deleted slot => exact ⟨slot, rfl, hCount⟩
  have hChain : Chain false PAGE placed.placement.cursor L.log := hSound.placed.chain
  have hNext : scan.nextId = placed.placement.nextId := by
    refine Nat.le_antisymm ?_ ?_
    · rcases Nat.eq_zero_or_pos scan.nextId with hZero | hPos
      · omega
      · have hLast := (hUsed _).mp (hScan.last (scan.nextId - 1) (by omega)).2
        omega
    · rcases Nat.eq_zero_or_pos placed.placement.nextId with hZero | hPos
      · omega
      · obtain ⟨slot, hSlot, hCount⟩ := hPlaced (placed.placement.nextId - 1) ((hUsed _).mpr (by omega))
        have hBound := (hScan.bound _ slot hCount hSlot).1
        omega
  have hEnd : scan.maxEnd = placed.placement.cursor := by
    refine Nat.le_antisymm ?_ ?_
    · rcases hScan.reached with hBase | ⟨id, slot, -, hSlot, hStop⟩
      · rw [hBase]
        exact hChain.le
      · obtain ⟨r, hr, -, rfl⟩ := hSound.faithful.named id slot hSlot
        rw [hStop]
        exact (hChain.bounds hr).2
    · rcases List.eq_nil_or_concat L.log with hNil | ⟨init, r, hConcat⟩
      · rw [hNil] at hChain
        rw [hChain.eq_of_nil]
        exact hScan.base
      · rw [List.concat_eq_append] at hConcat
        have hr : r ∈ L.log := by simp [hConcat]
        obtain ⟨slot, hSlot, hCount⟩ := hPlaced r.header.id
          ((hHistoric.written _).mpr ⟨r, hr, rfl⟩)
        obtain ⟨x, hx, rfl⟩ := hHistoric.newest _ slot hSlot
        rw [hConcat, newest_concat, if_pos rfl] at hx
        cases hx
        rw [hConcat] at hChain
        rw [hChain.stop_last]
        exact (hScan.bound _ _ hCount hSlot).2
  obtain ⟨nextId, maxEnd⟩ := scan
  rw [show nextId = _ from hNext, show maxEnd = _ from hEnd]

theorem LeftBehind.stored (hLeft : LeftBehind older newer s)
    (hOlder : AppendReached config early older L) (hNewer : AppendReached config events newer M)
    (hPrefix : ∃ tail, M.log = L.log ++ tail) (hCount : ∀ id, updateCount events id ≤ 65534) :
    Stored config M.log newer.placement.cursor L.slots s where
  laid := by
    rw [hLeft.data]
    exact hNewer.sound.data
  intact := hNewer.sound.faithful.intact
  ascending := hNewer.historic.ascending hCount
  chain := hNewer.sound.placed.chain
  inside := hLeft.inside
  data := hLeft.whole .data
  index := hLeft.whole .index
  slotted := by
    rw [hLeft.index]
    exact hOlder.sound.index
  named id slot hPlace := by
    obtain ⟨tail, hTail⟩ := hPrefix
    obtain ⟨r, hr, hBoth⟩ := hOlder.sound.faithful.named id slot hPlace
    exact ⟨r, by rw [hTail]; exact List.mem_append_left _ hr, hBoth⟩
  addressable _ hr := hNewer.addressable hr

/-- Recovered slots name the newest records, tombstones apart. -/
theorem recovered_faithful {tail : List Record} (hOlder : AppendReached config early older L)
    (hNewer : AppendReached config events newer M) (hTail : M.log = L.log ++ tail) :
    (⟨M.log, recovered L.slots tail, []⟩ : Ledger).Faithful false config.integrity where
  intact := hNewer.sound.faithful.intact
  written id := by
    change recovered L.slots tail id ≠ .empty ↔ ∃ r ∈ M.log, r.header.id = id
    have hOld := hOlder.historic.written id
    rw [recovered, hTail]
    cases hNewest : newest tail id with
    | none =>
        simp only [hOld, List.mem_append]
        have hNone := newest_eq_none.mp hNewest
        constructor
        · rintro ⟨r, hr, hId⟩
          exact ⟨r, Or.inl hr, hId⟩
        · rintro ⟨r, hr | hr, hId⟩
          · exact ⟨r, hr, hId⟩
          · exact absurd hId (hNone r hr)
    | some r =>
        obtain ⟨hr, hId⟩ := newest_eq_some hNewest
        refine ⟨fun _ => ⟨r, List.mem_append_right _ hr, hId⟩, fun _ => ?_⟩
        cases L.slots id <;> simp
  named id slot hPlace := by
    change ∃ r ∈ M.log, r.header.id = id ∧ r.slot false = slot
    rw [hTail]
    have hOld : ∀ slot, (L.slots id).place = some slot →
        ∃ r ∈ L.log ++ tail, r.header.id = id ∧ r.slot false = slot := fun slot hSlot => by
      obtain ⟨r, hr, hBoth⟩ := hOlder.sound.faithful.named id slot hSlot
      exact ⟨r, List.mem_append_left _ hr, hBoth⟩
    simp only [recovered] at hPlace
    cases hNewest : newest tail id with
    | none =>
        rw [hNewest] at hPlace
        exact hOld slot hPlace
    | some r =>
        obtain ⟨hr, hId⟩ := newest_eq_some hNewest
        rw [hNewest] at hPlace
        cases hState : L.slots id with
        | deleted other =>
            simp only [hState] at hPlace
            exact hOld slot (by rw [hState]; exact hPlace)
        | live other =>
            simp only [hState, SlotState.place, Option.some.injEq] at hPlace
            exact ⟨r, List.mem_append_right _ hr, hId, hPlace⟩
        | empty =>
            simp only [hState, SlotState.place, Option.some.injEq] at hPlace
            exact ⟨r, List.mem_append_right _ hr, hId, hPlace⟩

/-- What a heap with recovered slots answers. -/
theorem caughtUp_of_recovered {tail : List Record} (hOlder : AppendReached config early older L)
    (hNewer : AppendReached config events newer M) (hTail : M.log = L.log ++ tail)
    (hSound : Sound config ⟨M.log, recovered L.slots tail, []⟩ h.placed) (hReady : Ready h) :
    CaughtUp config early events h := by
  have hState : ∀ id, slotState h id = recovered L.slots tail id := hSound.index
  have hEmpty : ∀ id, L.slots id = .empty → newest L.log id = none := fun id hSlot => by
    rw [newest_eq_none]
    intro r hr hId
    exact (hOlder.historic.written id).mpr ⟨r, hr, hId⟩ hSlot
  have hDeleted : ∀ id, .deleted id ∈ early ↔ ∃ slot, recovered L.slots tail id = .deleted slot := by
    intro id
    rw [← hOlder.historic.deleted id, recovered]
    cases newest tail id with
    | none => exact Iff.rfl
    | some r => cases L.slots id <;> simp
  have hAddressable : ∀ id, recovered L.slots tail id ≠ .empty → Addressable id := fun id hSlot => by
    obtain ⟨r, hr, rfl⟩ := (hSound.faithful.written id).mp hSlot
    exact hNewer.addressable hr
  refine ⟨fun id => by rw [hState]; exact hDeleted id, fun id hId => ?_, fun id payload hId hLatest => ?_,
    fun id hLatest => ?_⟩
  · obtain ⟨slot, hSlot⟩ := (hDeleted id).mp hId
    obtain ⟨u, -, hRun⟩ := read_missing hSound hReady (hAddressable id (by rw [hSlot]; simp))
      (by rw [show (⟨M.log, recovered L.slots tail, []⟩ : Ledger).slots id = .deleted slot from hSlot]; rfl)
    exact ⟨_, hRun⟩
  · rw [← hNewer.historic.newest_latest] at hLatest
    obtain ⟨r, hNewest, rfl⟩ := Option.map_eq_some_iff.mp hLatest
    obtain ⟨hr, hSame⟩ := newest_eq_some hNewest
    have hNotDeleted : ∀ slot, L.slots id ≠ .deleted slot := fun slot hSlot =>
      hId ((hOlder.historic.deleted id).mp ⟨slot, hSlot⟩)
    have hLive : recovered L.slots tail id = .live (r.slot false) := by
      rw [hTail, newest_append] at hNewest
      rw [recovered]
      cases hTailNewest : newest tail id with
      | some x =>
          rw [hTailNewest] at hNewest
          cases hNewest
          cases hSlot : L.slots id with
          | deleted slot => exact absurd hSlot (hNotDeleted slot)
          | live slot => rfl
          | empty => rfl
      | none =>
          rw [hTailNewest, Option.none_or] at hNewest
          cases hSlot : L.slots id with
          | deleted slot => exact absurd hSlot (hNotDeleted slot)
          | live slot =>
              obtain ⟨x, hx, rfl⟩ := hOlder.historic.newest id slot (by rw [hSlot]; rfl)
              rw [hNewest] at hx
              cases hx
              rfl
          | empty =>
              rw [hEmpty id hSlot] at hNewest
              cases hNewest
    obtain ⟨u, -, hRun⟩ := read_live hSound hReady (hAddressable id (by rw [hLive]; simp)) hr hSame hLive
    exact ⟨_, hRun⟩
  · rw [hState]
    rw [← hNewer.historic.newest_latest, Option.map_eq_none_iff, newest_eq_none] at hLatest
    by_contra hUsed
    obtain ⟨r, hr, hSame⟩ := (hSound.faithful.written id).mp hUsed
    exact hLatest r hr hSame

/-- With an index as of an earlier operation and all records written since, opening
succeeds with the later cursor and next number, and every number has its newest
record, what was deleted by the earlier operation apart. -/
theorem append_open_catches_up {start : Store} (hBlank : Blank start) (hOpened : OpenedOn config start h)
    (hEarly : Runs config h early older) (hLate : Runs config older late newer)
    (hCount : ∀ id, updateCount (early ++ late) id ≤ 65534) (hLeft : LeftBehind older newer s)
    (order : HashOrder) :
    ∃ restored t, AppendPlacement.open order config false s = .ok (newer.placement, restored) t ∧
      t.logical .data = newer.store.logical .data ∧
      CaughtUp config early (early ++ late) ⟨⟨newer.placement, t⟩, 0⟩ := by
  obtain ⟨L, -, hOlder⟩ := (AppendReached.created hOpened hBlank).runs hEarly
  rw [List.nil_append] at hOlder
  obtain ⟨M, hGrows, hNewer⟩ := hOlder.runs hLate
  obtain ⟨tail, hTail⟩ := log_prefix hGrows
  have hJust := hLeft.justOpened hOlder.sound hNewer.sound
  have hStored := hLeft.stored hOlder hNewer ⟨tail, hTail⟩ hCount
  have hScanned : scanned L.slots s = ⟨older.placement.nextId, older.placement.cursor⟩ :=
    hOlder.sound.scanned_eq hOlder.historic hStored
  obtain ⟨hGapless, hNext⟩ := hOlder.numbered.rest (hTail ▸ hNewer.numbered)
  have hContinued := continued_of_gapless hGapless
  have hChain : Chain false older.placement.cursor newer.placement.cursor tail := by
    have hAll : Chain false PAGE newer.placement.cursor (L.log ++ tail) := hTail ▸ hNewer.sound.placed.chain
    obtain ⟨mid, hLeftPart, hRight⟩ := hAll.split
    rwa [hLeftPart.end_unique hOlder.sound.placed.chain] at hRight
  have hCaught : Caught config (s.file .data).bytes L.slots L.log tail (scanned L.slots s).maxEnd
      newer.placement.cursor (s.file .data).size (scanned L.slots s).nextId := by
    rw [hScanned]
    exact
      { laid := hTail ▸ hStored.laid
        intact := hTail ▸ hStored.intact
        ascending := hTail ▸ hStored.ascending
        prior := fun r hr => (hOlder.sound.placed.chain.bounds hr).2
        chain := hChain
        inside := hLeft.inside
        range := hStored.data_range
        named := hOlder.sound.faithful.named
        next := fun id hUsed =>
          (hOlder.numbered.mem id).mp ((hOlder.historic.written id).mp hUsed)
        base := hOlder.sound.placed.chain.le }
  obtain ⟨restored, t, hRun, hHolding, hWork⟩ := hJust.opens hStored hTail hCaught order
  rw [hScanned] at hRun hHolding
  simp only [hContinued, hNext] at hRun hHolding
  have hSound := hJust.sound hStored hHolding hWork (recovered_faithful hOlder hNewer hTail)
    fun id => hNewer.numbered.mem id
  refine ⟨restored, t, hRun, ?_, caughtUp_of_recovered hOlder hNewer hTail hSound ⟨?_, ?_⟩⟩
  · rw [Store.logical, hHolding.settled.staged, hHolding.settled.bytes, hLeft.data]
    rfl
  · intro w hw
    change w ∈ (t.paged .data).stagedWrites at hw
    rw [hHolding.settled.staged] at hw
    cases hw
  · exact hHolding.reach trivial

/-- The index file of one store next to the other files of another, without handles. -/
def withIndexOf (index others : Store) : Store :=
  { disk := Function.update others.disk .index (index.disk .index)
    durable := others.durable, plan := [], issued := [], paged := fun _ => .fresh }

/-- The files of two flushed heaps, the index from the older one. -/
theorem leftBehind_of_flushed {old new : Store} (hOlder : Sound config L older.placed)
    (hNewer : Sound config M newer.placed) (hOld : FlushedAll false old older.store)
    (hNew : FlushedAll false new newer.store) :
    LeftBehind older newer (withIndexOf older.store newer.store) := by
  have hIndexFile : (withIndexOf older.store newer.store).file .index = older.store.file .index := by
    simp [withIndexOf, Store.file]
  have hFile : ∀ n, n ≠ .index →
      (withIndexOf older.store newer.store).file n = newer.store.file n := fun n hn => by
    simp [withIndexOf, Store.file, Function.update_of_ne hn]
  refine ⟨rfl, fun _ => rfl, fun n => ?_, fun n hn => ?_, ?_, ?_, ?_⟩
  · by_cases hn : n = .index
    · subst hn
      rw [hIndexFile]
      exact hOlder.whole .index
    · rw [hFile n hn]
      exact hNewer.whole n
  · by_cases hIs : n = .index
    · subst hIs
      simp only [withIndexOf, Function.update_self]
      exact hOlder.present .index hn
    · simp only [withIndexOf, Function.update_of_ne hIs]
      exact hNewer.present n hn
  · rw [hIndexFile, Store.logical, hOld.staged (by decide)]
    rfl
  · rw [hFile .data (by decide), Store.logical, hNew.staged (by decide)]
    rfl
  · rw [hFile .data (by decide)]
    exact hNewer.placed.reserved.trans hNewer.placed.roomy.reserved

/-- One record of one byte is missing in the index, and is recovered. -/
theorem append_open_catches_up_first :
    ∃ (h older newer : Heap AppendPlacement) (s : Store),
      OpenedOn ⟨.none, true, 2 ^ 20, 2 ^ 20, PAGE, 1, 2 ^ 20⟩ .empty h ∧
      Runs ⟨.none, true, 2 ^ 20, 2 ^ 20, PAGE, 1, 2 ^ 20⟩ older [.inserted 0 0 [7], .observed] newer ∧
      LeftBehind older newer s ∧
      ∃ restored t, AppendPlacement.open ⟨fun keys => keys, fun _ => .refl _⟩
          ⟨.none, true, 2 ^ 20, 2 ^ 20, PAGE, 1, 2 ^ 20⟩ false s = .ok (newer.placement, restored) t ∧
        t.logical .data = newer.store.logical .data ∧
        CaughtUp ⟨.none, true, 2 ^ 20, 2 ^ 20, PAGE, 1, 2 ^ 20⟩ [.observed]
          ([.observed] ++ [.inserted 0 0 [7], .observed]) ⟨⟨newer.placement, t⟩, 0⟩ := by
  have hBlank : Blank .empty := ⟨fun _ => rfl, fun _ => rfl, rfl⟩
  obtain ⟨h, hOpened, hPlacement, hFirst⟩ := exists_opened
    ⟨.none, true, 2 ^ 20, 2 ^ 20, PAGE, 1, 2 ^ 20⟩ hBlank (by decide)
  obtain ⟨older, hOldFlush, L, hOlder, hOldPlacement, hOldAll⟩ := hFirst.flush
  rw [hPlacement] at hOldPlacement
  obtain ⟨g, M, hInsert, hInsertPlacement, hMid⟩ := hOlder.insert 0 [7]
    (by decide) (by rw [hOldPlacement]; decide) (by rw [hOldPlacement]; exact addressable_of_lt (by decide))
  obtain ⟨newer, hNewFlush, N, hNewer, -, hNewAll⟩ := hMid.flush
  rw [hOldPlacement] at hInsert
  have hLeft := leftBehind_of_flushed hOlder.sound hNewer.sound hOldAll hNewAll
  have hEarly : Runs ⟨.none, true, 2 ^ 20, 2 ^ 20, PAGE, 1, 2 ^ 20⟩ h [.observed] older :=
    .step .refl (.flushed hOldFlush)
  have hLate : Runs _ older [.inserted 0 0 [7], .observed] newer :=
    .step (.step .refl hInsert) (.flushed hNewFlush)
  exact ⟨h, older, newer, _, hOpened, hLate, hLeft,
    append_open_catches_up hBlank hOpened hEarly hLate
      (fun id => by
        refine (List.countP_le_length).trans ?_
        decide) hLeft _⟩

end Heap

end HeapStore
