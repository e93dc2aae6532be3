import HeapStore.Heap.BoundedLoss

/-! An append store after a power failure that keeps some of the index pages written since
the last sync of the index: every page is as it was at a moment of its own. -/
namespace HeapStore

open Effect PagedFile IndexFile WalkRange

/-- The numbers that a history wrote, in order. -/
def numbersOf (events : List Event) : List Nat := (events.filterMap Event.write).map Prod.fst

/-- These numbers continue those below the next free one, without a gap. -/
def Consecutive : Nat → List Nat → Prop
  | _, [] => True
  | next, id :: rest => (id = next ∧ Consecutive (next + 1) rest) ∨ (id < next ∧ Consecutive next rest)

theorem consecutive_iff {next : Nat} {log : List Record} :
    Consecutive next (log.map fun r => r.header.id) ↔ AppendPlacement.Gapless next log := by
  induction log generalizing next with
  | nil => exact Iff.rfl
  | cons r rest ih => exact or_congr (and_congr_right fun _ => ih) (and_congr_right fun _ => ih)

/-- The records that were written after a moment have the numbers of the history since. -/
theorem Ledger.Historic.numbers {withBucket : Bool} {early late : List Event} {L M : Ledger}
    {tail : List Record} (h : L.Historic withBucket early) (hAll : M.Historic withBucket (early ++ late))
    (hTail : M.log = L.log ++ tail) : (tail.map fun r => r.header.id) = numbersOf late := by
  have hWrites := hAll.writes
  rw [hTail, List.map_append, h.writes, List.filterMap_append] at hWrites
  have hRest := List.append_cancel_left hWrites
  rw [numbersOf, ← hRest, List.map_map]
  rfl

namespace Heap

/-! The moments since the index was last synced. -/

section Moments

variable {P : Type} [Placement P]

/-- One step in the life of a heap, next to the heaps as they were at the last sync of the
index and after each mutation since. What was written to the index since then is what it
presented at one of these moments. Flushing syncs the index, and so does dropping a heap,
after which its files are opened again. -/
inductive Moments (config : HeapConfig) : List (Heap P) → Heap P → Event → List (Heap P) → Heap P → Prop where
  | flushed {moments : List (Heap P)} {h h' : Heap P} (run : flush h = .ok () h') :
      Moments config moments h .observed [h'] h'
  | reopened {moments : List (Heap P)} {h h' : Heap P} (opened : OpenedOn config (close h) h') :
      Moments config moments h .observed [h'] h'
  | mutated {moments : List (Heap P)} {h h' : Heap P} {e : Event} (run : Performed config h e h')
      (mutates : e.mutates = true) : Moments config moments h e (moments ++ [h']) h'
  | read {moments : List (Heap P)} {h : Heap P} {id : Nat} (range : id < 2 ^ 58) :
      Moments config moments h .observed moments (final (Heap.read config id) h)
  | readBatch {moments : List (Heap P)} {h : Heap P} {ids : List Nat} (range : ∀ id ∈ ids, id < 2 ^ 58) :
      Moments config moments h .observed moments (final (Heap.readBatch config ids) h)

/-- A sequence of such steps, where all that is staged lies within the kernel's file offsets. -/
abbrev Watched (config : HeapConfig) : List (Heap P) × Heap P → List Event → List (Heap P) × Heap P → Prop :=
  Runs.Steps fun a e b => Moments config a.1 a.2 e b.1 b.2 ∧ AllInReach b.2.store

theorem Moments.lived {config : HeapConfig} {moments later : List (Heap P)} {h h' : Heap P} {e : Event}
    (hStep : Moments config moments h e later h') : Lived config h e h' := by
  cases hStep with
  | flushed run => exact .performed (.flushed run)
  | reopened opened => exact .reopened opened
  | mutated run => exact .performed run
  | read range => exact .read range
  | readBatch range => exact .readBatch range

end Moments

open AppendPlacement

variable {config : HeapConfig} {first h h' mid g : Heap AppendPlacement} {L M : Ledger}
  {moments later past : List (Heap AppendPlacement)} {events before after : List Event} {e : Event}
  {s : Store}

/-- A heap with a history, and its moments with the earlier parts of that history. -/
structure Remembered (config : HeapConfig) (events : List Event) (moments : List (Heap AppendPlacement))
    (h : Heap AppendPlacement) (M : Ledger) : Prop where
  last : Continued config events h M
  past : ∀ m ∈ moments, ∃ early late L, early ++ late = events ∧ AppendReached config early m L ∧
    L.Grows false late M

theorem Remembered.step (hOld : Remembered config events moments h L)
    (hCount : ∀ id, updateCount events id ≤ 65534) (hStep : Moments config moments h e later h')
    (hReach : AllInReach h'.store) :
    ∃ M, Ledger.Step false L e M ∧ Remembered config (events ++ [e]) later h' M := by
  obtain ⟨M, hLedger, hNext⟩ := Continued.counting.step hOld.last hCount hStep.lived hReach
  have hNow : ∃ early late L', early ++ late = events ++ [e] ∧ AppendReached config early h' L' ∧
      L'.Grows false late M := ⟨_, [], M, List.append_nil _, hNext.reached, .refl⟩
  have hPast : ∀ m ∈ moments, ∃ early late L', early ++ late = events ++ [e] ∧
      AppendReached config early m L' ∧ L'.Grows false late M := fun m hm => by
    obtain ⟨early, late, L', hEvents, hReached, hGrows⟩ := hOld.past m hm
    exact ⟨early, late ++ [e], L', by rw [← hEvents, List.append_assoc], hReached, hGrows.step hLedger⟩
  refine ⟨M, hLedger, hNext, fun m hm => ?_⟩
  cases hStep with
  | flushed => exact List.mem_singleton.mp hm ▸ hNow
  | reopened => exact List.mem_singleton.mp hm ▸ hNow
  | mutated =>
      rcases List.mem_append.mp hm with hm | hm
      · exact hPast m hm
      · exact List.mem_singleton.mp hm ▸ hNow
  | read => exact hPast m hm
  | readBatch => exact hPast m hm

/-- A whole life. -/
theorem Watched.remembered {a b : List (Heap AppendPlacement) × Heap AppendPlacement} {more : List Event}
    (hWatched : Watched config a more b) (hStart : Remembered config events a.1 a.2 L)
    (hCount : ∀ id, updateCount (events ++ more) id ≤ 65534) :
    ∃ M, L.Grows false more M ∧ Remembered config (events ++ more) b.1 b.2 M := by
  induction hWatched with
  | refl => exact ⟨L, .refl, by simpa using hStart⟩
  | step _ last ih =>
      rw [← List.append_assoc] at hCount ⊢
      have hBefore := updateCount_le_left hCount
      obtain ⟨M, hGrows, hMid⟩ := ih hBefore
      obtain ⟨N, hStep, hNext⟩ := hMid.step hBefore last.1 last.2
      exact ⟨N, hGrows.step hStep, hNext⟩

theorem OpenedOn.remembered {start : Store} (hOpened : OpenedOn config start first) (hBlank : Blank start)
    (hReach : AllInReach first.store) : Remembered config [] [first] first .empty := by
  have hReached := AppendReached.created hOpened hBlank
  refine ⟨⟨⟨⟨hReached.sound, hReached.historic, hReach, List.nodup_nil⟩, ?_⟩, hReached.numbered⟩,
    fun m hm => ?_⟩
  · rw [hOpened.count]
    decide
  · rw [List.mem_singleton.mp hm]
    exact ⟨[], [], .empty, rfl, hReached, .refl⟩

/-! What the failure leaves. -/

/-- What is left of an append store when the power fails right after a commit: the data file
as it was committed, and every page of the index as it was at one of the moments. -/
structure PagesLeft (moments : List (Heap AppendPlacement)) (g : Heap AppendPlacement) (s : Store) :
    Prop where
  plan : s.plan = []
  handles : ∀ n, s.paged n = .fresh
  data : s.disk .data = g.store.durable .data
  registry : s.disk .registry = g.store.disk .registry
  index : ∃ f, s.disk .index = some f ∧ f.Whole ∧ ∀ page, ∃ m ∈ moments,
    Image.Agree f.bytes (m.store.logical .index) (page * PAGE) (page * PAGE + PAGE)

/-- What the index file says of a number. -/
def fileSlot (s : Store) (id : Nat) : SlotState :=
  Slot.state (Image.read (s.file .index).bytes (Slot.fileOffset id) SLOT_SIZE)

/-- The last of the records that the index file names ends here. -/
structure EndsAt (cursor : Nat) (s : Store) : Prop where
  bound : ∀ id slot, (fileSlot s id).place = some slot → slot.offset + slot.totalLen ≤ cursor
  reached : cursor = PAGE ∨ ∃ id slot, (fileSlot s id).place = some slot ∧ slot.offset + slot.totalLen = cursor

/-- The index file has slots up to this number. -/
structure FreeFrom (next : Nat) (s : Store) : Prop where
  below : ∀ id, fileSlot s id ≠ .empty → id < next
  last : ∀ id, id + 1 = next → fileSlot s id ≠ .empty

/-- What is left can be repaired, where `mid` is the heap as it was when the last of the
records was written that the index file names: of a number that was not written after that
the file has the slot as it is, and the numbers written after it follow those of the file. -/
structure Repairable (mid : Heap AppendPlacement) (after : List Event) (g : Heap AppendPlacement)
    (s : Store) : Prop where
  ends : EndsAt mid.placement.cursor s
  kept : ∀ id, id ∉ numbersOf after → fileSlot s id = slotState g id
  continues : ∃ next, FreeFrom next s ∧ Consecutive next (numbersOf after)

namespace PagesLeft

/-- A slot lies in one page, so it is as it was at one of the moments. -/
theorem slot (hLeft : PagesLeft moments g s) (id : Nat) : ∃ m ∈ moments, fileSlot s id = slotState m id := by
  obtain ⟨f, hDisk, -, hPages⟩ := hLeft.index
  obtain ⟨m, hm, hAgree⟩ := hPages (Slot.fileOffset id / PAGE)
  refine ⟨m, hm, ?_⟩
  have hFile : s.file .index = f := by rw [Store.file, hDisk, Option.getD_some]
  rw [fileSlot, slotState, hFile]
  refine congrArg Slot.state (Image.read_congr (hAgree.mono ?_ ?_))
  · exact Nat.div_mul_le_self _ _
  · simp only [Slot.fileOffset, SLOT_SIZE, PAGE]
    omega

/-- A slot names a record of its number, and is no tombstone where nothing was deleted. -/
theorem named (hLeft : PagesLeft moments g s) (hRemembered : Remembered config events moments h M)
    (hKept : ∀ id, .deleted id ∉ events) (id : Nat) :
    fileSlot s id = .empty ∨ ∃ r ∈ M.log, r.header.id = id ∧ fileSlot s id = .live (r.slot false) := by
  obtain ⟨m, hm, hSame⟩ := hLeft.slot id
  obtain ⟨early, late, L, rfl, hReached, hGrows⟩ := hRemembered.past m hm
  have hState : fileSlot s id = L.slots id := hSame.trans (hReached.sound.index id)
  rw [hState]
  cases hSlot : L.slots id with
  | empty => exact Or.inl rfl
  | live slot =>
      obtain ⟨r, hr, hId, rfl⟩ := hReached.sound.faithful.named id slot (by rw [hSlot]; rfl)
      obtain ⟨tail, hTail⟩ := log_prefix hGrows
      exact Or.inr ⟨r, by rw [hTail]; exact List.mem_append_left _ hr, hId, rfl⟩
  | deleted slot =>
      have hDeleted := (hReached.historic.deleted id).mp ⟨slot, hSlot⟩
      exact absurd (List.mem_append_left _ hDeleted) (hKept id)

/-- The data file is as it was committed. -/
theorem dataFile (hLeft : PagesLeft moments g s) (hCommitted : Committed false h.store g.store) :
    s.disk .data = g.store.disk .data ∧ (s.file .data).bytes = g.store.logical .data := by
  have hDisk : s.disk .data = g.store.disk .data := hLeft.data.trans hCommitted.durable.1
  refine ⟨hDisk, ?_⟩
  rw [Store.logical, hCommitted.staged_data, Store.overlay_nil, Store.file, hDisk]
  rfl

theorem justOpened (hLeft : PagesLeft moments g s) (hRemembered : Remembered config events moments h M)
    (hCommitted : Committed false h.store g.store) (hSound : Sound config M g.placed) : JustOpened s := by
  obtain ⟨hData, hBytes⟩ := hLeft.dataFile hCommitted
  obtain ⟨f, hIndex, hWhole, hPages⟩ := hLeft.index
  have hFile : s.file .index = f := by rw [Store.file, hIndex, Option.getD_some]
  refine ⟨hLeft.plan, hLeft.handles, fun n => ?whole, fun n hn => ?present, fun n hn => ?header⟩
  case whole =>
    cases n with
    | data =>
        rw [Store.file, hData]
        exact hSound.whole .data
    | index => exact hFile ▸ hWhole
    | registry =>
        rw [Store.file, hLeft.registry]
        exact hSound.whole .registry
  case present =>
    cases n with
    | data =>
        rw [hData]
        exact hSound.present .data hn
    | index => rw [hIndex, Option.isSome_some]
    | registry => exact absurd (hn rfl) (by decide)
  case header =>
    cases n with
    | data =>
        rw [hBytes]
        exact hSound.header .data hn
    | index =>
        obtain ⟨m, hm, hAgree⟩ := hPages 0
        obtain ⟨early, late, L, -, hReached, -⟩ := hRemembered.past m hm
        rw [hFile]
        refine (hReached.sound.header .index hn).congr ((hAgree.symm).mono ?_ ?_)
        · simp
        · rw [FileHeader.length_encode, Nat.zero_mul]
    | registry => exact absurd (hn rfl) (by decide)

theorem stored (hLeft : PagesLeft moments g s) (hRemembered : Remembered config events moments h M)
    (hCommitted : Committed false h.store g.store) (hSound : Sound config M g.placed)
    (hKept : ∀ id, .deleted id ∉ events)
    (hCount : ∀ id, updateCount events id ≤ 65534) :
    Stored config M.log g.placement.cursor (fileSlot s) s := by
  obtain ⟨hData, hBytes⟩ := hLeft.dataFile hCommitted
  have hJust := hLeft.justOpened hRemembered hCommitted hSound
  have hDataFile : s.file .data = g.store.file .data := by rw [Store.file, hData]; rfl
  refine
    { laid := by rw [hBytes]; exact hSound.data
      intact := hSound.faithful.intact
      ascending := hRemembered.last.historic.ascending hCount
      chain := hSound.placed.chain
      inside := by rw [hDataFile]; exact hSound.placed.reserved.trans hSound.placed.roomy.reserved
      data := hJust.whole .data
      index := hJust.whole .index
      slotted := fun _ => rfl
      named := fun id slot hPlace => ?_
      addressable := fun r hr => hRemembered.last.reached.addressable hr }
  rcases hLeft.named hRemembered hKept id with hEmpty | ⟨r, hr, hId, hLive⟩
  · rw [hEmpty] at hPlace
    cases hPlace
  · rw [hLive] at hPlace
    exact ⟨r, hr, hId, Option.some.inj hPlace⟩

end PagesLeft

/-- The scan of what is left finds the last named record and the number behind the last slot. -/
theorem EndsAt.scanned_eq {log : List Record} {cursor stop next : Nat} (hEnds : EndsAt stop s)
    (hFree : FreeFrom next s) (hStored : Stored config log cursor (fileSlot s) s) (hBase : PAGE ≤ stop) :
    scanned (fileSlot s) s = ⟨next, stop⟩ := by
  have hScan := scanned_spec (fileSlot s) s
  generalize scanned (fileSlot s) s = scan at hScan
  have hCounted : ∀ id, fileSlot s id ≠ .empty → id < slotCount (s.file .index).size := fun id hSlot => by
    by_contra hPast
    exact hSlot (hStored.empty_past (Nat.not_lt.mp hPast))
  have hEnd : scan.maxEnd = stop := by
    refine Nat.le_antisymm ?_ ?_
    · rcases hScan.reached with hPage | ⟨id, slot, -, hSlot, hStop⟩
      · exact hPage.le.trans hBase
      · exact hStop.le.trans (hEnds.bound id slot hSlot)
    · rcases hEnds.reached with hPage | ⟨id, slot, hSlot, hStop⟩
      · exact hPage.le.trans hScan.base
      · have hCount := hCounted id fun hEmpty => by
          rw [hEmpty] at hSlot
          cases hSlot
        exact hStop.symm.le.trans (hScan.bound id slot hCount hSlot).2
  have hUsed : ∀ id, fileSlot s id ≠ .empty → id < scan.nextId := fun id hSlot => by
    cases hState : fileSlot s id with
    | empty => exact absurd hState hSlot
    | live slot => exact (hScan.bound id slot (hCounted id hSlot) (by rw [hState]; rfl)).1
    | deleted slot => exact (hScan.bound id slot (hCounted id hSlot) (by rw [hState]; rfl)).1
  have hNext : scan.nextId = next := by
    refine Nat.le_antisymm ?_ ?_
    · rcases Nat.eq_zero_or_pos scan.nextId with hZero | hPos
      · omega
      · have hLt := hFree.below _ (hScan.last (scan.nextId - 1) (by omega)).2
        omega
    · rcases Nat.eq_zero_or_pos next with hZero | hPos
      · omega
      · have hLt := hUsed _ (hFree.last (next - 1) (by omega))
        omega
  obtain ⟨nextId, maxEnd⟩ := scan
  rw [show nextId = _ from hNext, show maxEnd = _ from hEnd]

/-- With the records behind the last named one taken up, every slot is as it was. -/
theorem Repairable.recovered_eq {tail : List Record} (hRepairable : Repairable mid after g s)
    (hLeft : PagesLeft moments g s) (hRemembered : Remembered config events moments h M)
    (hSound : Sound config M g.placed) (hKept : ∀ id, .deleted id ∉ events)
    (hTail : M.log = L.log ++ tail) (hNumbers : (tail.map fun r => r.header.id) = numbersOf after) :
    recovered (fileSlot s) tail = M.slots := by
  have hHistoric := hRemembered.last.historic
  funext id
  rw [recovered]
  cases hNewest : newest tail id with
  | none =>
      have hOther : id ∉ numbersOf after := fun hId => by
        rw [← hNumbers] at hId
        obtain ⟨r, hr, hSame⟩ := List.mem_map.mp hId
        exact newest_eq_none.mp hNewest r hr hSame
      exact (hRepairable.kept id hOther).trans (hSound.index id)
  | some r =>
      have hAll : newest M.log id = some r := by rw [hTail, newest_append, hNewest, Option.some_or]
      obtain ⟨hr, hSame⟩ := newest_eq_some hAll
      have hState : M.slots id = .live (r.slot false) := by
        cases hSlot : M.slots id with
        | empty => exact absurd hSlot ((hHistoric.written id).mpr ⟨r, hr, hSame⟩)
        | live slot =>
            obtain ⟨x, hx, rfl⟩ := hHistoric.newest id slot (by rw [hSlot]; rfl)
            rw [hAll] at hx
            cases hx
            rfl
        | deleted slot => exact absurd ((hHistoric.deleted id).mp ⟨slot, hSlot⟩) (hKept id)
      rw [hState]
      rcases hLeft.named hRemembered hKept id with hEmpty | ⟨x, -, -, hLive⟩
      · simp only [hEmpty]
      · simp only [hLive]

/-- The numbers that are free afterwards are those that were free before. -/
theorem Repairable.next_eq {tail : List Record} {next : Nat} (hRepairable : Repairable mid after g s)
    (hLeft : PagesLeft moments g s) (hRemembered : Remembered config events moments h M)
    (hSound : Sound config M g.placed) (hKept : ∀ id, .deleted id ∉ events)
    (hTail : M.log = L.log ++ tail) (hNumbers : (tail.map fun r => r.header.id) = numbersOf after)
    (hGapless : Gapless next tail) (hFree : FreeFrom next s) : nextAfter next tail = g.placement.nextId := by
  have hBelow : ∀ id, id < next → id < g.placement.nextId := fun id hId => by
    rcases hLeft.named hRemembered hKept (next - 1) with hEmpty | ⟨r, hr, hSame, -⟩
    · exact absurd hEmpty (hFree.last _ (by omega))
    · have hLt := (hSound.placed.numbers _).mp ⟨r, hr, hSame⟩
      change next - 1 < g.placement.nextId at hLt
      omega
  have hBoth : ∀ id, id < nextAfter next tail ↔ id < g.placement.nextId := fun id => by
    rw [← mem_of_gapless hGapless]
    constructor
    · rintro (⟨r, hr, hSame⟩ | hId)
      · exact (hSound.placed.numbers id).mp ⟨r, by rw [hTail]; exact List.mem_append_right _ hr, hSame⟩
      · exact hBelow id hId
    · intro hId
      by_cases hWritten : id ∈ numbersOf after
      · rw [← hNumbers] at hWritten
        obtain ⟨r, hr, hSame⟩ := List.mem_map.mp hWritten
        exact Or.inl ⟨r, hr, hSame⟩
      · refine Or.inr (hFree.below id ?_)
        rw [hRepairable.kept id hWritten]
        have hState : slotState g id = M.slots id := hSound.index id
        rw [hState]
        exact (hSound.faithful.written id).mpr ((hSound.placed.numbers id).mpr hId)
  have hFirst := hBoth g.placement.nextId
  have hSecond := hBoth (nextAfter next tail)
  omega

/-- After a power failure right after a commit that keeps some pages of the index, an append
store that can be repaired opens without a rebuild, and goes on as the key/value map of its
whole history; no number is issued twice. -/
theorem append_pages_recover {start : Store} (hBlank : Blank start) (hOpened : OpenedOn config start first)
    (hReach : AllInReach first.store) (hBefore : Watched config ([first], first) before (past, mid))
    (hAfter : Watched config (past, mid) after (moments, h)) (hKept : ∀ id, .deleted id ∉ before ++ after)
    (hCount : ∀ id, updateCount (before ++ after) id ≤ 65534) (hCommit : commit h = .ok () g)
    (hLeft : PagesLeft moments g s) (hRepairable : Repairable mid after g s) (order : HashOrder) :
    ∃ report t, Heap.open AppendPlacement order config s = .ok (g.placement, report) t ∧
      report.rebuilt = false ∧
      ∀ more k, Lifetime config (⟨⟨g.placement, t⟩, 0⟩ : Heap AppendPlacement) more k →
        (∀ id, updateCount (before ++ after ++ more) id ≤ 65534) →
        (∀ id < 2 ^ 58, ∃ u, Heap.read config id k = match values (before ++ after ++ more) id with
          | some payload => .ok payload u
          | none => .error (.error (.notFound id)) u) ∧
        ((before ++ after ++ more).filterMap Event.issued).Nodup := by
  obtain ⟨L, -, hMid⟩ := hBefore.remembered (hOpened.remembered hBlank hReach) (updateCount_le_left hCount)
  rw [List.nil_append] at hMid
  obtain ⟨M, hGrows, hLast⟩ := hAfter.remembered hMid hCount
  obtain ⟨u, rfl, hCommitted⟩ := commit_ok hLast.last.sound.coherent hCommit
  have hSound : Sound config M (h.withStore u).placed := hLast.last.sound.refreshed (.committed hCommitted)
  have hJust := hLeft.justOpened hLast hCommitted hSound
  have hStored := hLeft.stored hLast hCommitted hSound hKept hCount
  obtain ⟨tail, hTail⟩ := log_prefix hGrows
  have hNumbers := hMid.last.historic.numbers hLast.last.historic hTail
  have hFirst : Chain false PAGE mid.placement.cursor L.log := hMid.last.sound.placed.chain
  obtain ⟨next, hFree, hConsecutive⟩ := hRepairable.continues
  have hScanned := hRepairable.ends.scanned_eq hFree hStored hFirst.le
  have hGapless : Gapless next tail := consecutive_iff.mp (hNumbers ▸ hConsecutive)
  have hChain : Chain false mid.placement.cursor h.placement.cursor tail := by
    have hAll : Chain false PAGE h.placement.cursor (L.log ++ tail) := hTail ▸ hSound.placed.chain
    obtain ⟨stop, hStart, hRest⟩ := hAll.split
    rwa [hStart.end_unique hFirst] at hRest
  have hCaught : Caught config (s.file .data).bytes (fileSlot s) L.log tail (scanned (fileSlot s) s).maxEnd
      h.placement.cursor (s.file .data).size (scanned (fileSlot s) s).nextId := by
    rw [hScanned]
    exact
      { laid := hTail ▸ hStored.laid
        intact := hTail ▸ hStored.intact
        ascending := hTail ▸ hStored.ascending
        prior := fun r hr => (hFirst.bounds hr).2
        chain := hChain
        inside := hStored.inside
        range := hStored.data_range
        named := fun id slot hPlace => by
          obtain ⟨r, hr, hSame, rfl⟩ := hStored.named id slot hPlace
          rw [hTail] at hr
          rcases List.mem_append.mp hr with hr | hr
          · exact ⟨r, hr, hSame, rfl⟩
          · have hStop : r.stop false ≤ mid.placement.cursor := hRepairable.ends.bound id _ hPlace
            have hOff := (hChain.bounds hr).1
            have hLt := r.off_lt_stop false
            omega
        next := hFree.below
        base := hFirst.le }
  obtain ⟨restored, t, hRun, hHolding, hWork⟩ := hJust.opens hStored hTail hCaught order
  have hNext := hRepairable.next_eq hLeft hLast hSound hKept hTail hNumbers hGapless hFree
  rw [hScanned] at hRun hHolding
  simp only [continued_of_gapless hGapless, hNext] at hRun hHolding
  rw [hRepairable.recovered_eq hLeft hLast hSound hKept hTail hNumbers] at hHolding
  have hRows : M.rows = [] := hSound.placed.rows
  have hAgain := hJust.sound hStored hHolding hWork
    ⟨hSound.faithful.intact, hSound.faithful.written, hSound.faithful.named⟩ hSound.placed.numbers
  rw [← hRows] at hAgain
  have hAlive : Alive config (before ++ after) (⟨⟨h.placement, t⟩, 0⟩ : Heap AppendPlacement) M :=
    ⟨hAgain, hLast.last.historic, hJust.atRest.inReach hWork hHolding trivial, hLast.last.once⟩
  refine ⟨⟨false, restored, .none⟩, t, ?_, rfl, fun more k hMore hBound => ?_⟩
  · have hPlacement : Placement.open (P := AppendPlacement) order config false s =
        .ok (h.placement, restored) t := hRun
    rw [hJust.atRest.open_eq, openPlacement, hPlacement]
    rfl
  · obtain ⟨N, -, hFinal⟩ := (Alive.carried trivial).lifetime hMore hAlive hBound
    exact ⟨fun id hId => hFinal.read (addressable_of_lt hId), hFinal.once⟩

/-! Two pages of slots, of which one is left as it was synced. -/

/-- A file that has one page of another. -/
def withPageOf (page : Nat) (old new : File) : File where
  bytes i := if page * PAGE ≤ i ∧ i < page * PAGE + PAGE then old.bytes i else new.bytes i
  size := max old.size new.size
  zero_past i hi := by
    split
    · exact old.zero_past i ((Nat.le_max_left _ _).trans hi)
    · exact new.zero_past i ((Nat.le_max_right _ _).trans hi)

/-- The files of a heap after a power failure that keeps all that was written, apart from one
page of the index, which is as it was last synced. -/
def pageLost (page : Nat) (g : Heap AppendPlacement) : Store :=
  { closed g.store with
    disk := Function.update g.store.disk .index
      (some (withPageOf page ((g.store.durable .index).getD .empty) (g.store.file .index))) }

theorem withPageOf_whole {page : Nat} {old new : File} (hOld : old.Whole) (hNew : new.Whole) :
    (withPageOf page old new).Whole := by
  obtain hMax | hMax := Nat.le_total old.size new.size
  · have hSize : (withPageOf page old new).size = new.size := Nat.max_eq_right hMax
    exact ⟨by rw [hSize]; exact hNew.pages, by rw [hSize]; exact hNew.range⟩
  · have hSize : (withPageOf page old new).size = old.size := Nat.max_eq_left hMax
    exact ⟨by rw [hSize]; exact hOld.pages, by rw [hSize]; exact hOld.range⟩

section PageLost

variable {page : Nat} {old : Heap AppendPlacement}

theorem pageLost_disk {n : FileName} (hn : n ≠ .index) : (pageLost page g).disk n = g.store.disk n :=
  Function.update_of_ne hn _ _

/-- What the index file has after the failure. -/
theorem pageLost_index (page : Nat) (hCommitted : Committed false h.store g.store)
    (hStaged : (old.store.paged .index).stagedWrites = [])
    (hDurable : h.store.durable .index = old.store.disk .index) :
    (pageLost page g).file .index = withPageOf page (old.store.file .index) (g.store.file .index) ∧
      (old.store.file .index).bytes = old.store.logical .index ∧
      (g.store.file .index).bytes = h.store.logical .index := by
  obtain ⟨a, b, c, -, -, -, hIndex⟩ := hCommitted.parts
  refine ⟨?_, ?_, ?_⟩
  · have hDisk : (pageLost page g).disk .index = some (withPageOf page ((g.store.durable .index).getD .empty)
        (g.store.file .index)) := Function.update_self FileName.index _ g.store.disk
    rw [Store.file, hDisk, Option.getD_some, hCommitted.durable.2, hDurable]
    rfl
  · rw [Store.logical, hStaged, Store.overlay_nil]
  · rw [← (Refreshed.committed hCommitted).logical, Store.logical, hIndex.staged, Store.overlay_nil]

theorem pageLost_left (hOld : old ∈ moments) (hNew : h ∈ moments) (hCommitted : Committed false h.store g.store)
    (hStaged : (old.store.paged .index).stagedWrites = [])
    (hDurable : h.store.durable .index = old.store.disk .index) (hPlan : g.store.plan = [])
    (hWholeOld : (old.store.file .index).Whole) (hWhole : (g.store.file .index).Whole) :
    PagesLeft moments g (pageLost page g) := by
  obtain ⟨hFile, hOldBytes, hBytes⟩ := pageLost_index page hCommitted hStaged hDurable
  have hDisk : (pageLost page g).disk .index = some ((pageLost page g).file .index) := by
    simp [pageLost, Store.file]
  refine
    { plan := hPlan
      handles := fun _ => rfl
      data := ?data
      registry := pageLost_disk (by decide)
      index := ⟨_, hDisk, ?whole, fun other => ?pages⟩ }
  case data =>
    rw [pageLost_disk (by decide)]
    exact hCommitted.durable.1.symm
  case whole =>
    rw [hFile]
    exact withPageOf_whole hWholeOld hWhole
  case pages =>
    rw [hFile]
    by_cases hPage : other = page
    · refine ⟨old, hOld, fun i hLo hHi => ?_⟩
      rw [← hOldBytes]
      exact if_pos (hPage ▸ ⟨hLo, hHi⟩)
    · refine ⟨h, hNew, fun i hLo hHi => ?_⟩
      rw [← hBytes]
      refine if_neg ?_
      rintro ⟨hLo', hHi'⟩
      have hSamePage : i / PAGE = other := Nat.div_eq_of_lt_le hLo (by rw [Nat.succ_mul]; exact hHi)
      have hThisPage : i / PAGE = page := Nat.div_eq_of_lt_le hLo' (by rw [Nat.succ_mul]; exact hHi')
      exact hPage (hSamePage.symm.trans hThisPage)

/-- The slots of the first page are those that were synced. -/
theorem pageLost_slot (hCommitted : Committed false h.store g.store)
    (hStaged : (old.store.paged .index).stagedWrites = [])
    (hDurable : h.store.durable .index = old.store.disk .index) (id : Nat) :
    fileSlot (pageLost 1 g) id = if id < 256 then slotState old id else slotState h id := by
  obtain ⟨hFile, hOldBytes, hBytes⟩ := pageLost_index 1 hCommitted hStaged hDurable
  rw [fileSlot, hFile]
  split
  · rw [slotState, ← hOldBytes]
    refine congrArg Slot.state (Image.read_congr fun i hLo hHi => if_pos ?_)
    simp only [Slot.fileOffset, SLOT_SIZE, PAGE] at *
    omega
  · rw [slotState, ← hBytes]
    refine congrArg Slot.state (Image.read_congr fun i hLo hHi => if_neg ?_)
    simp only [Slot.fileOffset, SLOT_SIZE, PAGE] at *
    omega

end PageLost

/-- A commit after every mutation. -/
def paging : HeapConfig := ⟨.everyN 1, true, 2 ^ 20, 2 ^ 20, PAGE, 1, 2 ^ 20⟩

/-- So many inserts. -/
def fillers (count : Nat) : List Event := (List.range count).map fun id => .inserted id 0 [7]

/-- One page of slots is filled and synced, its first number updated, and the first number of
the next page inserted. -/
def overflowed : List Event :=
  fillers 256 ++ [.observed] ++ [.updated 0 [8]] ++ [.inserted 256 0 [9]]

theorem fillers_succ (count : Nat) : fillers (count + 1) = fillers count ++ [.inserted count 0 [7]] := by
  rw [fillers, List.range_succ, List.map_append]
  rfl

theorem values_fillers {count id : Nat} (h : id < count) : values (fillers count) id = some [7] := by
  induction count with
  | zero => exact absurd h (Nat.not_lt_zero id)
  | succ count ih =>
      rw [fillers_succ, values_concat, Event.apply, Function.update_apply]
      split
      · rfl
      · exact ih (by omega)

/-- The first page is full when it is synced. -/
theorem values_filled : values (fillers 256 ++ [.observed]) 0 = some [7] := by
  rw [values_concat]
  exact values_fillers (by decide)

theorem updateCount_fillers (count id : Nat) : updateCount (fillers count) id = 0 := by
  rw [updateCount, List.countP_eq_zero]
  intro e he
  obtain ⟨k, -, rfl⟩ := List.mem_map.mp he
  simp

/-- An append heap fills one page of slots. -/
theorem Watched.fill {allocatedEnd : Nat} (hFirst : Spacious paging [] first .empty allocatedEnd)
    (hPlacement : first.placement = ⟨PAGE, 0⟩) (hEnd : PAGE + 256 * 31 ≤ allocatedEnd) :
    ∀ count ≤ 256, ∃ moments h L, Watched paging ([first], first) (fillers count) (moments, h) ∧
      h.placement = ⟨PAGE + count * 31, count⟩ ∧ Spacious paging (fillers count) h L allocatedEnd := by
  intro count hCount
  induction count with
  | zero => exact ⟨_, first, .empty, .refl, hPlacement, hFirst⟩
  | succ count ih =>
      obtain ⟨moments, h, L, hWatched, hAt, hSpacious⟩ := ih (by omega)
      obtain ⟨g, M, hInsert, hNext, hMore⟩ := hSpacious.insert 0 [7] (by decide)
        (by
          rw [hAt, List.length_singleton]
          simp only
          omega)
        (by
          rw [hAt]
          exact addressable_of_lt (by simp only; omega))
      rw [hAt] at hInsert hNext hMore
      rw [fillers_succ]
      refine ⟨_, g, M, hWatched.step ⟨.mutated hInsert rfl, hMore.reach⟩, ?_, hMore⟩
      rw [hNext, List.length_singleton, Nat.succ_mul, Nat.add_assoc]

/-- The run of `overflowed`: the heap with the first page synced and the one at the end, with
their ledgers, and the record that was inserted last. -/
structure Overflow (first flushed h : Heap AppendPlacement) (moments : List (Heap AppendPlacement))
    (L M : Ledger) (added : Record) : Prop where
  opened : OpenedOn paging .empty first
  reach : AllInReach first.store
  watched : Watched paging ([first], first) overflowed (moments, h)
  early : flushed ∈ moments
  late : h ∈ moments
  synced : AppendReached paging (fillers 256 ++ [.observed]) flushed L
  full : flushed.placement.nextId = 256
  staged : (flushed.store.paged .index).stagedWrites = []
  durable : h.store.durable .index = flushed.store.disk .index
  remembered : Remembered paging overflowed moments h M
  log : ∃ front, M.log = L.log ++ front ++ [added]
  number : added.header.id = 256
  slots : ∀ id, id ≠ 0 → M.slots id = Function.update L.slots 256 (.live (added.slot false)) id
  placement : h.placement = ⟨PAGE + 256 * 31 + 31 + 31, 257⟩
  space : ∃ N, Spacious paging overflowed h N (grownEnd PAGE (2 ^ 20) (2 ^ 20))

theorem updateCount_overflowed (id : Nat) : updateCount overflowed id ≤ 1 := by
  have hUpdates : updateCount [.updated 0 [8]] id ≤ 1 := List.countP_le_length
  have hFlush : updateCount [.observed] id = 0 := rfl
  have hInsert : updateCount [.inserted 256 0 [9]] id = 0 := rfl
  rw [overflowed, updateCount_append, updateCount_append, updateCount_append, updateCount_fillers]
  omega

theorem exists_overflow : ∃ first flushed h moments L M added, Overflow first flushed h moments L M added := by
  have hBlank : Blank .empty := ⟨fun _ => rfl, fun _ => rfl, rfl⟩
  obtain ⟨first, hOpened, hPlacement, hFirst⟩ := exists_opened paging hBlank (by decide)
  obtain ⟨moments, h, _, hFilled, hAt, hSpacious⟩ := Watched.fill hFirst hPlacement (by decide) 256 (Nat.le_refl _)
  obtain ⟨flushed, hFlush, _, hSynced, hAtFlush, hAll⟩ := hSpacious.flush
  have hWatched : Watched paging ([first], first) (fillers 256 ++ [.observed]) ([flushed], flushed) :=
    hFilled.step ⟨.flushed hFlush, hSynced.reach⟩
  have hAtFull : flushed.placement = ⟨PAGE + 256 * 31, 256⟩ := hAtFlush.trans hAt
  obtain ⟨mid, _, hUpdate, hMidPlaced, hMid⟩ := hSynced.update 0 [8] values_filled (by rw [hAtFull]; decide)
  have hAtMid : mid.placement = ⟨PAGE + 256 * 31 + 31, 256⟩ := by rw [hMidPlaced, hAtFull]; rfl
  obtain ⟨last, N, hInsert, hLastPlaced, hLast⟩ := hMid.insert 0 [9] (by decide) (by rw [hAtMid]; decide)
    (by rw [hAtMid]; exact addressable_of_lt (by decide))
  rw [hAtMid] at hInsert hLastPlaced hLast
  simp only at hInsert hLast
  have hCount : ∀ id, updateCount overflowed id ≤ 65534 := fun id => (updateCount_overflowed id).trans (by decide)
  obtain ⟨L, -, hL⟩ := hWatched.remembered (hOpened.remembered hBlank hFirst.reach)
    (updateCount_le_left (updateCount_le_left hCount))
  rw [List.nil_append] at hL
  obtain ⟨K, hStepK, hK⟩ := hL.step (updateCount_le_left (updateCount_le_left hCount)) (.mutated hUpdate rfl) hMid.reach
  obtain ⟨M, hStepM, hM⟩ := hK.step (updateCount_le_left hCount) (.mutated hInsert rfl) hLast.reach
  have hOnce : Watched paging ([first], first) (fillers 256 ++ [.observed] ++ [.updated 0 [8]])
      ([flushed] ++ [mid], mid) := hWatched.step ⟨.mutated hUpdate rfl, hMid.reach⟩
  have hTwice : Watched paging ([first], first) overflowed ([flushed] ++ [mid] ++ [last], last) :=
    hOnce.step ⟨.mutated hInsert rfl, hLast.reach⟩
  have hWritten : mid.Written := written_of_everyOne rfl hUpdate hSynced.sound trivial rfl
  have hAdded : last.Written := written_of_everyOne rfl hInsert hMid.sound trivial rfl
  have hDurable : last.store.durable .index = flushed.store.disk .index :=
    ((hInsert.mutated hMid.sound trivial rfl).committed hAdded).1.trans
      (((hUpdate.mutated hSynced.sound trivial rfl).committed hWritten).1.trans (hAll.durable (by decide)))
  cases hStepK with
  | updated old r new newest live number version stored =>
      cases hStepM with
      | inserted added new' number' version' stored' fresh =>
          exact ⟨first, flushed, last, _, L, _, added,
            { opened := hOpened
              reach := hFirst.reach
              watched := hTwice
              early := by simp
              late := by simp
              synced := hL.last.reached
              full := by rw [hAtFull]
              staged := hAll.staged (by decide)
              durable := hDurable
              remembered := hM
              log := ⟨[r], rfl⟩
              number := number'
              slots := fun id hId => by
                simp only [Ledger.put, number, number', Function.update_apply, hId, if_false]
              placement := hLastPlaced
              space := ⟨N, hLast⟩ }⟩

namespace Overflow

variable {flushed f : Heap AppendPlacement} {K : Ledger} {added : Record}

/-- With the first page lost the file has its slots as they were synced, and behind them the
slot of the record that was inserted last. -/
theorem lost_slot (hRun : Overflow first flushed h moments L M added) (hCommitted : Committed false f.store g.store)
    (hDurable : f.store.durable .index = flushed.store.disk .index) (hSound : Sound paging K f.placed)
    (hSlots : ∀ id, id ≠ 0 → K.slots id = M.slots id) (id : Nat) :
    fileSlot (pageLost 1 g) id = Function.update L.slots 256 (.live (added.slot false)) id := by
  rw [pageLost_slot hCommitted hRun.staged hDurable]
  split
  · rename_i hFirst
    rw [Function.update_of_ne (Nat.ne_of_lt hFirst)]
    exact hRun.synced.sound.index id
  · have hState : slotState f id = K.slots id := hSound.index id
    rw [hState, hSlots id (by omega), hRun.slots id (by omega)]

theorem written (hRun : Overflow first flushed h moments L M added) (id : Nat) :
    L.slots id ≠ .empty ↔ id < 256 := by
  rw [hRun.synced.historic.written, hRun.synced.numbered.mem, hRun.full]

theorem mem_added (hRun : Overflow first flushed h moments L M added) : added ∈ M.log := by
  obtain ⟨front, hLog⟩ := hRun.log
  simp [hLog]

theorem stop_added (hRun : Overflow first flushed h moments L M added) :
    added.stop false = h.placement.cursor := by
  obtain ⟨front, hLog⟩ := hRun.log
  have hChain : Chain false PAGE h.placement.cursor M.log := hRun.remembered.last.sound.placed.chain
  rw [hLog] at hChain
  exact hChain.stop_last.symm

theorem endsAt (hRun : Overflow first flushed h moments L M added)
    (hSlots : ∀ id, fileSlot s id = Function.update L.slots 256 (.live (added.slot false)) id) :
    EndsAt h.placement.cursor s where
  bound id slot hPlace := by
    rw [hSlots] at hPlace
    by_cases hId : id = 256
    · subst hId
      rw [Function.update_self] at hPlace
      cases hPlace
      exact hRun.stop_added.le
    · rw [Function.update_of_ne hId] at hPlace
      obtain ⟨r, hr, -, rfl⟩ := hRun.synced.sound.faithful.named id slot hPlace
      obtain ⟨front, hLog⟩ := hRun.log
      have hChain : Chain false PAGE h.placement.cursor M.log := hRun.remembered.last.sound.placed.chain
      exact (hChain.bounds (by simp [hLog, hr])).2
  reached := Or.inr ⟨256, added.slot false, by rw [hSlots, Function.update_self]; rfl, hRun.stop_added⟩

theorem freeFrom (hRun : Overflow first flushed h moments L M added)
    (hSlots : ∀ id, fileSlot s id = Function.update L.slots 256 (.live (added.slot false)) id) :
    FreeFrom 257 s where
  below id hUsed := by
    rw [hSlots] at hUsed
    by_cases hId : id = 256
    · omega
    · rw [Function.update_of_ne hId, hRun.written] at hUsed
      omega
  last id hId := by
    obtain rfl : id = 256 := by omega
    rw [hSlots, Function.update_self]
    simp

/-- Every number that was written has one of these slots. -/
theorem used (hRun : Overflow first flushed h moments L M added)
    (hSlots : ∀ id, fileSlot s id = Function.update L.slots 256 (.live (added.slot false)) id) (id : Nat) :
    fileSlot s id ≠ .empty ↔ id < 257 := by
  constructor
  · exact (hRun.freeFrom hSlots).below id
  · intro hId
    rw [hSlots]
    by_cases hLast : id = 256
    · rw [hLast, Function.update_self]
      simp
    · rw [Function.update_of_ne hLast, hRun.written]
      exact Nat.lt_of_le_of_ne (Nat.le_of_lt_succ hId) hLast

theorem numbers (hRun : Overflow first flushed h moments L M added) (id : Nat) :
    (∃ r ∈ M.log, r.header.id = id) ↔ id < 257 := by
  rw [hRun.remembered.last.numbered.mem, hRun.placement]

theorem faithful {cursor : Nat} {slots : Nat → SlotState} (hRun : Overflow first flushed h moments L M added)
    (hStored : Stored paging M.log cursor slots s) (hUsed : ∀ id, slots id ≠ .empty ↔ id < 257) :
    (⟨M.log, slots, []⟩ : Ledger).Faithful false paging.integrity where
  intact := hStored.intact
  written id := (hUsed id).trans (hRun.numbers id).symm
  named := hStored.named

/-- With these slots the first number has its old payload. -/
theorem read_stale {slots : Nat → SlotState} {again : Heap AppendPlacement}
    (hRun : Overflow first flushed h moments L M added)
    (hSlots : ∀ id, slots id = Function.update L.slots 256 (.live (added.slot false)) id)
    (hSound : Sound paging ⟨M.log, slots, []⟩ again.placed) (hReady : Ready again) :
    ∃ k, Heap.read paging 0 again = .ok [7] k := by
  obtain ⟨r, hr, hId, hPayload, hLive⟩ := hRun.synced.historic.live_of_value values_filled
  obtain ⟨front, hLog⟩ := hRun.log
  have hName : slots 0 = .live (r.slot false) := by
    rw [hSlots, Function.update_of_ne (by decide)]
    exact hLive
  obtain ⟨v, -, hRead⟩ := read_live hSound hReady (addressable_of_lt (by decide))
    (show r ∈ M.log by simp [hLog, hr]) hId hName
  exact ⟨_, hPayload ▸ hRead⟩

theorem latest_overflowed : latest overflowed 0 = some [8] := by
  rw [overflowed, latest_concat, latest_concat]
  simp [Event.write]

/-- Nothing was deleted. -/
theorem kept (id : Nat) : .deleted id ∉ overflowed := by simp [overflowed, fillers]

end Overflow

/-- After a power failure that keeps all that was committed, apart from the first page of slots,
which is as it was synced, the store opens, and the first number has its old payload. -/
theorem append_pages_stale :
    ∃ (first h g k : Heap AppendPlacement) (moments : List (Heap AppendPlacement)) (t : Store)
      (placement : AppendPlacement) (report : RecoveryReport),
      OpenedOn paging .empty first ∧ AllInReach first.store ∧
      Watched paging ([first], first) overflowed (moments, h) ∧ (∀ id, .deleted id ∉ overflowed) ∧
      (∀ id, updateCount overflowed id ≤ 65534) ∧ commit h = .ok () g ∧
      PagesLeft moments g (pageLost 1 g) ∧ latest overflowed 0 = some [8] ∧
      Heap.open AppendPlacement ⟨id, fun _ => .refl _⟩ paging (pageLost 1 g) = .ok (placement, report) t ∧
      Heap.read paging 0 (⟨⟨placement, t⟩, 0⟩ : Heap AppendPlacement) = .ok [7] k := by
  obtain ⟨first, flushed, h, moments, L, M, added, hRun⟩ := exists_overflow
  have hSoundH := hRun.remembered.last.sound
  have hHistoric := hRun.remembered.last.historic
  have hCount : ∀ id, updateCount overflowed id ≤ 65534 := fun id => (updateCount_overflowed id).trans (by decide)
  obtain ⟨u, hFiles, -⟩ := commitFiles_run (P := AppendPlacement) hSoundH.coherent hSoundH.plan
    hRun.remembered.last.reach
  have hCommit : commit h = .ok () (h.withStore u) := onStore_eq_ok.mpr ⟨u, hFiles, rfl⟩
  have hCommitted : Committed false h.store (h.withStore u).store := commitFiles_ok hSoundH.coherent hFiles
  have hSound : Sound paging M (h.withStore u).placed := hSoundH.refreshed (.committed hCommitted)
  have hLeft : PagesLeft moments (h.withStore u) (pageLost 1 (h.withStore u)) :=
    pageLost_left hRun.early hRun.late hCommitted hRun.staged hRun.durable hSound.plan
      (hRun.synced.sound.whole .index) (hSound.whole .index)
  have hSlots := hRun.lost_slot hCommitted hRun.durable hSoundH fun _ _ => rfl
  generalize hLost : pageLost 1 (h.withStore u) = s at hLeft hSlots
  have hJust := hLeft.justOpened hRun.remembered hCommitted hSound
  have hStored := hLeft.stored hRun.remembered hCommitted hSound Overflow.kept hCount
  have hChain : Chain false PAGE h.placement.cursor M.log := hSoundH.placed.chain
  have hScanned := (hRun.endsAt hSlots).scanned_eq (hRun.freeFrom hSlots) hStored hChain.le
  have hCaught : Caught paging (s.file .data).bytes (fileSlot s) M.log [] (scanned (fileSlot s) s).maxEnd
      h.placement.cursor (s.file .data).size (scanned (fileSlot s) s).nextId := by
    rw [hScanned]
    exact
      { laid := by rw [List.append_nil]; exact hStored.laid
        intact := by rw [List.append_nil]; exact hStored.intact
        ascending := by rw [List.append_nil]; exact hStored.ascending
        prior := fun r hr => (hChain.bounds hr).2
        chain := .nil _
        inside := hStored.inside
        range := hStored.data_range
        named := hStored.named
        next := (hRun.freeFrom hSlots).below
        base := hChain.le }
  obtain ⟨restored, t, hOpen, hHolding, hWork⟩ :=
    hJust.opens hStored (List.append_nil _).symm hCaught ⟨id, fun _ => .refl _⟩
  rw [hScanned] at hOpen hHolding
  have hFaithful := hRun.faithful hStored (hRun.used hSlots)
  have hAgain := hJust.sound hStored hHolding hWork hFaithful hRun.numbers
  let again : Heap AppendPlacement := ⟨⟨⟨h.placement.cursor, 257⟩, t⟩, 0⟩
  have hReady : Ready again := AllInReach.ready (hJust.atRest.inReach hWork hHolding trivial)
  obtain ⟨k, hRead⟩ : ∃ k, Heap.read paging 0 again = .ok [7] k := hRun.read_stale hSlots hAgain hReady
  subst hLost
  refine ⟨first, h, h.withStore u, k, moments, t, again.placement, ⟨false, restored, .none⟩,
    hRun.opened, hRun.reach, hRun.watched, Overflow.kept, hCount, hCommit, hLeft, Overflow.latest_overflowed,
    ?_, hRead⟩
  have hPlacement : Placement.open (P := AppendPlacement) ⟨id, fun _ => .refl _⟩ paging false
      (pageLost 1 (h.withStore u)) = .ok (again.placement, restored) t := hOpen
  rw [hJust.atRest.open_eq, openPlacement, hPlacement]

/-- The first number is updated once more, and the power fails in the same way: the first page
is as it was synced, the second is kept, and the update is taken up behind them. -/
theorem append_pages_recover_updated :
    ∃ (first h f g k : Heap AppendPlacement) (past moments : List (Heap AppendPlacement)) (t : Store)
      (report : RecoveryReport),
      OpenedOn paging .empty first ∧ Watched paging ([first], first) overflowed (past, h) ∧
      Watched paging (past, h) [.updated 0 [10]] (moments, f) ∧ commit f = .ok () g ∧
      PagesLeft moments g (pageLost 1 g) ∧ Repairable h [.updated 0 [10]] g (pageLost 1 g) ∧
      Heap.open AppendPlacement ⟨id, fun _ => .refl _⟩ paging (pageLost 1 g) = .ok (g.placement, report) t ∧
      Heap.read paging 0 (⟨⟨g.placement, t⟩, 0⟩ : Heap AppendPlacement) = .ok [10] k := by
  obtain ⟨first, flushed, h, past, L, M, added, hRun⟩ := exists_overflow
  obtain ⟨_, hSpacious⟩ := hRun.space
  have hValue : values overflowed 0 = some [8] := by
    rw [overflowed, values_concat, values_concat]
    simp [Event.apply]
  obtain ⟨f, _, hUpdate, -, hLast⟩ := hSpacious.update 0 [10] hValue (by rw [hRun.placement]; decide)
  have hCount : ∀ id, updateCount (overflowed ++ [.updated 0 [10]]) id ≤ 65534 := fun id => by
    have hOne : updateCount [.updated 0 [10]] id ≤ 1 := List.countP_le_length
    have hFirst := updateCount_overflowed id
    rw [updateCount_append]
    omega
  have hKept : ∀ id, .deleted id ∉ overflowed ++ [.updated 0 [10]] := fun id => by
    simp [Overflow.kept id]
  obtain ⟨K, hStep, hK⟩ := hRun.remembered.step (updateCount_le_left hCount) (.mutated hUpdate rfl) hLast.reach
  have hAfter : Watched paging (past, h) [.updated 0 [10]] (past ++ [f], f) :=
    Runs.Steps.refl.step ⟨.mutated hUpdate rfl, hLast.reach⟩
  have hWritten : f.Written := written_of_everyOne rfl hUpdate hSpacious.sound trivial rfl
  have hDurable : f.store.durable .index = flushed.store.disk .index :=
    ((hUpdate.mutated hSpacious.sound trivial rfl).committed hWritten).1.trans hRun.durable
  obtain ⟨u, hFiles, -⟩ := commitFiles_run (P := AppendPlacement) hLast.sound.coherent hLast.sound.plan hLast.reach
  have hCommit : commit f = .ok () (f.withStore u) := onStore_eq_ok.mpr ⟨u, hFiles, rfl⟩
  have hCommitted : Committed false f.store (f.withStore u).store := commitFiles_ok hLast.sound.coherent hFiles
  have hSound : Sound paging K (f.withStore u).placed := hK.last.sound.refreshed (.committed hCommitted)
  have hLeft : PagesLeft (past ++ [f]) (f.withStore u) (pageLost 1 (f.withStore u)) :=
    pageLost_left (List.mem_append_left _ hRun.early) (by simp) hCommitted hRun.staged hDurable hSound.plan
      (hRun.synced.sound.whole .index) (hSound.whole .index)
  have hNew : ∀ id, id ≠ 0 → K.slots id = M.slots id := fun id hId => by
    cases hStep with
    | updated old r new newest live number version stored =>
        exact Function.update_of_ne (by rw [number]; exact hId) _ _
  have hSlots := hRun.lost_slot hCommitted hDurable hK.last.sound hNew
  have hRepairable : Repairable h [.updated 0 [10]] (f.withStore u) (pageLost 1 (f.withStore u)) :=
    { ends := hRun.endsAt hSlots
      kept := fun id hId => by
        have hOther : id ≠ 0 := fun hZero => hId (by rw [hZero]; exact List.mem_singleton_self 0)
        have hState : slotState (f.withStore u) id = K.slots id := hSound.index id
        rw [hState, hNew id hOther, hRun.slots id hOther, hSlots]
      continues := ⟨257, hRun.freeFrom hSlots, Or.inr ⟨by decide, trivial⟩⟩ }
  have hBlank : Blank .empty := ⟨fun _ => rfl, fun _ => rfl, rfl⟩
  obtain ⟨report, t, hOpen, -, hMore⟩ := append_pages_recover hBlank hRun.opened hRun.reach hRun.watched hAfter
    hKept hCount hCommit hLeft hRepairable ⟨id, fun _ => .refl _⟩
  obtain ⟨hRead, -⟩ := hMore [] _ .refl (by rw [List.append_nil]; exact hCount)
  obtain ⟨k, hRead⟩ := hRead 0 (by decide)
  rw [List.append_nil, values_concat] at hRead
  exact ⟨first, h, f, f.withStore u, k, past, past ++ [f], t, report, hRun.opened, hRun.watched, hAfter, hCommit,
    hLeft, hRepairable, hOpen, hRead⟩

end Heap

end HeapStore
