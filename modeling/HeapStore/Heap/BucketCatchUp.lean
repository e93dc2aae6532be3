import HeapStore.Heap.BucketRuns
import HeapStore.Heap.CatchUp
import HeapStore.Heap.ClosedBucket
import HeapStore.Heap.Lifetime
import HeapStore.Heap.MetadataLoss
import HeapStore.Placement.BucketCatchUp

/-! Opening a bucket heap whose index is older than its other files: where each
record that the index lacks lies in the last extent of its bucket, nothing but
the latest deletes is lost. -/
namespace HeapStore

open Effect PagedFile IndexFile

namespace Ledger

variable {withBucket : Bool} {early late : List Event} {K L M N : Ledger}

/-- Another ledger of the same records, in which no delete was made since the
first ledger. -/
structure Undone (K M N : Ledger) : Prop where
  log : N.log = M.log
  rows : N.rows = M.rows
  grown : ∀ r ∈ K.log, r ∈ M.log
  live : ∀ id slot, M.slots id = .live slot → N.slots id = .live slot
  buried : ∀ id slot, K.slots id = .deleted slot → N.slots id = .deleted slot

/-- A step that is no delete is a step without the deletes, too. -/
theorem Undone.step (h : Undone K M N) (hOld : ∀ id, K.slots id ≠ .empty → ∃ r ∈ K.log, r.header.id = id)
    {e : Event} {M' : Ledger} (hStep : Step withBucket M e M') :
    ∃ N', Step withBucket N e.undeleted N' ∧ Undone K M' N' := by
  have hPut : ∀ (r : Record) (new : List RegistryRow), (∀ slot, K.slots r.header.id ≠ .deleted slot) →
      Undone K (M.put withBucket r new) (N.put withBucket r new) := by
    intro r new hNot
    constructor
    case log => simp only [put, h.log]
    case rows => simp only [put, h.rows]
    case grown => exact fun x hx => List.mem_append_left _ (h.grown x hx)
    case live =>
      intro id slot hLive
      simp only [put] at hLive ⊢
      by_cases hId : id = r.header.id
      · subst hId
        rwa [Function.update_self] at hLive ⊢
      · rw [Function.update_of_ne hId] at hLive ⊢
        exact h.live id slot hLive
    case buried =>
      intro id slot hDeleted
      have hNe : id ≠ r.header.id := by
        intro hId
        subst hId
        exact hNot slot hDeleted
      simp only [put]
      rw [Function.update_of_ne hNe]
      exact h.buried id slot hDeleted
  cases hStep with
  | inserted r new number version stored fresh =>
      refine ⟨_, .inserted r new number version stored (h.log ▸ fresh), hPut r new fun slot hDeleted => ?_⟩
      have hPresent : K.slots r.header.id ≠ .empty := by simp [hDeleted]
      obtain ⟨x, hx, hId⟩ := hOld r.header.id hPresent
      exact fresh x (h.grown x hx) (hId.trans number)
  | updated old r new last live number version stored =>
      refine ⟨_, .updated old r new (h.log ▸ last) (h.live _ _ live) number version stored,
        hPut r new fun slot hDeleted => ?_⟩
      have hBoth := (h.live _ _ live).symm.trans (number ▸ h.buried _ slot hDeleted)
      cases hBoth
  | @deleted gone slot live =>
      refine ⟨N, .observed, h.log, h.rows, h.grown, fun id other hLive => ?_, h.buried⟩
      simp only [bury] at hLive
      by_cases hId : id = gone
      · subst hId
        rw [Function.update_self] at hLive
        cases hLive
      · rw [Function.update_of_ne hId] at hLive
        exact h.live id other hLive
  | observed => exact ⟨N, .observed, h⟩

/-- The later history without its deletes leads to a ledger of the same records. -/
theorem Grows.undeleted (hHistoric : K.Historic withBucket early) (hGrows : K.Grows withBucket late M) :
    ∃ N, K.Grows withBucket (undeleted late) N ∧ Undone K M N :=
  hGrows.simulate_map Event.undeleted
    (fun _ _ _ _ hUndone hStep => hUndone.step (fun id => (hHistoric.written id).mp) hStep)
    ⟨rfl, rfl, fun _ hr => hr, fun _ _ hLive => hLive, fun _ _ hDeleted => hDeleted⟩

end Ledger

namespace Heap

open BucketPlacement

/-- The slot of a number, as the index presents it. -/
def indexSlot {P : Type} (h : Heap P) (id : Nat) : SlotState :=
  Slot.state (Image.read (h.store.logical .index) (Slot.fileOffset id) SLOT_SIZE)

/-- The files of a bucket store, just opened: the index has the slots of one
heap, and the others have the content of a later one. -/
structure Trailing (older newer : Heap BucketPlacement) (s : Store) : Prop where
  plan : s.plan = []
  handles : ∀ n, s.paged n = .fresh
  whole : ∀ n, (s.file n).Whole
  present : ∀ n, (s.disk n).isSome
  index : (s.file .index).bytes = older.store.logical .index
  data : (s.file .data).bytes = newer.store.logical .data
  registry : (s.file .registry).bytes = newer.store.logical .registry
  inside : newer.placement.fileSize ≤ (s.file .data).size

/-- What the older index does not have lies in the last extent of a bucket. -/
def Near (older newer : Heap BucketPlacement) : Prop :=
  ∀ id slot, (indexSlot newer id).place = some slot → (indexSlot older id).place ≠ some slot →
    ∃ state ∈ newer.placement.states, ∃ last ∈ state.data.getLast?, last.Covers slot.offset

/-- The older index has the slot of this number's newest record, or that record lies in
the last extent of a bucket. -/
def Reached (older newer : Heap BucketPlacement) (id : Nat) : Prop :=
  ∀ slot, (indexSlot newer id).place = some slot → (indexSlot older id).place = some slot ∨
    ∃ state ∈ newer.placement.states, ∃ last ∈ state.data.getLast?, last.Covers slot.offset

theorem near_iff {older newer : Heap BucketPlacement} :
    Near older newer ↔ ∀ id, Reached older newer id :=
  forall_congr' fun _ => forall_congr' fun _ => imp_congr_right fun _ => or_iff_not_imp_left.symm

variable {config : HeapConfig} {first older newer again : Heap BucketPlacement} {K L M N : Ledger}
  {early late more : List Event} {s t : Store}

theorem Trailing.atRest (h : Trailing older newer s) (hOlder : Sound config K older.placed)
    (hNewer : Sound config M newer.placed) : AtRest BucketPlacement s where
  plan := h.plan
  handles := h.handles
  whole := h.whole
  present n _ := h.present n
  header n hn := by
    cases n with
    | data =>
        rw [h.data]
        exact hNewer.header .data hn
    | index =>
        rw [h.index]
        exact hOlder.header .index hn
    | registry =>
        rw [h.registry]
        exact hNewer.header .registry hn

theorem Trailing.registered (h : Trailing older newer s) (hRest : AtRest BucketPlacement s)
    (hNewer : Sound config M newer.placed) : Registered M.rows s := by
  have hRows : Rows M.rows (s.file .registry).bytes := by
    rw [h.registry]
    exact hNewer.placed.registry
  have hHeader := hRest.header .registry fun _ => rfl
  exact
    { staged := by rw [h.handles]; rfl
      range := hRest.fileRange .registry
      holds := hRows
      inside := rows_inside hRows (h.whole .registry) (page_le_size hHeader (h.whole .registry))
      replayable := fun row hRow =>
        ⟨hNewer.placed.recorded.kinds row hRow, hNewer.placed.recorded.ranged row hRow⟩ }

/-- The later records with the older slots are files that opening can work on. -/
theorem Trailing.reopening (h : Trailing older newer s) (hOlder : Sound config K older.placed)
    (hNewer : Sound config M newer.placed) (hGrown : ∀ r ∈ K.log, r ∈ M.log) :
    Reopening config newer.placement M.log (s.file .data).bytes K.slots where
  laid := by
    rw [h.data]
    exact hNewer.data
  intact := hNewer.faithful.intact
  geometry := hNewer.placed.geometry
  numbering := hNewer.placed.numbering
  range := (pageUp_le_of_mod (h.whole .data).pages h.inside).trans_lt (h.whole .data).range
  named id slot hPlace := by
    obtain ⟨r, hr, hBoth⟩ := hOlder.faithful.named id slot hPlace
    exact ⟨r, hGrown r hr, hBoth⟩

/-- The slot of a number that is reached is current, or its newest record is in a last extent. -/
theorem Reached.found {id : Nat} (h : Reached older newer id) (hOlder : Sound config K older.placed)
    (hNewer : Sound config M newer.placed) (hHistoric : M.Historic true (early ++ late))
    (hUsed : ∃ r ∈ M.log, r.header.id = id) :
    Current M.log K.slots id ∨ ∃ state ∈ newer.placement.states, Recent state M.log id := by
  have hOld : indexSlot older id = K.slots id := hOlder.index id
  have hNew : indexSlot newer id = M.slots id := hNewer.index id
  obtain ⟨slot, hPlace⟩ : ∃ slot, (M.slots id).place = some slot := by
    cases hState : M.slots id with
    | empty => exact absurd hState ((hNewer.faithful.written id).mpr hUsed)
    | live slot => exact ⟨slot, rfl⟩
    | deleted slot => exact ⟨slot, rfl⟩
  obtain ⟨top, hTop, rfl⟩ := hHistoric.newest _ _ hPlace
  rcases h _ (hNew ▸ hPlace) with hSame | ⟨state, hState, last, hLast, hCovers⟩
  · left
    rw [hOld] at hSame
    cases hState : K.slots id with
    | empty =>
        rw [hState] at hSame
        cases hSame
    | deleted slot => exact .inl ⟨slot, hState⟩
    | live slot =>
        rw [hState] at hSame
        cases hSame
        exact .inr ⟨top, hTop, hState⟩
  · exact .inr ⟨state, hState, last, hLast, top, hTop, hCovers⟩

/-- Where no bucket has more than one extent, an index of any age is near enough. -/
theorem near_of_single (older : Heap BucketPlacement) (hNewer : Sound config M newer.placed)
    (hSingle : ∀ state ∈ newer.placement.states, state.data.length ≤ 1) : Near older newer := by
  intro id slot hPlace _
  rw [show indexSlot newer id = M.slots id from hNewer.index id] at hPlace
  obtain ⟨r, hr, -, rfl⟩ := hNewer.faithful.named id slot hPlace
  obtain ⟨e, he, hCovers⟩ := hNewer.placed.geometry.home r hr
  obtain ⟨state, hState, hIn⟩ := List.mem_flatMap.mp he
  have hPos := List.length_pos_of_mem hIn
  have hLength := hSingle state hState
  obtain ⟨last, hData⟩ := List.length_eq_one_iff.mp (Nat.le_antisymm hLength hPos)
  rw [hData, List.mem_singleton] at hIn
  subst hIn
  exact ⟨state, hState, e, by rw [hData]; rfl, hCovers⟩

/-- The files of two flushed heaps, the index from the older one. -/
theorem trailing_of_flushed {old new : Store} (hOlder : Sound config K older.placed)
    (hNewer : Sound config M newer.placed) (hOld : FlushedAll true old older.store)
    (hNew : FlushedAll true new newer.store) :
    Trailing older newer (withIndexOf older.store newer.store) := by
  have hIndexFile : (withIndexOf older.store newer.store).file .index = older.store.file .index := by
    simp [withIndexOf, Store.file]
  have hFile : ∀ n, n ≠ .index →
      (withIndexOf older.store newer.store).file n = newer.store.file n := fun n hn => by
    simp [withIndexOf, Store.file, Function.update_of_ne hn]
  have hBytes : ∀ n, n ≠ .index →
      ((withIndexOf older.store newer.store).file n).bytes = newer.store.logical n := fun n hn => by
    rw [hFile n hn, Store.logical, hNew.staged fun _ => rfl]
    rfl
  constructor
  case plan => rfl
  case handles => exact fun _ => rfl
  case whole =>
    intro n
    by_cases hn : n = .index
    · subst hn
      rw [hIndexFile]
      exact hOlder.whole .index
    · rw [hFile n hn]
      exact hNewer.whole n
  case present =>
    intro n
    by_cases hn : n = .index
    · subst hn
      simp only [withIndexOf, Function.update_self]
      exact hOlder.present .index fun _ => rfl
    · simp only [withIndexOf, Function.update_of_ne hn]
      exact hNewer.present n fun _ => rfl
  case index =>
    rw [hIndexFile, Store.logical, hOld.staged fun _ => rfl]
    rfl
  case data => exact hBytes .data (by decide)
  case registry => exact hBytes .registry (by decide)
  case inside =>
    rw [hFile .data (by decide)]
    exact hNewer.placed.reserved.trans hNewer.placed.roomy.reserved

/-- The slot that recovery leaves of a number that it finds is the one of the history
without the later deletes. -/
theorem slot_eq {log : List Record} {slots' : Nat → SlotState} {p : BucketPlacement} {image : Nat → UInt8}
    {id : Nat} (hK : K.Historic true early) (hN : N.Historic true (early ++ undeleted late))
    (hUndone : K.Undone M N) (hLog : N.log = log)
    (hFound : (∃ r ∈ log, r.header.id = id) → Current log K.slots id ∨ ∃ state ∈ p.states, Recent state log id)
    (hReopening : Reopening config p log image slots')
    (hCaught : SlotsCaughtUp log p.states K.slots slots') : slots' id = N.slots id := by
  subst hLog
  by_cases hBuried : ∃ slot, K.slots id = .deleted slot
  · obtain ⟨slot, hSlot⟩ := hBuried
    rw [hCaught.current id (.inl ⟨slot, hSlot⟩), hSlot, hUndone.buried id slot hSlot]
  have hKept : ∀ slot, slots' id ≠ .deleted slot := fun slot hSlot =>
    hBuried ⟨slot, hCaught.deleted hSlot⟩
  cases hNewest : newest N.log id with
  | none =>
      have hNone := newest_eq_none.mp hNewest
      have hEmpty : N.slots id = .empty := by
        by_contra hUsed
        obtain ⟨r, hr, hId⟩ := (hN.written id).mp hUsed
        exact hNone r hr hId
      rw [hEmpty]
      cases hState : slots' id with
      | empty => rfl
      | deleted slot => exact absurd hState (hKept slot)
      | live slot =>
          obtain ⟨r, hr, hId, -⟩ := hReopening.named id slot (by rw [hState]; rfl)
          exact absurd hId (hNone r hr)
  | some r =>
      obtain ⟨hr, hId⟩ := newest_eq_some hNewest
      have hCurrent : Current N.log slots' id := by
        rcases hFound ⟨r, hr, hId⟩ with hCurrent | ⟨state, hState, hRecent⟩
        · have hSame := hCaught.current id hCurrent
          rwa [Current, hSame]
        · exact hCaught.recent state hState _ hRecent
      have hLive : slots' id = .live (r.slot true) := by
        rcases hCurrent with ⟨slot, hSlot⟩ | ⟨top, hTop, hSlot⟩
        · exact absurd hSlot (hKept slot)
        · rw [hNewest] at hTop
          cases hTop
          exact hSlot
      rw [hLive]
      cases hState : N.slots id with
      | empty => exact absurd hState ((hN.written id).mpr ⟨r, hr, hId⟩)
      | deleted slot =>
          have hIn := (hN.deleted id).mp ⟨slot, hState⟩
          rcases List.mem_append.mp hIn with hEarly | hLate
          · exact absurd ((hK.deleted id).mpr hEarly) hBuried
          · exact absurd hLate deleted_not_mem_undeleted
      | live slot =>
          obtain ⟨top, hTop, rfl⟩ := hN.newest id slot (by rw [hState]; rfl)
          rw [hNewest] at hTop
          cases hTop
          rfl

/-- A bucket store whose index is older than its other files opens with the buckets
of the later heap, and is sound for the history without the later deletes. -/
theorem Trailing.opens (hTrailing : Trailing older newer s) (hOlder : Sound config K older.placed)
    (hK : K.Historic true early) (hNewer : Sound config M newer.placed) (hGrows : K.Grows true late M)
    (hCount : ∀ id, updateCount (early ++ late) id ≤ 65534) (hNear : Near older newer)
    (hSpaced : Spaced newer.placement) (order : HashOrder) :
    ∃ p report t N, Heap.open BucketPlacement order config s = .ok (p, report) t ∧ report.rebuilt = false ∧
      p = newer.placement.resumed M.rows (s.file .data).size ∧
      Sound config N (⟨p, t⟩ : Placed BucketPlacement) ∧ AllInReach t ∧
      N.Historic true (early ++ undeleted late) := by
  obtain ⟨N, hUndeleted, hUndone⟩ := hGrows.undeleted hK
  have hM := hK.grows hGrows
  have hN := hK.grows hUndeleted
  have hRest := hTrailing.atRest hOlder hNewer
  have hReopening := hTrailing.reopening hOlder hNewer hUndone.grown
  have hFound : ∀ id, (∃ r ∈ M.log, r.header.id = id) →
      Current M.log K.slots id ∨ ∃ state ∈ newer.placement.states, Recent state M.log id :=
    fun id => (near_iff.mp hNear id).found hOlder hNewer hM
  have hLagging : Lagging newer.placement M.log K.slots := fun r hr => hFound _ ⟨r, hr, rfl⟩
  have hSlots : SlotsAt K.slots (s.file .index).bytes := by
    rw [hTrailing.index]
    exact hOlder.index
  obtain ⟨restored, t, slots', hRun, hRecovered, hCaught, hHeld, hWork⟩ :=
    BucketPlacement.reopen_catches_up hReopening (hM.ascending hCount) order hLagging
      hNewer.placed.recorded hNewer.placed.stocked hSpaced (hTrailing.registered hRest hNewer)
      (hRest.holding hSlots) hTrailing.inside
  have hSame : slots' = N.slots :=
    funext fun id => slot_eq hK hN hUndone hUndone.log (hFound id) hRecovered hCaught
  have hPaged := hRest.paged_data hWork
  have hFile : t.file .data = s.file .data := hWork.file (by decide)
  have hKept : Kept config ⟨newer.placement.resumed M.rows (s.file .data).size, t⟩ M.log M.rows := by
    refine Kept.resumed hNewer.placed hTrailing.inside (hTrailing.whole .data).pages (by rw [hPaged])
      ⟨?_, ?_⟩ (coherent_fresh (hRest.paged_registry hWork)) (by rw [hRest.paged_registry hWork]; rfl) ?_
    · rw [hFile]
      exact hTrailing.whole .data
    · rw [hPaged, hFile]
    · rw [hRest.logical_registry hWork]
      exact (hTrailing.registered hRest hNewer).holds
  have hFaithful : N.Faithful true config.integrity := by
    constructor
    case intact =>
      rw [hUndone.log]
      exact hNewer.faithful.intact
    case written => exact hN.written
    case named =>
      intro id slot hPlace
      obtain ⟨r, hr, rfl⟩ := hN.newest id slot hPlace
      obtain ⟨hMem, hId⟩ := newest_eq_some hr
      exact ⟨r, hMem, hId, rfl⟩
  have hOpen : Heap.open BucketPlacement order config s =
      .ok (newer.placement.resumed M.rows (s.file .data).size, ⟨false, restored, .none⟩) t := by
    have hPlacement : Placement.open (P := BucketPlacement) order config false s =
        .ok (newer.placement.resumed M.rows (s.file .data).size, restored) t := hRun
    rw [hRest.open_eq, openPlacement, hPlacement]
  have hLaid : Laid true N.log (s.file .data).bytes := by
    rw [hUndone.log]
    exact hRecovered.laid
  have hHolding : Holding True (Spaced newer.placement) (s.file .data).bytes N.slots t := hSame ▸ hHeld
  have hKeeps : Kept config ⟨newer.placement.resumed M.rows (s.file .data).size, t⟩ N.log N.rows := by
    rw [hUndone.log, hUndone.rows]
    exact hKept
  have hReach : AllInReach t := hRest.inReach hWork hHeld hSpaced
  exact ⟨_, _, t, N, hOpen, rfl, rfl, hRest.sound hLaid hHolding hWork hFaithful hKeeps, hReach, hN⟩

/-- Such a store goes on as the key/value map of the history without the later deletes. -/
theorem Trailing.continues (hTrailing : Trailing older newer s) (hOlder : Sound config K older.placed)
    (hK : K.Historic true early) (hOnce : (early.filterMap Event.issued).Nodup) (hConfig : config.Usable)
    (hNewer : Sound config M newer.placed) (hGrows : K.Grows true late M)
    (hCount : ∀ id, updateCount (early ++ late) id ≤ 65534)
    (hNear : Near older newer) (hSpaced : Spaced newer.placement) (order : HashOrder) :
    ∃ p report t, Heap.open BucketPlacement order config s = .ok (p, report) t ∧ report.rebuilt = false ∧
      p.states = newer.placement.states.map filled ∧ p.nextRegion = newer.placement.nextRegion ∧
      ∀ more again, Lifetime config ⟨⟨p, t⟩, 0⟩ more again →
        (∀ id, updateCount (early ++ late ++ more) id ≤ 65534) →
        (∀ id < 2 ^ 58, ∃ u, Heap.read config id again =
          match values (early ++ undeleted late ++ more) id with
          | some payload => .ok payload u
          | none => .error (.error (.notFound id)) u) ∧
        ((early ++ late ++ more).filterMap Event.issued).Nodup := by
  obtain ⟨p, report, t, N, hRun, hReport, hPlacement, hSound, hReachT, hKept⟩ :=
    hTrailing.opens hOlder hK hNewer hGrows hCount hNear hSpaced order
  refine ⟨p, report, t, hRun, hReport, by rw [hPlacement, resumed], by rw [hPlacement, resumed],
    fun more again hMore hBound => ?_⟩
  have hIssued : (early ++ undeleted late).filterMap Event.issued =
      (early ++ late).filterMap Event.issued := by
    rw [List.filterMap_append, issued_undeleted, ← List.filterMap_append]
  have hBefore : ((early ++ late).filterMap Event.issued).Nodup := hK.issued_nodup_grows hGrows hOnce
  have hRevived : Alive config (early ++ undeleted late) (⟨⟨p, t⟩, 0⟩ : Heap BucketPlacement) N :=
    ⟨hSound, hKept, hReachT, hIssued ▸ hBefore⟩
  have hBoth : ∀ id, updateCount (early ++ undeleted late ++ more) id ≤ 65534 := fun id => by
    have hAll := hBound id
    simp only [updateCount_append, updateCount_undeleted] at hAll ⊢
    exact hAll
  obtain ⟨Q, hFinal⟩ := hMore.alive hConfig hRevived hBoth
  refine ⟨fun id hId => hFinal.read (addressable_of_lt hId), ?_⟩
  have hAll := hFinal.once
  rwa [List.filterMap_append, hIssued, ← List.filterMap_append] at hAll

/-- A bucket heap whose index file is older than its other files, and lacks records of
the last extents only, opens without a rebuild and with its buckets as they were. From
then on it is the key/value map of its whole history, in which the later deletes are
undone, and no number is issued twice. -/
theorem bucket_open_catches_up {start : Store} (hBlank : Blank start) (hConfig : config.Usable)
    (hOpened : OpenedOn config start first) (hReach : AllInReach first.store)
    (hEarly : Lifetime config first early older) (hLate : Lifetime config older late newer)
    (hCount : ∀ id, updateCount (early ++ late) id ≤ 65534) (hTrailing : Trailing older newer s)
    (hNear : Near older newer) (hSpaced : Spaced newer.placement) (order : HashOrder) :
    ∃ p report t, Heap.open BucketPlacement order config s = .ok (p, report) t ∧ report.rebuilt = false ∧
      p.states = newer.placement.states.map filled ∧ p.nextRegion = newer.placement.nextRegion ∧
      ∀ more again, Lifetime config ⟨⟨p, t⟩, 0⟩ more again →
        (∀ id, updateCount (early ++ late ++ more) id ≤ 65534) →
        (∀ id < 2 ^ 58, ∃ u, Heap.read config id again =
          match values (early ++ undeleted late ++ more) id with
          | some payload => .ok payload u
          | none => .error (.error (.notFound id)) u) ∧
        ((early ++ late ++ more).filterMap Event.issued).Nodup := by
  obtain ⟨K, hOlder⟩ := hEarly.alive hConfig (hOpened.alive hBlank hConfig hReach)
    (updateCount_le_left hCount)
  obtain ⟨M, hGrows, hNewer⟩ := (Alive.carried hConfig).lifetime hLate hOlder hCount
  exact hTrailing.continues hOlder.sound hOlder.historic hOlder.once hConfig hNewer.sound hGrows hCount
    hNear hSpaced order

set_option maxRecDepth 20000 in
/-- The index knows nothing of the only record, and the opened heap reads it. -/
theorem bucket_open_catches_up_first :
    ∃ (first older newer again : Heap BucketPlacement) (s t : Store) (p : BucketPlacement)
      (report : RecoveryReport) (order : HashOrder),
      OpenedOn megabyte .empty first ∧ Lifetime megabyte older [.inserted 0 3 [7], .observed] newer ∧
      Trailing older newer s ∧ indexSlot older 0 = .empty ∧
      Heap.open BucketPlacement order megabyte s = .ok (p, report) t ∧
      Heap.read megabyte 0 (⟨⟨p, t⟩, 0⟩ : Heap BucketPlacement) = .ok [7] again := by
  have hBlank : Blank .empty := ⟨fun _ => rfl, fun _ => rfl, rfl⟩
  obtain ⟨first, hOpened, hPlacement, hSound, hReach, hEnd, -⟩ := exists_opened_bucket megabyte hBlank
    megabyte_usable (by decide)
  obtain ⟨u, hFlush, hRefreshed⟩ := flush_run (h := first) hSound.coherent hSound.plan hReach
  obtain ⟨hOldAll, hOlder⟩ := flush_ok hSound hFlush
  have hReachOld : AllInReach u := hReach.refreshed hRefreshed
  have hEndOld : (u.paged .data).allocatedEnd = _ :=
    (hRefreshed.upkeep hSound.coherent).allocated.trans hEnd
  obtain ⟨mid, M, hInsert, hGranted, hMid, hReachMid, -⟩ :=
    bucket_insert_run (q := ⟨[⟨3, [⟨PAGE, 1044480, 39⟩], [⟨0, 1, 1⟩]⟩], 1, 2 ^ 20, 1,
        PAGE + 2 * REGISTRY_ROW_SIZE⟩)
      3 0 PAGE [7] hOlder megabyte_usable hReachOld
      (coherent_reserving 1052672 0) hEndOld (by decide) (addressable_of_lt (by decide))
      (by
        change alloc megabyte 3 _ ⟨first.placement, _⟩ = _
        rw [hPlacement]
        rfl) (by decide)
  obtain ⟨v, hLast, hAgain⟩ := flush_run (h := mid) hMid.coherent hMid.plan hReachMid
  obtain ⟨hNewAll, hNewer⟩ := flush_ok hMid hLast
  have hKept : (mid.withStore v).placement = ⟨[⟨3, [⟨PAGE, 1044480, 39⟩], [⟨0, 1, 1⟩]⟩], 1, 2 ^ 20, 1,
      PAGE + 2 * REGISTRY_ROW_SIZE⟩ := hGranted
  have hTrailing := trailing_of_flushed hOlder hNewer hOldAll hNewAll
  have hNear : Near (first.withStore u) (mid.withStore v) :=
    near_of_single _ hNewer (by rw [hKept]; decide)
  have hEarly : Lifetime megabyte first [.observed] (first.withStore u) :=
    Runs.Steps.refl.step ⟨.performed (.flushed hFlush), hReachOld⟩
  have hLate : Lifetime megabyte (first.withStore u) [.inserted 0 3 [7], .observed] (mid.withStore v) :=
    (Runs.Steps.refl.step ⟨.performed (.inserted (by decide) hInsert), hReachMid⟩).step
      ⟨.performed (.flushed hLast), hReachMid.refreshed hAgain⟩
  obtain ⟨p, report, t, hRun, -, -, -, hRest⟩ := bucket_open_catches_up hBlank megabyte_usable hOpened
    hReach hEarly hLate (fun id => Nat.zero_le _) hTrailing hNear (by rw [hKept, Spaced]; decide)
    ⟨id, fun _ => .refl _⟩
  obtain ⟨hRead, -⟩ := hRest [] _ .refl fun id => Nat.zero_le _
  obtain ⟨again, hRead⟩ := hRead 0 (by decide)
  exact ⟨first, first.withStore u, mid.withStore v, again, _, t, p, report, ⟨id, fun _ => .refl _⟩,
    hOpened, hLate, hTrailing, hOlder.index 0, hRun, hRead⟩

end Heap

end HeapStore
