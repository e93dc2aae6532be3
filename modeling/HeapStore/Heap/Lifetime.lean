import HeapStore.Heap.Batch
import HeapStore.Heap.ClosedAppend
import HeapStore.Heap.ClosedBucket

/-! The life of a heap: operations, closing, and opening again with the same
configuration. Through all of it the heap is a key/value map. -/
namespace HeapStore

open Effect PagedFile IndexFile

namespace Heap

/-- A placement that a flushed heap's files are opened with as they were written. -/
class ReopenablePlacement (P : Type) [Placement P] [LawfulPlacement P] : Prop where
  accepts {config : HeapConfig} : config.Usable → LawfulPlacement.Accepts P config
  reopen {config : HeapConfig} {L : Ledger} {events : List Event} {s : Placed P} (order : HashOrder) :
    Sound config L s → L.Historic (Placement.withBucket P) events →
    (∀ id, updateCount events id ≤ 65534) →
    (∀ n, HasFile P n → (s.store.paged n).stagedWrites = []) →
    Meets (fun e => ∀ what offset, e ≠ .error (.corrupt what offset))
      (fun out t => Sound config L (⟨out.1, t⟩ : Placed P))
      (Placement.open (P := P) order config false) (closed s.store)

instance : ReopenablePlacement AppendPlacement where
  accepts _ := trivial
  reopen order hSound hHistoric hCount hStaged := by
    obtain ⟨restored, t, hRun, hReopened, -⟩ := hSound.reopens hHistoric hCount hStaged order
    exact Meets.of_ok hRun hReopened

instance : ReopenablePlacement BucketPlacement where
  accepts := id
  reopen {config L events s} order hSound hHistoric hCount hStaged := by
    refine (hSound.reopen_meets hStaged order).mono (fun _ hFail => hFail.uncorrupt) ?_
    rintro out t ⟨-, -, slots, hReopened, hSame⟩
    have hSlots : slots = L.slots := hSame (hHistoric.ascending hCount) fun id slot hLive =>
      hHistoric.newest id slot (by rw [hLive]; rfl)
    subst hSlots
    exact hReopened

variable {P : Type} [Placement P]

/-- One step in the life of a heap. Mutations were completed; a read may end as
it likes; dropping the heap is followed by opening its files again. -/
inductive Lived (config : HeapConfig) : Heap P → Event → Heap P → Prop where
  | performed {h h' : Heap P} {e : Event} (run : Performed config h e h') : Lived config h e h'
  | read {h : Heap P} {id : Nat} (range : id < 2 ^ 58) :
      Lived config h .observed (final (Heap.read config id) h)
  | readBatch {h : Heap P} {ids : List Nat} (range : ∀ id ∈ ids, id < 2 ^ 58) :
      Lived config h .observed (final (Heap.readBatch config ids) h)
  | reopened {h h' : Heap P} (opened : OpenedOn config (close h) h') : Lived config h .observed h'

/-- A sequence of such steps, where all that is staged lies within the kernel's file offsets. -/
abbrev Lifetime (config : HeapConfig) : Heap P → List Event → Heap P → Prop :=
  Runs.Steps fun h e h' => Lived config h e h' ∧ AllInReach h'.store

variable [LawfulPlacement P] {config : HeapConfig} {h h' : Heap P} {L M : Ledger}
  {events more : List Event} {e : Event} {id : Nat}

omit [Placement P] [LawfulPlacement P] in
theorem AllInReach.ready (hReach : AllInReach h.store) : Ready h := ⟨hReach .data, hReach .index⟩

/-- A heap that was dropped and opened again is sound for the same ledger. -/
theorem OpenedOn.reopened [ReopenablePlacement P] (hOpened : OpenedOn config (close h) h')
    (hSound : Sound config L h.placed) (hHistoric : L.Historic (Placement.withBucket P) events)
    (hCount : ∀ id, updateCount events id ≤ 65534) (hReach : AllInReach h.store) :
    Sound config L h'.placed := by
  obtain ⟨u, hFlush, -⟩ := flush_run hSound.coherent hSound.plan hReach
  obtain ⟨hAll, hFlushed⟩ := flush_ok hSound hFlush
  have hClosed : close h = closed u := by
    rw [close, final_of_ok hFlush]
    rfl
  have hStaged : ∀ n, HasFile P n → (u.paged n).stagedWrites = [] := fun n hn => hAll.staged hn
  obtain ⟨order, report, hRun⟩ := hOpened.run
  rw [hClosed] at hRun
  have hMeets := ReopenablePlacement.reopen order hFlushed hHistoric hCount hStaged
  obtain ⟨restored, hOpen, -⟩ :=
    ((hFlushed.atRest hStaged).open_iff fun e t hError => hMeets.failsOnly e t hError).mp hRun
  exact hMeets.ok hOpen

/-- What holds of a heap after a history. -/
structure Alive (config : HeapConfig) (events : List Event) (h : Heap P) (L : Ledger) : Prop where
  sound : Sound config L h.placed
  historic : L.Historic (Placement.withBucket P) events
  reach : AllInReach h.store
  once : (events.filterMap Event.issued).Nodup

/-- A step that only looks at a heap. -/
theorem Alive.observed (hAlive : Alive config events h L) (hSound : Sound config L h'.placed)
    (hReach : AllInReach h'.store) : Alive config (events ++ [.observed]) h' L :=
  ⟨hSound, hAlive.historic.step .observed, hReach, hAlive.historic.issued_nodup .observed hAlive.once⟩

/-- One step in the life of a heap is one step of its ledger. -/
theorem Alive.step [ReopenablePlacement P] (hAlive : Alive config events h L)
    (hAccepted : LawfulPlacement.Accepts P config) (hCount : ∀ id, updateCount events id ≤ 65534)
    (hLived : Lived config h e h') (hReach : AllInReach h'.store) :
    ∃ M, Ledger.Step (Placement.withBucket P) L e M ∧ Alive config (events ++ [e]) h' M := by
  cases hLived with
  | performed run =>
      obtain ⟨M, hStep, hSound⟩ := run.step hAccepted hAlive.sound hAlive.historic
      exact ⟨M, hStep, hSound, hAlive.historic.step hStep, hReach,
        hAlive.historic.issued_nodup hStep hAlive.once⟩
  | read range =>
      obtain ⟨u, hInspected, hFinal⟩ := read_final hAlive.sound hAlive.reach.ready
        (addressable_of_lt range)
      rw [hFinal] at hReach ⊢
      exact ⟨L, .observed, hAlive.observed (hAlive.sound.refreshed hInspected.toRefreshed) hReach⟩
  | readBatch range =>
      obtain ⟨u, hInspected, hFinal⟩ := readBatch_final hAlive.sound
        hAlive.reach.ready range
      rw [hFinal] at hReach ⊢
      exact ⟨L, .observed, hAlive.observed (hAlive.sound.refreshed hInspected.toRefreshed) hReach⟩
  | reopened opened =>
      exact ⟨L, .observed, hAlive.observed
        (opened.reopened hAlive.sound hAlive.historic hCount hAlive.reach) hReach⟩

/-- What holds of a live heap with its ledger, and is kept by every step of its life. -/
structure Carried (config : HeapConfig) (I : List Event → Heap P → Ledger → Prop) : Prop where
  alive {events : List Event} {h : Heap P} {L : Ledger} : I events h L → Alive config events h L
  step {events : List Event} {h h' : Heap P} {e : Event} {L : Ledger} : I events h L →
    (∀ id, updateCount events id ≤ 65534) → Lived config h e h' → AllInReach h'.store →
    ∃ M, Ledger.Step (Placement.withBucket P) L e M ∧ I (events ++ [e]) h' M

theorem Alive.carried [ReopenablePlacement P] (hAccepted : LawfulPlacement.Accepts P config) :
    Carried config (Alive (P := P) config) :=
  ⟨fun hAlive => hAlive, fun hAlive hCount hLived hReach => hAlive.step hAccepted hCount hLived hReach⟩

/-- A life of a heap is a run of its ledger, and carries on what every step does. -/
theorem Carried.lifetime {I : List Event → Heap P → Ledger → Prop} (hCarried : Carried config I)
    (hLife : Lifetime config h more h') (hStart : I events h L)
    (hCount : ∀ id, updateCount (events ++ more) id ≤ 65534) :
    ∃ M, L.Grows (Placement.withBucket P) more M ∧ I (events ++ more) h' M := by
  induction hLife with
  | refl => exact ⟨L, .refl, by simpa using hStart⟩
  | step _ last ih =>
      rw [← List.append_assoc] at hCount ⊢
      have hBefore := updateCount_le_left hCount
      obtain ⟨M, hGrows, hMid⟩ := ih hBefore
      obtain ⟨N, hStep, hNext⟩ := hCarried.step hMid hBefore last.1 last.2
      exact ⟨N, hGrows.step hStep, hNext⟩

/-- A life leaves a heap that is sound for the ledger of its history. -/
theorem Lifetime.alive [ReopenablePlacement P] (hLife : Lifetime config h more h')
    (hConfig : config.Usable) (hAlive : Alive config events h L)
    (hCount : ∀ id, updateCount (events ++ more) id ≤ 65534) :
    ∃ M, Alive config (events ++ more) h' M := by
  obtain ⟨M, -, hEnd⟩ := (Alive.carried (ReopenablePlacement.accepts hConfig)).lifetime hLife hAlive hCount
  exact ⟨M, hEnd⟩

/-- A heap that was opened without files starts with the empty history. -/
theorem OpenedOn.alive [ReopenablePlacement P] {start : Store} (hOpened : OpenedOn config start h)
    (hBlank : Blank start) (hConfig : config.Usable) (hReach : AllInReach h.store) :
    Alive config [] h .empty :=
  ⟨hOpened.created hBlank (ReopenablePlacement.accepts hConfig), .empty _, hReach, List.nodup_nil⟩

/-- A number with a value can be deleted. -/
theorem Alive.delete (hAlive : Alive config events h L) {value : Bytes} (hValue : values events id = some value)
    (hId : Addressable id) :
    ∃ g, Performed config h (.deleted id) g ∧ g.placement = h.placement ∧ AllInReach g.store := by
  obtain ⟨r, -, -, -, hLive⟩ := hAlive.historic.live_of_value hValue
  obtain ⟨g, hRun, hPlacement, hReach, -⟩ := delete_run hAlive.sound hAlive.reach hId hLive
  exact ⟨g, .deleted hRun, hPlacement, hReach⟩

/-- A number with the slot of its history is read as its history says. -/
theorem Presents.read {slots : Nat → SlotState}
    (hPresents : Presents (Placement.withBucket P) config.integrity L.log slots h.store)
    (hReach : AllInReach h.store) (hHistoric : L.Historic (Placement.withBucket P) events)
    (hSame : slots id = L.slots id) (hId : Addressable id) :
    ∃ t, Heap.read config id h = match values events id with
      | some payload => .ok payload t
      | none => .error (.error (.notFound id)) t := by
  have hValue := hHistoric.value id
  cases hSlot : L.slots id with
  | live slot =>
      rw [hSlot] at hValue
      obtain ⟨r, hNewest, rfl⟩ := hHistoric.newest id slot (by rw [hSlot]; rfl)
      obtain ⟨hMem, hNumber⟩ := newest_eq_some hNewest
      obtain ⟨u, -, hRun⟩ := hPresents.read_live hReach.ready hId hMem hNumber (hSame.trans hSlot)
      simp only [hNewest, Option.map_some] at hValue
      simp only [hValue]
      exact ⟨_, hRun⟩
  | empty =>
      rw [hSlot] at hValue
      obtain ⟨u, -, hRun⟩ := hPresents.read_missing hReach.ready hId (by rw [hSame, hSlot]; rfl)
      simp only at hValue
      simp only [hValue]
      exact ⟨_, hRun⟩
  | deleted slot =>
      rw [hSlot] at hValue
      obtain ⟨u, -, hRun⟩ := hPresents.read_missing hReach.ready hId (by rw [hSame, hSlot]; rfl)
      simp only at hValue
      simp only [hValue]
      exact ⟨_, hRun⟩

/-- A sound heap answers a read with the value that its history describes. -/
theorem Alive.read (hAlive : Alive config events h L) (hId : Addressable id) :
    ∃ t, Heap.read config id h = match values events id with
      | some payload => .ok payload t
      | none => .error (.error (.notFound id)) t :=
  hAlive.sound.presents.read hAlive.reach hAlive.historic rfl hId

/-- Through operations, closing and opening again a heap is the key/value map
of its history, and no number is issued twice. -/
theorem lifetime_refines_map [ReopenablePlacement P] {start : Store} (hBlank : Blank start)
    (hConfig : config.Usable) (hOpened : OpenedOn config start h) (hReach : AllInReach h.store)
    (hLife : Lifetime config h events h') (hCount : ∀ id, updateCount events id ≤ 65534) :
    (∀ id < 2 ^ 58, ∃ t, Heap.read config id h' = match values events id with
      | some payload => .ok payload t
      | none => .error (.error (.notFound id)) t) ∧ (events.filterMap Event.issued).Nodup := by
  have hStart : Alive config [] h .empty :=
    ⟨hOpened.created hBlank (ReopenablePlacement.accepts hConfig), .empty _, hReach, List.nodup_nil⟩
  obtain ⟨M, hAlive⟩ := hLife.alive hConfig hStart hCount
  exact ⟨fun id hId => hAlive.read (addressable_of_lt hId), hAlive.once⟩

/-- A dropped append heap can be opened again. -/
theorem exists_reopened {h : Heap AppendPlacement} (hAlive : Alive config events h L)
    (hCount : ∀ id, updateCount events id ≤ 65534) :
    ∃ h' : Heap AppendPlacement, OpenedOn config (close h) h' ∧ AllInReach h'.store := by
  obtain ⟨u, hFlush, -⟩ := flush_run hAlive.sound.coherent hAlive.sound.plan hAlive.reach
  obtain ⟨hAll, hFlushed⟩ := flush_ok hAlive.sound hFlush
  have hClosed : close h = closed u := by
    rw [close, final_of_ok hFlush]
    rfl
  have hStaged : ∀ n, HasFile AppendPlacement n → (u.paged n).stagedWrites = [] :=
    fun n hn => hAll.staged hn
  let order : HashOrder := ⟨id, fun _ => .refl _⟩
  obtain ⟨restored, t, hRun, hReopened, hReach, -⟩ :=
    hFlushed.reopens hAlive.historic hCount hStaged order
  have hUncorrupt : ∀ e v, Placement.open (P := AppendPlacement) order config false (closed u) =
      .error e v → ∀ what offset, e ≠ .error (.corrupt what offset) := fun e v hError =>
    absurd (hRun.symm.trans hError) nofun
  have hOpen := ((hFlushed.atRest hStaged).open_iff hUncorrupt).mpr ⟨restored, hRun, rfl⟩
  refine ⟨⟨⟨h.placement, t⟩, 0⟩, ⟨⟨order, ⟨false, restored, .none⟩, ?_⟩, rfl⟩, hReach⟩
  rw [hClosed]
  exact hOpen

theorem lifetime_refines_map_reopened :
    ∃ (h h' : Heap AppendPlacement) (t : Heap AppendPlacement),
      OpenedOn ⟨.none, true, 2 ^ 20, 2 ^ 20, PAGE, 1, 2 ^ 20⟩ .empty h ∧
      Lifetime ⟨.none, true, 2 ^ 20, 2 ^ 20, PAGE, 1, 2 ^ 20⟩ h [.inserted 0 0 [7], .observed] h' ∧
      Heap.read ⟨.none, true, 2 ^ 20, 2 ^ 20, PAGE, 1, 2 ^ 20⟩ 0 h' = .ok [7] t := by
  have hBlank : Blank .empty := ⟨fun _ => rfl, fun _ => rfl, rfl⟩
  obtain ⟨h, hOpened, hPlacement, hFirst⟩ := exists_opened
    ⟨.none, true, 2 ^ 20, 2 ^ 20, PAGE, 1, 2 ^ 20⟩ hBlank (by decide)
  obtain ⟨g, M, hInsert, -, hMid⟩ := hFirst.insert 0 [7]
    (by decide) (by rw [hPlacement]; decide) (by rw [hPlacement]; exact addressable_of_lt (by decide))
  rw [hPlacement] at hInsert hMid
  have hCount : ∀ id, updateCount [.inserted 0 0 [7]] id ≤ 65534 := fun id => Nat.zero_le _
  have hAlive : Alive _ [.inserted 0 0 [7]] g M :=
    ⟨hMid.sound, hMid.historic, hMid.reach, List.nodup_singleton 0⟩
  obtain ⟨h', hReopened, hReachAgain⟩ := exists_reopened hAlive hCount
  have hLife : Lifetime _ h [.inserted 0 0 [7], .observed] h' :=
    (Runs.Steps.refl.step ⟨.performed hInsert, hMid.reach⟩).step ⟨.reopened hReopened, hReachAgain⟩
  obtain ⟨hRead, -⟩ := lifetime_refines_map hBlank ⟨by decide, by decide, by decide⟩ hOpened
    hFirst.reach hLife (fun id => Nat.zero_le _)
  obtain ⟨t, hRead⟩ := hRead 0 (by decide)
  exact ⟨h, h', t, hOpened, hLife, hRead⟩

end Heap

end HeapStore
