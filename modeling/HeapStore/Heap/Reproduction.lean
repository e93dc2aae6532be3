import HeapStore.Heap.BucketRuns
import HeapStore.Heap.Run
import HeapStore.Placement.AllocCalls

/-! Opening a flushed bucket heap and its allocator: when the allocator that
opening makes is the one that was closed, and what it then has in common with it. -/
namespace HeapStore

open Effect Placed PagedFile IndexFile

namespace BucketPlacement

variable {config : HeapConfig} {p : BucketPlacement}

/-- The call, with the offset that it returns and the number unless it is an update. -/
def AllocCall.answer (config : HeapConfig) : AllocCall → PlaceM BucketPlacement (Nat × Option Nat)
  | .alloc bucket totalLen => do
      let (off, id) ← BucketPlacement.alloc config bucket totalLen
      return (off, some id)
  | .allocUpdate bucket totalLen => do
      let off ← BucketPlacement.allocUpdate config bucket totalLen
      return (off, none)

/-- One call after the other, with all that they return. -/
def answers (config : HeapConfig) :
    List AllocCall → PlaceM BucketPlacement (List (Nat × Option Nat))
  | [] => return []
  | call :: rest => do
      let first ← call.answer config
      let others ← answers config rest
      return first :: others

theorem transfers_answers (config : HeapConfig) (calls : List AllocCall) :
    Transfers (answers config calls) := by
  induction calls with
  | nil => exact .pure _
  | cons call rest ih =>
      have hCall : Transfers (call.answer config) := by
        cases call with
        | alloc bucket totalLen => exact (transfers_alloc _ _ _).bind fun _ => .pure _
        | allocUpdate bucket totalLen => exact (transfers_allocUpdate _ _ _).bind fun _ => .pure _
      exact hCall.bind fun _ => ih.bind fun _ => .pure _

/-- The other allocator answers every sequence of calls as the live one does,
and uses as many bytes. -/
def Reproduces (config : HeapConfig) (live again : Placed BucketPlacement) : Prop :=
  ∀ calls outs live', answers config calls live = .ok outs live' →
    ∃ again', answers config calls again = .ok outs again' ∧
      again'.placement.usedBytes = live'.placement.usedBytes

/-- What opening takes for granted: every registry row was one grant attempt, the
data file is as long as the allocator knows, and only last extents have room. -/
structure Reproducible (s : Placed BucketPlacement) : Prop where
  counted : s.placement.registryEnd = PAGE + REGISTRY_ROW_SIZE * s.placement.extentGrantCount
  sized : (s.store.file .data).size = s.placement.fileSize
  packed : ∀ state ∈ s.placement.states, ∀ e ∈ state.data.dropLast, e.used = e.size

/-- Filling changes nothing exactly where all earlier extents are full. -/
theorem fillEarlier_eq_iff (data : List Extent) :
    fillEarlier data = data ↔ ∀ e ∈ data.dropLast, e.used = e.size := by
  rcases List.eq_nil_or_concat data with rfl | ⟨init, last, rfl⟩
  · simp [fillEarlier]
  · rw [List.concat_eq_append, fillEarlier, List.dropLast_concat, List.getLast?_concat,
      Option.toList_some, List.append_left_inj]
    constructor
    · intro hSame e he
      have hMap : init.map (fun e => { e with used := e.size }) = init.map id := by
        rw [hSame, List.map_id]
      exact (congrArg Extent.used (List.map_inj_left.mp hMap e he)).symm
    · intro hFull
      refine (List.map_congr_left fun e he => ?_).trans (List.map_id _)
      obtain ⟨start, size, used⟩ := e
      obtain rfl : used = size := hFull _ he
      rfl

theorem filled_eq_iff (states : List BucketState) :
    states.map filled = states ↔ ∀ state ∈ states, ∀ e ∈ state.data.dropLast, e.used = e.size := by
  constructor
  · intro hSame state hState
    have hMap : states.map filled = states.map id := by rw [hSame, List.map_id]
    have hOwn := List.map_inj_left.mp hMap state hState
    exact (fillEarlier_eq_iff _).mp (congrArg BucketState.data hOwn)
  · intro hFull
    refine (List.map_congr_left fun state hState => ?_).trans (List.map_id _)
    rw [filled, (fillEarlier_eq_iff _).mpr (hFull state hState)]
    rfl

end BucketPlacement

namespace Heap

open BucketPlacement

variable {config : HeapConfig} {h h' g : Heap BucketPlacement} {L : Ledger} {start t : Store}
  {order : HashOrder} {p : BucketPlacement} {events : List Event} {restored : Nat}

/-- The placement that opening makes of the files of a flushed heap, and its store. -/
theorem Sound.reopened_flushed (hSound : Sound config L h.placed) (hFlush : flush h = .ok () g)
    (hOpen : BucketPlacement.open order config false (simulateCrash g) = .ok (p, restored) t) :
    Sound config L g.placed ∧ p = g.placement.resumed L.rows (g.store.file .data).size ∧
      t.paged .registry = .fresh ∧ (t.paged .data).allocatedEnd = (g.store.file .data).size ∧
      ∃ slots, Sound config { L with slots } (⟨p, t⟩ : Placed BucketPlacement) := by
  obtain ⟨hAll, hFlushed⟩ := flush_ok hSound hFlush
  obtain ⟨hOut, ⟨⟨hRegistry, hData⟩, -⟩, slots, hReopened, -⟩ :=
    (hFlushed.reopen_meets (fun n hn => hAll.staged hn) order).ok hOpen
  exact ⟨hFlushed, hOut, hRegistry, hData, slots, hReopened⟩

/-- Opening gives the closed allocator back exactly where it is reproducible. -/
theorem resumed_eq_iff (hSound : Sound config L g.placed) :
    g.placement.resumed L.rows (g.store.file .data).size = g.placement ↔ Reproducible g.placed := by
  have hEnd := hSound.placed.recorded.registryEnd
  have hRows : L.rows.length = g.placement.extentGrantCount ↔
      g.placement.registryEnd = PAGE + REGISTRY_ROW_SIZE * g.placement.extentGrantCount := by
    change g.placement.registryEnd = _ at hEnd
    rw [hEnd, REGISTRY_ROW_SIZE]
    omega
  constructor
  · intro hSame
    have hStates := congrArg BucketPlacement.states hSame
    have hCount := congrArg BucketPlacement.extentGrantCount hSame
    have hSize := congrArg BucketPlacement.fileSize hSame
    exact ⟨hRows.mp hCount, hSize, (filled_eq_iff _).mp hStates⟩
  · intro hReproducible
    have hCount := hRows.mpr hReproducible.counted
    have hSize : (g.store.file .data).size = g.placement.fileSize := hReproducible.sized
    have hStates := (filled_eq_iff _).mpr hReproducible.packed
    change g.placement.states.map filled = g.placement.states at hStates
    rw [resumed, hStates, hCount, hSize]

/-- An allocator that is given back answers as the closed one would have. -/
theorem Sound.reproduces (hSound : Sound config L g.placed) {slots : Nat → SlotState}
    (hAgain : Sound config { L with slots } (⟨p, t⟩ : Placed BucketPlacement))
    (hSame : p = g.placement) (hRegistry : t.paged .registry = .fresh)
    (hEnd : (t.paged .data).allocatedEnd = (g.store.paged .data).allocatedEnd) :
    Reproduces config g.placed ⟨p, t⟩ := by
  intro calls outs live' hRun
  have hRoom := hAgain.registry_room (by rw [hRegistry]; rfl)
  have hMirrors : Mirrors g.placement.registryEnd g.store t :=
    { plan := hAgain.plan
      source := hSound.coherent .registry
      coherent := hAgain.coherent .registry
      tail := Or.inl (by rw [hRegistry]; rfl)
      room := fun _ => hSame ▸ hRoom
      rows := fun _ w hw => by
        rw [hRegistry] at hw
        cases hw
      allocated := hEnd }
  obtain ⟨t', hRun', -⟩ := (transfers_answers config calls).repeats hRun hMirrors
  subst hSame
  exact ⟨⟨live'.placement, t'⟩, hRun', rfl⟩

/-- A flush of a sound heap leaves files that its placement can be opened from. -/
theorem exists_reopened_bucket (order : HashOrder) (hSound : Sound config L h.placed)
    (hReach : AllInReach h.store) (hSpaced : h.placement.Spaced) :
    ∃ g p restored t, flush h = .ok () g ∧ g.placement = h.placement ∧ AllInReach g.store ∧
      (g.store.paged .data).allocatedEnd = (h.store.paged .data).allocatedEnd ∧
      (Snug h.store → Snug g.store) ∧
      BucketPlacement.open order config false (simulateCrash g) = .ok (p, restored) t := by
  obtain ⟨u, hFlush, hRefreshed⟩ := flush_run (h := h) hSound.coherent hSound.plan hReach
  obtain ⟨hAll, hFlushed⟩ := flush_ok hSound hFlush
  have hMeets := hFlushed.reopen_meets (fun n hn => hAll.staged hn) order
  cases hOpen : BucketPlacement.open order config false (simulateCrash (h.withStore u)) with
  | ok out t =>
      exact ⟨_, out.1, out.2, t, hFlush, rfl, hReach.refreshed hRefreshed,
        (hRefreshed.upkeep hSound.coherent).allocated, hRefreshed.snug hSound.coherent, hOpen⟩
  | error e t =>
      have hRefused := hMeets.failsOnly e t hOpen
      exact absurd trivial (hRefused.request hSpaced).2

/-- After a run and a flush, opening the files gives the closed allocator back
exactly when it is reproducible, and then both answer every later sequence of
calls alike. -/
theorem reopened_reproduces (hBlank : Blank start) (hConfig : config.Usable)
    (hOpened : OpenedOn config start h) (hRuns : Runs config h events h')
    (hFlush : flush h' = .ok () g)
    (hOpen : BucketPlacement.open order config false (simulateCrash g) = .ok (p, restored) t) :
    (p = g.placement ↔ Reproducible g.placed) ∧
      (Reproducible g.placed → Reproduces config g.placed ⟨p, t⟩) := by
  obtain ⟨L, -, hSound, -⟩ := Runs.sound hRuns hConfig (hOpened.created hBlank hConfig) (.empty _)
  obtain ⟨hFlushed, hOut, hRegistry, hEnd, slots, hAgain⟩ := hSound.reopened_flushed hFlush hOpen
  have hIff := resumed_eq_iff hFlushed
  refine ⟨hOut ▸ hIff, fun hReproducible => ?_⟩
  have hSame := hOut.trans (hIff.mpr hReproducible)
  refine hFlushed.reproduces hAgain hSame hRegistry (hEnd.trans ?_)
  have hLow : g.placement.fileSize ≤ (g.store.paged .data).allocatedEnd := hFlushed.placed.reserved
  have hHigh : (g.store.paged .data).allocatedEnd ≤ (g.store.file .data).size :=
    hFlushed.placed.roomy.reserved
  have hSize : (g.store.file .data).size = g.placement.fileSize := hReproducible.sized
  omega

set_option maxRecDepth 20000 in
/-- A record that fills the first page makes the second one look for space: four
grant attempts and four registry rows. -/
theorem reopened_reproduces_grown :
    ∃ (h h' g : Heap BucketPlacement) (p : BucketPlacement) (restored : Nat) (t : Store),
      OpenedOn twoPages .empty h ∧
      Runs twoPages h [.inserted 0 0 (List.replicate 4058 0), .inserted 1 0 [7]] h' ∧
      flush h' = .ok () g ∧ g.placement.extentGrantCount = 4 ∧
      BucketPlacement.open ⟨id, fun _ => .refl _⟩ twoPages false (simulateCrash g) =
        .ok (p, restored) t ∧ p = g.placement ∧ Reproduces twoPages g.placed ⟨p, t⟩ := by
  have hBlank : Blank .empty := ⟨fun _ => rfl, fun _ => rfl, rfl⟩
  have hUsable : twoPages.Usable := ⟨by decide, by decide, by decide⟩
  have hPage : (dataFile BucketPlacement twoPages).recordHeaderLen +
      (List.replicate 4058 (0 : UInt8)).length = PAGE := by
    rw [List.length_replicate]
    rfl
  obtain ⟨h, hOpened, hPlacement, hSound, hReach, hEnd, hSnug⟩ :=
    exists_opened_bucket twoPages hBlank hUsable (by decide)
  obtain ⟨h₁, M, hFirst, hPlacement, hSound, hReach, hEnd, hKeep, -⟩ :=
    bucket_insert_run (q := ⟨[⟨0, [⟨PAGE, PAGE, PAGE⟩], [⟨0, 1, 1⟩]⟩], 1, 2 * PAGE, 1,
        PAGE + 2 * REGISTRY_ROW_SIZE⟩)
      0 0 PAGE (List.replicate 4058 0) hSound hUsable hReach
      (coherent_reserving (2 * PAGE) 0) hEnd (by decide) (addressable_of_lt (by decide))
      (by rw [hPlacement, hPage]; rfl) (by decide)
  have hSnug := hKeep hSnug
  obtain ⟨h', L, hSecond, hPlacement, hSound, hReach, hEnd, hKeep, -⟩ :=
    bucket_insert_run (q := ⟨[⟨0, [⟨PAGE, PAGE, PAGE⟩, ⟨2 * PAGE, PAGE, 39⟩],
        [⟨0, 1, 1⟩, ⟨1, 1, 1⟩]⟩], 4, 3 * PAGE, 2, PAGE + 4 * REGISTRY_ROW_SIZE⟩)
      0 1 (2 * PAGE) [7] hSound hUsable hReach
      (coherent_reserving (2 * PAGE) 2) hEnd (by decide) (addressable_of_lt (by decide))
      (by rw [hPlacement]; rfl) (by decide)
  have hSnug := hKeep hSnug
  have hRuns : Runs twoPages h [.inserted 0 0 (List.replicate 4058 0), .inserted 1 0 [7]] h' :=
    (Runs.Steps.refl.step (.inserted (by decide) hFirst)).step (.inserted (by decide) hSecond)
  obtain ⟨g, p, restored, t, hFlush, hKept, -, hSame, hKeep, hOpen⟩ :=
    exists_reopened_bucket ⟨id, fun _ => .refl _⟩ hSound hReach (by rw [hPlacement, Spaced]; decide)
  obtain ⟨hAgain, hReproduces⟩ := reopened_reproduces hBlank hUsable hOpened hRuns hFlush hOpen
  have hReproducible : Reproducible g.placed := by
    refine ⟨?_, ?_, ?_⟩
    · change g.placement.registryEnd = PAGE + REGISTRY_ROW_SIZE * g.placement.extentGrantCount
      rw [hKept, hPlacement]
      rfl
    · change (g.store.file .data).size = g.placement.fileSize
      rw [(hKeep hSnug).size, hSame, hEnd, hKept, hPlacement]
      rfl
    · change ∀ state ∈ g.placement.states, _
      rw [hKept, hPlacement]
      decide
  exact ⟨h, h', g, p, restored, t, hOpened, hRuns, hFlush, by rw [hKept, hPlacement], hOpen,
    hAgain.mpr hReproducible, hReproduces hReproducible⟩

/-- With three rows read as three grant attempts, opening another bucket looks
for free space in that bucket itself. -/
theorem alloc_third_row_panics {states : List BucketState} {bucket fileSize totalLen : Nat}
    (hCounts : states.length = 1 ∧ states.findIdx? (fun state => state.id == bucket) = none)
    (hFits : totalLen + PAGE < 2 ^ 64) (nextRegion registryEnd : Nat) (s : Store) :
    ∃ v, alloc config bucket totalLen ⟨⟨states, 3, fileSize, nextRegion, registryEnd⟩, s⟩ =
      .error (.panic "bucket without extent") v := by
  obtain ⟨hOne, hNew⟩ := hCounts
  have hMissing (need : Nat) : examine (states ++ [⟨bucket, [], []⟩]) need 3 = some .missing := by
    have hVictim : victimIndex 3 = states.length := hOne.symm
    rw [examine, if_neg (by decide), hVictim, if_neg (by simp), lastExtent?,
      List.getElem?_append_right (Nat.le_refl _), Nat.sub_self]
    rfl
  have hSearch (need : Nat) : searchVictim (states ++ [⟨bucket, [], []⟩]) need
      (searchFuel (states ++ [⟨bucket, [], []⟩])) 3 = some (.missing, 4) := by
    rw [searchFuel, searchVictim, hMissing]
  have hTake (need : Nat) : ∃ v, takeExtent config need
      ⟨⟨states ++ [⟨bucket, [], []⟩], 3, fileSize, nextRegion, registryEnd⟩, s⟩ =
        .error (.panic "bucket without extent") v := by
    rw [takeExtent, bind_of_ok (getPlacement_apply _)]
    simp only [hSearch]
    exact ⟨_, rfl⟩
  obtain ⟨v, hTake⟩ := hTake (requiredExtentSize config totalLen)
  refine ⟨v, (bind_of_ok (checkedExtentSize_run hFits _)).trans (bind_of_error ?_)⟩
  rw [bucketIndex, bind_of_ok (getPlacement_apply _)]
  simp only [bucketIndices, hNew]
  rw [bind_of_ok (modifyPlacement_apply _ _)]
  exact bind_of_error (bind_of_error hTake)

set_option maxRecDepth 20000 in
/-- After two inserts a reopened allocator panics where the closed one would
have opened another bucket. -/
theorem reopening_diverges :
    ∃ h h' g p restored t live' again', OpenedOn megabyte .empty h ∧
      Runs megabyte h [.inserted 0 3 [7], .inserted 1 3 [8]] h' ∧ flush h' = .ok () g ∧
      BucketPlacement.open ⟨id, fun _ => .refl _⟩ megabyte false (simulateCrash g) =
        .ok (p, restored) t ∧
      answers megabyte [.alloc 5 40] g.placed = .ok [(528384, some 2)] live' ∧
      answers megabyte [.alloc 5 40] ⟨p, t⟩ = .error (.panic "bucket without extent") again' := by
  have hBlank : Blank .empty := ⟨fun _ => rfl, fun _ => rfl, rfl⟩
  obtain ⟨h, hOpened, hPlacement, hSound, hReach, hEnd, -⟩ := exists_opened_bucket megabyte hBlank
    megabyte_usable (by decide)
  obtain ⟨h₁, M, hFirst, hPlacement, hSound, hReach, hEnd, -⟩ :=
    bucket_insert_run (q := ⟨[⟨3, [⟨PAGE, 1044480, 39⟩], [⟨0, 1, 1⟩]⟩], 1, 2 ^ 20, 1,
        PAGE + 2 * REGISTRY_ROW_SIZE⟩)
      3 0 PAGE [7] hSound megabyte_usable hReach
      (coherent_reserving 1052672 0) hEnd (by decide) (addressable_of_lt (by decide))
      (by rw [hPlacement]; rfl) (by decide)
  obtain ⟨h', L, hSecond, hPlacement, hSound, hReach, hEnd, -⟩ :=
    bucket_insert_run (q := ⟨[⟨3, [⟨PAGE, 1044480, 78⟩], [⟨0, 1, 1⟩, ⟨1, 1, 1⟩]⟩], 1, 2 ^ 20, 2,
        PAGE + 3 * REGISTRY_ROW_SIZE⟩)
      3 1 (PAGE + 39) [8] hSound megabyte_usable hReach
      (coherent_reserving 1052672 2) hEnd (by decide) (addressable_of_lt (by decide))
      (by rw [hPlacement]; rfl) (by decide)
  obtain ⟨g, p, restored, t, hFlush, hKept, hReach, hSame, -, hOpen⟩ :=
    exists_reopened_bucket ⟨id, fun _ => .refl _⟩ hSound hReach (by rw [hPlacement, Spaced]; decide)
  obtain ⟨hFlushed, hOut, -⟩ := hSound.reopened_flushed hFlush hOpen
  have hRows : L.rows.length = 3 := by
    have hCount := hFlushed.placed.recorded.registryEnd
    change g.placement.registryEnd = _ at hCount
    rw [hKept, hPlacement, REGISTRY_ROW_SIZE] at hCount
    simp only at hCount
    omega
  have hSketch : ∃ v, answers megabyte [.alloc 5 40] ⟨g.placement, reserving 1052672 3⟩ =
      .ok [(528384, some 2)] v := by
    rw [hKept, hPlacement]
    exact ⟨_, rfl⟩
  obtain ⟨⟨q, v⟩, hSketch⟩ := hSketch
  obtain ⟨w, hLive, -⟩ := (transfers_answers _ _).repeats hSketch
    (hFlushed.mirrors hReach (coherent_reserving _ _) (hSame.trans hEnd))
  obtain ⟨again', hPanic⟩ : ∃ v, alloc megabyte 5 40 ⟨p, t⟩ =
      .error (.panic "bucket without extent") v := by
    rw [hOut, resumed, hRows, hKept, hPlacement]
    exact alloc_third_row_panics ⟨rfl, rfl⟩ (by decide) _ _ _
  have hAgain : answers megabyte [.alloc 5 40] ⟨p, t⟩ =
      .error (.panic "bucket without extent") again' :=
    bind_of_error (bind_of_error hPanic)
  exact ⟨h, h', g, p, restored, t, _, _, hOpened,
    (Runs.Steps.refl.step (.inserted (by decide) hFirst)).step (.inserted (by decide) hSecond),
    hFlush, hOpen, hLive, hAgain⟩

end Heap

end HeapStore
