import HeapStore.Heap.Allocations
import HeapStore.Heap.Lifetime
import HeapStore.Heap.Process
import HeapStore.Placement.Faults

/-! Calls that fail. What a heap allocates stays apart from all that it allocated
before, whichever calls fail or panic on the way, and whatever becomes of the
files and handles below it. -/
namespace HeapStore

open Effect PagedFile IndexFile

namespace Allocated

def Apart (a b : Allocated) : Prop := a.stop ≤ b.off ∨ b.stop ≤ a.off

end Allocated

namespace Heap

variable {P : Type} [Placement P]

/-- The part of an update up to the allocation, with the header of the old version. -/
def updatePlace (config : HeapConfig) (id : Nat) (payload : Bytes) : HeapM P (RecordHeader × Nat) := do
  let d := dataFile P config
  let slot ← liveSlot id
  let old ← onStore (d.readHeader slot.offset id)
  let off ← onPlaced (Placement.allocUpdate config old.bucket (d.recordHeaderLen + payload.length))
  return (old, off)

/-- The range that a call takes, whatever it returns in the end. -/
def granted (config : HeapConfig) (h : Heap P) : Call → Option Allocated
  | .insertInto bucket payload =>
      let total := (dataFile P config).recordHeaderLen + payload.length
      match Placement.alloc config bucket total h.placed with
      | .ok (off, id) _ => some ⟨bucket, off, total, some id⟩
      | .error _ _ => none
  | .update id payload =>
      match updatePlace config id payload h with
      | .ok (old, off) _ =>
          some ⟨old.bucket, off, (dataFile P config).recordHeaderLen + payload.length, none⟩
      | .error _ _ => none
  | _ => none

/-- One step of an open heap: a call, which may end as it likes, or another store
under it, with other files, handles and failures to come. -/
inductive Shaken (config : HeapConfig) : Heap P → Option Allocated → Heap P → Prop where
  | called (h : Heap P) (call : Call) :
      Shaken config h (granted config h call) (Process.leave config h call)
  | struck (h : Heap P) (store : Store) : Shaken config h none (h.withStore store)

/-- Ranges apart from each other and from the records of a log, under new numbers. -/
structure Fresh (withBucket : Bool) (log : List Record) (grants : List Allocated) : Prop where
  base : ∀ a ∈ grants, PAGE ≤ a.off
  apart : grants.Pairwise Allocated.Apart
  written : ∀ a ∈ grants, ∀ r ∈ log, r.stop withBucket ≤ a.off ∨ a.stop ≤ r.off
  once : (grants.filterMap Allocated.number).Nodup
  unused : ∀ id ∈ grants.filterMap Allocated.number, ∀ r ∈ log, r.header.id ≠ id

variable {config : HeapConfig} {h h' : Heap P}

/-! Only the allocator changes the placement. -/

def Stays (h h' : Heap P) : Prop := h'.placement = h.placement

section Stays

omit [Placement P]

variable {α β : Type}

theorem Stays.refl (h : Heap P) : Stays h h := rfl

theorem onStore_stays (x : StoreM α) : Keeps Stays (onStore x : HeapM P α) := by
  intro h
  unfold final onStore onPlaced Placed.onStore zoom
  cases x h.placed.store <;> rfl

theorem same_stays {x : HeapM P α} (hSame : ∀ h, (final x h).placement = h.placement) : Keeps Stays x :=
  hSame

theorem pure_stays (a : α) : Keeps Stays (pure a : HeapM P α) := Keeps.pure Stays.refl a

theorem throw_stays (e : Failure) : Keeps Stays (throw e : HeapM P α) := Keeps.throw Stays.refl e

theorem bind_stays {x : HeapM P α} {f : α → HeapM P β} (hx : Keeps Stays x)
    (hf : ∀ a, Keeps Stays (f a)) : Keeps Stays (x >>= f) :=
  Keeps.bind (R := Stays) (fun hFirst hSecond => hSecond.trans hFirst) hx hf

theorem then_stays {x : HeapM P α} {f : α → HeapM P β} (hf : ∀ a, Keeps Stays (f a)) (h : Heap P) :
    (final (x >>= f) h).placement = (final x h).placement := by
  refine final_bind (Q := fun g : Heap P => g.placement = (final x h).placement) ?_ ?_
  · intro e t hRun
    rw [final_of_error hRun]
  · intro a t hRun
    rw [final_of_ok hRun]
    exact hf a t

end Stays

omit [Placement P] in
theorem liveSlot_stays (id : Nat) : Keeps Stays (liveSlot id : HeapM P Slot) := by
  apply bind_stays (onStore_stays _)
  intro slot
  cases slot with
  | some slot => exact pure_stays slot
  | none => exact throw_stays _

omit [Placement P] in
theorem batchItems_stays (slots : List (Nat × Option Slot)) :
    Keeps Stays (batchItems slots : HeapM P (List DataFile.ReadItem)) := by
  induction slots with
  | nil => exact pure_stays _
  | cons entry rest ih =>
      obtain ⟨id, slot⟩ := entry
      cases slot with
      | none => exact throw_stays _
      | some slot => exact bind_stays ih fun _ => pure_stays _

theorem afterWrite_stays : Keeps Stays (afterWrite config : HeapM P Unit) := by
  have hCommit : Keeps Stays (commit : HeapM P Unit) := onStore_stays _
  have hLimit : Keeps Stays (do
      let pending ← pendingBytes
      if config.pendingLimit < pending then commit else return () : HeapM P Unit) := by
    apply bind_stays (same_stays fun _ => rfl)
    intro pending
    split
    · exact hCommit
    · exact pure_stays _
  apply bind_stays (same_stays fun _ => rfl)
  intro _
  apply bind_stays (same_stays fun _ => rfl)
  intro g
  dsimp only
  split <;> split
  exacts [hCommit, hLimit, hCommit, hLimit]

theorem read_stays (id : Nat) : Keeps Stays (read config id : HeapM P Bytes) := by
  apply bind_stays (liveSlot_stays id)
  intro slot
  exact bind_stays (onStore_stays _) fun _ => pure_stays _

theorem readBatch_stays (ids : List Nat) : Keeps Stays (readBatch config ids : HeapM P (List Bytes)) := by
  apply bind_stays (onStore_stays _)
  intro slots
  exact bind_stays (batchItems_stays _) fun _ => onStore_stays _

theorem delete_stays (id : Nat) : Keeps Stays (delete config id : HeapM P Unit) := by
  apply bind_stays (liveSlot_stays id)
  intro old
  exact bind_stays (onStore_stays _) fun _ => afterWrite_stays

/-- An insertion leaves the placement as its allocation does. -/
theorem insertInto_placement (bucket : Nat) (payload : Bytes) (h : Heap P) :
    (final (insertInto config bucket payload) h).placement = (final (onPlaced (Placement.alloc config
      bucket ((dataFile P config).recordHeaderLen + payload.length))) h).placement := by
  apply then_stays
  rintro ⟨off, id⟩
  apply bind_stays (onStore_stays _)
  intro _
  apply bind_stays (onStore_stays _)
  intro _
  exact bind_stays afterWrite_stays fun _ => pure_stays _

/-- What is left of an update once it has its place. -/
def updateStage (config : HeapConfig) (id : Nat) (payload : Bytes) (found : RecordHeader × Nat) :
    HeapM P Unit := do
  let d := dataFile P config
  onStore (d.stageRecord found.2 found.1.bucket id ((found.1.version + 1) % 2 ^ 16) payload)
  onStore (IndexFile.stageSlot id (some ⟨found.2, d.recordHeaderLen + payload.length⟩))
  afterWrite config

theorem update_eq (id : Nat) (payload : Bytes) : (update config id payload : HeapM P Unit) =
    updatePlace config id payload >>= updateStage config id payload := by
  unfold update updatePlace updateStage
  simp only [bind_assoc, pure_bind]

theorem update_placement (id : Nat) (payload : Bytes) (h : Heap P) :
    (final (update config id payload) h).placement = (final (updatePlace config id payload) h).placement := by
  rw [update_eq]
  apply then_stays
  intro found
  apply bind_stays (onStore_stays _)
  intro _
  exact bind_stays (onStore_stays _) fun _ => afterWrite_stays

/-- An update that got its place allocated it from the placement that it found. -/
theorem updatePlace_ok {id : Nat} {payload : Bytes} {old : RecordHeader} {off : Nat}
    (hRun : updatePlace config id payload h = .ok (old, off) h') :
    ∃ g : Heap P, g.placement = h.placement ∧ Placement.allocUpdate config old.bucket
      ((dataFile P config).recordHeaderLen + payload.length) g.placed = .ok off h'.placed := by
  obtain ⟨slot, g, hSlot, hRun⟩ := bind_eq_ok.mp hRun
  obtain ⟨found, g', hHeader, hRun⟩ := bind_eq_ok.mp hRun
  obtain ⟨place, g'', hAlloc, hRun⟩ := bind_eq_ok.mp hRun
  cases hRun
  obtain ⟨u, hInner, rfl⟩ := zoom_eq_ok.mp hAlloc
  exact ⟨g', ((onStore_stays _).ok hHeader).trans ((liveSlot_stays id).ok hSlot), hInner⟩

theorem updatePlace_error {id : Nat} {payload : Bytes} {e : Failure}
    (hRun : updatePlace config id payload h = .error e h') : h'.placement = h.placement ∨
      ∃ (g : Heap P) (bucket : Nat), g.placement = h.placement ∧ Placement.allocUpdate config bucket
        ((dataFile P config).recordHeaderLen + payload.length) g.placed = .error e h'.placed := by
  rcases bind_eq_error.mp hRun with hSlot | ⟨slot, g, hSlot, hRun⟩
  · exact .inl ((liveSlot_stays id).error hSlot)
  have hFirst := (liveSlot_stays id).ok hSlot
  rcases bind_eq_error.mp hRun with hHeader | ⟨found, g', hHeader, hRun⟩
  · exact .inl (((onStore_stays _).error hHeader).trans hFirst)
  have hSecond := ((onStore_stays _).ok hHeader).trans hFirst
  rcases bind_eq_error.mp hRun with hAlloc | ⟨off, g'', -, hPure⟩
  · obtain ⟨u, hInner, rfl⟩ := zoom_eq_error.mp hAlloc
    exact .inr ⟨g', found.bucket, hSecond, hInner⟩
  · cases hPure

/-! What was handed out on top of a log. -/

section Handed

variable [LawfulPlacement P] [EnduringPlacement P] {log places numbers more : List Record}
  {grants : List Allocated} {a : Allocated} {r : Record} {p q : P} {u : Placed P}

/-- The records that fill the ranges are among those that the placement keeps apart. -/
structure Handed (config : HeapConfig) (log : List Record) (grants : List Allocated) (p : P)
    (places numbers : List Record) : Prop where
  endures : EnduringPlacement.Endures config p places numbers
  fresh : Fresh (Placement.withBucket P) log grants
  placed : ∀ r ∈ log, r ∈ places
  known : ∀ r ∈ log, r ∈ numbers
  filled : ∀ a ∈ grants, ∃ r ∈ places, r.off = a.off ∧ r.stop (Placement.withBucket P) = a.stop
  numbered : ∀ id ∈ grants.filterMap Allocated.number, ∃ r ∈ numbers, r.header.id = id

/-- Space may get lost. -/
theorem Handed.lose (h : Handed config log grants p places numbers)
    (hEndures : EnduringPlacement.Endures config q (places ++ more) numbers) :
    Handed config log grants q (places ++ more) numbers :=
  { h with
    endures := hEndures
    placed := fun r hr => List.mem_append_left _ (h.placed r hr)
    filled := fun a ha => by
      obtain ⟨r, hr, hSame⟩ := h.filled a ha
      exact ⟨r, List.mem_append_left _ hr, hSame⟩ }

/-- One more range, that one more record fills. -/
theorem Handed.grant (h : Handed config log grants p places numbers)
    (hEndures : EnduringPlacement.Endures config q (places ++ [r]) (numbers ++ more))
    (hOff : r.off = a.off) (hStop : r.stop (Placement.withBucket P) = a.stop)
    (hNumber : ∀ id, a.number = some id →
      (∃ x ∈ more, x.header.id = id) ∧ ∀ old ∈ numbers, old.header.id ≠ id) :
    Handed config log (grants ++ [a]) q (places ++ [r]) (numbers ++ more) := by
  have hApart : ∀ old ∈ places, old.stop (Placement.withBucket P) ≤ a.off ∨ a.stop ≤ old.off := by
    intro old hOld
    have hEither := EnduringPlacement.apart hEndures hOld
    rwa [Record.Apart, hOff, hStop] at hEither
  have hIssued (id : Nat) (hId : id ∈ (grants ++ [a]).filterMap Allocated.number) :
      id ∈ grants.filterMap Allocated.number ∨ a.number = some id := by
    rw [List.filterMap_append, List.mem_append] at hId
    exact hId.imp_right fun hNew => by simpa using hNew
  constructor
  case endures => exact hEndures
  case fresh =>
    constructor
    case base =>
      intro b hb
      rcases List.mem_append.mp hb with hb | hb
      · exact h.fresh.base b hb
      · rw [List.mem_singleton.mp hb, ← hOff]
        exact EnduringPlacement.bounds hEndures (List.mem_append_right _ (List.mem_singleton_self r))
    case apart =>
      rw [List.pairwise_append]
      refine ⟨h.fresh.apart, List.pairwise_singleton _ _, fun b hb c hc => ?_⟩
      rw [List.mem_singleton.mp hc]
      obtain ⟨old, hOld, hOldOff, hOldStop⟩ := h.filled b hb
      have hEither := hApart old hOld
      rwa [hOldOff, hOldStop] at hEither
    case written =>
      intro b hb old hOld
      rcases List.mem_append.mp hb with hb | hb
      · exact h.fresh.written b hb old hOld
      · rw [List.mem_singleton.mp hb]
        exact hApart old (h.placed old hOld)
    case once =>
      rw [List.filterMap_append, List.nodup_append]
      refine ⟨h.fresh.once, ?_, ?_⟩
      · cases hNone : a.number <;> simp [hNone]
      · intro id hOld other hNew hSame
        subst hSame
        have hOwn : a.number = some id := by simpa using hNew
        obtain ⟨old, hMem, hId⟩ := h.numbered id hOld
        exact (hNumber id hOwn).2 old hMem hId
    case unused =>
      intro id hId old hOld
      rcases hIssued id hId with hId | hId
      · exact h.fresh.unused id hId old hOld
      · exact (hNumber id hId).2 old (h.known old hOld)
  case placed => exact fun old hOld => List.mem_append_left _ (h.placed old hOld)
  case known => exact fun old hOld => List.mem_append_left _ (h.known old hOld)
  case filled =>
    intro b hb
    rcases List.mem_append.mp hb with hb | hb
    · obtain ⟨old, hOld, hSame⟩ := h.filled b hb
      exact ⟨old, List.mem_append_left _ hOld, hSame⟩
    · rw [List.mem_singleton.mp hb]
      exact ⟨r, List.mem_append_right _ (List.mem_singleton_self r), hOff, hStop⟩
  case numbered =>
    intro id hId
    rcases hIssued id hId with hId | hId
    · obtain ⟨x, hx, hSame⟩ := h.numbered id hId
      exact ⟨x, List.mem_append_left _ hx, hSame⟩
    · obtain ⟨⟨x, hx, hSame⟩, -⟩ := hNumber id hId
      exact ⟨x, List.mem_append_right _ hx, hSame⟩

/-- The record that stands for a range. -/
def filler (P : Type) [Placement P] (off bucket id len : Nat) : Record :=
  .filling off (if Placement.withBucket P then bucket else 0) id len

omit [LawfulPlacement P] [EnduringPlacement P] in
theorem filler_fills (off bucket id len : Nat) :
    (filler P off bucket id len).Fills (Placement.withBucket P) off
      ((dataFile P config).recordHeaderLen + len) bucket := ⟨rfl, rfl, rfl⟩

/-- What is handed out on top of a log, after a call too. -/
def Handing (config : HeapConfig) (log : List Record) (grants : List (Option Allocated)) (h : Heap P) : Prop :=
  ∃ places numbers, Handed config log (grants.filterMap id) h.placement places numbers

variable {events : List (Option Allocated)} {grant : Option Allocated}

/-- A call that hands out nothing and leaves the placement alone. -/
theorem Handing.idle (h : Handing config log events h') {g : Heap P} (hSame : g.placement = h'.placement) :
    Handing config log (events ++ [none]) g := by
  obtain ⟨places, numbers, hHanded⟩ := h
  refine ⟨places, numbers, ?_⟩
  rw [hSame]
  simpa using hHanded

theorem Handing.insertInto (hHanding : Handing config log events h)
    (hAccepted : LawfulPlacement.Accepts P config) (bucket : Nat) (payload : Bytes) :
    Handing config log (events ++ [granted config h (.insertInto bucket payload)])
      (Process.leave config h (.insertInto bucket payload)) := by
  obtain ⟨places, numbers, hHanded⟩ := hHanding
  unfold Handing Process.leave
  rw [insertInto_placement bucket payload h]
  cases hRun : Placement.alloc config bucket ((dataFile P config).recordHeaderLen + payload.length) h.placed with
  | ok place u =>
      obtain ⟨off, id⟩ := place
      have hFinal : final (onPlaced (Placement.alloc config bucket
          ((dataFile P config).recordHeaderLen + payload.length))) h = { h with placed := u } :=
        final_of_ok (zoom_of_ok hRun)
      obtain ⟨hEndures, hFresh⟩ := EnduringPlacement.alloc (r := filler P off bucket id payload.length)
        hHanded.endures hAccepted hRun (filler_fills off bucket id payload.length) rfl
      have hGranted : granted config h (.insertInto bucket payload) = some
          ⟨bucket, off, (dataFile P config).recordHeaderLen + payload.length, some id⟩ := by
        simp only [granted, hRun]
      rw [hFinal, hGranted, List.filterMap_append]
      refine ⟨_, _, hHanded.grant hEndures rfl rfl fun k hk => ?_⟩
      cases hk
      exact ⟨⟨_, List.mem_singleton_self _, rfl⟩, hFresh⟩
  | error e u =>
      have hFinal : final (onPlaced (Placement.alloc config bucket
          ((dataFile P config).recordHeaderLen + payload.length))) h = { h with placed := u } :=
        final_of_error (zoom_eq_error.mpr ⟨u, hRun, rfl⟩)
      obtain ⟨lost, hEndures⟩ := EnduringPlacement.allocFails hHanded.endures (Nat.le_add_right _ _) hRun
      have hGranted : granted config h (.insertInto bucket payload) = none := by
        simp only [granted, hRun]
      rw [hFinal, hGranted, List.filterMap_append]
      simp only [List.filterMap_cons, id_eq, List.filterMap_nil, List.append_nil]
      exact ⟨_, _, hHanded.lose hEndures⟩

theorem Handing.update (hHanding : Handing config log events h) (id : Nat) (payload : Bytes) :
    Handing config log (events ++ [granted config h (.update id payload)])
      (Process.leave config h (.update id payload)) := by
  obtain ⟨places, numbers, hHanded⟩ := hHanding
  unfold Handing Process.leave
  rw [update_placement id payload h]
  cases hRun : updatePlace config id payload h with
  | ok found t =>
      obtain ⟨old, off⟩ := found
      obtain ⟨g, hSame, hAlloc⟩ := updatePlace_ok hRun
      have hEndures := EnduringPlacement.allocUpdate (r := filler P off old.bucket id payload.length)
        (hSame ▸ hHanded.endures) hAlloc (filler_fills off old.bucket id payload.length)
      have hGranted : granted config h (.update id payload) = some
          ⟨old.bucket, off, (dataFile P config).recordHeaderLen + payload.length, none⟩ := by
        simp only [granted, hRun]
      rw [final_of_ok hRun, hGranted, List.filterMap_append]
      rw [← List.append_nil numbers] at hEndures
      refine ⟨_, _, hHanded.grant hEndures rfl rfl fun k hk => ?_⟩
      cases hk
  | error e t =>
      have hGranted : granted config h (.update id payload) = none := by
        simp only [granted, hRun]
      rw [final_of_error hRun, hGranted, List.filterMap_append]
      rcases updatePlace_error hRun with hSame | ⟨g, bucket, hSame, hAlloc⟩
      · rw [hSame]
        exact ⟨places, numbers, by simpa using hHanded⟩
      · have hEndures := EnduringPlacement.allocUpdateFails (hSame ▸ hHanded.endures) hAlloc
        rw [← List.append_nil places] at hEndures
        simp only [List.filterMap_cons, id_eq, List.filterMap_nil, List.append_nil]
        exact ⟨_, _, hHanded.lose hEndures⟩

theorem Handing.step (hHanding : Handing config log events h) (hAccepted : LawfulPlacement.Accepts P config)
    (hStep : Shaken config h grant h') : Handing config log (events ++ [grant]) h' := by
  cases hStep with
  | struck store => exact hHanding.idle rfl
  | called call =>
      cases call with
      | insertInto bucket payload => exact hHanding.insertInto hAccepted bucket payload
      | update id payload => exact hHanding.update id payload
      | read id => exact hHanding.idle (read_stays id h)
      | readBatch ids => exact hHanding.idle (readBatch_stays ids h)
      | delete id => exact hHanding.idle (delete_stays id h)
      | flush => exact hHanding.idle (onStore_stays _ h)

/-- Whatever calls of a heap fail, and at whatever request, and whatever becomes
of its files and handles meanwhile: the ranges that it hands out share no byte with
each other nor with any record that it wrote before, and no number comes twice. -/
theorem grants_fresh [ReopenablePlacement P] {start : Store} {first : Heap P} {past : List Event}
    (hBlank : Blank start) (hConfig : config.Usable) (hOpened : OpenedOn config start first)
    (hReach : AllInReach first.store) (hLife : Lifetime config first past h)
    (hCount : ∀ id, updateCount past id ≤ 65534) (hRun : Runs.Steps (Shaken config) h events h') :
    ∃ L, Alive config past h L ∧ Fresh (Placement.withBucket P) L.log (events.filterMap id) := by
  have hAccepted : LawfulPlacement.Accepts P config := ReopenablePlacement.accepts hConfig
  obtain ⟨L, hAlive⟩ := hLife.alive hConfig (hOpened.alive hBlank hConfig hReach) hCount
  have hNone : Handing config L.log [] h :=
    ⟨L.log, L.log,
      { endures := EnduringPlacement.kept hAlive.sound.placed
        fresh := ⟨nofun, .nil, nofun, .nil, nofun⟩
        placed := fun r hr => hr
        known := fun r hr => hr
        filled := nofun
        numbered := nofun }⟩
  have hEnd : Handing config L.log ([] ++ events) h' :=
    hRun.invariant (I := Handing config L.log)
      (fun past g grant g' hPast hStep => hPast.step hAccepted hStep) hNone
  obtain ⟨places, numbers, hHanded⟩ := hEnd
  exact ⟨L, hAlive, hHanded.fresh⟩

end Handed

/-- Two pages, one of them for records. -/
def tightPages : HeapConfig := ⟨.none, true, 2 * PAGE, PAGE, PAGE, 8, 2 ^ 20⟩

/-- The allocator after one record of 39 bytes, with the attempts that were made and
the buckets that were opened since. -/
def tightAllocator (attempts : Nat) (opened : List BucketState) : BucketPlacement :=
  ⟨⟨3, [⟨PAGE, PAGE, 39⟩], [⟨0, 8, 1⟩]⟩ :: opened, attempts, 2 * PAGE, 8, PAGE + 2 * REGISTRY_ROW_SIZE⟩

section

open BucketPlacement Placed

/-- A record of a page or less asks for one page. -/
theorem tightPages_needs {totalLen : Nat} (hNeed : requiredExtentSize tightPages totalLen = PAGE)
    (hFits : totalLen + PAGE < 2 ^ 64) (t : Placed BucketPlacement) :
    checkedExtentSize tightPages totalLen t = .ok PAGE t := by
  rw [checkedExtentSize_run hFits, hNeed]

/-- A grant attempt for a new bucket comes to the bucket itself. -/
theorem alloc_tight_panics (s : Store) :
    BucketPlacement.alloc tightPages 5 39 ⟨tightAllocator 4 [], s⟩ =
      .error (.panic "bucket without extent") ⟨tightAllocator 6 [⟨5, [], []⟩], s⟩ := by
  have hSearch : searchVictim (tightAllocator 4 [⟨5, [], []⟩]).states PAGE 8 4 =
      some (.missing, 6) := by decide
  have hTake : takeExtent tightPages PAGE ⟨tightAllocator 4 [⟨5, [], []⟩], s⟩ =
      .error (.panic "bucket without extent") ⟨tightAllocator 6 [⟨5, [], []⟩], s⟩ := by
    rw [takeExtent, bind_of_ok (getPlacement_apply _)]
    simp only [show searchFuel (tightAllocator 4 [⟨5, [], []⟩]).states = 8 from rfl,
      show (tightAllocator 4 [⟨5, [], []⟩]).extentGrantCount = 4 from rfl, hSearch]
    rfl
  rw [BucketPlacement.alloc, bind_of_ok (tightPages_needs rfl (by decide) _)]
  refine bind_of_error ?_
  rw [bucketIndex, bind_of_ok (getPlacement_apply _)]
  exact (bind_of_ok (modifyPlacement_apply _ _)).trans (bind_of_error (bind_of_error hTake))

/-- Where the next request fails, the record that needs another page gets no place. -/
theorem alloc_tight_fails {s : Store} (hEnd : (s.paged .data).allocatedEnd = 2 * PAGE)
    (hFails : s.outcome = .failure []) :
    BucketPlacement.alloc tightPages 3 PAGE ⟨tightAllocator 1 [], s⟩ =
      .error (.error .io) ⟨tightAllocator 4 [], s.tick⟩ := by
  have hReserve : PagedFile.ensureAlloc .data (3 * PAGE) PAGE s = .error (.error .io) s.tick := by
    rw [ensureAlloc_more (by rw [hEnd]; decide) (by rw [hEnd]; decide)]
    refine bind_of_error ?_
    rw [fallocate, hFails]
  have hGrow : BucketPlacement.growFile tightPages PAGE ⟨tightAllocator 4 [], s⟩ =
      .error (.error .io) ⟨tightAllocator 4 [], s.tick⟩ :=
    (bind_of_ok (Placed.getPlacement_apply _)).trans
      (bind_of_error (zoom_eq_error.mpr ⟨s.tick, hReserve, rfl⟩))
  have hSearch : searchVictim (tightAllocator 1 []).states PAGE 5 1 = some (.grow, 4) := by decide
  have hTake : takeExtent tightPages PAGE ⟨tightAllocator 1 [], s⟩ =
      .error (.error .io) ⟨tightAllocator 4 [], s.tick⟩ := by
    rw [takeExtent, bind_of_ok (getPlacement_apply _)]
    simp only [show searchFuel (tightAllocator 1 []).states = 5 from rfl,
      show (tightAllocator 1 []).extentGrantCount = 1 from rfl, hSearch]
    exact (bind_of_ok (modifyPlacement_apply _ _)).trans hGrow
  have hPlace : BucketPlacement.placeBytes tightPages 0 PAGE ⟨tightAllocator 1 [], s⟩ =
      .error (.error .io) ⟨tightAllocator 4 [], s.tick⟩ := by
    rw [placeBytes, bind_of_ok (getPlacement_apply _)]
    simp only [show lastExtent? (tightAllocator 1 []).states 0 = some ⟨PAGE, PAGE, 39⟩ from rfl]
    rw [bind_of_ok (addU64_run (a := 39) (b := PAGE) (by decide) _), if_neg (by decide),
      bind_of_ok (tightPages_needs rfl (by decide) _)]
    exact bind_of_error (bind_of_error hTake)
  rw [BucketPlacement.alloc, bind_of_ok (tightPages_needs rfl (by decide) _)]
  exact (bind_of_ok rfl).trans (bind_of_error hPlace)

end

set_option maxRecDepth 20000 in
/-- After a first record, an insertion fails because the data file cannot grow, and
another one panics because it opens a bucket; the third one gets the place behind
the first record and the next number. -/
theorem grants_fresh_failing :
    ∃ (first h h₁ h₂ h₃ : Heap BucketPlacement) (L : Ledger),
      OpenedOn tightPages .empty first ∧ Lifetime tightPages first [.inserted 0 3 [7]] h ∧
      insertInto tightPages 3 (List.replicate 4058 0)
        (h.withStore { h.store with plan := [.failure []] }) = .error (.error .io) h₁ ∧
      insertInto tightPages 5 [9] h₁ = .error (.panic "bucket without extent") h₂ ∧
      Runs.Steps (Shaken tightPages) h [none, none, none, some ⟨3, PAGE + 39, 39, some 1⟩] h₃ ∧
      L.log.map (fun r => (r.header.id, r.payload)) = [(0, [7])] ∧
      Fresh true L.log [⟨3, PAGE + 39, 39, some 1⟩] := by
  have hBlank : Blank .empty := ⟨fun _ => rfl, fun _ => rfl, rfl⟩
  have hUsable : tightPages.Usable := ⟨by decide, by decide, by decide⟩
  obtain ⟨first, hOpened, hPlacement, hSound, hReach, hEnd, -⟩ :=
    exists_opened_bucket tightPages hBlank hUsable (by decide)
  obtain ⟨h, M, hInsert, hKept, -, hReach', hEnd', -⟩ :=
    bucket_insert_run (q := tightAllocator 1 []) 3 0 PAGE [7] hSound hUsable hReach
      (coherent_reserving (2 * PAGE) 0) hEnd (by decide) (addressable_of_lt (by decide))
      (by rw [hPlacement]; rfl) (by decide)
  have hLife : Lifetime tightPages first [.inserted 0 3 [7]] h :=
    Runs.Steps.refl.step ⟨.performed (.inserted (by decide) hInsert), hReach'⟩
  let failing := h.withStore { h.store with plan := [.failure []] }
  have hFailing : failing.placed = ⟨tightAllocator 1 [], failing.store⟩ := by
    rw [← hKept]
    rfl
  have hNoRoom : Placement.alloc tightPages 3 ((dataFile BucketPlacement tightPages).recordHeaderLen +
      (List.replicate 4058 (0 : UInt8)).length) failing.placed =
        .error (.error .io) ⟨tightAllocator 4 [], failing.store.tick⟩ := by
    rw [List.length_replicate, hFailing]
    exact alloc_tight_fails hEnd' rfl
  let h₁ : Heap BucketPlacement := ⟨⟨tightAllocator 4 [], failing.store.tick⟩, h.operationsSinceSync⟩
  have hFirst : insertInto tightPages 3 (List.replicate 4058 0) failing = .error (.error .io) h₁ :=
    bind_of_error (zoom_eq_error.mpr ⟨_, hNoRoom, rfl⟩)
  have hPanic : Placement.alloc tightPages 5
      ((dataFile BucketPlacement tightPages).recordHeaderLen + [(9 : UInt8)].length) h₁.placed =
        .error (.panic "bucket without extent")
          ⟨tightAllocator 6 [⟨5, [], []⟩], failing.store.tick⟩ := alloc_tight_panics _
  let h₂ : Heap BucketPlacement :=
    ⟨⟨tightAllocator 6 [⟨5, [], []⟩], failing.store.tick⟩, h.operationsSinceSync⟩
  have hSecond : insertInto tightPages 5 [9] h₁ = .error (.panic "bucket without extent") h₂ :=
    bind_of_error (zoom_eq_error.mpr ⟨_, hPanic, rfl⟩)
  have hNothing : granted tightPages failing (.insertInto 3 (List.replicate 4058 0)) = none := by
    simp only [granted, hNoRoom]
  have hNeither : granted tightPages h₁ (.insertInto 5 [9]) = none := by
    simp only [granted, hPanic]
  have hStruck : Shaken tightPages h none failing := .struck h { h.store with plan := [.failure []] }
  have hFailed : Shaken tightPages failing none h₁ := by
    have hCalled : Shaken tightPages failing _ _ :=
      .called failing (.insertInto 3 (List.replicate 4058 0))
    rwa [hNothing, Process.leave, final_of_error hFirst] at hCalled
  have hPanicked : Shaken tightPages h₁ none h₂ := by
    have hCalled : Shaken tightPages h₁ _ _ := .called h₁ (.insertInto 5 [9])
    rwa [hNeither, Process.leave, final_of_error hSecond] at hCalled
  have hServed : granted tightPages h₂ (.insertInto 3 [8]) = some ⟨3, PAGE + 39, 39, some 1⟩ := rfl
  have hLast : Shaken tightPages h₂ _ _ := .called h₂ (.insertInto 3 [8])
  rw [hServed] at hLast
  have hRun := (((Runs.Steps.refl.step hStruck).step hFailed).step hPanicked).step hLast
  obtain ⟨L, hAlive, hFresh⟩ := grants_fresh hBlank hUsable hOpened hReach hLife
    (fun _ => Nat.zero_le _) hRun
  exact ⟨first, h, h₁, h₂, _, L, hOpened, hLife, hFirst, hSecond, hRun, hAlive.historic.writes, hFresh⟩

end Heap

end HeapStore
