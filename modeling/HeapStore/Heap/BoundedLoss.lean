import HeapStore.Heap.Commits
import HeapStore.Heap.Rebuilt

/-! How much a power failure takes from a heap, through any number of sessions: the
operations since the last commit, of which a sync policy allows fewer than its interval. -/
namespace HeapStore

open Effect PagedFile IndexFile WalkRange

/-- Counting one more operation that is not due, in 32 bits. -/
theorem succ_le_mod_succ {count interval k : Nat} (hPos : 0 < interval)
    (hNot : (count + 1) % 2 ^ 32 % interval ≠ 0) (hRange : count < 2 ^ 32) (hk : k ≤ count % interval) :
    k + 1 ≤ (count + 1) % 2 ^ 32 % interval := by
  have hNoWrap : (count + 1) % 2 ^ 32 = count + 1 := by
    apply Nat.mod_eq_of_lt
    by_contra hWrap
    have hLast : count + 1 = 2 ^ 32 := by omega
    rw [hLast, Nat.mod_self, Nat.zero_mod] at hNot
    exact hNot rfl
  have hSplit : count + 1 = count % interval + 1 + interval * (count / interval) := by
    have := Nat.mod_add_div count interval
    omega
  rw [hNoWrap] at hNot ⊢
  rw [hSplit, Nat.add_mul_mod_self_left] at hNot ⊢
  rcases Nat.lt_or_ge (count % interval + 1) interval with hLt | hGe
  · rw [Nat.mod_eq_of_lt hLt]
    omega
  · have hBound := Nat.mod_lt count hPos
    have hEq : count % interval + 1 = interval := by omega
    rw [hEq, Nat.mod_self] at hNot
    exact absurd rfl hNot

namespace Heap

/-- The history of a heap, cut at its last flush or opening and at its last commit, and
the heap as it was at each of the two. -/
structure Cut (P : Type) where
  synced : List Event
  older : Heap P
  committed : List Event
  newer : Heap P
  lost : List Event

namespace Cut

variable {P : Type}

/-- The whole history. -/
def events (c : Cut P) : List Event := c.synced ++ c.committed ++ c.lost

/-- Everything so far is synced. -/
def secured (events : List Event) (h : Heap P) : Cut P := ⟨events, h, [], h, []⟩

/-- A commit ends with this operation. -/
def commit (c : Cut P) (e : Event) (h : Heap P) : Cut P :=
  { c with committed := c.committed ++ c.lost ++ [e], newer := h, lost := [] }

/-- Nothing is made durable by this operation. -/
def wait (c : Cut P) (e : Event) : Cut P := { c with lost := c.lost ++ [e] }

variable [Placement P]

/-- One step in the life of a heap and what it does to the cut. Flushing syncs all files, and
so does dropping a heap, after which its files are opened again; a mutation ends in a commit
or leaves its slot staged; a read may end as it likes. -/
inductive Step (config : HeapConfig) : Cut P → Heap P → Event → Cut P → Heap P → Prop where
  | flushed {c : Cut P} {h h' : Heap P} (run : flush h = .ok () h') :
      Step config c h .observed (.secured (c.events ++ [.observed]) h') h'
  | reopened {c : Cut P} {h h' : Heap P} (opened : OpenedOn config (close h) h') :
      Step config c h .observed (.secured (c.events ++ [.observed]) h') h'
  | committed {c : Cut P} {h h' : Heap P} {e : Event} (run : Performed config h e h')
      (mutates : e.mutates = true) (written : h'.Written) : Step config c h e (c.commit e h') h'
  | waiting {c : Cut P} {h h' : Heap P} {e : Event} (run : Performed config h e h')
      (mutates : e.mutates = true) (staged : ¬ h'.Written) : Step config c h e (c.wait e) h'
  | read {c : Cut P} {h : Heap P} {id : Nat} (range : id < 2 ^ 58) :
      Step config c h .observed (c.wait .observed) (final (Heap.read config id) h)
  | readBatch {c : Cut P} {h : Heap P} {ids : List Nat} (range : ∀ id ∈ ids, id < 2 ^ 58) :
      Step config c h .observed (c.wait .observed) (final (Heap.readBatch config ids) h)

variable {config : HeapConfig} {c c' : Cut P} {h h' : Heap P} {e : Event}

theorem Step.lived (hStep : Step config c h e c' h') : Lived config h e h' := by
  cases hStep with
  | flushed run => exact .performed (.flushed run)
  | reopened opened => exact .reopened opened
  | committed run => exact .performed run
  | waiting run => exact .performed run
  | read range => exact .read range
  | readBatch range => exact .readBatch range

theorem Step.events (hStep : Step config c h e c' h') : c'.events = c.events ++ [e] := by
  cases hStep with
  | flushed => simp [Cut.events, secured]
  | reopened => simp [Cut.events, secured]
  | committed => simp [Cut.events, commit]
  | waiting => simp [Cut.events, wait]
  | read => simp [Cut.events, wait]
  | readBatch => simp [Cut.events, wait]

end Cut

/-- A sequence of such steps, where all that is staged lies within the kernel's file offsets. -/
abbrev Lives {P : Type} [Placement P] (config : HeapConfig) :
    Cut P × Heap P → List Event → Cut P × Heap P → Prop :=
  Runs.Steps fun a e b => Cut.Step config a.1 a.2 e b.1 b.2 ∧ AllInReach b.2.store

/-! What is durable of a heap, and what is not yet. -/

/-- A file is durable in whole pages, with this content, up to this position at least. -/
structure DurableAs (n : FileName) (image : Nat → UInt8) (low : Nat) (s : Store) : Prop where
  intro ::
  parts : ∃ f, s.durable n = some f ∧ f.Whole ∧ f.bytes = image ∧ low ≤ f.size

theorem DurableAs.congr {n : FileName} {image : Nat → UInt8} {low : Nat} {s t : Store}
    (h : DurableAs n image low s) (hSame : t.durable n = s.durable n) : DurableAs n image low t := by
  obtain ⟨f, hDurable, hRest⟩ := h.parts
  exact ⟨f, hSame.trans hDurable, hRest⟩

/-- A placement that says how far the data file has to reach. -/
class DurablePlacement (P : Type) [Placement P] [LawfulPlacement P] where
  dataEnd : P → Nat
  reserved {config : HeapConfig} {s : Placed P} {log : List Record} {rows : List RegistryRow} :
    LawfulPlacement.Keeps config s log rows → dataEnd s.placement ≤ (s.store.paged .data).allocatedEnd

instance : DurablePlacement AppendPlacement where
  dataEnd p := p.cursor
  reserved hKept := AppendPlacement.Kept.reserved hKept

instance : DurablePlacement BucketPlacement where
  dataEnd p := p.fileSize
  reserved hKept := (BucketPlacement.Kept.toBooked hKept).reserved

section Backing

variable {P : Type} [Placement P] [LawfulPlacement P] [ReopenablePlacement P] {config : HeapConfig}
  {h h' g g' : Heap P} {L M : Ledger} {events : List Event} {e : Event} {c c' : Cut P} {s : Store}

/-- What a life carries on, with a count of operations in 32 bits. -/
structure Counting (config : HeapConfig) (I : List Event → Heap P → Ledger → Prop) :
    Prop extends Carried config I where
  range {events : List Event} {h : Heap P} {L : Ledger} : I events h L → h.operationsSinceSync < 2 ^ 32

/-- A live heap that counts its operations in 32 bits. -/
structure Counted (config : HeapConfig) (events : List Event) (h : Heap P) (L : Ledger) :
    Prop extends Alive config events h L where
  range : h.operationsSinceSync < 2 ^ 32

omit [ReopenablePlacement P] in
theorem Lived.range (hLived : Lived config h e h') (hAccepted : LawfulPlacement.Accepts P config)
    (hAlive : Alive config events h L) (hRange : h.operationsSinceSync < 2 ^ 32) :
    h'.operationsSinceSync < 2 ^ 32 := by
  cases hLived with
  | performed run =>
      cases hMutates : e.mutates with
      | true =>
          rw [(run.mutated hAlive.sound hAccepted hMutates).count]
          exact Nat.mod_lt _ (by decide)
      | false =>
          cases run with
          | inserted => cases hMutates
          | updated => cases hMutates
          | deleted => cases hMutates
          | read run =>
              obtain ⟨-, u, -, rfl⟩ := read_ok hAlive.sound run
              exact hRange
          | flushed run =>
              obtain ⟨u, -, rfl⟩ := onStore_eq_ok.mp run
              exact hRange
          | missed run =>
              obtain ⟨-, u, -, rfl⟩ := liveSlot_missed hAlive.sound run
              exact hRange
  | read range =>
      obtain ⟨u, -, hFinal⟩ := read_final hAlive.sound hAlive.reach.ready (addressable_of_lt range)
      rw [hFinal]
      exact hRange
  | readBatch range =>
      obtain ⟨u, -, hFinal⟩ := readBatch_final hAlive.sound hAlive.reach.ready range
      rw [hFinal]
      exact hRange
  | reopened opened =>
      rw [opened.count]
      decide

theorem Counted.counting (hAccepted : LawfulPlacement.Accepts P config) :
    Counting config (Counted (P := P) config) where
  alive h := h.toAlive
  range h := h.range
  step h hCount hLived hReach := by
    obtain ⟨M, hStep, hNext⟩ := h.toAlive.step hAccepted hCount hLived hReach
    exact ⟨M, hStep, hNext, hLived.range hAccepted h.toAlive h.range⟩

variable {I : List Event → Heap P → Ledger → Prop}

variable [DurablePlacement P]

omit [ReopenablePlacement P]

/-- How far a file has to reach for this heap. -/
def fileEnd (h : Heap P) (n : FileName) : Nat :=
  if n = .data then DurablePlacement.dataEnd h.placement else 0

theorem Sound.fileEnd_le (hSound : Sound config L g.placed) (n : FileName) :
    fileEnd g n ≤ (g.store.file n).size := by
  unfold fileEnd
  split
  · rename_i hData
    subst hData
    exact (DurablePlacement.reserved hSound.placed).trans (LawfulPlacement.roomy hSound.placed).reserved
  · exact Nat.zero_le _

omit [DurablePlacement P] in
/-- A file with nothing staged, once it is durable as it is. -/
theorem DurableAs.of_disk {n : FileName} {low : Nat} (hFile : HasFile P n)
    (hSound : Sound config L g.placed) (hDurable : g.store.durable n = g.store.disk n)
    (hStaged : (g.store.paged n).stagedWrites = []) (hLow : low ≤ (g.store.file n).size) :
    DurableAs n (g.store.logical n) low g.store := by
  obtain ⟨f, hDisk⟩ := Option.isSome_iff_exists.mp (hSound.present n hFile)
  change g.store.disk n = some f at hDisk
  have hSame : g.store.file n = f := by rw [Store.file, hDisk, Option.getD_some]
  refine ⟨f, hDurable.trans hDisk, hSame ▸ hSound.whole n, ?_, hSame ▸ hLow⟩
  rw [Store.logical, hStaged, Store.overlay_nil, hSame]

/-- The heaps of a cut, with ledgers that grow from each to the next. -/
structure Followed (I : List Event → Heap P → Ledger → Prop) (c : Cut P) (g : Heap P) (L M N : Ledger) :
    Prop where
  older : I c.synced c.older L
  newer : I (c.synced ++ c.committed) c.newer M
  last : I c.events g N
  committed : L.Grows (Placement.withBucket P) c.committed M
  lost : M.Grows (Placement.withBucket P) c.lost N

/-- What is durable of a heap is what its cut says: the index is as of the last flush or
opening, the other files as of the last commit, and what is lost was counted. -/
structure Backed (config : HeapConfig) (I : List Event → Heap P → Ledger → Prop) (c : Cut P)
    (g : Heap P) : Prop where
  followed : ∃ L M N, Followed I c g L M N
  index : DurableAs .index (c.older.store.logical .index) 0 g.store
  files : ∀ n, HasFile P n → n ≠ .index → DurableAs n (c.newer.store.logical n) (fileEnd c.newer n) g.store
  registry : RegistryDurable P g.store
  pending : ∀ interval, config.syncPolicy = .everyN interval → 0 < interval →
    c.lost.countP Event.mutates ≤ g.operationsSinceSync % interval

/-- A heap whose files are durable as they are. -/
theorem Backed.secured (hCarried : I events g L) (hSound : Sound config L g.placed)
    (hAll : AllDurable P g.store) : Backed config I (.secured events g) g where
  followed := ⟨L, L, L, hCarried, by simpa [Cut.secured] using hCarried,
    by simpa [Cut.secured, Cut.events] using hCarried, .refl, .refl⟩
  index := .of_disk (hasFile_index P) hSound (hAll.durable _ (hasFile_index P))
    (hAll.staged _ (hasFile_index P)) (Nat.zero_le _)
  files n hFile _ := .of_disk hFile hSound (hAll.durable n hFile) (hAll.staged n hFile) (hSound.fileEnd_le n)
  registry hBucket := hAll.durable .registry fun _ => hBucket
  pending _ _ _ := Nat.zero_le _

/-- An operation that makes nothing durable. -/
theorem Backed.wait (hBacked : Backed config I c g) (hDurable : g'.store.durable = g.store.durable)
    (hRegistry : g'.store.disk .registry = g.store.disk .registry)
    (hNext : ∀ {N}, I c.events g N → ∃ N', Ledger.Step (Placement.withBucket P) N e N' ∧ I (c.events ++ [e]) g' N')
    (hPending : ∀ interval, config.syncPolicy = .everyN interval → 0 < interval →
      (c.lost ++ [e]).countP Event.mutates ≤ g'.operationsSinceSync % interval) :
    Backed config I (c.wait e) g' where
  followed := by
    obtain ⟨L, M, N, hOld⟩ := hBacked.followed
    obtain ⟨N', hStep, hLast⟩ := hNext hOld.last
    exact ⟨L, M, N', hOld.older, hOld.newer, by simpa [Cut.events, Cut.wait] using hLast, hOld.committed,
      hOld.lost.step hStep⟩
  index := hBacked.index.congr (by rw [hDurable])
  files n hFile hNot := (hBacked.files n hFile hNot).congr (by rw [hDurable])
  registry hBucket := by
    rw [hDurable, hRegistry]
    exact hBacked.registry hBucket
  pending := hPending

/-- A mutation that ends in a commit. -/
theorem Backed.commit (hBacked : Backed config I c g) (hMutated : Mutated config g g')
    (hWritten : g'.Written) (hSound : ∀ {N}, I (c.events ++ [e]) g' N → Sound config N g'.placed)
    (hNext : ∀ {N}, I c.events g N → ∃ N', Ledger.Step (Placement.withBucket P) N e N' ∧ I (c.events ++ [e]) g' N') :
    Backed config I (c.commit e g') g' := by
  obtain ⟨L, M, N, hOld⟩ := hBacked.followed
  obtain ⟨N', hStep, hLast⟩ := hNext hOld.last
  obtain ⟨hIndex, hFiles⟩ := hMutated.committed hWritten
  have hDurable := hFiles hBacked.registry
  have hAll : I (c.synced ++ (c.committed ++ c.lost ++ [e])) g' N' := by
    simpa [Cut.events] using hLast
  exact
    { followed := ⟨L, N', N', hOld.older, hAll, by simpa [Cut.events, Cut.commit] using hLast,
        (hOld.committed.trans hOld.lost).step hStep, .refl⟩
      index := hBacked.index.congr hIndex
      files := fun n hFile hNot => .of_disk hFile (hSound hLast) (hDurable n hFile hNot).1
        (hDurable n hFile hNot).2 ((hSound hLast).fileEnd_le n)
      registry := fun hBucket => (hDurable .registry (fun _ => hBucket) (by decide)).1
      pending := fun _ _ _ => Nat.zero_le _ }

/-- A read makes nothing durable and is not counted. -/
theorem Backed.look (hBacked : Backed config I c g) {u : Store} (hInspected : Inspected g.store u)
    (hNext : ∀ {N}, I c.events g N →
      ∃ N', Ledger.Step (Placement.withBucket P) N .observed N' ∧ I (c.events ++ [.observed]) (g.withStore u) N') :
    Backed config I (c.wait .observed) (g.withStore u) :=
  hBacked.wait hInspected.durable hInspected.registry hNext fun interval hPolicy hPos => by
    rw [List.countP_append, List.countP_singleton]
    exact hBacked.pending interval hPolicy hPos

/-- One step of a life moves the cut as the step says. -/
theorem Backed.step [SpacedPlacement P] (hBacked : Backed config I c g) (hCounting : Counting config I)
    (hAccepted : LawfulPlacement.Accepts P config) (hCount : ∀ id, updateCount c.events id ≤ 65534)
    (hStep : Cut.Step config c g e c' g') (hReach : AllInReach g'.store) : Backed config I c' g' := by
  obtain ⟨L, M, N, hOld⟩ := hBacked.followed
  have hAlive := hCounting.alive hOld.last
  have hLived := hStep.lived
  have hNext {N : Ledger} (hLast : I c.events g N) := hCounting.step hLast hCount hLived hReach
  have hSound {N : Ledger} (hLast : I (c.events ++ [e]) g' N) := (hCounting.alive hLast).sound
  cases hStep with
  | flushed run =>
      obtain ⟨N', -, hLast⟩ := hNext hOld.last
      exact .secured hLast (hSound hLast) (.of_flushed (flush_ok hAlive.sound run).1)
  | reopened opened =>
      obtain ⟨N', -, hLast⟩ := hNext hOld.last
      exact .secured hLast (hSound hLast)
        (opened.allDurable hAlive.sound hAlive.historic hCount hAlive.reach)
  | committed run mutates written =>
      exact hBacked.commit (run.mutated hAlive.sound hAccepted mutates) written hSound hNext
  | waiting run mutates staged =>
      have hMutated := run.mutated hAlive.sound hAccepted mutates
      obtain ⟨hDurable, hRegistry, hNotDue⟩ := hMutated.waiting staged
      refine hBacked.wait hDurable hRegistry hNext fun interval hPolicy hPos => ?_
      have hStill := hNotDue interval hPolicy hPos
      rw [hMutated.count] at hStill ⊢
      rw [List.countP_append, List.countP_singleton, if_pos mutates]
      exact succ_le_mod_succ hPos hStill (hCounting.range hOld.last) (hBacked.pending interval hPolicy hPos)
  | read range =>
      obtain ⟨u, hInspected, hFinal⟩ := read_final hAlive.sound hAlive.reach.ready (addressable_of_lt range)
      rw [hFinal] at hNext ⊢
      exact hBacked.look hInspected hNext
  | readBatch range =>
      obtain ⟨u, hInspected, hFinal⟩ := readBatch_final hAlive.sound hAlive.reach.ready range
      rw [hFinal] at hNext ⊢
      exact hBacked.look hInspected hNext

/-- A whole life. -/
theorem Lives.backed [SpacedPlacement P] {a b : Cut P × Heap P} (hLives : Lives config a events b)
    (hCounting : Counting config I) (hAccepted : LawfulPlacement.Accepts P config)
    (hStart : Backed config I a.1 a.2) (hCount : ∀ id, updateCount (a.1.events ++ events) id ≤ 65534) :
    b.1.events = a.1.events ++ events ∧ Backed config I b.1 b.2 := by
  induction hLives with
  | refl => exact ⟨by simp, hStart⟩
  | step _ last ih =>
      rw [← List.append_assoc] at hCount ⊢
      have hBefore := updateCount_le_left hCount
      obtain ⟨hEvents, hBacked⟩ := ih hBefore
      refine ⟨by rw [last.1.events, hEvents], ?_⟩
      exact hBacked.step hCounting hAccepted (by rw [hEvents]; exact hBefore) last.1 last.2

/-- Fewer mutations than one interval of the sync policy are lost. -/
theorem Backed.few (hBacked : Backed config I c g) {interval : Nat}
    (hPolicy : config.syncPolicy = .everyN interval) (hPos : 0 < interval) :
    c.lost.countP Event.mutates < interval :=
  Nat.lt_of_le_of_lt (hBacked.pending interval hPolicy hPos) (Nat.mod_lt _ hPos)

end Backing

open AppendPlacement

variable {config : HeapConfig} {first g : Heap AppendPlacement} {L M : Ledger}
  {events : List Event} {c : Cut AppendPlacement} {s : Store}

/-! Opening an append store after the failure. -/

/-- A live append heap whose records are numbered without a gap. -/
structure Continued (config : HeapConfig) (events : List Event) (h : Heap AppendPlacement) (L : Ledger) :
    Prop extends Counted config events h L where
  numbered : Numbered L.log h.placement.nextId

theorem Continued.counting : Counting config (Continued config) where
  alive h := h.toAlive
  range h := h.range
  step h hCount hLived hReach := by
    obtain ⟨M, hStep, hNext⟩ := h.toAlive.step trivial hCount hLived hReach
    exact ⟨M, hStep, ⟨hNext, hLived.range trivial h.toAlive h.range⟩,
      h.numbered.step hStep hNext.sound.placed.numbers⟩

theorem Continued.reached {h : Heap AppendPlacement} (hContinued : Continued config events h L) :
    AppendReached config events h L := ⟨hContinued.sound, hContinued.historic, hContinued.numbered⟩

/-- Creating the files of an append store makes them durable as they are. -/
theorem createFiles_durable {s t : Store} (hRun : createFiles AppendPlacement s = .ok () t) :
    t.durable .data = t.disk .data ∧ t.durable .index = t.disk .index := by
  obtain ⟨_, a, hData, hRun⟩ := bind_eq_ok.mp hRun
  obtain ⟨_, b, hIndex, hRegistry⟩ := bind_eq_ok.mp hRun
  cases hRegistry
  constructor
  · rw [create_durable hIndex, Function.update_of_ne (by decide), create_durable hData,
      Function.update_self, (create_ok hIndex).otherDisk _ (by decide)]
  · rw [create_durable hIndex, Function.update_self]

/-- A heap that was opened without files has durable files. -/
theorem OpenedOn.backed {start : Store} (hBlank : Blank start) (hOpened : OpenedOn config start first)
    (hReach : AllInReach first.store) : Backed config (Continued config) (.secured [] first) first := by
  have hReached := AppendReached.created hOpened hBlank
  have hStart : Continued config [] first .empty :=
    ⟨⟨⟨hReached.sound, hReached.historic, hReach, List.nodup_nil⟩, by rw [hOpened.count]; decide⟩,
      hReached.numbered⟩
  obtain ⟨order, report, hRun⟩ := hOpened.run
  have hAbsent : (start.disk .data).isSome = false := by rw [hBlank.disk]; rfl
  obtain ⟨present, a, hExists, hRun⟩ := bind_eq_ok.mp hRun
  cases hExists
  rw [hAbsent] at hRun
  simp only [Bool.false_eq_true, if_false] at hRun
  obtain ⟨_, b, hCreate, hRun⟩ := bind_eq_ok.mp hRun
  have hNew := createFiles_ok hBlank hCreate
  obtain ⟨hData, hIndex⟩ := createFiles_durable hCreate
  obtain ⟨u, hAlloc, hPlacement, rfl⟩ : ∃ u, PagedFile.ensureAlloc .data config.initialSize config.growth b = .ok () u ∧
      first.placement = ⟨PAGE, 0⟩ ∧ u = first.store := by
    rw [openPlacement] at hRun
    cases hOpen : Placement.open (P := AppendPlacement) order config true b with
    | ok out t =>
        rw [hOpen] at hRun
        simp only [EStateM.Result.ok.injEq, Prod.mk.injEq] at hRun
        obtain ⟨_, u, hAlloc, hLast⟩ := bind_eq_ok.mp hOpen
        cases hLast
        exact ⟨t, hAlloc, hRun.1.1.symm, hRun.2⟩
    | error e t =>
        rw [hOpen] at hRun
        cases e with
        | panic message => cases hRun
        | error e => cases e <;> simp at hRun
  obtain ⟨hReserved, -⟩ := ensureAlloc_ok hAlloc
  have hAs : ∀ n, HasFile AppendPlacement n → b.durable n = b.disk n → ∀ low, low ≤ (b.file n).size →
      DurableAs n (b.logical n) low first.store := fun n hn hDurable low hLow => by
    have hFile := hNew.files n
    obtain ⟨f, hDisk⟩ := Option.isSome_iff_exists.mp (hFile.present hn)
    have hSame : b.file n = f := by rw [Store.file, hDisk, Option.getD_some]
    refine ⟨f, by rw [hReserved.durable, hDurable, hDisk], hSame ▸ hFile.whole, ?_, hSame ▸ hLow⟩
    rw [Store.logical, hFile.staged, Store.overlay_nil, hSame]
  refine ⟨⟨_, _, _, hStart, hStart, hStart, .refl, .refl⟩, ?index, fun n hFile hNot => ?files,
    fun hBucket => absurd hBucket (by decide), fun _ _ _ => Nat.zero_le _⟩
  case index =>
    change DurableAs .index (first.store.logical .index) 0 first.store
    rw [hReserved.logical_index]
    exact hAs _ (hasFile_index _) hIndex _ (Nat.zero_le _)
  case files =>
    change DurableAs n (first.store.logical n) (fileEnd first n) first.store
    cases n with
    | data =>
        rw [hReserved.logical_data]
        refine hAs _ (hasFile_data _) hData _ ?_
        change first.placement.cursor ≤ _
        rw [hPlacement, hNew.size]
    | index => exact absurd rfl hNot
    | registry => exact absurd (hFile rfl) (by decide)

end Heap

end HeapStore
