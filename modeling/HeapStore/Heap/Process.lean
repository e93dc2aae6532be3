import HeapStore.BlockIo.Parity
import HeapStore.Heap.Commits
import HeapStore.Heap.Guarded
import HeapStore.Heap.MetadataLoss
import HeapStore.Library.Runs
import HeapStore.Storage.Discipline
import HeapStore.Storage.Untouched

/-! A process that opens a heap, calls it, drops it or crashes, over and over.
Requests may fail anywhere, and the files may be damaged while no heap is open. -/
namespace HeapStore

open Effect PagedFile IndexFile

/-- A call of an open heap. -/
inductive Call where
  | insertInto (bucket : Nat) (payload : Bytes)
  | read (id : Nat)
  | readBatch (ids : List Nat)
  | update (id : Nat) (payload : Bytes)
  | delete (id : Nat)
  | flush

/-- What a process does next. -/
inductive Action where
  | opened
  | refused
  | called (call : Call)
  | dropped
  | crashed
  | struck (disk durable : FileName → Option File) (plan : List IoOutcome)

/-- The action is no insertion and no update, and leaves this as the data file. -/
def Action.Spares (data : Option File) : Action → Prop
  | .called (.insertInto _ _) => False
  | .called (.update _ _) => False
  | .struck disk _ _ => disk .data = data
  | _ => True

/-- A process has a heap open, or only files. -/
inductive Process (P : Type) where
  | closed (store : Store)
  | opened (config : HeapConfig) (heap : Heap P)

namespace Process

variable {P : Type}

def store : Process P → Store
  | closed s => s
  | opened _ h => h.store

variable [Placement P]

/-- The heap that a call leaves, whatever it returns. -/
def leave (config : HeapConfig) (h : Heap P) : Call → Heap P
  | .insertInto bucket payload => final (Heap.insertInto config bucket payload) h
  | .read id => final (Heap.read config id) h
  | .readBatch ids => final (Heap.readBatch config ids) h
  | .update id payload => final (Heap.update config id payload) h
  | .delete id => final (Heap.delete config id) h
  | .flush => final Heap.flush h

/-- One step of a process. An open that fails leaves no handles, and a
strike leaves any files and any schedule of failures. -/
inductive Step : Process P → Action → Process P → Prop where
  | opened {config : HeapConfig} {s : Store} {h : Heap P} (run : Heap.OpenedOn config s h) :
      Step (.closed s) .opened (.opened config h)
  | refused {config : HeapConfig} {order : HashOrder} {s t : Store} {e : Failure}
      (run : Heap.open P order config s = .error e t) :
      Step (.closed s) .refused (.closed (Heap.closed t))
  | called (config : HeapConfig) (h : Heap P) (call : Call) :
      Step (.opened config h) (.called call) (.opened config (leave config h call))
  | dropped (config : HeapConfig) (h : Heap P) : Step (.opened config h) .dropped (.closed h.close)
  | crashed (config : HeapConfig) (h : Heap P) :
      Step (.opened config h) .crashed (.closed h.simulateCrash)
  | struck (s : Store) (disk durable : FileName → Option File) (plan : List IoOutcome) :
      Step (.closed s) (.struck disk durable plan) (.closed { s with disk, durable, plan })

variable {R : Store → Store → Prop} {config : HeapConfig} {h : Heap P} {p q : Process P} {a : Action}

theorem leave_over [GuardedPlacement P] (hGuarded : Guarded R) (call : Call) :
    R h.store (leave config h call).store := by
  cases call with
  | insertInto bucket payload => exact Heap.insertInto_keeps hGuarded bucket payload h
  | read id => exact Heap.read_keeps hGuarded.toReading id h
  | readBatch ids => exact Heap.readBatch_keeps hGuarded.toReading ids h
  | update id payload => exact Heap.update_keeps hGuarded id payload h
  | delete id => exact Heap.delete_keeps hGuarded.toRestoring id h
  | flush => exact Heap.flush_keeps hGuarded.toObserving h

/-! Whatever happens, block I/O is asked for whole pages only. -/

theorem disciplined_closed {s : Store} (h : Disciplined s) : Disciplined (Heap.closed s) := by
  constructor
  case shaped =>
    intro n
    exact ⟨fun _ hw => absurd hw List.not_mem_nil, fun _ _ hPage => by cases hPage⟩
  case apart => exact fun _ => List.Pairwise.nil
  case few => exact fun _ => Nat.zero_le _
  case issued => exact h.issued

variable [GuardedPlacement P]

theorem Step.disciplined (hStep : Step p a q) (h : Disciplined p.store) : Disciplined q.store := by
  cases hStep with
  | opened run =>
      obtain ⟨order, report, hRun⟩ := run.run
      exact (Heap.open_keeps Disciplined.guarded order).ok hRun h
  | refused run => exact disciplined_closed ((Heap.open_keeps Disciplined.guarded _).error run h)
  | called config heap call => exact leave_over Disciplined.guarded call h
  | dropped config heap =>
      exact disciplined_closed (Heap.flush_keeps Disciplined.guarded.toObserving heap h)
  | crashed config heap => exact disciplined_closed h
  | struck s disk durable plan => exact h.congr rfl rfl

/-- At most 64 writes are ever staged for a file. What a process asks block I/O
to write are whole pages at page offsets, no two of them for one page, and a ring
of any depth writes them as if one after the other, in whatever order and in
whatever portions the kernel completes them. -/
theorem writes_served {s : Store} {actions : List Action} (hHandles : s.paged = fun _ => .fresh)
    (hIssued : s.issued = []) (hRun : Runs.Steps Step (.closed s : Process P) actions p) :
    (∀ n, (p.store.paged n).stagedWrites.length ≤ MAX_STAGED_WRITES) ∧
    ∀ write ∈ p.store.issued, PageRequests write ∧
      ∀ {depth chunk : Nat} {io : BlockIo.UringIo}, BlockIo.UringIo.new depth chunk = .ok io →
      chunk < 2 ^ 32 → ∀ (kernel : BlockIo.Kernel) (w : BlockIo.World) (reqs : List BlockIo.BlockReq),
      Buffered w reqs write.requests → ∀ fuel > BlockIo.waitLimit io reqs,
      BlockIo.Settles false { w with file := w.file.writes write.requests }
        (io.writeVec kernel fuel reqs w) := by
  have hStart : Disciplined (Process.closed s : Process P).store := by
    have hClosed : Heap.closed s = s := by rw [Heap.closed, ← hHandles]
    rw [store, ← hClosed]
    constructor
    case shaped => exact fun n => ⟨fun _ hw => absurd hw List.not_mem_nil, fun _ _ hPage => by cases hPage⟩
    case apart => exact fun _ => List.Pairwise.nil
    case few => exact fun _ => Nat.zero_le _
    case issued =>
      intro w hw
      rw [Heap.closed, hIssued] at hw
      cases hw
  have hEnd : Disciplined p.store :=
    hRun.preserves (I := fun p => Disciplined p.store) (fun _ _ _ h hStep => hStep.disciplined h) hStart
  refine ⟨hEnd.few, fun write hWrite => ⟨hEnd.issued write hWrite, ?_⟩⟩
  intro depth chunk io hNew hChunk kernel w reqs hBuffered fuel hFuel
  obtain ⟨hPos, rfl, hDepth, hRoom⟩ := BlockIo.UringIo.new_ok hNew
  rw [← hBuffered.served]
  exact BlockIo.UringIo.run_settles hDepth hRoom hPos hChunk kernel
    ((hEnd.issued write hWrite).separate hBuffered) hFuel

/-- One insertion is committed, and then the process crashes. Whatever it has written, the
index among it, a ring for two operations writes as well. -/
theorem writes_served_crashed :
    ∃ (h : Heap AppendPlacement) (io : BlockIo.UringIo), BlockIo.UringIo.new 2 PAGE = .ok io ∧
      Runs.Steps Step (.closed .empty : Process AppendPlacement)
        [.opened, .called (.insertInto 0 [7]), .crashed] (.closed h.simulateCrash) ∧
      ∃ write ∈ h.store.issued, write.file = .index ∧ ∀ (kernel : BlockIo.Kernel) (w : BlockIo.World)
        (reqs : List BlockIo.BlockReq), Buffered w reqs write.requests →
        BlockIo.Settles false { w with file := w.file.writes write.requests }
          (io.writeVec kernel (BlockIo.waitLimit io reqs + 1) reqs w) := by
  have hBlank : Blank .empty := ⟨fun _ => rfl, fun _ => rfl, rfl⟩
  let config : HeapConfig := ⟨.everyN 1, true, 2 ^ 20, 2 ^ 20, PAGE, 1, 2 ^ 20⟩
  obtain ⟨first, hOpened, hPlacement, hFirst⟩ := Heap.exists_opened config hBlank (by decide)
  obtain ⟨h, L, hInsert, -, -⟩ := hFirst.insert 0 [7]
    (by decide) (by rw [hPlacement]; decide) (by rw [hPlacement]; exact addressable_of_lt (by decide))
  have hMutated := hInsert.mutated hFirst.sound trivial rfl
  obtain ⟨write, hWrite, hIndex⟩ := hMutated.issued (Heap.written_of_everyOne rfl hInsert hFirst.sound trivial rfl)
  have hLeave : leave config first (.insertInto 0 [7]) = h := by
    cases hInsert with
    | inserted _ run => exact final_of_ok run
  have hCalled := (Runs.Steps.refl.step (Step.opened hOpened)).step (.called config first (.insertInto 0 [7]))
  rw [hLeave] at hCalled
  have hRun := hCalled.step (.crashed config h)
  obtain ⟨io, hNew⟩ : ∃ io, BlockIo.UringIo.new 2 PAGE = .ok io := ⟨_, rfl⟩
  refine ⟨h, io, hNew, hRun, write, hWrite, hIndex, fun kernel w reqs hBuffered => ?_⟩
  exact ((writes_served rfl rfl hRun).2 write hWrite).2 hNew (by decide) kernel w reqs hBuffered _
    (Nat.lt_succ_self _)

/-! The data file has two writers. -/

theorem spared_closed {s t : Store} (h : Spared s t) : Spared s (Heap.closed t) :=
  ⟨h.disk, rfl, h.issued⟩

omit [GuardedPlacement P] in
theorem leave_sparing {data : Option File} (call : Call) (hSpares : (Action.called call).Spares data) :
    Sparing h.store (leave config h call).store := by
  have hObserving := Spared.restoring.toObserving
  cases call with
  | insertInto bucket payload => exact hSpares.elim
  | update id payload => exact hSpares.elim
  | read id => exact Heap.read_keeps hObserving.toReading id h
  | readBatch ids => exact Heap.readBatch_keeps hObserving.toReading ids h
  | delete id => exact Heap.delete_keeps Spared.restoring id h
  | flush => exact Heap.flush_keeps hObserving h

theorem Step.spared {s : Store} (hStep : Step p a q) (h : Spared s p.store)
    (hPresent : (s.disk .data).isSome) (hSpares : a.Spares (s.disk .data)) : Spared s q.store := by
  have hHere : (p.store.disk .data).isSome := h.disk ▸ hPresent
  cases hStep with
  | @opened config t heap run =>
      obtain ⟨order, report, hRun⟩ := run.run
      have hKept : Sparing t (final (Heap.open P order config) t) :=
        Heap.reopen_keeps Spared.restoring order t hHere
      rw [final_of_ok hRun] at hKept
      exact h.trans (hKept h.staged)
  | @refused config order t _ _ run =>
      have hKept : Sparing t (final (Heap.open P order config) t) :=
        Heap.reopen_keeps Spared.restoring order t hHere
      rw [final_of_error run] at hKept
      exact spared_closed (h.trans (hKept h.staged))
  | called config heap call => exact h.trans (leave_sparing call hSpares h.staged)
  | dropped config heap =>
      have hKept := Heap.flush_keeps Spared.restoring.toObserving heap h.staged
      exact spared_closed (h.trans hKept)
  | crashed config heap => exact spared_closed h
  | struck s disk durable plan => exact ⟨hSpares, h.staged, h.issued⟩

/-- Only insertions and updates write the data file. Opening a store, also with
lost or damaged metadata that is rebuilt, reading, deleting, flushing and crashing
leave it byte for byte as it was, whichever requests fail on the way. -/
theorem data_file_kept {s : Store} {actions : List Action} (hHandles : s.paged = fun _ => .fresh)
    (hPresent : (s.disk .data).isSome) (hSpares : ∀ a ∈ actions, a.Spares (s.disk .data))
    (hRun : Runs.Steps Step (.closed s : Process P) actions p) :
    p.store.disk .data = s.disk .data ∧
      ∃ new, p.store.issued = s.issued ++ new ∧ ∀ w ∈ new, w.file ≠ .data := by
  have hStaged : (s.paged .data).stagedWrites = [] := by
    rw [hHandles]
    rfl
  have hStep (events : List Action) (p : Process P) (a : Action) (q : Process P)
      (hPrior : (∀ b ∈ events, b.Spares (s.disk .data)) → Spared s p.store) (hStep : Step p a q)
      (hAll : ∀ b ∈ events ++ [a], b.Spares (s.disk .data)) : Spared s q.store :=
    hStep.spared (hPrior fun b hb => hAll b (List.mem_append_left _ hb)) hPresent
      (hAll a (List.mem_append_right _ (List.mem_singleton_self a)))
  have hEnd : (∀ a ∈ [] ++ actions, a.Spares (s.disk .data)) → Spared s p.store :=
    Runs.Steps.invariant (s := Process.closed s) hStep (fun _ => Spared.refl hStaged) hRun
  exact ⟨(hEnd hSpares).disk, (hEnd hSpares).issued⟩

/-- The index of a store with one record is lost. The store is opened again, which rebuilds
the index, the record is deleted, and the process crashes. -/
theorem data_file_kept_deleted :
    ∃ (h g : Heap AppendPlacement) (disk : FileName → Option File) (t : Store),
      h.placement.nextId = 1 ∧ disk .index = none ∧
      Runs.Steps Step (.closed h.close : Process AppendPlacement)
        [.struck disk disk [], .opened, .called (.delete 0), .crashed] (.closed g.simulateCrash) ∧
      Heap.delete ⟨.none, true, 2 ^ 20, 2 ^ 20, PAGE, 1, 2 ^ 20⟩ 0 ⟨⟨h.placement, t⟩, 0⟩ = .ok () g ∧
      g.store.disk .data = h.close.disk .data := by
  have hBlank : Blank .empty := ⟨fun _ => rfl, fun _ => rfl, rfl⟩
  let config : HeapConfig := ⟨.none, true, 2 ^ 20, 2 ^ 20, PAGE, 1, 2 ^ 20⟩
  have hUsable : config.Usable := ⟨by decide, by decide, by decide⟩
  obtain ⟨first, hOpened, hPlacement, hFirst⟩ := Heap.exists_opened config hBlank (by decide)
  obtain ⟨h, _, hInsert, hMoved, hOne⟩ := hFirst.insert 0 [7]
    (by decide) (by rw [hPlacement]; decide) (by rw [hPlacement]; exact addressable_of_lt (by decide))
  rw [hPlacement] at hInsert hOne hMoved
  have hLife : Heap.Lifetime config first [.inserted 0 0 [7]] h :=
    Runs.Steps.refl.step ⟨.performed hInsert, hOne.reach⟩
  obtain ⟨u, hClosed, hFlushed, -⟩ := hOne.sound.dropped hOne.reach
  let disk := Function.update h.close.disk .index none
  have hData : disk .data = h.close.disk .data := Function.update_of_ne (by decide) _ _
  have hGone : Heap.MetadataGone h { h.close with disk, durable := disk, plan := [] } := by
    refine ⟨rfl, fun n => rfl, hData, ?_, Or.inl (Or.inl rfl)⟩
    intro n hNone
    cases n with
    | data => exact absurd (Heap.hasFile_data _) hNone
    | index => exact absurd (Heap.hasFile_index _) hNone
    | registry => rfl
  obtain ⟨report, t, L, hRun, -, -, -, hRevived⟩ := hGone.revived hBlank hUsable hOpened hFirst.reach hLife
    (fun id => Nat.zero_le _) ⟨id, fun _ => .refl _⟩
  obtain ⟨g, hDelete, -, -⟩ := hRevived.delete
    (show values (undeleted [.inserted 0 0 [7]]) 0 = some [7] from rfl) (addressable_of_lt (by decide))
  have hOk : Heap.delete config 0 ⟨⟨h.placement, t⟩, 0⟩ = .ok () g := by
    cases hDelete with
    | deleted run => exact run
  have hLeave : leave config ⟨⟨h.placement, t⟩, 0⟩ (.delete 0) = g := final_of_ok hOk
  have hAgain : Heap.OpenedOn config { h.close with disk, durable := disk, plan := [] } ⟨⟨h.placement, t⟩, 0⟩ :=
    ⟨⟨_, _, hRun⟩, rfl⟩
  have hCalled := ((Runs.Steps.refl.step (Step.struck h.close disk disk [])).step (.opened hAgain)).step
    (.called config _ (.delete 0))
  rw [hLeave] at hCalled
  have hSteps := hCalled.step (.crashed config g)
  have hPresent : (h.close.disk .data).isSome := by
    rw [hClosed]
    exact hFlushed.present .data (Heap.hasFile_data _)
  have hSpares : ∀ a ∈ [Action.struck disk disk [], .opened, .called (.delete 0), .crashed],
      a.Spares (h.close.disk .data) := by
    intro a ha
    simp only [List.mem_cons, List.not_mem_nil, or_false] at ha
    rcases ha with rfl | rfl | rfl | rfl
    · exact hData
    · trivial
    · trivial
    · trivial
  exact ⟨h, g, disk, t, by rw [hMoved], Function.update_self .., hSteps, hOk,
    (data_file_kept rfl hPresent hSpares hSteps).1⟩

end Process

end HeapStore
