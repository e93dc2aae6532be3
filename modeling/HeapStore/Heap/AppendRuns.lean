import HeapStore.Heap.Progress
import HeapStore.Placement.AppendScan

/-! Runs of an append heap: records are numbered without gaps, so the kernel
can address every slot, and a recovered heap is sound again. -/
namespace HeapStore

open Effect PagedFile IndexFile WalkRange

namespace AppendPlacement

theorem gapless_append {next : Nat} {a b : List Record} :
    Gapless next (a ++ b) ↔ Gapless next a ∧ Gapless (nextAfter next a) b := by
  induction a generalizing next with
  | nil => simp [Gapless, nextAfter]
  | cons r rest ih =>
      simp only [List.cons_append, Gapless, nextAfter, ih]
      constructor
      · rintro (⟨hSame, hRest, hTail⟩ | ⟨hOld, hRest, hTail⟩)
        · exact ⟨Or.inl ⟨hSame, hRest⟩, by rwa [if_pos hSame]⟩
        · exact ⟨Or.inr ⟨hOld, hRest⟩, by rwa [if_neg (Nat.ne_of_lt hOld)]⟩
      · rintro ⟨⟨hSame, hRest⟩ | ⟨hOld, hRest⟩, hTail⟩
        · exact Or.inl ⟨hSame, hRest, by rwa [if_pos hSame] at hTail⟩
        · exact Or.inr ⟨hOld, hRest, by rwa [if_neg (Nat.ne_of_lt hOld)] at hTail⟩

theorem nextAfter_append (next : Nat) (a b : List Record) :
    nextAfter next (a ++ b) = nextAfter (nextAfter next a) b := by
  induction a generalizing next with
  | nil => rfl
  | cons r rest ih => exact ih _

theorem nextAfter_le (next : Nat) (log : List Record) : nextAfter next log ≤ next + log.length := by
  induction log generalizing next with
  | nil => exact Nat.le_refl _
  | cons r rest ih =>
      have hNext : (if r.header.id = next then next + 1 else next) ≤ next + 1 := by split <;> omega
      have hRest := ih (if r.header.id = next then next + 1 else next)
      rw [nextAfter, List.length_cons]
      omega

/-- The numbers below the next free one are those of the records. -/
theorem mem_of_gapless {next : Nat} {log : List Record} (h : Gapless next log) (id : Nat) :
    ((∃ r ∈ log, r.header.id = id) ∨ id < next) ↔ id < nextAfter next log := by
  induction log generalizing next with
  | nil => simp [nextAfter]
  | cons r rest ih =>
      rw [nextAfter]
      rcases h with ⟨hSame, hRest⟩ | ⟨hOld, hRest⟩
      · rw [if_pos hSame, ← ih hRest]
        constructor
        · rintro (⟨x, hx, rfl⟩ | hLt)
          · rcases List.mem_cons.mp hx with rfl | hx
            · exact Or.inr (by omega)
            · exact Or.inl ⟨x, hx, rfl⟩
          · exact Or.inr (by omega)
        · rintro (⟨x, hx, rfl⟩ | hLt)
          · exact Or.inl ⟨x, List.mem_cons_of_mem _ hx, rfl⟩
          · rcases Nat.lt_succ_iff_lt_or_eq.mp hLt with hLt | rfl
            · exact Or.inr hLt
            · exact Or.inl ⟨r, List.mem_cons_self .., hSame⟩
      · rw [if_neg (Nat.ne_of_lt hOld), ← ih hRest]
        constructor
        · rintro (⟨x, hx, rfl⟩ | hLt)
          · rcases List.mem_cons.mp hx with rfl | hx
            · exact Or.inr hOld
            · exact Or.inl ⟨x, hx, rfl⟩
          · exact Or.inr hLt
        · rintro (⟨x, hx, rfl⟩ | hLt)
          · exact Or.inl ⟨x, List.mem_cons_of_mem _ hx, rfl⟩
          · exact Or.inr hLt

/-- The records number what there is without a gap, up to the next free number. -/
structure Numbered (log : List Record) (next : Nat) : Prop where
  gapless : Gapless 0 log
  next : nextAfter 0 log = next

theorem Numbered.mem {log : List Record} {next : Nat} (h : Numbered log next) (id : Nat) :
    (∃ r ∈ log, r.header.id = id) ↔ id < next := by
  rw [← h.next, ← mem_of_gapless h.gapless]
  simp

/-- What lies behind a part of the records continues its numbers. -/
theorem Numbered.rest {a b : List Record} {next last : Nat} (h : Numbered a next)
    (hAll : Numbered (a ++ b) last) : Gapless next b ∧ nextAfter next b = last := by
  refine ⟨h.next ▸ (gapless_append.mp hAll.gapless).2, ?_⟩
  rw [← hAll.next, nextAfter_append, h.next]

/-- One operation numbers a new record with the next free number. -/
theorem Numbered.step {L M : Ledger} {e : Event} {next last : Nat} (h : Numbered L.log next)
    (hStep : Ledger.Step false L e M) (hLast : ∀ id, (∃ r ∈ M.log, r.header.id = id) ↔ id < last) :
    Numbered M.log last := by
  have hSame : (∀ id, (∃ r ∈ M.log, r.header.id = id) ↔ ∃ r ∈ L.log, r.header.id = id) →
      next = last := fun hIds => by
    have hBoth : ∀ id, id < last ↔ id < next := fun id => by rw [← hLast, hIds, h.mem]
    have hLeft := hBoth next
    have hRight := hBoth last
    omega
  cases hStep with
  | @inserted id bucket payload r new number version stored fresh =>
      have hIds : ∀ k, (k < next ∨ r.header.id = k) ↔ k < last := fun k => by
        rw [← hLast, ← h.mem]
        simp [Ledger.put, or_and_right, exists_or]
      have hFresh : ¬ id < next := fun hLt => by
        obtain ⟨x, hx, hxId⟩ := (h.mem id).mpr hLt
        exact fresh x hx hxId
      have hNext := hIds next
      have hSucc := hIds (next + 1)
      have hOwn := hIds id
      have hId : r.header.id = next := by omega
      refine ⟨gapless_append.mpr ⟨h.gapless, ?_⟩, ?_⟩
      · rw [h.next]
        exact Or.inl ⟨hId, trivial⟩
      · change nextAfter 0 (L.log ++ [r]) = last
        rw [nextAfter_append, h.next, nextAfter, nextAfter, if_pos hId]
        omega
  | @updated id payload old r new newest live number version stored =>
      obtain ⟨hOld, hOldId⟩ := newest_eq_some newest
      have hLt : r.header.id < next := (h.mem _).mp ⟨old, hOld, hOldId.trans number.symm⟩
      have hEq := hSame fun k => by
        simp only [Ledger.put, List.mem_append, List.mem_singleton]
        constructor
        · rintro ⟨x, hx | rfl, rfl⟩
          · exact ⟨x, hx, rfl⟩
          · exact ⟨old, hOld, hOldId.trans number.symm⟩
        · rintro ⟨x, hx, rfl⟩
          exact ⟨x, Or.inl hx, rfl⟩
      refine ⟨gapless_append.mpr ⟨h.gapless, ?_⟩, ?_⟩
      · rw [h.next]
        exact Or.inr ⟨hLt, trivial⟩
      · change nextAfter 0 (L.log ++ [r]) = last
        rw [nextAfter_append, h.next, nextAfter, nextAfter, if_neg (Nat.ne_of_lt hLt), hEq]
  | deleted slot live => exact hSame (fun _ => Iff.rfl) ▸ h
  | observed => exact hSame (fun _ => Iff.rfl) ▸ h

/-- As many records as fit a file have numbers that fit the index. -/
theorem Numbered.addressable {log : List Record} {next cursor : Nat} (h : Numbered log next)
    (hChain : Chain false PAGE cursor log) (hCursor : cursor < 2 ^ 63) {id : Nat} (hId : id < next) :
    Addressable id := by
  have hNext := nextAfter_le 0 log
  have hLength := hChain.length_le
  have hUp := pageUp_lt (Slot.fileOffset id + SLOT_SIZE)
  have hHeader : headerLen false = 30 := by decide
  rw [h.next, Nat.zero_add] at hNext
  rw [hHeader, PAGE] at hLength
  simp only [Addressable, Slot.fileOffset, SLOT_SIZE, PAGE] at *
  omega

end AppendPlacement

namespace Heap

open AppendPlacement

variable {config : HeapConfig} {h h' : Heap AppendPlacement} {L M : Ledger}
  {events more : List Event} {s t : Store}

/-- What holds of an append heap after a history: it is sound for a ledger that
the history led to. -/
structure AppendReached (config : HeapConfig) (events : List Event) (h : Heap AppendPlacement)
    (L : Ledger) : Prop where
  sound : Sound config L h.placed
  historic : L.Historic false events
  numbered : Numbered L.log h.placement.nextId

namespace AppendReached

theorem created (hOpened : OpenedOn config s h) (hBlank : Blank s) :
    AppendReached config [] h .empty := by
  have hSound := hOpened.created hBlank trivial
  refine ⟨hSound, .empty _, trivial, ?_⟩
  have hNumbers := hSound.placed.numbers h.placement.nextId
  by_contra hNe
  have hLt : 0 < h.placement.nextId := Nat.pos_of_ne_zero fun hZero => hNe hZero.symm
  obtain ⟨r, hr, -⟩ := (hSound.placed.numbers 0).mpr hLt
  cases hr

/-- A longer run of an append heap. -/
theorem runs (hReached : AppendReached config events h L) (hRuns : Runs config h more h') :
    ∃ M, L.Grows false more M ∧ AppendReached config (events ++ more) h' M :=
  hRuns.simulate (R := AppendReached config) (fun _ _ _ _ _ hOld hPerformed => by
      obtain ⟨M, hStep, hNext⟩ := hPerformed.step trivial hOld.sound hOld.historic
      exact ⟨M, hStep, hNext, hOld.historic.step hStep, hOld.numbered.step hStep hNext.placed.numbers⟩)
    hReached

theorem cursor_lt (hReached : AppendReached config events h L) : h.placement.cursor < 2 ^ 63 :=
  Nat.lt_of_le_of_lt (hReached.sound.placed.reserved.trans hReached.sound.placed.roomy.reserved)
    hReached.sound.placed.roomy.whole.range

/-- The kernel can address the slot of every record. -/
theorem addressable (hReached : AppendReached config events h L) {r : Record} (hr : r ∈ L.log) :
    Addressable r.header.id :=
  hReached.numbered.addressable hReached.sound.placed.chain hReached.cursor_lt
    ((hReached.numbered.mem _).mp ⟨r, hr, rfl⟩)

end AppendReached

/-! Progress of an append heap in reserved space. -/

/-- An append heap that has reached a ledger, with all requests succeeding and
space reserved up to an end. -/
structure Spacious (config : HeapConfig) (events : List Event) (h : Heap AppendPlacement) (L : Ledger)
    (allocatedEnd : Nat) : Prop extends AppendReached config events h L where
  reach : AllInReach h.store
  allocated : (h.store.paged .data).allocatedEnd = allocatedEnd

theorem exists_opened (config : HeapConfig) (hBlank : Blank s) (hRange : grownEnd PAGE config.initialSize config.growth < 2 ^ 63) :
    ∃ h : Heap AppendPlacement, OpenedOn config s h ∧ h.placement = ⟨PAGE, 0⟩ ∧
      Spacious config [] h .empty (grownEnd PAGE config.initialSize config.growth) := by
  obtain ⟨h, hOpened, hPlacement, hReach, hEnd⟩ := open_blank_run
    ⟨id, fun _ => .refl _⟩ (⟨PAGE, 0⟩ : AppendPlacement) (fun u => AllInReach u ∧
      (u.paged .data).allocatedEnd = grownEnd PAGE config.initialSize config.growth) hBlank
    fun t hNew => by
      obtain ⟨u, hRun, hEnd⟩ := ensureAlloc_run config.initialSize config.growth
        hNew.plan (by rw [hNew.allocated]; exact hRange)
      rw [hNew.allocated] at hEnd
      refine ⟨0, u, ?_, hNew.inReach.ensureAlloc hRun, hEnd⟩
      change AppendPlacement.open _ config true t = _
      rw [AppendPlacement.open, if_pos rfl, bind_of_ok hRun]
      rfl
  exact ⟨h, hOpened, hPlacement, ⟨AppendReached.created hOpened hBlank, hReach, hEnd⟩⟩

variable {bucket id allocatedEnd : Nat} {payload : Bytes}

theorem append_allocUpdate_run {totalLen : Nat} {s : Placed AppendPlacement}
    (hSum : s.placement.cursor + totalLen < 2 ^ 64)
    (hRoom : s.placement.cursor + totalLen ≤ (s.store.paged .data).allocatedEnd) :
    allocUpdate config bucket totalLen s =
      .ok s.placement.cursor ⟨{ s.placement with cursor := s.placement.cursor + totalLen }, s.store⟩ := by
  rw [allocUpdate, bind_of_ok (Placed.getPlacement_apply s)]
  rw [bind_of_ok (Placed.onStore_eq_ok.mpr ⟨s.store, ensureAlloc_enough hSum hRoom, rfl⟩)]
  rfl

theorem append_alloc_run {totalLen : Nat} {s : Placed AppendPlacement}
    (hSum : s.placement.cursor + totalLen < 2 ^ 64)
    (hRoom : s.placement.cursor + totalLen ≤ (s.store.paged .data).allocatedEnd) :
    alloc config bucket totalLen s = .ok (s.placement.cursor, s.placement.nextId)
      ⟨⟨s.placement.cursor + totalLen, s.placement.nextId + 1⟩, s.store⟩ := by
  rw [alloc, bind_of_ok (append_allocUpdate_run hSum hRoom)]
  rfl

namespace Spacious

/-- An insert completes in reserved space. -/
theorem insert (h : Spacious config events h' L allocatedEnd) (bucket : Nat) (payload : Bytes)
    (hBucket : bucket < 2 ^ 64)
    (hRoom : h'.placement.cursor + (30 + payload.length) ≤ allocatedEnd)
    (hId : Addressable h'.placement.nextId) :
    ∃ g M, Performed config h' (.inserted h'.placement.nextId bucket payload) g ∧
      g.placement = ⟨h'.placement.cursor + (30 + payload.length), h'.placement.nextId + 1⟩ ∧
      Spacious config (events ++ [.inserted h'.placement.nextId bucket payload]) g M allocatedEnd := by
  rw [← h.allocated] at hRoom
  have hSum : h'.placement.cursor + (30 + payload.length) < 2 ^ 64 := by
    have hReserved := h.sound.placed.roomy.reserved
    have hRange := h.sound.placed.roomy.whole.range
    change h'.placement.cursor + _ ≤ (h'.placed.store.paged .data).allocatedEnd at hRoom
    omega
  obtain ⟨g, hRun, hPlacement, hReach, hEnd, -⟩ := insertInto_run h.sound trivial hBucket
    (append_alloc_run hSum hRoom) h.reach hId
  have hPerformed : Performed config h' _ g := .inserted hBucket hRun
  obtain ⟨M, -, hReached⟩ := h.toAppendReached.runs (.step .refl hPerformed)
  exact ⟨g, M, hPerformed, hPlacement, ⟨hReached, hReach, hEnd.trans h.allocated⟩⟩

/-- An update of a number with a value completes in reserved space. -/
theorem update (h : Spacious config events h' L allocatedEnd) (id : Nat) (payload : Bytes) {value : Bytes}
    (hValue : values events id = some value)
    (hRoom : h'.placement.cursor + (30 + payload.length) ≤ allocatedEnd) :
    ∃ g M, Performed config h' (.updated id payload) g ∧
      g.placement = ⟨h'.placement.cursor + (30 + payload.length), h'.placement.nextId⟩ ∧
      Spacious config (events ++ [.updated id payload]) g M allocatedEnd := by
  rw [← h.allocated] at hRoom
  have hSum : h'.placement.cursor + (30 + payload.length) < 2 ^ 64 := by
    have hReserved := h.sound.placed.roomy.reserved
    have hRange := h.sound.placed.roomy.whole.range
    change h'.placement.cursor + _ ≤ (h'.placed.store.paged .data).allocatedEnd at hRoom
    omega
  obtain ⟨old, hOld, hOldId, -, hLive⟩ := h.historic.live_of_value hValue
  have hId : Addressable id := hOldId ▸ h.toAppendReached.addressable hOld
  have hHas : HasRoom h' (Placement.allocUpdate config old.header.bucket
      ((dataFile AppendPlacement config).recordHeaderLen + payload.length)) h'.placement.cursor
      ⟨h'.placement.cursor + (30 + payload.length), h'.placement.nextId⟩ allocatedEnd := by
    intro u hRefreshed
    have hEnd := (hRefreshed.upkeep h.sound.coherent).allocated
    refine ⟨u, append_allocUpdate_run hSum (by rw [hEnd]; exact hRoom), h.reach.refreshed hRefreshed,
      hEnd.trans h.allocated⟩
  obtain ⟨g, hRun, hPlacement, hReach, hEnd⟩ := update_run h.sound h.reach hOld hOldId hId hLive hHas
  have hPerformed : Performed config h' _ g := .updated hRun
  obtain ⟨M, -, hReached⟩ := h.toAppendReached.runs (.step .refl hPerformed)
  exact ⟨g, M, hPerformed, hPlacement, ⟨hReached, hReach, hEnd⟩⟩

/-- A deletion of a number with a value completes. -/
theorem delete (h : Spacious config events h' L allocatedEnd) (id : Nat) {value : Bytes}
    (hValue : values events id = some value) :
    ∃ g M, Performed config h' (.deleted id) g ∧ g.placement = h'.placement ∧
      Spacious config (events ++ [.deleted id]) g M allocatedEnd := by
  obtain ⟨r, hr, hSame, -, hLive⟩ := h.historic.live_of_value hValue
  have hId : Addressable id := hSame ▸ h.toAppendReached.addressable hr
  obtain ⟨g, hRun, hPlacement, hReach, hEnd⟩ := delete_run h.sound h.reach hId hLive
  have hPerformed : Performed config h' _ g := .deleted hRun
  obtain ⟨M, -, hReached⟩ := h.toAppendReached.runs (.step .refl hPerformed)
  exact ⟨g, M, hPerformed, hPlacement, ⟨hReached, hReach, hEnd.trans h.allocated⟩⟩

/-- A flush completes. -/
theorem flush (h : Spacious config events h' L allocatedEnd) :
    ∃ g, Heap.flush h' = .ok () g ∧ ∃ M, Spacious config (events ++ [.observed]) g M allocatedEnd ∧
      g.placement = h'.placement ∧ FlushedAll false h'.store g.store := by
  obtain ⟨u, hRun, hRefreshed⟩ := flush_run (h := h') h.sound.coherent h.sound.plan h.reach
  have hPerformed : Performed config h' .observed (h'.withStore u) := .flushed hRun
  obtain ⟨M, -, hReached⟩ := h.toAppendReached.runs (.step .refl hPerformed)
  exact ⟨_, hRun, M, ⟨hReached, h.reach.refreshed hRefreshed,
    (hRefreshed.upkeep h.sound.coherent).allocated.trans h.allocated⟩, rfl, (flush_ok h.sound hRun).1⟩

end Spacious

end Heap

end HeapStore
