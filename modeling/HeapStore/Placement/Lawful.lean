import HeapStore.Placement.Append
import HeapStore.Placement.Allotment

/-! What the heap relies on in a placement: an invariant over the records and
registry rows written so far, which every completed allocation keeps for one
more record. Both placements are lawful. -/
namespace HeapStore

open Effect Placed PagedFile WalkRange

/-- The numbers of the configuration that a bucket placement depends on. -/
structure HeapConfig.Usable (config : HeapConfig) : Prop where
  initialSize : PAGE ≤ config.initialSize
  regionSlots : 0 < config.regionSlots
  regionRange : config.regionSlots < 2 ^ 64

/-- A record that fits an allocated place. -/
structure Record.Fills (withBucket : Bool) (r : Record) (off totalLen bucket : Nat) : Prop where
  off : r.off = off
  length : r.totalLen withBucket = totalLen
  bucket : r.header.bucket = if withBucket then bucket else 0

/-- The files of a new store, as creating them leaves them. -/
structure NewFiles (s : Store) : Prop where
  roomy : Roomy s
  allocated : (s.paged .data).allocatedEnd = PAGE
  coherent : Coherent .registry s
  tail : OpenTail .registry PAGE s
  registry : Rows [] (s.logical .registry)

class LawfulPlacement (P : Type) [Placement P] where
  Accepts : HeapConfig → Prop
  Keeps : HeapConfig → Placed P → List Record → List RegistryRow → Prop
  create {config : HeapConfig} {order : HashOrder} {s t : Store} {p : P} {restored : Nat} :
    Accepts config → NewFiles s → Placement.open order config true s = .ok (p, restored) t →
      Reserved s t ∧ Keeps config ⟨p, t⟩ [] []
  roomy {config : HeapConfig} {s : Placed P} {log : List Record} {rows : List RegistryRow} :
    Keeps config s log rows → Roomy s.store
  bounds {config : HeapConfig} {s : Placed P} {log : List Record} {rows : List RegistryRow}
    {r : Record} : Keeps config s log rows → r ∈ log →
      PAGE ≤ r.off ∧ r.stop (Placement.withBucket P) ≤ (s.store.paged .data).allocatedEnd
  apart {config : HeapConfig} {s : Placed P} {log : List Record} {rows : List RegistryRow}
    {r old : Record} : Keeps config s (log ++ [r]) rows → old ∈ log →
      Record.Apart (Placement.withBucket P) old r
  upkeep {config : HeapConfig} {s : Placed P} {log : List Record} {rows : List RegistryRow}
    {u : Store} : Keeps config s log rows → Upkeep s.store u → Keeps config ⟨s.placement, u⟩ log rows
  alloc {config : HeapConfig} {s t : Placed P} {log : List Record} {rows : List RegistryRow}
    {r : Record} {bucket totalLen off id : Nat} : Keeps config s log rows → Accepts config →
      bucket < 2 ^ 64 → id < 2 ^ 64 → Placement.alloc config bucket totalLen s = .ok (off, id) t →
      r.Fills (Placement.withBucket P) off totalLen bucket → r.header.id = id →
      Reserved s.store t.store ∧ (∀ old ∈ log, old.header.id ≠ id) ∧
        ∃ new, Keeps config t (log ++ [r]) (rows ++ new)
  allocUpdate {config : HeapConfig} {s t : Placed P} {log : List Record}
    {rows : List RegistryRow} {r old : Record} {totalLen off : Nat} : Keeps config s log rows →
      old ∈ log → old.header.bucket < 2 ^ 64 →
      Placement.allocUpdate config old.header.bucket totalLen s = .ok off t →
      r.Fills (Placement.withBucket P) off totalLen old.header.bucket →
      r.header.id = old.header.id →
      Reserved s.store t.store ∧ ∃ new, Keeps config t (log ++ [r]) (rows ++ new)

namespace AppendPlacement

/-- The invariant of an append placement: one chain of records up to the
cursor, under consecutive numbers. -/
structure Kept (s : Placed AppendPlacement) (log : List Record) (rows : List RegistryRow) :
    Prop where
  chain : Chain false PAGE s.placement.cursor log
  reserved : s.placement.cursor ≤ (s.store.paged .data).allocatedEnd
  roomy : Roomy s.store
  numbers : ∀ id, (∃ r ∈ log, r.header.id = id) ↔ id < s.placement.nextId
  rows : rows = []

variable {config : HeapConfig} {s t : Placed AppendPlacement} {log : List Record}
  {rows : List RegistryRow} {r old : Record} {bucket totalLen off id : Nat}

theorem allocUpdate_ok (hRun : allocUpdate config bucket totalLen s = .ok off t) :
    off = s.placement.cursor ∧ Reserved s.store t.store ∧
      t.placement = { s.placement with cursor := s.placement.cursor + totalLen } ∧
      t.placement.cursor ≤ (t.store.paged .data).allocatedEnd := by
  rw [allocUpdate, bind_of_ok (getPlacement_apply s)] at hRun
  obtain ⟨_, u, hAlloc, hRun⟩ := bind_eq_ok.mp hRun
  obtain ⟨v, hEnsure, rfl⟩ := onStore_eq_ok.mp hAlloc
  cases hRun
  obtain ⟨hReserved, -, hEnd⟩ := ensureAlloc_ok hEnsure
  exact ⟨rfl, hReserved, rfl, hEnd⟩

theorem alloc_ok (hRun : alloc config bucket totalLen s = .ok (off, id) t) :
    off = s.placement.cursor ∧ id = s.placement.nextId ∧ Reserved s.store t.store ∧
      t.placement = ⟨s.placement.cursor + totalLen, s.placement.nextId + 1⟩ ∧
      t.placement.cursor ≤ (t.store.paged .data).allocatedEnd := by
  obtain ⟨offset, u, hUpdate, hRun⟩ := bind_eq_ok.mp hRun
  obtain ⟨rfl, hReserved, hPlacement, hEnd⟩ := allocUpdate_ok hUpdate
  rw [bind_of_ok (getPlacement_apply u)] at hRun
  cases hRun
  refine ⟨rfl, by rw [hPlacement], hReserved, by simp only [hPlacement], ?_⟩
  rw [hPlacement] at hEnd
  simpa only [hPlacement] using hEnd

theorem Kept.concat (h : Kept s log rows) (hr : r.Fills false off totalLen bucket)
    (hOff : off = s.placement.cursor) (hCursor : t.placement.cursor = s.placement.cursor + totalLen) :
    Chain false PAGE t.placement.cursor (log ++ [r]) := by
  have hStop : r.stop false = t.placement.cursor := by
    rw [Record.stop, hr.off, hr.length, hOff, hCursor]
  rw [← hStop]
  exact h.chain.concat (hr.off.trans hOff)

instance : LawfulPlacement AppendPlacement where
  Accepts _ := True
  Keeps _ := Kept
  create {config order s t p restored} _ hNew hRun := by
    obtain ⟨_, u, hAlloc, hRun⟩ := bind_eq_ok.mp hRun
    cases hRun
    obtain ⟨hReserved, -, -⟩ := ensureAlloc_ok hAlloc
    refine ⟨hReserved, .nil _, ?_, hReserved.roomy hNew.roomy, fun id => ?_, rfl⟩
    · exact hNew.allocated ▸ hReserved.grown
    · simp
  roomy h := h.roomy
  bounds h hr := by
    have hBounds := h.chain.bounds hr
    exact ⟨hBounds.1, hBounds.2.trans h.reserved⟩
  apart h hOld := Or.inl (h.chain.before hOld)
  upkeep h hUpkeep := ⟨h.chain, hUpkeep.allocated ▸ h.reserved, hUpkeep.roomy h.roomy, h.numbers, h.rows⟩
  alloc {config s t log rows r bucket totalLen off id} h _ _ _ hRun hr hId := by
    obtain ⟨hOff, hNumber, hReserved, hPlacement, hEnd⟩ := alloc_ok hRun
    have hFresh : ∀ old ∈ log, old.header.id ≠ id := fun old hOld hSame => by
      have := (h.numbers old.header.id).mp ⟨old, hOld, rfl⟩
      omega
    refine ⟨hReserved, hFresh, [], h.concat hr hOff (by rw [hPlacement]), hEnd,
      hReserved.roomy h.roomy, fun k => ?_, by rw [h.rows]; rfl⟩
    have hNumbers := h.numbers k
    rw [hPlacement]
    constructor
    · rintro ⟨x, hx, rfl⟩
      rcases List.mem_append.mp hx with hx | hx
      · exact Nat.lt_succ_of_lt (hNumbers.mp ⟨x, hx, rfl⟩)
      · rw [List.mem_singleton] at hx
        rw [hx, hId, hNumber]
        exact Nat.lt_succ_self _
    · intro hLt
      rcases Nat.lt_succ_iff_lt_or_eq.mp hLt with hLt | hEq
      · obtain ⟨x, hx, hSame⟩ := hNumbers.mpr hLt
        exact ⟨x, List.mem_append_left _ hx, hSame⟩
      · exact ⟨r, by simp, by rw [hId, hNumber, hEq]⟩
  allocUpdate {config s t log rows r old totalLen off} h hOld _ hRun hr hId := by
    obtain ⟨hOff, hReserved, hPlacement, hEnd⟩ := allocUpdate_ok hRun
    refine ⟨hReserved, [], h.concat hr hOff (by rw [hPlacement]), hEnd,
      hReserved.roomy h.roomy, fun k => ?_, by rw [h.rows]; rfl⟩
    rw [hPlacement, ← h.numbers k]
    constructor
    · rintro ⟨x, hx, rfl⟩
      rcases List.mem_append.mp hx with hx | hx
      · exact ⟨x, hx, rfl⟩
      · rw [List.mem_singleton] at hx
        exact ⟨old, hOld, by rw [hx, hId]⟩
    · rintro ⟨x, hx, hSame⟩
      exact ⟨x, List.mem_append_left _ hx, hSame⟩

end AppendPlacement

namespace BucketPlacement

theorem Kept.upkeep {config : HeapConfig} {s : Placed BucketPlacement} {log : List Record}
    {rows : List RegistryRow} {u : Store} (h : Kept config s log rows) (hUpkeep : Upkeep s.store u) :
    Kept config ⟨s.placement, u⟩ log rows where
  base := h.base
  geometry := h.geometry
  reserved := hUpkeep.allocated ▸ h.reserved
  roomy := hUpkeep.roomy h.roomy
  coherent := hUpkeep.coherent h.coherent
  tail := hUpkeep.tail _ h.tail
  registry := hUpkeep.registry ▸ h.registry
  stocked := h.stocked
  numbering := h.numbering
  recorded := h.recorded
  aligned := h.aligned

theorem Kept.create {config : HeapConfig} {order : HashOrder} {s t : Store} {p : BucketPlacement}
    {restored : Nat} (hConfig : config.Usable) (hNew : NewFiles s)
    (hRun : BucketPlacement.open order config true s = .ok (p, restored) t) :
    Reserved s t ∧ Kept config ⟨p, t⟩ [] [] := by
  obtain ⟨_, u, hAlloc, hRun⟩ := bind_eq_ok.mp hRun
  cases hRun
  obtain ⟨hReserved, hPaged, hEnd⟩ := ensureAlloc_ok hAlloc
  have hFile := hReserved.file (m := .registry) (by decide)
  have hNone : ∀ (j : Nat) (state : BucketState), (fresh config).states[j]? ≠ some state :=
    fun j state h => by simp [fresh] at h
  refine ⟨hReserved, ?_⟩
  exact
    { base := hConfig.initialSize
      geometry :=
        { apart := .nil
          plots := fun j state h => absurd h (hNone j state)
          lasts := fun j state h => absurd h (hNone j state)
          home := fun r hr => by cases hr
          fresh := fun _ => rfl }
      reserved := hEnd
      roomy := hReserved.roomy hNew.roomy
      coherent := hReserved.coherent hNew.coherent
      tail := by
        rw [OpenTail, hPaged]
        exact hNew.tail
      registry := by
        rw [Store.logical, hPaged, hFile]
        exact hNew.registry
      stocked :=
        { data := fun j state h => absurd h (hNone j state)
          slots := fun j state h => absurd h (hNone j state)
          base := hConfig.initialSize }
      numbering := .empty config
      recorded :=
        { states := rfl
          nextRegion := rfl
          registryEnd := rfl
          fileSize := Nat.le_refl _
          count := rfl
          kinds := fun row h => by cases h
          ranged := fun row h => by cases h }
      aligned := fun hSized => ⟨hSized.initialSize, fun e he => by cases he⟩ }

instance : LawfulPlacement BucketPlacement where
  Accepts := HeapConfig.Usable
  Keeps := Kept
  create hConfig hNew hRun := Kept.create hConfig hNew hRun
  roomy h := h.roomy
  bounds h hr := by
    have hBounds := h.geometry.bounds hr
    exact ⟨hBounds.1, hBounds.2.trans h.reserved⟩
  apart h hOld := h.geometry.apart_last hOld
  upkeep h hUpkeep := h.upkeep hUpkeep
  alloc h hConfig hBucket hId hRun hr hrId :=
    h.alloc hBucket hConfig.regionSlots hConfig.regionRange hId hRun hr.off hr.length hr.bucket hrId
  allocUpdate h hOld hBucket hRun hr hrId :=
    h.allocUpdate hBucket hRun hr.off hr.length hr.bucket hOld hrId hr.bucket

end BucketPlacement

end HeapStore
