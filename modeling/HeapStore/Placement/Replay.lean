import HeapStore.Placement.Numbering

/-! The registry rows of a bucket store: replaying them from an empty
allocator gives every bucket the extents and regions that it has in memory. -/
namespace HeapStore

open Placed

namespace BucketState

/-- The extents and regions of a bucket, without what is used of them. -/
def unused (state : BucketState) : BucketState :=
  { state with
    data := state.data.map fun e => { e with used := 0 }
    slots := state.slots.map fun e => { e with used := 0 } }

end BucketState

theorem map_modify_comm {α β : Type} {f : α → β} {g : α → α} {g' : β → β} (l : List α) (i : Nat)
    (h : ∀ a, l[i]? = some a → f (g a) = g' (f a)) : (l.modify i g).map f = (l.map f).modify i g' := by
  apply List.ext_getElem?
  intro j
  simp only [List.getElem?_map, List.getElem?_modify]
  cases hj : l[j]? with
  | none => rfl
  | some a =>
      by_cases hIndex : i = j
      · subst hIndex
        simp [h a hj]
      · simp [hIndex]

theorem map_modify_same {α β : Type} {f : α → β} {g : α → α} (l : List α) (i : Nat)
    (h : ∀ a, f (g a) = f a) : (l.modify i g).map f = l.map f := by
  have hMap : (l.modify i g).map f = (l.map f).modify i id := map_modify_comm l i fun a _ => h a
  rw [hMap, List.modify_id]

namespace BucketPlacement

/-- The kinds of rows that a replay takes. -/
def KnownKind (row : RegistryRow) : Prop := row.kind = 'D'.toUInt8 ∨ row.kind = 'S'.toUInt8

/-- The replay of one row, in exact numbers. -/
def applyRow (p : BucketPlacement) (row : RegistryRow) : BucketPlacement :=
  let (p, i) := p.rowBucket row.bucket
  let p := { p with
    extentGrantCount := p.extentGrantCount + 1
    registryEnd := p.registryEnd + REGISTRY_ROW_SIZE }
  let extent : Extent := { start := row.start, size := row.size, used := 0 }
  if row.kind = 'D'.toUInt8 then
    let p := { p with
      states := shrinkStates row.start (row.start + row.size) p.states
      fileSize := max p.fileSize (row.start + row.size) }
    p.modifyState i fun state => { state with data := state.data ++ [extent] }
  else
    let p := { p with nextRegion := max p.nextRegion (row.start + row.size) }
    p.modifyState i fun state => { state with slots := state.slots ++ [extent] }

theorem replayRow_eq {p : BucketPlacement} {row : RegistryRow} (hKind : KnownKind row)
    (hFits : row.start + row.size < 2 ^ 64) (s : Store) :
    replayRow p row s = .ok (p.applyRow row) s := by
  rcases hKind with hKind | hKind
  · simp only [replayRow, applyRow, hKind, if_true, addU64, if_neg (Nat.not_le.mpr hFits)]
    rfl
  · have hNot : ¬ 'S'.toUInt8 = 'D'.toUInt8 := by decide
    simp only [replayRow, applyRow, hKind, if_true, if_neg hNot, addU64,
      if_neg (Nat.not_le.mpr hFits)]
    rfl

/-- The allocator that the rows describe. -/
def replayed (config : HeapConfig) (rows : List RegistryRow) : BucketPlacement :=
  rows.foldl applyRow (BucketPlacement.fresh config)

theorem replayed_concat (config : HeapConfig) (rows : List RegistryRow) (row : RegistryRow) :
    replayed config (rows ++ [row]) = (replayed config rows).applyRow row := by
  simp [replayed]

/-- The rows of a registry describe the allocator. -/
structure Recorded (config : HeapConfig) (p : BucketPlacement) (rows : List RegistryRow) : Prop where
  states : (replayed config rows).states = p.states.map BucketState.unused
  nextRegion : (replayed config rows).nextRegion = p.nextRegion
  registryEnd : p.registryEnd = PAGE + REGISTRY_ROW_SIZE * rows.length
  fileSize : (replayed config rows).fileSize ≤ p.fileSize
  count : (replayed config rows).extentGrantCount = rows.length
  kinds : ∀ row ∈ rows, KnownKind row
  ranged : ∀ row ∈ rows, row.InRange

/-! Shrinking finds the one extent that a range was cut from. -/

theorem shrinkExtents_none {lo hi : Nat} {data : List Extent}
    (h : ∀ e ∈ data, ¬ (e.start ≤ lo ∧ hi ≤ e.stop)) : shrinkExtents lo hi data = none := by
  induction data with
  | nil => rfl
  | cons e rest ih =>
      rw [shrinkExtents, if_neg (h e (List.mem_cons_self ..)),
        ih fun x hx => h x (List.mem_cons_of_mem _ hx)]
      rfl

theorem shrinkExtents_concat {lo hi : Nat} {init : List Extent} {e : Extent}
    (h : ∀ x ∈ init, ¬ (x.start ≤ lo ∧ hi ≤ x.stop)) (he : e.start ≤ lo ∧ hi ≤ e.stop) :
    shrinkExtents lo hi (init ++ [e]) = some (init ++ [{ e with size := lo - e.start }]) := by
  induction init with
  | nil => rw [List.nil_append, shrinkExtents, if_pos he, List.nil_append]
  | cons x rest ih =>
      rw [List.cons_append, shrinkExtents, if_neg (h x (List.mem_cons_self ..)),
        ih fun y hy => h y (List.mem_cons_of_mem _ hy)]
      rfl

theorem shrinkStates_none {lo hi : Nat} {states : List BucketState}
    (h : ∀ e ∈ extents states, ¬ (e.start ≤ lo ∧ hi ≤ e.stop)) : shrinkStates lo hi states = states := by
  induction states with
  | nil => rfl
  | cons state rest ih =>
      have hFirst : shrinkExtents lo hi state.data = none := shrinkExtents_none fun e he =>
        h e (List.mem_flatMap.mpr ⟨state, List.mem_cons_self .., he⟩)
      rw [shrinkStates, hFirst]
      simp only [List.cons.injEq, true_and]
      refine ih fun e he => h e ?_
      obtain ⟨other, hOther, he⟩ := List.mem_flatMap.mp he
      exact List.mem_flatMap.mpr ⟨other, List.mem_cons_of_mem _ hOther, he⟩

theorem shrinkStates_at {lo hi : Nat} {before after : List BucketState} {state : BucketState}
    {init : List Extent} {e : Extent} (hData : state.data = init ++ [e])
    (hBefore : ∀ x ∈ extents before, ¬ (x.start ≤ lo ∧ hi ≤ x.stop))
    (hInit : ∀ x ∈ init, ¬ (x.start ≤ lo ∧ hi ≤ x.stop)) (he : e.start ≤ lo ∧ hi ≤ e.stop) :
    shrinkStates lo hi (before ++ state :: after) =
      before ++ { state with data := init ++ [{ e with size := lo - e.start }] } :: after := by
  induction before with
  | nil => rw [List.nil_append, shrinkStates, hData, shrinkExtents_concat hInit he, List.nil_append]
  | cons other rest ih =>
      have hFirst : shrinkExtents lo hi other.data = none := shrinkExtents_none fun x hx =>
        hBefore x (List.mem_flatMap.mpr ⟨other, List.mem_cons_self .., hx⟩)
      rw [List.cons_append, shrinkStates, hFirst]
      simp only [List.cons_append, List.cons.injEq, true_and]
      refine ih fun x hx => hBefore x ?_
      obtain ⟨some', hSome, hx⟩ := List.mem_flatMap.mp hx
      exact List.mem_flatMap.mpr ⟨some', List.mem_cons_of_mem _ hSome, hx⟩

theorem mem_extents_unused {states : List BucketState} {x : Extent} :
    x ∈ extents (states.map BucketState.unused) ↔
      ∃ e ∈ extents states, x = { e with used := 0 } := by
  simp only [extents, List.mem_flatMap, List.mem_map, BucketState.unused]
  constructor
  · rintro ⟨_, ⟨state, hState, rfl⟩, hx⟩
    obtain ⟨e, he, rfl⟩ := List.mem_map.mp hx
    exact ⟨e, ⟨state, hState, he⟩, rfl⟩
  · rintro ⟨e, ⟨state, hState, he⟩, rfl⟩
    exact ⟨_, ⟨state, hState, rfl⟩, List.mem_map.mpr ⟨e, he, rfl⟩⟩

/-- The replay finds the bucket of a row where the allocator has it. -/
theorem rowBucket_known {p q : BucketPlacement} {bucket i : Nat}
    (hStates : q.states = p.states.map BucketState.unused) (h : p.bucketIndices bucket = some i) :
    q.rowBucket bucket = (q, i) := by
  have hSame : q.bucketIndices bucket = p.bucketIndices bucket := by
    simp only [bucketIndices, hStates, List.findIdx?_map]
    rfl
  rw [rowBucket, hSame, h]

theorem rowBucket_new {p q : BucketPlacement} {bucket : Nat}
    (hStates : q.states = p.states.map BucketState.unused) (h : p.bucketIndices bucket = none) :
    q.rowBucket bucket =
      ({ q with states := (p.states ++ [(⟨bucket, [], []⟩ : BucketState)]).map BucketState.unused },
        p.states.length) := by
  have hSame : q.bucketIndices bucket = p.bucketIndices bucket := by
    simp only [bucketIndices, hStates, List.findIdx?_map]
    rfl
  rw [rowBucket, hSame, h]
  simp [hStates, BucketState.unused]

variable {config : HeapConfig} {need i : Nat} {s t : Placed BucketPlacement} {e : Extent}
  {log : List Record}

theorem TookExtent.used_eq (h : TookExtent config need s t e) : e.used = 0 := by
  cases h with
  | whole _ _ hExtent _ => rw [hExtent]
  | grow _ _ hExtent _ _ => rw [hExtent]
  | cut _ _ _ _ _ _ _ _ hExtent _ => rw [hExtent]

theorem TookExtent.nextRegion (h : TookExtent config need s t e) :
    t.placement.nextRegion = s.placement.nextRegion := by
  cases h with
  | whole _ _ _ hAfter => rw [hAfter]
  | grow _ _ _ _ hAfter => rw [hAfter]
  | cut _ _ _ _ _ _ _ _ _ hAfter =>
      rw [hAfter]
      rfl

/-- Replaying the row of a taken extent cuts it off where the allocator did. -/
theorem TookExtent.shrink (h : TookExtent config need s t e) (hNeed : 0 < need)
    (hGeometry : Geometry s.placement log) :
    shrinkStates e.start e.stop (s.placement.states.map BucketState.unused) =
      t.placement.states.map BucketState.unused := by
  cases h with
  | whole hCount hSize hExtent hAfter =>
      have hNone := hGeometry.fresh hCount
      rw [shrinkStates_none, hAfter]
      intro x hx
      obtain ⟨y, hy, -⟩ := mem_extents_unused.mp hx
      simp [hNone] at hy
  | grow next hNext hExtent hAlloc hAfter =>
      rw [shrinkStates_none, hAfter]
      intro x hx
      obtain ⟨y, hy, rfl⟩ := mem_extents_unused.mp hx
      obtain ⟨bucket, hPlot⟩ := hGeometry.plot_of_mem hy
      have hStop := hPlot.stop
      simp only [hExtent, Extent.stop] at *
      omega
  | cut next i cut victim hNext hVictim hCut hRoom hExtent hAfter =>
      obtain ⟨state, init, hState, hData⟩ := lastExtent?_eq_some.mp hVictim
      obtain ⟨before, after, hStates, rfl⟩ := split_at hState
      have hTail := freeTail_le victim
      have hApart := hGeometry.apart
      rw [hStates] at hApart
      have hPerm : (extents (before ++ state :: after)).Perm
          (victim :: (extents before ++ init ++ extents after)) := by
        simp only [extents, List.flatMap_append, List.flatMap_cons, hData]
        simp only [List.append_assoc, List.singleton_append]
        rw [← List.append_assoc]
        refine List.perm_middle.trans ?_
        simp
      obtain ⟨hAway, -⟩ := List.pairwise_cons.mp (hPerm.pairwise hApart Extent.Apart.symm)
      have hMiss : ∀ x ∈ extents before ++ init ++ extents after,
          ¬ (x.start ≤ e.start ∧ e.stop ≤ x.stop) := by
        intro x hx
        have hAwayX := hAway x hx
        simp only [hExtent, Extent.Apart, Extent.stop] at *
        omega
      have hUnused : state.unused.data =
          (init.map fun e => { e with used := 0 }) ++ [{ victim with used := 0 }] := by
        simp [BucketState.unused, hData]
      rw [hStates, List.map_append, List.map_cons, shrinkStates_at hUnused]
      · rw [hAfter]
        simp only [modifyState, hStates, PagedFile.modify_length_append, List.map_append,
          List.map_cons, BucketState.unused, hData, modifyLast_concat, hExtent, List.map_nil]
        simp
      · intro x hx
        obtain ⟨y, hy, rfl⟩ := mem_extents_unused.mp hx
        exact hMiss y (by simp [hy])
      · intro x hx
        obtain ⟨y, hy, rfl⟩ := List.mem_map.mp hx
        exact hMiss y (by simp [hy])
      · simp only [hExtent, Extent.stop]
        omega

theorem unused_push (states : List BucketState) (i : Nat) (e : Extent) :
    (states.modify i fun state => { state with data := state.data ++ [e] }).map BucketState.unused =
      (states.map BucketState.unused).modify i fun state =>
        { state with data := state.data ++ [⟨e.start, e.size, 0⟩] } := by
  refine map_modify_comm _ _ fun state _ => ?_
  simp [BucketState.unused]

theorem unused_pushRegion (states : List BucketState) (i start size : Nat) :
    (states.modify i fun state =>
        { state with slots := state.slots ++ [⟨start, size, 0⟩] }).map BucketState.unused =
      (states.map BucketState.unused).modify i fun state =>
        { state with slots := state.slots ++ [⟨start, size, 0⟩] } := by
  refine map_modify_comm _ _ fun state _ => ?_
  simp [BucketState.unused]

/-- What is used of the last extent or region is not recorded. -/
theorem unused_modifyLast_used (l : List Extent) (used : Nat) :
    (modifyLast (fun e => { e with used }) l).map (fun e => { e with used := 0 }) =
      l.map fun e => { e with used := 0 } := by
  exact map_modify_same l _ fun _ => rfl

end BucketPlacement

end HeapStore
