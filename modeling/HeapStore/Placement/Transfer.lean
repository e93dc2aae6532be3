import HeapStore.Placement.Allotment
import HeapStore.Storage.Slots

/-! What the bucket allocator decides does not depend on the store: a call that
completes over one store completes in the same way over every other one that
reserves and stages for it. -/
namespace HeapStore

open Effect Placed PagedFile

/-- Appending to an append-only file reads at most the page that it ends in. -/
theorem PagedFile.stage_tail_run {n : FileName} {off : Nat} {parts : List Bytes} {s : Store}
    (hPlan : s.plan = []) (hTail : OpenTail n off s)
    (hRoom : (s.paged n).stagedWrites = [] → pageUp off < 2 ^ 63)
    (hFits : off + parts.flatten.length + PAGE < 2 ^ 64) :
    ∃ t, stage n off parts s = .ok () t := by
  rw [stage, bind_of_ok (getPaged_apply n s), if_neg fun h => absurd hFits (Nat.not_lt.mpr h.2)]
  rcases hTail with hNone | ⟨w, hOne, hEnd⟩
  · have hOpen : (s.paged n).openWrite? off parts.flatten.length = none := by
      simp [openWrite?, hNone]
    have hFull : flushFull n s = .ok () s := by
      rw [flushFull, bind_of_ok (getPaged_apply n s), hNone]
      rfl
    have hOverlap : flushOverlapping n off parts.flatten.length s = .ok () s := by
      rw [flushOverlapping, bind_of_ok (pageUpU64_run hFits s), bind_of_ok (getPaged_apply n s), hNone]
      rfl
    obtain ⟨head, hHead⟩ := captureHead_run (n := n) hPlan (hRoom hNone)
    simp only [hOpen]
    rw [bind_of_ok hFull, bind_of_ok hOverlap, pushWrite, bind_of_ok hHead]
    exact ⟨_, rfl⟩
  · have hOpen : (s.paged n).openWrite? off parts.flatten.length = some 0 := by
      simp [openWrite?, hOne, hEnd]
    simp only [hOpen]
    exact ⟨_, rfl⟩

/-- A store that obliges the allocator as another one did: requests succeed, as
much of the data file is reserved, and rows are appended to the registry. -/
structure Mirrors (registryEnd : Nat) (s t : Store) : Prop where
  plan : t.plan = []
  source : Coherent .registry s
  coherent : Coherent .registry t
  tail : OpenTail .registry registryEnd t
  room : (t.paged .registry).stagedWrites = [] → pageUp registryEnd < 2 ^ 63
  rows : pageUp registryEnd < 2 ^ 63 → InReach .registry t
  allocated : (t.paged .data).allocatedEnd = (s.paged .data).allocatedEnd

namespace Mirrors

variable {s s' t : Store} {registryEnd : Nat}

theorem ensureAlloc {upto chunk : Nat} (h : Mirrors registryEnd s t)
    (hRun : PagedFile.ensureAlloc .data upto chunk s = .ok () s') :
    ∃ t', PagedFile.ensureAlloc .data upto chunk t = .ok () t' ∧ Mirrors registryEnd s' t' := by
  have hSame : ∃ t', PagedFile.ensureAlloc .data upto chunk t = .ok () t' ∧
      (t'.paged .data).allocatedEnd = (s'.paged .data).allocatedEnd := by
    obtain ⟨hUpto, ⟨hEnough, rfl⟩ | ⟨hMore, hFits, hRange, rfl⟩⟩ := ensureAlloc_cases hRun
    · exact ⟨t, ensureAlloc_enough hUpto (h.allocated ▸ hEnough), h.allocated⟩
    · rw [← h.allocated] at hMore hFits hRange
      have hUp := le_pageUp (max upto ((t.paged .data).allocatedEnd + chunk))
      rw [ensureAlloc_more hMore hFits, bind_of_ok (fallocate_run h.plan (by omega))]
      exact ⟨_, rfl, by simp [h.allocated]⟩
  obtain ⟨t', hRun', hEnd⟩ := hSame
  obtain ⟨hSource, -, -⟩ := ensureAlloc_ok hRun
  obtain ⟨hTarget, hRegistry, -⟩ := ensureAlloc_ok hRun'
  refine ⟨t', hRun', hTarget.plan h.plan, hSource.coherent h.source, hTarget.coherent h.coherent,
    ?_, ?_, ?_, hEnd⟩
  · rw [OpenTail, hRegistry]
    exact h.tail
  · rw [hRegistry]
    exact h.room
  · rw [InReach, hRegistry]
    exact h.rows

/-- Another row can be staged behind the last one. -/
theorem stage {row : RegistryRow} (h : Mirrors registryEnd s t)
    (hRun : PagedFile.stage .registry registryEnd [row.encode] s = .ok () s') :
    ∃ t', PagedFile.stage .registry registryEnd [row.encode] t = .ok () t' ∧
      Mirrors (registryEnd + REGISTRY_ROW_SIZE) s' t' := by
  have hLength : [row.encode].flatten.length = REGISTRY_ROW_SIZE := by simp
  have hSome : 0 < [row.encode].flatten.length := by
    rw [hLength]
    decide
  obtain ⟨t', hRun'⟩ : ∃ t', PagedFile.stage .registry registryEnd [row.encode] t = .ok () t' :=
    stage_tail_run h.plan h.tail h.room (stage_fits hRun)
  have hSource := stage_staged h.source hSome hRun
  have hTarget := stage_staged h.coherent hSome hRun'
  obtain ⟨hTook, hTail⟩ := stage_append h.coherent h.tail hSome hRun'
  rw [hLength] at hTail
  refine ⟨t', hRun', hTarget.frame.plan h.plan, hSource.coherent, hTarget.coherent, hTail,
    fun hNone => absurd hNone hTook.staged, fun hRange => ?_, ?_⟩
  · refine hTarget.reach (h.rows ?_) (by rw [hLength]; exact hRange)
    exact (pageUp_mono (Nat.le_add_right _ _)).trans_lt hRange
  · rw [hTarget.frame.paged .data (by decide), hSource.frame.paged .data (by decide)]
    exact h.allocated

end Mirrors

namespace BucketPlacement

variable {α β : Type}

/-- A completed run of the allocator over one store is repeated over every store
that mirrors it. -/
structure Transfers (x : PlaceM BucketPlacement α) : Prop where
  repeats : ∀ {p q : BucketPlacement} {s s' t : Store} {a : α}, x ⟨p, s⟩ = .ok a ⟨q, s'⟩ →
    Mirrors p.registryEnd s t → ∃ t', x ⟨p, t⟩ = .ok a ⟨q, t'⟩ ∧ Mirrors q.registryEnd s' t'

theorem Transfers.pure (a : α) : Transfers (pure a) where
  repeats hRun := by
    cases hRun
    exact fun h => ⟨_, rfl, h⟩

theorem Transfers.throw (e : Failure) : Transfers (throw e : PlaceM BucketPlacement α) := ⟨nofun⟩

theorem Transfers.bind {x : PlaceM BucketPlacement α} {f : α → PlaceM BucketPlacement β}
    (hx : Transfers x) (hf : ∀ a, Transfers (f a)) : Transfers (x >>= f) where
  repeats hRun h := by
    obtain ⟨a, ⟨mid, u⟩, hFirst, hRest⟩ := bind_eq_ok.mp hRun
    obtain ⟨t', hFirst', h'⟩ := hx.repeats hFirst h
    obtain ⟨t'', hRest', h''⟩ := (hf a).repeats hRest h'
    exact ⟨t'', (bind_of_ok hFirst').trans hRest', h''⟩

theorem transfers_getPlacement : Transfers getPlacement where
  repeats hRun h := by
    cases hRun
    exact ⟨_, rfl, h⟩

theorem transfers_modifyPlacement {f : BucketPlacement → BucketPlacement}
    (hSame : ∀ p, (f p).registryEnd = p.registryEnd) : Transfers (modifyPlacement f) where
  repeats {p q s s' t a} hRun h := by
    cases hRun
    refine ⟨t, rfl, ?_⟩
    rw [hSame]
    exact h

theorem transfers_subU64 (a b : Nat) : Transfers (subU64 a b : PlaceM BucketPlacement Nat) := by
  unfold subU64
  split
  · exact .throw _
  · exact .pure _

theorem transfers_addU64 (a b : Nat) : Transfers (addU64 a b : PlaceM BucketPlacement Nat) := by
  unfold addU64
  split
  · exact .throw _
  · exact .pure _

theorem transfers_checkedExtentSize (config : HeapConfig) (totalLen : Nat) :
    Transfers (checkedExtentSize config totalLen : PlaceM BucketPlacement Nat) := by
  unfold checkedExtentSize pageUpU64
  refine Transfers.bind ?_ fun _ => .pure _
  split
  · exact .throw _
  · exact .pure _

theorem transfers_ensureAlloc (upto chunk : Nat) :
    Transfers (onStore (ensureAlloc .data upto chunk) : PlaceM BucketPlacement Unit) where
  repeats hRun h := by
    obtain ⟨u, hAlloc, hAfter⟩ := onStore_eq_ok.mp hRun
    cases hAfter
    obtain ⟨t', hRun', h'⟩ := h.ensureAlloc hAlloc
    exact ⟨t', onStore_eq_ok.mpr ⟨t', hRun', rfl⟩, h'⟩

theorem transfers_pushRow (row : RegistryRow) : Transfers (pushRow row) where
  repeats hRun h := by
    obtain ⟨u, hStage, hAfter⟩ := pushRow_ok hRun
    cases hAfter
    obtain ⟨t', hStage', h'⟩ := h.stage hStage
    refine ⟨t', ?_, h'⟩
    rw [pushRow, bind_of_ok (getPlacement_apply _), bind_of_ok (onStore_eq_ok.mpr ⟨t', hStage', rfl⟩)]
    rfl

theorem transfers_cutVictim (i need : Nat) : Transfers (cutVictim i need) := by
  refine transfers_getPlacement.bind fun p => ?_
  cases lastExtent? p.states i with
  | none => exact .throw _
  | some victim =>
      exact (transfers_subU64 _ _).bind fun size =>
        Transfers.bind (transfers_modifyPlacement fun _ => rfl) fun _ => .pure _

theorem transfers_growFile (config : HeapConfig) (need : Nat) : Transfers (growFile config need) :=
  transfers_getPlacement.bind fun _ => (transfers_ensureAlloc _ _).bind fun _ =>
    Transfers.bind (transfers_modifyPlacement fun _ => rfl) fun _ => .pure _

theorem transfers_takeExtent (config : HeapConfig) (need : Nat) : Transfers (takeExtent config need) := by
  refine transfers_getPlacement.bind fun p => ?_
  cases searchVictim p.states need (searchFuel p.states) p.extentGrantCount with
  | none => exact .throw _
  | some found =>
      obtain ⟨grant, next⟩ := found
      refine Transfers.bind (transfers_modifyPlacement fun _ => rfl) fun _ => ?_
      cases grant with
      | whole => exact (transfers_subU64 _ _).bind fun _ => .pure _
      | grow => exact transfers_growFile config need
      | cut i => exact transfers_cutVictim i need
      | missing => exact .throw _

theorem transfers_grantExtent (config : HeapConfig) (i need : Nat) :
    Transfers (grantExtent config i need) :=
  (transfers_takeExtent config need).bind fun _ => transfers_getPlacement.bind fun _ =>
    (transfers_pushRow _).bind fun _ => transfers_modifyPlacement fun _ => rfl

theorem transfers_grantRegion (config : HeapConfig) (i : Nat) : Transfers (grantRegion config i) :=
  transfers_getPlacement.bind fun _ => (transfers_addU64 _ _).bind fun _ =>
    Transfers.bind (transfers_modifyPlacement fun _ => rfl) fun _ =>
      (transfers_pushRow _).bind fun _ => transfers_modifyPlacement fun _ => rfl

theorem transfers_bucketIndex (config : HeapConfig) (bucket need : Nat) :
    Transfers (bucketIndex config bucket need) := by
  refine transfers_getPlacement.bind fun p => ?_
  cases p.bucketIndices bucket with
  | some i => exact .pure i
  | none =>
      exact Transfers.bind (transfers_modifyPlacement fun _ => rfl) fun _ =>
        (transfers_grantExtent _ _ _).bind fun _ => (transfers_grantRegion _ _).bind fun _ => .pure _

theorem transfers_placeBytes (config : HeapConfig) (i totalLen : Nat) :
    Transfers (placeBytes config i totalLen) := by
  refine transfers_getPlacement.bind fun p => ?_
  cases lastExtent? p.states i with
  | none => exact .throw _
  | some extent =>
      refine (transfers_addU64 _ _).bind fun stop => ?_
      split
      · exact Transfers.bind (transfers_modifyPlacement fun _ => rfl) fun _ => .pure _
      · refine (transfers_checkedExtentSize _ _).bind fun _ => (transfers_grantExtent _ _ _).bind
          fun _ => transfers_getPlacement.bind fun p => ?_
        cases lastExtent? p.states i with
        | none => exact .throw _
        | some extent => exact Transfers.bind (transfers_modifyPlacement fun _ => rfl) fun _ => .pure _

theorem transfers_nextNumber (config : HeapConfig) (i : Nat) : Transfers (nextNumber config i) := by
  refine transfers_getPlacement.bind fun p => ?_
  cases (p.states[i]?).bind fun state => state.slots.getLast? with
  | none => exact .throw _
  | some region =>
      simp only
      split
      · exact Transfers.bind (transfers_modifyPlacement fun _ => rfl) fun _ => .pure _
      · refine (transfers_grantRegion _ _).bind fun _ => transfers_getPlacement.bind fun p => ?_
        cases (p.states[i]?).bind fun state => state.slots.getLast? with
        | none => exact .throw _
        | some region => exact Transfers.bind (transfers_modifyPlacement fun _ => rfl) fun _ => .pure _

/-- An allocation for a new record does not depend on the store. -/
theorem transfers_alloc (config : HeapConfig) (bucket totalLen : Nat) :
    Transfers (alloc config bucket totalLen) :=
  (transfers_checkedExtentSize _ _).bind fun _ => (transfers_bucketIndex _ _ _).bind fun _ =>
    (transfers_placeBytes _ _ _).bind fun _ => (transfers_nextNumber _ _).bind fun _ => .pure _

/-- An allocation for an update does not depend on the store. -/
theorem transfers_allocUpdate (config : HeapConfig) (bucket totalLen : Nat) :
    Transfers (allocUpdate config bucket totalLen) := by
  refine transfers_getPlacement.bind fun p => ?_
  cases p.bucketIndices bucket with
  | none => exact .throw _
  | some i => exact transfers_placeBytes config i totalLen

end BucketPlacement

end HeapStore
