import HeapStore.Placement.NoPanic
import HeapStore.Recovery.Records

/-! The geometry of a bucket store: extents share no byte, each holds the
records of its bucket back to back, and every record lies in an extent. -/
namespace HeapStore

namespace Extent

/-- Two extents share no byte. -/
def Apart (a b : Extent) : Prop := a.stop ≤ b.start ∨ b.stop ≤ a.start

theorem Apart.symm {a b : Extent} (h : Apart a b) : Apart b a := Or.symm h

/-- An address lies in the extent. -/
def Covers (e : Extent) (off : Nat) : Prop := e.start ≤ off ∧ off < e.stop

instance (e : Extent) (off : Nat) : Decidable (e.Covers off) :=
  inferInstanceAs (Decidable (_ ∧ _))

end Extent

/-- The records that start in an extent, in the order in which they were written. -/
def within (e : Extent) (log : List Record) : List Record :=
  log.filter fun r => decide (e.Covers r.off)

theorem mem_within {e : Extent} {log : List Record} {r : Record} :
    r ∈ within e log ↔ r ∈ log ∧ e.Covers r.off := by
  simp [within]

theorem within_append (e : Extent) (a b : List Record) :
    within e (a ++ b) = within e a ++ within e b := List.filter_append ..

/-- Addresses that no record starts at make no difference. -/
theorem within_congr {a b : Extent} {log : List Record}
    (h : ∀ r ∈ log, a.Covers r.off ↔ b.Covers r.off) : within a log = within b log := by
  unfold within
  exact List.filter_congr fun r hr => by simp [h r hr]

theorem within_eq_nil {e : Extent} {log : List Record} (h : ∀ r ∈ log, ¬ e.Covers r.off) :
    within e log = [] := by
  rw [within, List.filter_eq_nil_iff]
  simpa using h

open WalkRange

/-- An extent of a bucket: its records lie back to back from its start and do
not reach past its used bytes. -/
structure Plot (log : List Record) (fileSize bucket : Nat) (e : Extent) : Prop where
  base : PAGE ≤ e.start
  stop : e.stop ≤ fileSize
  used : e.used ≤ e.size
  chain : ∃ fill, fill ≤ e.start + e.used ∧ Chain true e.start fill (within e log)
  owner : ∀ r ∈ within e log, r.header.bucket = bucket

/-- A record of an extent lies below its used bytes. -/
theorem Plot.off_lt {log : List Record} {fileSize bucket : Nat} {e : Extent} {r : Record}
    (h : Plot log fileSize bucket e) (hr : r ∈ within e log) :
    r.off < e.start + e.used ∧ r.stop true ≤ e.start + e.used := by
  obtain ⟨fill, hFill, hChain⟩ := h.chain
  have hBounds := hChain.bounds hr
  have hLt := r.off_lt_stop true
  omega

theorem Plot.mono {log : List Record} {fileSize fileSize' bucket : Nat} {e : Extent}
    (h : Plot log fileSize bucket e) (hSize : fileSize ≤ fileSize') : Plot log fileSize' bucket e :=
  ⟨h.base, h.stop.trans hSize, h.used, h.chain, h.owner⟩

/-- The extents of all buckets. -/
def extents (states : List BucketState) : List Extent := states.flatMap fun state => state.data

namespace BucketPlacement

/-- The used bytes of a bucket's last extent are exactly its records. -/
def LastFull (log : List Record) (state : BucketState) : Prop :=
  ∀ e, state.data.getLast? = some e → Chain true e.start (e.start + e.used) (within e log)

/-- The invariant of the extents over the records that were written. -/
structure Geometry (p : BucketPlacement) (log : List Record) : Prop where
  apart : (extents p.states).Pairwise Extent.Apart
  plots : Each (fun _ state => ∀ e ∈ state.data, Plot log p.fileSize state.id e) p
  lasts : Each (fun _ state => LastFull log state) p
  home : ∀ r ∈ log, ∃ e ∈ extents p.states, e.Covers r.off
  fresh : p.extentGrantCount = 0 → extents p.states = []

/-- An extent that no bucket owns yet. -/
structure Unowned (p : BucketPlacement) (log : List Record) (e : Extent) : Prop where
  apart : ∀ other ∈ extents p.states, Extent.Apart e other
  base : PAGE ≤ e.start
  stop : e.stop ≤ p.fileSize
  used : e.used = 0
  vacant : within e log = []

theorem mem_extents {p : BucketPlacement} {e : Extent} :
    e ∈ extents p.states ↔
      ∃ (j : Nat) (state : BucketState), p.states[j]? = some state ∧ e ∈ state.data := by
  simp only [extents, List.mem_flatMap]
  constructor
  · rintro ⟨state, hMem, he⟩
    obtain ⟨j, hj⟩ := List.mem_iff_getElem?.mp hMem
    exact ⟨j, state, hj, he⟩
  · rintro ⟨j, state, hj, he⟩
    exact ⟨state, List.mem_of_getElem? hj, he⟩

theorem split_at {α : Type} {l : List α} {i : Nat} {a : α} (h : l[i]? = some a) :
    ∃ before after, l = before ++ a :: after ∧ before.length = i := by
  obtain ⟨hLt, rfl⟩ := List.getElem?_eq_some_iff.mp h
  refine ⟨l.take i, l.drop (i + 1), by simp, by simp; omega⟩

/-- The extents of the other buckets do not depend on one bucket's. -/
theorem extents_modify {states : List BucketState} {i : Nat} {state : BucketState}
    (h : states[i]? = some state) :
    ∃ others, (extents states).Perm (state.data ++ others) ∧
      (∀ g, (extents (states.modify i g)).Perm ((g state).data ++ others)) ∧
      ∀ (j : Nat) (other : BucketState), j ≠ i → states[j]? = some other →
        ∀ e ∈ other.data, e ∈ others := by
  obtain ⟨before, after, rfl, rfl⟩ := split_at h
  refine ⟨extents before ++ extents after, ?_, fun g => ?_, fun j other hj hOther e he => ?_⟩
  · simp only [extents, List.flatMap_append, List.flatMap_cons]
    exact List.perm_append_comm_assoc ..
  · rw [PagedFile.modify_length_append]
    simp only [extents, List.flatMap_append, List.flatMap_cons]
    exact List.perm_append_comm_assoc ..
  · have hMem : other ∈ before ∨ other ∈ after := by
      rcases Nat.lt_or_gt_of_ne hj with hLt | hGt
      · rw [List.getElem?_append_left hLt] at hOther
        exact Or.inl (List.mem_of_getElem? hOther)
      · rw [List.getElem?_append_right (by omega)] at hOther
        obtain ⟨k, hk⟩ : ∃ k, j - before.length = k + 1 := ⟨j - before.length - 1, by omega⟩
        rw [hk, List.getElem?_cons_succ] at hOther
        exact Or.inr (List.mem_of_getElem? hOther)
    rw [List.mem_append]
    exact hMem.imp (fun hMem => List.mem_flatMap.mpr ⟨other, hMem, he⟩)
      fun hMem => List.mem_flatMap.mpr ⟨other, hMem, he⟩

namespace Geometry

variable {config : HeapConfig} {need i : Nat} {s t : Placed BucketPlacement} {e : Extent}
  {p : BucketPlacement} {log : List Record} {r : Record}

/-- An address that records start at lies in one extent only. -/
theorem eq_of_covers (h : Geometry p log) {a b : Extent} (ha : a ∈ extents p.states)
    (hb : b ∈ extents p.states) {off : Nat} (hA : a.Covers off) (hB : b.Covers off) : a = b := by
  have hSymm : Std.Symm Extent.Apart := ⟨fun _ _ hApart => hApart.symm⟩
  by_contra hNe
  have hApart := h.apart.forall ha hb hNe
  simp only [Extent.Apart, Extent.Covers] at *
  omega

theorem plot_of_mem (h : Geometry p log) (he : e ∈ extents p.states) :
    ∃ bucket, Plot log p.fileSize bucket e := by
  obtain ⟨j, state, hState, he⟩ := mem_extents.mp he
  exact ⟨state.id, h.plots j state hState e he⟩

/-- Cutting the free tail off a plot keeps its records. -/
theorem plot_shrink {fileSize bucket size : Nat} {victim : Extent}
    (h : Plot log fileSize bucket victim) (hUsed : victim.used ≤ size) (hSize : size ≤ victim.size) :
    within { victim with size } log = within victim log ∧
      Plot log fileSize bucket { victim with size } := by
  have hSame : within { victim with size } log = within victim log := by
    apply within_congr
    intro r hr
    constructor
    · intro hIn
      simp only [Extent.Covers, Extent.stop] at *
      omega
    · intro hIn
      have hLt := (h.off_lt (mem_within.mpr ⟨hr, hIn⟩)).1
      simp only [Extent.Covers, Extent.stop] at *
      omega
  refine ⟨hSame, ⟨h.base, ?_, hUsed, ?_, ?_⟩⟩
  · have hStop := h.stop
    simp only [Extent.stop] at *
    omega
  · rw [hSame]
    exact h.chain
  · rw [hSame]
    exact h.owner

theorem congr {q : BucketPlacement} (h : Geometry p log) (hStates : q.states = p.states)
    (hSize : p.fileSize ≤ q.fileSize) (hCount : q.extentGrantCount = 0 → p.extentGrantCount = 0) :
    Geometry q log where
  apart := hStates ▸ h.apart
  plots := Each.congr (fun j state hState e he => (h.plots j state hState e he).mono hSize) hStates
  lasts := h.lasts.congr hStates
  home := hStates ▸ h.home
  fresh hZero := hStates ▸ h.fresh (hCount hZero)

/-- A vacant range at the file end is owned by no bucket. -/
theorem unowned_end {q : BucketPlacement} (h : Geometry p log) (hStates : q.states = p.states)
    (he : p.fileSize ≤ e.start) (hBase : PAGE ≤ e.start) (hStop : e.stop ≤ q.fileSize)
    (hUsed : e.used = 0) : Unowned q log e where
  apart other hOther := by
    rw [hStates] at hOther
    obtain ⟨bucket, hPlot⟩ := h.plot_of_mem hOther
    exact Or.inr (hPlot.stop.trans he)
  base := hBase
  stop := hStop
  used := hUsed
  vacant := within_eq_nil fun r hr hCovers => by
    obtain ⟨other, hOther, hIn⟩ := h.home r hr
    obtain ⟨bucket, hPlot⟩ := h.plot_of_mem hOther
    have hStop := hPlot.stop
    simp only [Extent.Covers] at *
    omega

/-- A property of all buckets after a change of the one at a position. -/
theorem each_modify {Q R : Nat → BucketState → Prop} {q : BucketPlacement} {state : BucketState}
    {g : BucketState → BucketState} (hQ : Each Q p) (hState : p.states[i]? = some state)
    (hStates : q.states = p.states.modify i g)
    (hKeep : ∀ j other, j ≠ i → p.states[j]? = some other → Q j other → R j other)
    (hNew : R i (g state)) : Each R q := by
  intro j other hOther
  rw [hStates, List.getElem?_modify] at hOther
  obtain ⟨old, hOld, rfl⟩ := Option.map_eq_some_iff.mp hOther
  by_cases hIndex : i = j
  · subst hIndex
    obtain rfl : state = old := Option.some.inj (hState.symm.trans hOld)
    simpa using hNew
  · simpa [hIndex] using hKeep j old (Ne.symm hIndex) hOld (hQ j old hOld)

/-- A change of one bucket's extents that keeps its records in them. -/
theorem modify {q : BucketPlacement} {state : BucketState} {g : BucketState → BucketState}
    (h : Geometry p log) (hState : p.states[i]? = some state)
    (hStates : q.states = p.states.modify i g) (hSize : p.fileSize ≤ q.fileSize)
    (hCount : 0 < q.extentGrantCount) (hApart : (extents q.states).Pairwise Extent.Apart)
    (hPlots : ∀ e ∈ (g state).data, Plot log q.fileSize (g state).id e)
    (hLast : LastFull log (g state))
    (hHome : ∀ e ∈ state.data, ∀ r ∈ log, e.Covers r.off →
      ∃ e' ∈ (g state).data, e'.Covers r.off) : Geometry q log where
  apart := hApart
  plots := each_modify h.plots hState hStates
    (fun _ _ _ _ hPlot e he => (hPlot e he).mono hSize) hPlots
  lasts := each_modify h.lasts hState hStates (fun _ _ _ _ hOther => hOther) hLast
  home r hr := by
    obtain ⟨others, hOld, hNew, -⟩ := extents_modify hState
    obtain ⟨e, he, hCovers⟩ := h.home r hr
    rw [hStates]
    rcases List.mem_append.mp (hOld.mem_iff.mp he) with hMine | hOther
    · obtain ⟨e', he', hCovers'⟩ := hHome e hMine r hr hCovers
      exact ⟨e', (hNew g).mem_iff.mpr (List.mem_append_left _ he'), hCovers'⟩
    · exact ⟨e, (hNew g).mem_iff.mpr (List.mem_append_right _ hOther), hCovers⟩
  fresh hZero := absurd hZero (Nat.ne_of_gt hCount)

/-- Taking an extent keeps the geometry, and the extent is nobody's. -/
theorem takeExtent (h : Geometry s.placement log) (hBase : PAGE ≤ s.placement.fileSize)
    (hTook : TookExtent config need s t e) : Geometry t.placement log ∧ Unowned t.placement log e := by
  cases hTook with
  | whole hCount hSize hExtent hAfter =>
      subst hExtent hAfter
      have hNone := h.fresh hCount
      refine ⟨h.congr rfl (Nat.le_refl _) (by simp), ⟨?_, Nat.le_refl _, ?_, rfl, ?_⟩⟩
      · simp [hNone]
      · simp only [Extent.stop]
        omega
      · refine within_eq_nil fun r hr hCovers => ?_
        obtain ⟨other, hOther, -⟩ := h.home r hr
        simp [hNone] at hOther
  | grow next hNext hExtent hAlloc hAfter =>
      subst hExtent
      have hStates : t.placement.states = s.placement.states := by rw [hAfter]
      have hSize : t.placement.fileSize = s.placement.fileSize + max need config.growth := by
        rw [hAfter]
      refine ⟨h.congr hStates (by omega) fun hZero => ?_,
        h.unowned_end hStates (Nat.le_refl _) hBase (by rw [hSize]; rfl) rfl⟩
      rw [hAfter] at hZero
      simp only at hZero
      omega
  | cut next i cut victim hNext hVictim hCut hRoom hExtent hAfter =>
      subst hAfter hExtent
      obtain ⟨state, init, hState, hData⟩ := lastExtent?_eq_some.mp hVictim
      have hMem : victim ∈ state.data := by simp [hData]
      have hPlot := h.plots i state hState victim hMem
      have hUp := le_pageUp victim.used
      have hUsed : victim.used ≤ victim.size - cut := by
        have := hPlot.used
        simp only [Extent.freeTail] at hRoom
        omega
      have hCut : cut ≤ victim.size := by
        simp only [Extent.freeTail] at hRoom
        omega
      obtain ⟨hSame, hShrunk⟩ := plot_shrink hPlot hUsed (Nat.sub_le victim.size cut)
      obtain ⟨others, hOld, hNew, -⟩ := extents_modify hState
      have hPerm : (extents s.placement.states).Perm (victim :: (init ++ others)) := by
        refine hOld.trans ?_
        rw [hData, List.append_assoc]
        exact List.perm_middle
      have hPerm' : (extents (s.placement.states.modify i fun state => { state with
          data := modifyLast (fun e => { e with size := victim.size - cut }) state.data })).Perm
          ({ victim with size := victim.size - cut } :: (init ++ others)) := by
        refine (hNew _).trans ?_
        simp only [hData, modifyLast_concat, List.append_assoc]
        exact List.perm_middle
      have hApart := hPerm.pairwise h.apart Extent.Apart.symm
      obtain ⟨hVictimApart, hOthers⟩ := List.pairwise_cons.mp hApart
      have hKept : ∀ e ∈ init ++ [{ victim with size := victim.size - cut }],
          Plot log s.placement.fileSize state.id e := by
        intro e he
        rcases List.mem_append.mp he with he | he
        · exact h.plots i state hState e (by simp [hData, he])
        · rw [List.mem_singleton] at he
          subst he
          exact hShrunk
      refine ⟨h.modify hState rfl (Nat.le_refl _) (show 0 < next by omega) ?_ ?_ ?_ ?_, ⟨?_, ?_, ?_, rfl, ?_⟩⟩
      · refine hPerm'.symm.pairwise (List.pairwise_cons.mpr ⟨fun other hOther => ?_, hOthers⟩)
          Extent.Apart.symm
        have hAway := hVictimApart other hOther
        simp only [Extent.Apart, Extent.stop] at *
        omega
      · simp only [hData, modifyLast_concat]
        exact hKept
      · intro last hLast
        simp only [hData, modifyLast_concat, List.getLast?_concat, Option.some.injEq] at hLast
        subst hLast
        rw [hSame]
        exact h.lasts i state hState victim (by simp [hData])
      · intro old hOld r hr hCovers
        simp only [hData, modifyLast_concat]
        rw [hData] at hOld
        rcases List.mem_append.mp hOld with hOld | hOld
        · exact ⟨old, List.mem_append_left _ hOld, hCovers⟩
        · rw [List.mem_singleton] at hOld
          subst hOld
          refine ⟨_, List.mem_append_right _ (List.mem_singleton_self _), ?_⟩
          have hLt := (hPlot.off_lt (mem_within.mpr ⟨hr, hCovers⟩)).1
          simp only [Extent.Covers, Extent.stop] at *
          omega
      · intro other hOther
        rcases List.mem_cons.mp (hPerm'.mem_iff.mp hOther) with rfl | hOther
        · simp only [Extent.Apart, Extent.stop]
          omega
        · have hAway := hVictimApart other hOther
          simp only [Extent.Apart, Extent.stop] at *
          omega
      · have := hPlot.base
        simp only
        omega
      · have := hPlot.stop
        simp only [Extent.stop, modifyState] at *
        omega
      · refine within_eq_nil fun r hr hCovers => ?_
        have hIn : victim.Covers r.off := by
          simp only [Extent.Covers, Extent.stop] at *
          omega
        have hLt := (hPlot.off_lt (mem_within.mpr ⟨hr, hIn⟩)).1
        simp only [Extent.Covers, Extent.stop] at *
        omega

/-- A bucket that owns nothing yet. -/
theorem withNew (h : Geometry s.placement log) (bucket : Nat) :
    Geometry (withNew s bucket).placement log := by
  have hSame : extents (BucketPlacement.withNew s bucket).placement.states =
      extents s.placement.states := by
    simp [extents, BucketPlacement.withNew]
  have hEach : ∀ {Q : BucketState → Prop}, Each (fun _ state => Q state) s.placement →
      Q ⟨bucket, [], []⟩ → Each (fun _ state => Q state) (BucketPlacement.withNew s bucket).placement := by
    intro Q hQ hNew j state hState
    rcases List.mem_append.mp (List.mem_of_getElem? hState) with hOld | hOld
    · obtain ⟨k, hk⟩ := List.mem_iff_getElem?.mp hOld
      exact hQ k state hk
    · rw [List.mem_singleton] at hOld
      exact hOld ▸ hNew
  exact ⟨hSame ▸ h.apart, hEach h.plots (by simp), hEach h.lasts (fun e he => by simp at he),
    hSame ▸ h.home, fun hZero => hSame ▸ h.fresh hZero⟩

/-- Giving an unowned extent to a bucket. -/
theorem push {state : BucketState} (h : Geometry p log) (hState : p.states[i]? = some state)
    (hUnowned : Unowned p log e) (hCount : 0 < p.extentGrantCount) :
    Geometry (p.modifyState i fun state => { state with data := state.data ++ [e] }) log := by
  obtain ⟨others, hOld, hNew, -⟩ := extents_modify hState
  have hPerm : (extents (p.modifyState i fun state => { state with data := state.data ++ [e] }).states).Perm
      (e :: extents p.states) := by
    refine (hNew _).trans ?_
    rw [List.append_assoc]
    exact List.perm_middle.trans ((hOld.symm).cons e)
  have hEmpty : Chain true e.start (e.start + e.used) (within e log) := by
    rw [hUnowned.vacant, hUnowned.used]
    exact .nil _
  refine h.modify hState rfl (Nat.le_refl _) hCount ?_ ?_ ?_ ?_
  · exact hPerm.symm.pairwise (List.pairwise_cons.mpr ⟨hUnowned.apart, h.apart⟩) Extent.Apart.symm
  · intro other hOther
    rcases List.mem_append.mp hOther with hOther | hOther
    · exact h.plots i state hState other hOther
    · rw [List.mem_singleton] at hOther
      subst hOther
      exact ⟨hUnowned.base, hUnowned.stop, by rw [hUnowned.used]; exact Nat.zero_le _,
        ⟨_, Nat.le_refl _, hEmpty⟩, by simp [hUnowned.vacant]⟩
  · intro last hLast
    rw [List.getLast?_concat, Option.some.injEq] at hLast
    subst hLast
    exact hEmpty
  · exact fun old hMem r _ hCovers => ⟨old, List.mem_append_left _ hMem, hCovers⟩

/-- A new record right behind the used bytes of a bucket's last extent. -/
theorem use {state : BucketState} {init : List Extent} {used : Nat} (h : Geometry p log)
    (hState : p.states[i]? = some state) (hData : state.data = init ++ [e])
    (hOff : r.off = e.start + e.used) (hBucket : r.header.bucket = state.id)
    (hUsed : used = e.used + r.totalLen true) (hFits : used ≤ e.size) :
    Geometry (p.modifyState i fun state => { state with
      data := modifyLast (fun e => { e with used }) state.data }) (log ++ [r]) := by
  have hLt := r.off_lt_stop true
  have hStop : r.stop true = e.start + used := by
    rw [Record.stop, hOff]
    omega
  have hCovers : e.Covers r.off := by
    simp only [Extent.Covers, Extent.stop]
    omega
  obtain ⟨others, hOld, hNew, hOthers⟩ := extents_modify hState
  have hPerm : (extents p.states).Perm (e :: (init ++ others)) := by
    refine hOld.trans ?_
    rw [hData, List.append_assoc]
    exact List.perm_middle
  have hPerm' : (extents (p.modifyState i fun state => { state with
      data := modifyLast (fun e => { e with used }) state.data }).states).Perm
      ({ e with used } :: (init ++ others)) := by
    refine (hNew _).trans ?_
    simp only [hData, modifyLast_concat, List.append_assoc]
    exact List.perm_middle
  obtain ⟨hApart, hRest⟩ := List.pairwise_cons.mp (hPerm.pairwise h.apart Extent.Apart.symm)
  -- the record starts in no other extent
  have hSame : ∀ a ∈ init ++ others, within a (log ++ [r]) = within a log := by
    intro a ha
    have hNone : within a [r] = [] := within_eq_nil fun r' hr' hIn => by
      rw [List.mem_singleton] at hr'
      subst hr'
      have hAway := hApart a ha
      simp only [Extent.Apart, Extent.Covers] at *
      omega
    rw [within_append, hNone, List.append_nil]
  have hKeep : ∀ {fileSize bucket : Nat}, ∀ a ∈ init ++ others, Plot log fileSize bucket a →
      Plot (log ++ [r]) fileSize bucket a := by
    intro fileSize bucket a ha hPlot
    have hEq := hSame a ha
    exact ⟨hPlot.base, hPlot.stop, hPlot.used, hEq ▸ hPlot.chain, hEq ▸ hPlot.owner⟩
  have hMine : within { e with used } (log ++ [r]) = within e log ++ [r] := by
    change within e (log ++ [r]) = _
    rw [within_append]
    simp [within, hCovers]
  have hPlot := h.plots i state hState e (by simp [hData])
  have hChain : Chain true e.start (e.start + used) (within e log ++ [r]) :=
    hStop ▸ (h.lasts i state hState e (by simp [hData])).concat hOff
  have hInit : ∀ a ∈ init, a ∈ init ++ others := fun a ha => List.mem_append_left _ ha
  refine ⟨?_, ?_, ?_, ?_, ?_⟩
  · exact hPerm'.symm.pairwise (List.pairwise_cons.mpr ⟨hApart, hRest⟩) Extent.Apart.symm
  · refine each_modify h.plots hState rfl ?_ ?_
    · intro j other hj hOther hPlots a ha
      exact hKeep a (List.mem_append_right _ (hOthers j other hj hOther a ha)) (hPlots a ha)
    · intro a ha
      simp only [hData, modifyLast_concat] at ha
      rcases List.mem_append.mp ha with ha | ha
      · exact hKeep a (hInit a ha) (h.plots i state hState a (by simp [hData, ha]))
      · rw [List.mem_singleton] at ha
        subst ha
        refine ⟨hPlot.base, hPlot.stop, hFits, ⟨_, Nat.le_refl _, ?_⟩, ?_⟩
        · rw [hMine]
          exact hChain
        · rw [hMine]
          intro r' hr'
          rcases List.mem_append.mp hr' with hr' | hr'
          · exact hPlot.owner r' hr'
          · rw [List.mem_singleton] at hr'
            rw [hr', hBucket]
  · refine each_modify h.lasts hState rfl ?_ ?_
    · intro j other hj hOther hLast a ha
      rw [hSame a (List.mem_append_right _
        (hOthers j other hj hOther a (List.mem_of_getLast? ha)))]
      exact hLast a ha
    · intro a ha
      simp only [hData, modifyLast_concat, List.getLast?_concat, Option.some.injEq] at ha
      subst ha
      rw [hMine]
      exact hChain
  · intro r' hr'
    rcases List.mem_append.mp hr' with hr' | hr'
    · obtain ⟨a, ha, hIn⟩ := h.home r' hr'
      rcases List.mem_cons.mp (hPerm.mem_iff.mp ha) with rfl | ha
      · exact ⟨_, hPerm'.mem_iff.mpr (List.mem_cons_self ..), hIn⟩
      · exact ⟨a, hPerm'.mem_iff.mpr (List.mem_cons_of_mem _ ha), hIn⟩
    · rw [List.mem_singleton] at hr'
      subst hr'
      exact ⟨_, hPerm'.mem_iff.mpr (List.mem_cons_self ..), hCovers⟩
  · intro hZero
    have hNone := h.fresh hZero
    have hMem := hPerm.mem_iff.mpr (List.mem_cons_self ..)
    simp [hNone] at hMem

/-- Every record lies behind the header page and inside the file. -/
theorem bounds (h : Geometry p log) (hr : r ∈ log) : PAGE ≤ r.off ∧ r.stop true ≤ p.fileSize := by
  obtain ⟨e, he, hCovers⟩ := h.home r hr
  obtain ⟨bucket, hPlot⟩ := h.plot_of_mem he
  have hStop := (hPlot.off_lt (mem_within.mpr ⟨hr, hCovers⟩)).2
  have hUsed := hPlot.used
  have hBase := hPlot.base
  have hEnd := hPlot.stop
  simp only [Extent.Covers, Extent.stop] at *
  omega

/-- The last record shares no byte with an earlier one. -/
theorem apart_last (h : Geometry p (log ++ [r])) {old : Record} (hOld : old ∈ log) :
    Record.Apart true old r := by
  have hMem : old ∈ log ++ [r] := List.mem_append_left _ hOld
  have hLast : r ∈ log ++ [r] := List.mem_append_right _ (List.mem_singleton_self r)
  obtain ⟨a, ha, hA⟩ := h.home old hMem
  obtain ⟨b, hb, hB⟩ := h.home r hLast
  obtain ⟨_, hPlotA⟩ := h.plot_of_mem ha
  obtain ⟨_, hPlotB⟩ := h.plot_of_mem hb
  have hStopA := (hPlotA.off_lt (mem_within.mpr ⟨hMem, hA⟩)).2
  have hStopB := (hPlotB.off_lt (mem_within.mpr ⟨hLast, hB⟩)).2
  have hUsedA := hPlotA.used
  have hUsedB := hPlotB.used
  by_cases hSame : a = b
  · subst hSame
    obtain ⟨fill, -, hChain⟩ := hPlotA.chain
    have hWithin : within a (log ++ [r]) = within a log ++ [r] := by
      rw [within_append]
      simp [within, hB]
    rw [hWithin] at hChain
    exact Or.inl (hChain.before (mem_within.mpr ⟨hOld, hA⟩))
  · have hSymm : Std.Symm Extent.Apart := ⟨fun _ _ hApart => hApart.symm⟩
    have hApart := h.apart.forall ha hb hSame
    simp only [Extent.Apart, Extent.Covers, Extent.stop, Record.Apart] at *
    omega

end Geometry

end BucketPlacement

end HeapStore
