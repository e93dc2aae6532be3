import HeapStore.Placement.Geometry

/-! The numbering of a bucket store: regions of record numbers share no
number, and the numbers given out are exactly those of the written records. -/
namespace HeapStore

namespace Extent

/-- The region has given out this number. -/
def Issued (e : Extent) (id : Nat) : Prop := e.start ≤ id ∧ id < e.start + e.used

end Extent

/-- A bucket and its regions. -/
structure Book where
  bucket : Nat
  regions : List Extent

namespace BucketPlacement

def book (state : BucketState) : Book := ⟨state.id, state.slots⟩

def books (p : BucketPlacement) : List Book := p.states.map book

def regions (books : List Book) : List Extent := books.flatMap Book.regions

/-- The invariant of the regions over the records that were written. -/
structure Numbering (config : HeapConfig) (books : List Book) (nextRegion : Nat)
    (log : List Record) : Prop where
  distinct : (books.map Book.bucket).Nodup
  apart : (regions books).Pairwise Extent.Apart
  size : ∀ e ∈ regions books, e.size = config.regionSlots
  used : ∀ e ∈ regions books, e.used ≤ e.size
  below : ∀ e ∈ regions books, e.stop ≤ nextRegion
  ascending : ∀ b ∈ books, b.regions.Pairwise fun x y => x.stop ≤ y.start
  full : ∀ b ∈ books, ∀ e ∈ b.regions.dropLast, e.used = e.size
  issued : ∀ b ∈ books, ∀ id, (∃ e ∈ b.regions, e.Issued id) ↔
    ∃ r ∈ log, r.header.id = id ∧ r.header.bucket = b.bucket
  homes : ∀ r ∈ log, ∃ b ∈ books, b.bucket = r.header.bucket

namespace Numbering

variable {config : HeapConfig} {before after : List Book} {b : Book} {nextRegion : Nat}
  {log : List Record} {r : Record} {e : Extent}

theorem empty (config : HeapConfig) : Numbering config [] 0 [] := by
  constructor <;> simp [regions]

/-- One number belongs to one region. -/
theorem eq_of_issued {books : List Book} (h : Numbering config books nextRegion log) {x y : Extent}
    (hx : x ∈ regions books) (hy : y ∈ regions books) {id : Nat} (hX : x.Covers id)
    (hY : y.Covers id) : x = y := by
  have hSymm : Std.Symm Extent.Apart := ⟨fun _ _ hApart => hApart.symm⟩
  by_contra hNe
  have hApart := h.apart.forall hx hy hNe
  simp only [Extent.Apart, Extent.Covers] at *
  omega

/-- A new bucket has no records and no regions yet. -/
theorem concat {books : List Book} {bucket : Nat} (h : Numbering config books nextRegion log)
    (hNew : ∀ b ∈ books, b.bucket ≠ bucket) :
    Numbering config (books ++ [⟨bucket, []⟩]) nextRegion log := by
  have hSame : regions (books ++ [⟨bucket, []⟩]) = regions books := by simp [regions]
  refine ⟨?_, hSame ▸ h.apart, hSame ▸ h.size, hSame ▸ h.used, hSame ▸ h.below, ?_, ?_, ?_, ?_⟩
  · rw [List.map_append, List.nodup_append]
    refine ⟨h.distinct, by simp, ?_⟩
    rintro _ hOld _ hLast
    obtain ⟨b, hb, rfl⟩ := List.mem_map.mp hOld
    simp only [List.map_cons, List.map_nil, List.mem_singleton] at hLast
    rw [hLast]
    exact hNew b hb
  · intro b hb
    rcases List.mem_append.mp hb with hb | hb
    · exact h.ascending b hb
    · rw [List.mem_singleton] at hb
      simp [hb]
  · intro b hb
    rcases List.mem_append.mp hb with hb | hb
    · exact h.full b hb
    · rw [List.mem_singleton] at hb
      simp [hb]
  · intro b hb id
    rcases List.mem_append.mp hb with hb | hb
    · exact h.issued b hb id
    · rw [List.mem_singleton] at hb
      subst hb
      constructor
      · rintro ⟨e, he, -⟩
        cases he
      · rintro ⟨r, hr, -, hBucket⟩
        obtain ⟨home, hHome, hSame⟩ := h.homes r hr
        exact absurd (hSame.trans hBucket) (hNew home hHome)
  · intro r hr
    obtain ⟨b, hb, hBucket⟩ := h.homes r hr
    exact ⟨b, List.mem_append_left _ hb, hBucket⟩

theorem regions_perm (before after : List Book) (b : Book) :
    (regions (before ++ b :: after)).Perm (b.regions ++ (regions before ++ regions after)) := by
  simp only [regions, List.flatMap_append, List.flatMap_cons]
  exact List.perm_append_comm_assoc ..

/-- The next region goes to a bucket whose regions are all used up. -/
theorem push (h : Numbering config (before ++ b :: after) nextRegion log)
    (hFull : ∀ e ∈ b.regions, e.used = e.size) :
    Numbering config (before ++ ⟨b.bucket, b.regions ++ [⟨nextRegion, config.regionSlots, 0⟩]⟩ :: after)
      (nextRegion + config.regionSlots) log := by
  have hPerm : (regions (before ++
      ⟨b.bucket, b.regions ++ [⟨nextRegion, config.regionSlots, 0⟩]⟩ :: after)).Perm
      (⟨nextRegion, config.regionSlots, 0⟩ :: regions (before ++ b :: after)) := by
    refine (regions_perm ..).trans ?_
    rw [List.append_assoc]
    exact List.perm_middle.trans ((regions_perm before after b).symm.cons _)
  have hMem : ∀ e ∈ regions (before ++
      ⟨b.bucket, b.regions ++ [⟨nextRegion, config.regionSlots, 0⟩]⟩ :: after),
      e = ⟨nextRegion, config.regionSlots, 0⟩ ∨ e ∈ regions (before ++ b :: after) :=
    fun e he => List.mem_cons.mp (hPerm.mem_iff.mp he)
  have hBook : ∀ x ∈ before ++
      ⟨b.bucket, b.regions ++ [⟨nextRegion, config.regionSlots, 0⟩]⟩ :: after,
      x = ⟨b.bucket, b.regions ++ [⟨nextRegion, config.regionSlots, 0⟩]⟩ ∨
        x ∈ before ++ b :: after := by
    intro x hx
    simp only [List.mem_append, List.mem_cons] at hx ⊢
    tauto
  have hMine : b ∈ before ++ b :: after := by simp
  have hIn : ∀ e ∈ b.regions, e ∈ regions (before ++ b :: after) := fun e he =>
    List.mem_flatMap.mpr ⟨b, hMine, he⟩
  refine ⟨?_, ?_, ?_, ?_, ?_, ?_, ?_, ?_, ?_⟩
  · simpa using h.distinct
  · refine hPerm.symm.pairwise (List.pairwise_cons.mpr ⟨fun e he => ?_, h.apart⟩) Extent.Apart.symm
    exact Or.inr (h.below e he)
  · intro e he
    rcases hMem e he with rfl | he
    · rfl
    · exact h.size e he
  · intro e he
    rcases hMem e he with rfl | he
    · exact Nat.zero_le _
    · exact h.used e he
  · intro e he
    rcases hMem e he with rfl | he
    · exact Nat.le_refl _
    · exact (h.below e he).trans (Nat.le_add_right _ _)
  · intro x hx
    rcases hBook x hx with rfl | hx
    · refine List.pairwise_append.mpr ⟨h.ascending b hMine, by simp, fun e he y hy => ?_⟩
      rw [List.mem_singleton] at hy
      subst hy
      exact h.below e (hIn e he)
    · exact h.ascending x hx
  · intro x hx
    rcases hBook x hx with rfl | hx
    · simpa using hFull
    · exact h.full x hx
  · intro x hx id
    rcases hBook x hx with rfl | hx
    · rw [← h.issued b hMine id]
      constructor
      · rintro ⟨e, he, hIssued⟩
        rcases List.mem_append.mp he with he | he
        · exact ⟨e, he, hIssued⟩
        · rw [List.mem_singleton] at he
          subst he
          simp only [Extent.Issued] at hIssued
          omega
      · rintro ⟨e, he, hIssued⟩
        exact ⟨e, List.mem_append_left _ he, hIssued⟩
    · exact h.issued x hx id
  · intro r hr
    obtain ⟨x, hx, hBucket⟩ := h.homes r hr
    simp only [List.mem_append, List.mem_cons] at hx ⊢
    rcases hx with hx | rfl | hx
    · exact ⟨x, Or.inl hx, hBucket⟩
    · exact ⟨_, Or.inr (Or.inl rfl), hBucket⟩
    · exact ⟨x, Or.inr (Or.inr hx), hBucket⟩

/-- The next number of a bucket's last region was never given out. -/
theorem fresh {init : List Extent} (h : Numbering config (before ++ b :: after) nextRegion log)
    (hRegions : b.regions = init ++ [e]) (hRoom : e.used < e.size) (hr : r ∈ log) :
    r.header.id ≠ e.start + e.used := by
  intro hId
  have hMine : b ∈ before ++ b :: after := by simp
  have he : e ∈ regions (before ++ b :: after) :=
    List.mem_flatMap.mpr ⟨b, hMine, by simp [hRegions]⟩
  obtain ⟨x, hx, hBucket⟩ := h.homes r hr
  obtain ⟨y, hy, hIssued⟩ := (h.issued x hx r.header.id).mpr ⟨r, hr, rfl, hBucket.symm⟩
  have hy' : y ∈ regions (before ++ b :: after) := List.mem_flatMap.mpr ⟨x, hx, hy⟩
  have hUsed := h.used y hy'
  have hSame : y = e := h.eq_of_issued hy' he
    (show y.Covers r.header.id by simp only [Extent.Covers, Extent.Issued, Extent.stop] at *; omega)
    (show e.Covers r.header.id by simp only [Extent.Covers, Extent.stop] at *; omega)
  subst hSame
  simp only [Extent.Issued] at hIssued
  omega

/-- A record under the next number of its bucket's last region. -/
theorem issue {init : List Extent} (h : Numbering config (before ++ b :: after) nextRegion log)
    (hRegions : b.regions = init ++ [e]) (hRoom : e.used < e.size)
    (hId : r.header.id = e.start + e.used) (hBucket : r.header.bucket = b.bucket) :
    Numbering config (before ++ ⟨b.bucket, init ++ [{ e with used := e.used + 1 }]⟩ :: after)
      nextRegion (log ++ [r]) := by
  have hOld : (regions (before ++ b :: after)).Perm
      (e :: (init ++ (regions before ++ regions after))) := by
    refine (regions_perm ..).trans ?_
    rw [hRegions, List.append_assoc]
    exact List.perm_middle
  have hNew : (regions (before ++ ⟨b.bucket, init ++ [{ e with used := e.used + 1 }]⟩ :: after)).Perm
      ({ e with used := e.used + 1 } :: (init ++ (regions before ++ regions after))) := by
    refine (regions_perm ..).trans ?_
    rw [List.append_assoc]
    exact List.perm_middle
  have he : e ∈ regions (before ++ b :: after) := hOld.mem_iff.mpr (List.mem_cons_self ..)
  have hMem : ∀ x ∈ regions (before ++
      ⟨b.bucket, init ++ [{ e with used := e.used + 1 }]⟩ :: after),
      x = { e with used := e.used + 1 } ∨ x ∈ regions (before ++ b :: after) := by
    intro x hx
    rcases List.mem_cons.mp (hNew.mem_iff.mp hx) with rfl | hx
    · exact Or.inl rfl
    · exact Or.inr (hOld.mem_iff.mpr (List.mem_cons_of_mem _ hx))
  have hBook : ∀ x ∈ before ++ ⟨b.bucket, init ++ [{ e with used := e.used + 1 }]⟩ :: after,
      x = ⟨b.bucket, init ++ [{ e with used := e.used + 1 }]⟩ ∨
        (x ∈ before ++ b :: after ∧ x.bucket ≠ b.bucket) := by
    intro x hx
    have hNodup := h.distinct
    rw [List.map_append, List.map_cons, List.nodup_append, List.nodup_cons] at hNodup
    obtain ⟨-, ⟨hAfter, -⟩, hBefore⟩ := hNodup
    simp only [List.mem_append, List.mem_cons] at hx ⊢
    rcases hx with hx | rfl | hx
    · exact Or.inr ⟨Or.inl hx, hBefore _ (List.mem_map_of_mem hx) _ (List.mem_cons_self ..)⟩
    · exact Or.inl rfl
    · refine Or.inr ⟨Or.inr (Or.inr hx), fun hSame => hAfter ?_⟩
      rw [← hSame]
      exact List.mem_map_of_mem hx
  have hMine : b ∈ before ++ b :: after := by simp
  refine ⟨?_, ?_, ?_, ?_, ?_, ?_, ?_, ?_, ?_⟩
  · simpa using h.distinct
  · obtain ⟨hApart, hRest⟩ := List.pairwise_cons.mp (hOld.pairwise h.apart Extent.Apart.symm)
    exact hNew.symm.pairwise (List.pairwise_cons.mpr ⟨hApart, hRest⟩) Extent.Apart.symm
  · intro x hx
    rcases hMem x hx with rfl | hx
    · exact h.size e he
    · exact h.size x hx
  · intro x hx
    rcases hMem x hx with rfl | hx
    · exact hRoom
    · exact h.used x hx
  · intro x hx
    rcases hMem x hx with rfl | hx
    · exact h.below e he
    · exact h.below x hx
  · intro x hx
    rcases hBook x hx with rfl | ⟨hx, -⟩
    · have hOrder := h.ascending b hMine
      rw [hRegions, List.pairwise_append] at hOrder
      refine List.pairwise_append.mpr ⟨hOrder.1, by simp, fun y hy z hz => ?_⟩
      rw [List.mem_singleton] at hz
      subst hz
      exact hOrder.2.2 y hy e (List.mem_singleton_self e)
    · exact h.ascending x hx
  · intro x hx
    rcases hBook x hx with rfl | ⟨hx, -⟩
    · have hFull := h.full b hMine
      rw [hRegions] at hFull
      simpa using hFull
    · exact h.full x hx
  · intro x hx id
    rcases hBook x hx with rfl | ⟨hx, hOther⟩
    · have hIssued := h.issued b hMine id
      rw [hRegions] at hIssued
      simp only [List.mem_append, List.mem_singleton] at hIssued ⊢
      constructor
      · rintro ⟨y, hy | rfl, hY⟩
        · obtain ⟨r', hr', hBoth⟩ := hIssued.mp ⟨y, Or.inl hy, hY⟩
          exact ⟨r', Or.inl hr', hBoth⟩
        · by_cases hLast : id = e.start + e.used
          · exact ⟨r, Or.inr rfl, by rw [hId, hLast], hBucket⟩
          · obtain ⟨r', hr', hBoth⟩ := hIssued.mp ⟨e, Or.inr rfl, by
              simp only [Extent.Issued] at *
              omega⟩
            exact ⟨r', Or.inl hr', hBoth⟩
      · rintro ⟨r', hr' | rfl, hBoth⟩
        · obtain ⟨y, hy | rfl, hY⟩ := hIssued.mpr ⟨r', hr', hBoth⟩
          · exact ⟨y, Or.inl hy, hY⟩
          · refine ⟨_, Or.inr rfl, ?_⟩
            simp only [Extent.Issued] at *
            omega
        · refine ⟨_, Or.inr rfl, ?_⟩
          simp only [Extent.Issued] at *
          omega
    · rw [h.issued x hx id]
      constructor
      · rintro ⟨r', hr', hBoth⟩
        exact ⟨r', List.mem_append_left _ hr', hBoth⟩
      · rintro ⟨r', hr', hBoth⟩
        rcases List.mem_append.mp hr' with hr' | hr'
        · exact ⟨r', hr', hBoth⟩
        · rw [List.mem_singleton] at hr'
          subst hr'
          exact absurd (hBoth.2.symm.trans hBucket) hOther
  · intro r' hr'
    rcases List.mem_append.mp hr' with hr' | hr'
    · obtain ⟨x, hx, hSame⟩ := h.homes r' hr'
      simp only [List.mem_append, List.mem_cons] at hx ⊢
      rcases hx with hx | rfl | hx
      · exact ⟨x, Or.inl hx, hSame⟩
      · exact ⟨_, Or.inr (Or.inl rfl), hSame⟩
      · exact ⟨x, Or.inr (Or.inr hx), hSame⟩
    · rw [List.mem_singleton] at hr'
      exact ⟨_, List.mem_append_right _ (List.mem_cons_self ..), by rw [hr', hBucket]⟩

/-- Another record under a number that its bucket has given out. -/
theorem rewrite {books : List Book} {old : Record} (h : Numbering config books nextRegion log)
    (hOld : old ∈ log) (hId : r.header.id = old.header.id)
    (hBucket : r.header.bucket = old.header.bucket) :
    Numbering config books nextRegion (log ++ [r]) := by
  refine ⟨h.distinct, h.apart, h.size, h.used, h.below, h.ascending, h.full, fun b hb id => ?_,
    fun r' hr' => ?_⟩
  · rw [h.issued b hb id]
    constructor
    · rintro ⟨r', hr', hBoth⟩
      exact ⟨r', List.mem_append_left _ hr', hBoth⟩
    · rintro ⟨r', hr', hBoth⟩
      rcases List.mem_append.mp hr' with hr' | hr'
      · exact ⟨r', hr', hBoth⟩
      · rw [List.mem_singleton] at hr'
        subst hr'
        exact ⟨old, hOld, hId ▸ hBoth.1, hBucket ▸ hBoth.2⟩
  · rcases List.mem_append.mp hr' with hr' | hr'
    · exact h.homes r' hr'
    · rw [List.mem_singleton] at hr'
      subst hr'
      rw [hBucket]
      exact h.homes old hOld

end Numbering

end BucketPlacement

end HeapStore
