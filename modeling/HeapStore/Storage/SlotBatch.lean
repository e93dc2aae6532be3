import HeapStore.Storage.Slots
import Mathlib.Data.List.Dedup

/-! Slots that are read together: the pages of the slots are joined into
ranges, and every slot is found again in the range that holds it. -/
namespace HeapStore

open Effect PagedFile

namespace IndexFile

/-- The ranges that some pages were joined into: each page lies in one, and
they follow each other in the file. -/
structure Joined (pages : List Nat) (groups : List (Nat × Nat)) : Prop where
  cover : ∀ page ∈ pages, ∃ group ∈ groups, group.1 ≤ page ∧ page + PAGE ≤ group.2
  order : groups.Pairwise fun a b => a.2 ≤ b.1
  wide : ∀ group ∈ groups, group.1 + PAGE ≤ group.2
  stop : ∀ group ∈ groups, ∃ page ∈ pages, group.2 = page + PAGE

theorem Joined.nil : Joined [] [] := ⟨nofun, .nil, nofun, nofun⟩

theorem addPage_concat (init : List (Nat × Nat)) (last : Nat × Nat) (page : Nat) :
    addPage (init ++ [last]) page =
      if page = last.2 then init ++ [(last.1, last.2 + PAGE)]
      else init ++ [last] ++ [(page, page + PAGE)] := by
  rw [addPage, List.getLast?_concat]
  simp only [List.dropLast_concat]

/-- A page behind all others is joined. -/
theorem Joined.add {pages : List Nat} {groups : List (Nat × Nat)} {page : Nat}
    (h : Joined pages groups) (hBehind : ∀ p ∈ pages, p + PAGE ≤ page) :
    Joined (pages ++ [page]) (addPage groups page) := by
  have hPast : ∀ group ∈ groups, group.2 ≤ page := by
    intro group hGroup
    obtain ⟨p, hp, hStop⟩ := h.stop group hGroup
    rw [hStop]
    exact hBehind p hp
  have hNew : Joined (pages ++ [page]) (groups ++ [(page, page + PAGE)]) := by
    constructor
    case cover =>
      intro p hp
      rcases List.mem_append.mp hp with hOld | hLast
      · obtain ⟨group, hGroup, hIn⟩ := h.cover p hOld
        exact ⟨group, List.mem_append_left _ hGroup, hIn⟩
      · obtain rfl := List.mem_singleton.mp hLast
        exact ⟨(p, p + PAGE), by simp, Nat.le_refl _, Nat.le_refl _⟩
    case order =>
      rw [List.pairwise_append]
      exact ⟨h.order, by simp, fun a ha b hb => by
        obtain rfl := List.mem_singleton.mp hb
        exact hPast a ha⟩
    case wide =>
      intro group hGroup
      rcases List.mem_append.mp hGroup with hOld | hLast
      · exact h.wide group hOld
      · obtain rfl := List.mem_singleton.mp hLast
        exact Nat.le_refl _
    case stop =>
      intro group hGroup
      rcases List.mem_append.mp hGroup with hOld | hLast
      · obtain ⟨p, hp, hStop⟩ := h.stop group hOld
        exact ⟨p, List.mem_append_left _ hp, hStop⟩
      · obtain rfl := List.mem_singleton.mp hLast
        exact ⟨page, by simp, rfl⟩
  rcases List.eq_nil_or_concat groups with rfl | ⟨init, last, rfl⟩
  · exact hNew
  · rw [List.concat_eq_append] at *
    rw [addPage_concat]
    split
    swap
    · exact hNew
    rename_i hTouch
    obtain ⟨hInit, -, hCross⟩ := List.pairwise_append.mp h.order
    constructor
    case cover =>
      intro p hp
      rcases List.mem_append.mp hp with hOld | hLast
      · obtain ⟨group, hGroup, hLo, hHi⟩ := h.cover p hOld
        rcases List.mem_append.mp hGroup with hFirst | hTail
        · exact ⟨group, List.mem_append_left _ hFirst, hLo, hHi⟩
        · obtain rfl := List.mem_singleton.mp hTail
          exact ⟨(group.1, group.2 + PAGE), by simp, hLo, by simp only; omega⟩
      · obtain rfl := List.mem_singleton.mp hLast
        have hWide := h.wide last (by simp)
        exact ⟨(last.1, last.2 + PAGE), by simp, by simp only; omega, by simp only; omega⟩
    case order =>
      rw [List.pairwise_append]
      exact ⟨hInit, by simp, fun a ha b hb => by
        obtain rfl := List.mem_singleton.mp hb
        exact hCross a ha last (by simp)⟩
    case wide =>
      intro group hGroup
      rcases List.mem_append.mp hGroup with hOld | hLast
      · exact h.wide group (List.mem_append_left _ hOld)
      · obtain rfl := List.mem_singleton.mp hLast
        have hWide := h.wide last (by simp)
        simp only
        omega
    case stop =>
      intro group hGroup
      rcases List.mem_append.mp hGroup with hOld | hLast
      · obtain ⟨p, hp, hStop⟩ := h.stop group (List.mem_append_left _ hOld)
        exact ⟨p, List.mem_append_left _ hp, hStop⟩
      · obtain rfl := List.mem_singleton.mp hLast
        exact ⟨page, by simp, by simp [hTouch]⟩

theorem Joined.foldl {pages done : List Nat} {groups : List (Nat × Nat)} (h : Joined done groups)
    (hOrder : (done ++ pages).Pairwise fun a b => a + PAGE ≤ b) :
    Joined (done ++ pages) (pages.foldl addPage groups) := by
  induction pages generalizing done groups with
  | nil => simpa using h
  | cons page rest ih =>
      obtain ⟨-, -, hCross⟩ := List.pairwise_append.mp hOrder
      have hNext := h.add fun p hp => hCross p hp page (by simp)
      rw [show done ++ page :: rest = done ++ [page] ++ rest by simp] at hOrder ⊢
      exact ih hNext hOrder

/-- The pages of some slots in file order. -/
def slotPages (offsets : List Nat) : List Nat :=
  ((offsets.map pageDown).mergeSort fun a b => decide (a ≤ b)).dedup

theorem mem_slotPages {offsets : List Nat} {page : Nat} :
    page ∈ slotPages offsets ↔ ∃ off ∈ offsets, pageDown off = page := by
  simp [slotPages, List.mem_dedup]

theorem slotPages_order (offsets : List Nat) :
    (slotPages offsets).Pairwise fun a b => a + PAGE ≤ b := by
  have hSorted : (slotPages offsets).Pairwise fun a b => a ≤ b := by
    have hMerge : ((offsets.map pageDown).mergeSort fun a b => decide (a ≤ b)).Pairwise
        fun a b => decide (a ≤ b) = true := List.pairwise_mergeSort
      (fun a b c hab hbc => by simp only [decide_eq_true_eq] at *; omega)
      (fun a b => by simp only [Bool.or_eq_true, decide_eq_true_eq]; omega) (offsets.map pageDown)
    have hPages := hMerge.sublist (List.dedup_sublist _)
    exact hPages.imp fun hLe => by simpa using hLe
  have hNodup : (slotPages offsets).Nodup := List.nodup_dedup _
  have hStrict := hSorted.and hNodup
  refine hStrict.imp_of_mem ?_
  rintro a b ha hb ⟨hLe, hNe⟩
  obtain ⟨x, -, rfl⟩ := mem_slotPages.mp ha
  obtain ⟨y, -, rfl⟩ := mem_slotPages.mp hb
  have hLess : pageDown x < pageDown y := Nat.lt_of_le_of_ne hLe hNe
  have hFirst := pageDown_mod x
  have hSecond := pageDown_mod y
  change pageDown x + 4096 ≤ pageDown y
  change pageDown x % 4096 = 0 at hFirst
  change pageDown y % 4096 = 0 at hSecond
  omega

theorem slotGroups_joined (offsets : List Nat) : Joined (slotPages offsets) (slotGroups offsets) := by
  have hOrder := slotPages_order offsets
  exact Joined.nil.foldl (by rwa [List.nil_append])

/-- The range that is found for a slot is the one with its page. -/
theorem pickSlot_read {pages : List Nat} {groups : List (Nat × Nat)} {image : Nat → UInt8} {id : Nat}
    (h : Joined pages groups) (hPage : pageDown (Slot.fileOffset id) ∈ pages) :
    pickSlot (groups.zip (groups.map fun group => Image.read image group.1 (group.2 - group.1)))
        (Slot.fileOffset id) =
      Slot.decode (Image.read image (Slot.fileOffset id) SLOT_SIZE) := by
  have hDown := pageDown_le (Slot.fileOffset id)
  have hInside := slot_inside id
  have hUp := le_pageUp (Slot.fileOffset id + SLOT_SIZE)
  have hSize : 0 < SLOT_SIZE := by decide
  obtain ⟨group, hGroup, hLo, hHi⟩ := h.cover _ hPage
  have hOrder := h.order
  clear h
  induction groups with
  | nil => cases hGroup
  | cons first rest ih =>
      obtain ⟨hBehind, hRest⟩ := List.pairwise_cons.mp hOrder
      rw [List.map_cons, List.zip_cons_cons, pickSlot]
      by_cases hBefore : first.2 ≤ Slot.fileOffset id
      · rw [List.dropWhile_cons_of_pos (by simpa using hBefore)]
        rcases List.mem_cons.mp hGroup with rfl | hLater
        · omega
        · exact ih hLater hRest
      · rw [List.dropWhile_cons_of_neg (by simpa using hBefore)]
        have hFirst : group = first := by
          rcases List.mem_cons.mp hGroup with rfl | hLater
          · rfl
          · have hApart := hBehind group hLater
            omega
        subst hFirst
        simp only
        rw [field_read _ _ _ (by omega)]
        congr 2
        omega

theorem slotOffsets_run {ids : List Nat} (h : ∀ id ∈ ids, Slot.fileOffset id < 2 ^ 64) (s : Store) :
    slotOffsets ids s = .ok (ids.map Slot.fileOffset) s := by
  induction ids with
  | nil => rfl
  | cons id rest ih =>
      rw [slotOffsets, bind_of_ok (slotOffset_run (h id (by simp))),
        bind_of_ok (ih fun other hOther => h other (by simp [hOther]))]
      rfl

/-- Reading slots together is reading each of them. -/
theorem readSlots_run {ids : List Nat} {s u : Store} (hFlush : PagedFile.flush .index s = .ok () u)
    (hPlan : u.plan = []) (hIds : ∀ id ∈ ids, Addressable id) :
    readSlots ids s = .ok (ids.map fun id =>
      Slot.decode (Image.read (u.file .index).bytes (Slot.fileOffset id) SLOT_SIZE)) u := by
  have hJoined := slotGroups_joined (ids.map Slot.fileOffset)
  have hRange : ∀ request ∈ (slotGroups (ids.map Slot.fileOffset)).map
      (fun group => (group.1, group.2 - group.1)), request.1 + request.2 < 2 ^ 63 := by
    intro request hRequest
    obtain ⟨group, hGroup, rfl⟩ := List.mem_map.mp hRequest
    obtain ⟨page, hPage, hStop⟩ := hJoined.stop group hGroup
    obtain ⟨off, hOff, rfl⟩ := mem_slotPages.mp hPage
    obtain ⟨id, hId, rfl⟩ := List.mem_map.mp hOff
    have hReach := hIds id hId
    rw [Addressable, slot_inside id] at hReach
    have hWide := hJoined.wide group hGroup
    simp only
    omega
  rw [readSlots, bind_of_ok hFlush,
    bind_of_ok (slotOffsets_run (fun id hId => (hIds id hId).fileOffset_lt) u)]
  refine (bind_of_ok (readVec_run hPlan hRange)).trans ?_
  rw [List.map_map, List.map_map]
  refine congrArg (EStateM.Result.ok · u) (List.map_congr_left fun id hId => ?_)
  exact pickSlot_read hJoined (mem_slotPages.mpr ⟨_, List.mem_map_of_mem hId, rfl⟩)

end IndexFile

end HeapStore
