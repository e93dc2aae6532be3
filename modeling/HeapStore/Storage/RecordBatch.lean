import HeapStore.Storage.DamagedReads

/-! Records that are read together: the page ranges of the records are joined,
and every record is parsed out of the range that holds it, as when it is read
alone. -/
namespace HeapStore

open Effect PagedFile

/-- What a completed read asked for was within the kernel's file offsets. -/
theorem readVec_inRange {n : FileName} {requests : List (Nat × Nat)} {s t : Store} {out : List Bytes}
    (h : readVec n requests s = .ok out t) :
    ∀ request ∈ requests, request.2 = 0 ∨ request.1 + request.2 < 2 ^ 63 := by
  unfold readVec at h
  split at h
  · cases h
  split at h
  · rename_i hAll
    intro request hRequest
    exact servable_iff.mp (List.all_eq_true.mp hAll request hRequest)
  · cases h

namespace RecordHeader

/-- A buffer with a header in it is at least as long as the header. -/
theorem length_of_decode {buf : Bytes} {withBucket : Bool} {h : RecordHeader}
    (hDecode : decode buf withBucket = some h) : headerLen withBucket ≤ buf.length := by
  by_contra hShort
  rw [decode] at hDecode
  simp only at hDecode
  rw [if_pos (.inl (by omega))] at hDecode
  cases hDecode

end RecordHeader

namespace DataFile

variable {d : DataFile} {image : Nat → UInt8} {off total id start count : Nat} {s t u v : Store}
  {x : RecordHeader × Bytes}

/-- The record that an image holds at an offset, if it is the expected one. -/
def storedRecord (d : DataFile) (image : Nat → UInt8) (off total id : Nat) :
    Option (RecordHeader × Bytes) :=
  (RecordHeader.decode (Image.read image off (headerLen d.withBucket)) d.withBucket).bind fun header =>
    let payload := Image.read image (off + headerLen d.withBucket) header.len
    if header.id = id ∧ header.len + headerLen d.withBucket = total ∧
        (d.integrity = true → crc32c payload = header.crc) then some (header, payload)
    else none

/-- What an image holds as a record is at least its header. -/
theorem total_pos (h : d.storedRecord image off total id = some x) : 0 < total := by
  rw [storedRecord, Option.bind_eq_some_iff] at h
  obtain ⟨header, -, hRest⟩ := h
  dsimp only at hRest
  split at hRest
  · rename_i hFits
    have hSize : 0 < headerLen d.withBucket := by cases d.withBucket <;> decide
    omega
  · cases hRest

theorem storedRecord_eq_some : d.storedRecord image off total id = some x ↔
    RecordHeader.decode (Image.read image off (headerLen d.withBucket)) d.withBucket = some x.1 ∧
      x.2 = Image.read image (off + headerLen d.withBucket) x.1.len ∧ x.1.id = id ∧
      x.1.len + headerLen d.withBucket = total ∧ (d.integrity = true → crc32c x.2 = x.1.crc) := by
  obtain ⟨header, payload⟩ := x
  rw [storedRecord, Option.bind_eq_some_iff]
  constructor
  · rintro ⟨other, hDecode, hRest⟩
    simp only at hRest
    split at hRest
    · rename_i hFits
      cases hRest
      exact ⟨hDecode, rfl, hFits⟩
    · cases hRest
  · rintro ⟨hDecode, hPayload, hFits⟩
    simp only at hDecode hPayload hFits
    rw [hPayload] at hFits ⊢
    exact ⟨header, hDecode, if_pos hFits⟩

/-- What is parsed out of a buffer is what the image holds. -/
theorem parse_ok (hLo : start ≤ off) (hHi : off + total ≤ start + count)
    (hRun : d.parse (Image.read image start count) (off - start) total id off s = .ok x t) :
    d.storedRecord image off total id = some x ∧ t = s := by
  rw [parse] at hRun
  cases hDecode : RecordHeader.decode ((Image.read image start count).drop (off - start))
      d.withBucket with
  | none =>
      simp only [hDecode] at hRun
      cases hRun
  | some header =>
      simp only [hDecode] at hRun
      split at hRun
      · cases hRun
      rename_i hId
      rw [not_not] at hId
      obtain ⟨recordLen, mid, hLen, hRun⟩ := bind_eq_ok.mp hRun
      unfold addU64 at hLen
      split at hLen
      · cases hLen
      cases hLen
      split at hRun
      · cases hRun
      rename_i hTotal
      rw [not_not] at hTotal
      have hLong := RecordHeader.length_of_decode hDecode
      have hDrop := Image.drop_read image start count (off - start) (by omega)
      rw [hDrop, Image.length_read] at hLong
      rw [hDrop, Nat.add_sub_cancel' hLo, ← RecordHeader.decode_take _ _ (Nat.le_refl _),
        Image.take_read _ _ _ _ hLong] at hDecode
      have hPayload : field (Image.read image start count) (off - start + headerLen d.withBucket)
          header.len = Image.read image (off + headerLen d.withBucket) header.len := by
        rw [field_read _ _ _ (by omega)]
        congr 1
        omega
      rw [hPayload] at hRun
      split at hRun
      · cases hRun
      · rename_i hIntact
        cases hRun
        refine ⟨storedRecord_eq_some.mpr ⟨hDecode, rfl, hId, hTotal, ?_⟩, rfl⟩
        intro hCheck
        by_contra hBad
        exact hIntact ⟨hCheck, hBad⟩

theorem parse_run (hLo : start ≤ off) (hHi : off + total ≤ start + count) (hFits : total < 2 ^ 64)
    (h : d.storedRecord image off total id = some x) (s : Store) :
    d.parse (Image.read image start count) (off - start) total id off s = .ok x s := by
  obtain ⟨hDecode, hPayload, hId, hTotal, hCheck⟩ := storedRecord_eq_some.mp h
  obtain ⟨header, payload⟩ := x
  simp only at hDecode hPayload hId hTotal hCheck
  have hDrop := Image.drop_read image start count (off - start) (by omega)
  have hDecode' : RecordHeader.decode ((Image.read image start count).drop (off - start))
      d.withBucket = some header := by
    rw [hDrop, Nat.add_sub_cancel' hLo, ← RecordHeader.decode_take _ _ (Nat.le_refl _),
      Image.take_read _ _ _ _ (by omega), hDecode]
  have hField : field (Image.read image start count) (off - start + headerLen d.withBucket)
      header.len = payload := by
    rw [hPayload, field_read _ _ _ (by omega)]
    congr 1
    omega
  rw [parse, hDecode']
  simp only [hId, ne_eq, not_true, if_false]
  rw [addU64, if_neg (by omega)]
  refine (bind_of_ok rfl).trans ?_
  rw [if_neg (fun hNe => hNe hTotal), hField, if_neg]
  · rfl
  · rintro ⟨hIntegrity, hBad⟩
    exact hBad (hCheck hIntegrity)

/-- The kernel can address the pages of a record. -/
def InPages (off total : Nat) : Prop := pageUp (off + total) < 2 ^ 63

/-- A record is read exactly when the file holds it, and its pages are in range. -/
theorem readRecord_iff (hFlush : PagedFile.flush .data s = .ok () v) (hPlan : v.plan = []) :
    d.readRecord off total id s = .ok x t ↔
      InPages off total ∧ d.storedRecord (v.file .data).bytes off total id = some x ∧ t = v := by
  have hDown := pageDown_le off
  have hUp := le_pageUp (off + total)
  have hLt := pageUp_lt (off + total)
  constructor
  · intro hRun
    obtain ⟨⟨buffer, pos⟩, u, hRead, hParse⟩ := bind_eq_ok.mp hRun
    obtain ⟨_, u', hFlush', hRest⟩ := bind_eq_ok.mp hRead
    obtain rfl : v = u' := (EStateM.Result.ok.inj (hFlush.symm.trans hFlush')).2
    obtain ⟨stop, z, hStop, hFetch⟩ := bind_eq_ok.mp hRest
    obtain ⟨rfl, rfl, hFits⟩ := pageUpU64_ok hStop
    obtain ⟨bytes, w, hOne, hPure⟩ := bind_eq_ok.mp hFetch
    cases hPure
    obtain ⟨buffers, w', hVec, hPure⟩ := bind_eq_ok.mp hOne
    cases hPure
    have hRange := readVec_inRange hVec _ (List.mem_singleton.mpr rfl)
    obtain ⟨rfl, rfl⟩ := readVec_ok hVec
    simp only at hRange hParse
    rw [z.tick_of_plan hPlan] at hParse
    obtain ⟨hStored, rfl⟩ := parse_ok (by omega) (by omega) hParse
    have hSome := total_pos hStored
    exact ⟨by unfold InPages; omega, hStored, rfl⟩
  · rintro ⟨hRange, hStored, rfl⟩
    unfold InPages at hRange
    have hRead : readAligned .data off total s = .ok (Image.read (t.file .data).bytes (pageDown off)
        (pageUp (off + total) - pageDown off), off - pageDown off) t := by
      rw [readAligned, bind_of_ok hFlush, bind_of_ok (pageUpU64_run (fits_of_pageUp hRange) t)]
      exact (bind_of_ok (readOne_run hPlan (by omega))).trans rfl
    rw [readRecord, bind_of_ok hRead]
    exact parse_run (by omega) (by omega) (by omega) hStored t

/-! The ranges of a batch. -/

/-- The ranges that some items were joined into: each item lies in one, and the
ends of a range are page ends of items in it. -/
structure Grouped (items : List ReadItem) (done : List Nat) (groups : List ReadGroup) : Prop where
  cover : ∀ i ∈ done, ∃ group ∈ groups, i ∈ group.members
  inside : ∀ group ∈ groups, ∀ i ∈ group.members, ∃ item, items[i]? = some item ∧
    group.start ≤ pageDown item.offset ∧ pageUp (item.offset + item.length) ≤ group.stop
  start : ∀ group ∈ groups, ∃ i ∈ done, ∃ item, items[i]? = some item ∧
    group.start = pageDown item.offset
  stop : ∀ group ∈ groups, ∃ i ∈ group.members, ∃ item, items[i]? = some item ∧
    group.stop = pageUp (item.offset + item.length)

theorem Grouped.nil (items : List ReadItem) : Grouped items [] [] := ⟨nofun, nofun, nofun, nofun⟩

theorem addToGroups_concat {items : List ReadItem} {i : Nat} {item : ReadItem}
    (hItem : items[i]? = some item) (init : List ReadGroup) (last : ReadGroup) :
    addToGroups items (init ++ [last]) i =
      if pageDown item.offset ≤ last.stop then
        init ++ [{ last with
          stop := max last.stop (pageUp (item.offset + item.length)), members := last.members ++ [i] }]
      else init ++ [last] ++
        [⟨pageDown item.offset, pageUp (item.offset + item.length), [i]⟩] := by
  simp only [addToGroups, hItem, List.getLast?_concat, List.dropLast_concat]

/-- An item that starts at or behind all others is joined. -/
theorem Grouped.add {items : List ReadItem} {done : List Nat} {groups : List ReadGroup} {i : Nat}
    {item : ReadItem} (h : Grouped items done groups) (hItem : items[i]? = some item)
    (hBehind : ∀ j ∈ done, ∀ other, items[j]? = some other → other.offset ≤ item.offset) :
    Grouped items (done ++ [i]) (addToGroups items groups i) := by
  have hStarts : ∀ group ∈ groups, group.start ≤ pageDown item.offset := by
    intro group hGroup
    obtain ⟨j, hj, other, hOther, hStart⟩ := h.start group hGroup
    rw [hStart]
    exact pageDown_mono (hBehind j hj other hOther)
  have hNew : Grouped items (done ++ [i])
      (groups ++ [⟨pageDown item.offset, pageUp (item.offset + item.length), [i]⟩]) := by
    constructor
    case cover =>
      intro j hj
      rcases List.mem_append.mp hj with hOld | hLast
      · obtain ⟨group, hGroup, hIn⟩ := h.cover j hOld
        exact ⟨group, List.mem_append_left _ hGroup, hIn⟩
      · exact ⟨_, List.mem_append_right _ (List.mem_singleton.mpr rfl), hLast⟩
    case inside =>
      intro group hGroup j hj
      rcases List.mem_append.mp hGroup with hOld | hLast
      · exact h.inside group hOld j hj
      · obtain rfl := List.mem_singleton.mp hLast
        obtain rfl := List.mem_singleton.mp hj
        exact ⟨item, hItem, Nat.le_refl _, Nat.le_refl _⟩
    case start =>
      intro group hGroup
      rcases List.mem_append.mp hGroup with hOld | hLast
      · obtain ⟨j, hj, hFirst⟩ := h.start group hOld
        exact ⟨j, List.mem_append_left _ hj, hFirst⟩
      · obtain rfl := List.mem_singleton.mp hLast
        exact ⟨i, by simp, item, hItem, rfl⟩
    case stop =>
      intro group hGroup
      rcases List.mem_append.mp hGroup with hOld | hLast
      · exact h.stop group hOld
      · obtain rfl := List.mem_singleton.mp hLast
        exact ⟨i, List.mem_singleton.mpr rfl, item, hItem, rfl⟩
  rcases List.eq_nil_or_concat groups with rfl | ⟨init, last, rfl⟩
  · simpa [addToGroups, hItem] using hNew
  · rw [List.concat_eq_append] at *
    rw [addToGroups_concat hItem]
    split
    swap
    · exact hNew
    have hLastStart := hStarts last (by simp)
    constructor
    case cover =>
      intro j hj
      rcases List.mem_append.mp hj with hOld | hLast
      · obtain ⟨group, hGroup, hIn⟩ := h.cover j hOld
        rcases List.mem_append.mp hGroup with hFirst | hTail
        · exact ⟨group, List.mem_append_left _ hFirst, hIn⟩
        · obtain rfl := List.mem_singleton.mp hTail
          exact ⟨_, List.mem_append_right _ (List.mem_singleton.mpr rfl),
            List.mem_append_left _ hIn⟩
      · exact ⟨_, List.mem_append_right _ (List.mem_singleton.mpr rfl),
          List.mem_append_right _ hLast⟩
    case inside =>
      intro group hGroup j hj
      rcases List.mem_append.mp hGroup with hOld | hLast
      · exact h.inside group (List.mem_append_left _ hOld) j hj
      · obtain rfl := List.mem_singleton.mp hLast
        rcases List.mem_append.mp hj with hBefore | hThis
        · obtain ⟨other, hOther, hLo, hHi⟩ := h.inside last (by simp) j hBefore
          exact ⟨other, hOther, hLo, hHi.trans (Nat.le_max_left _ _)⟩
        · obtain rfl := List.mem_singleton.mp hThis
          exact ⟨item, hItem, hLastStart, Nat.le_max_right _ _⟩
    case start =>
      intro group hGroup
      rcases List.mem_append.mp hGroup with hOld | hLast
      · obtain ⟨j, hj, hFirst⟩ := h.start group (List.mem_append_left _ hOld)
        exact ⟨j, List.mem_append_left _ hj, hFirst⟩
      · obtain rfl := List.mem_singleton.mp hLast
        obtain ⟨j, hj, hFirst⟩ := h.start last (by simp)
        exact ⟨j, List.mem_append_left _ hj, hFirst⟩
    case stop =>
      intro group hGroup
      rcases List.mem_append.mp hGroup with hOld | hLast
      · exact h.stop group (List.mem_append_left _ hOld)
      · obtain rfl := List.mem_singleton.mp hLast
        obtain ⟨j, hj, other, hOther, hStop⟩ := h.stop last (by simp)
        rcases Nat.le_total (pageUp (item.offset + item.length)) last.stop with hLess | hMore
        · exact ⟨j, List.mem_append_left _ hj, other, hOther, (Nat.max_eq_left hLess).trans hStop⟩
        · exact ⟨i, List.mem_append_right _ (List.mem_singleton.mpr rfl), item, hItem,
            Nat.max_eq_right hMore⟩

/-- The offset of an item; there is none past the end of the batch. -/
def offsetOf (items : List ReadItem) (i : Nat) : Nat := ((items[i]?).map ReadItem.offset).getD 0

theorem Grouped.foldl {items : List ReadItem} {order done : List Nat} {groups : List ReadGroup}
    (h : Grouped items done groups) (hItems : ∀ i ∈ order, i < items.length)
    (hOrder : (done ++ order).Pairwise fun a b => offsetOf items a ≤ offsetOf items b) :
    Grouped items (done ++ order) (order.foldl (addToGroups items) groups) := by
  induction order generalizing done groups with
  | nil => simpa using h
  | cons i rest ih =>
      obtain ⟨-, -, hCross⟩ := List.pairwise_append.mp hOrder
      have hItem := List.getElem?_eq_getElem (hItems i (by simp))
      have hNext := h.add hItem fun j hj other hOther => by
        have hLe := hCross j hj i (by simp)
        simpa [offsetOf, hItem, hOther] using hLe
      rw [show done ++ i :: rest = done ++ [i] ++ rest by simp] at hOrder ⊢
      exact ih hNext (fun k hk => hItems k (by simp [hk])) hOrder

/-- The items of a batch in file order. -/
def readOrder (items : List ReadItem) : List Nat :=
  (List.range items.length).mergeSort fun a b => decide (offsetOf items a ≤ offsetOf items b)

theorem mem_readOrder {items : List ReadItem} {i : Nat} : i ∈ readOrder items ↔ i < items.length := by
  simp [readOrder]

theorem readGroups_grouped (items : List ReadItem) :
    Grouped items (readOrder items) (readGroups items) := by
  have hSorted : (readOrder items).Pairwise fun a b =>
      decide (offsetOf items a ≤ offsetOf items b) = true := List.pairwise_mergeSort
    (fun a b c hab hbc => by simp only [decide_eq_true_eq] at *; omega)
    (fun a b => by simp only [Bool.or_eq_true, decide_eq_true_eq]; omega) (List.range items.length)
  have hOrder : (readOrder items).Pairwise fun a b => offsetOf items a ≤ offsetOf items b :=
    hSorted.imp fun hLe => by simpa using hLe
  exact (Grouped.nil items).foldl (fun i hi => mem_readOrder.mp hi) (by rwa [List.nil_append])

/-! The payloads of a batch. -/

/-- The payload that is parsed for an item. -/
def payloadOf (d : DataFile) (image : Nat → UInt8) (items : List ReadItem) (i : Nat) : Option Bytes :=
  (items[i]?).bind fun item =>
    (d.storedRecord image item.offset item.length item.id).map Prod.snd

section Members

variable {items : List ReadItem} {group : ReadGroup} {members : List Nat} {out out' : List Bytes}

/-- The items with these positions lie inside the range of a group. -/
def Inside (items : List ReadItem) (group : ReadGroup) (members : List Nat) : Prop :=
  ∀ i ∈ members, ∃ item, items[i]? = some item ∧ group.start ≤ item.offset ∧
    item.offset + item.length ≤ group.stop ∧ group.start ≤ group.stop ∧ item.length < 2 ^ 64

/-- Parsed members have their payloads in the output, which is otherwise kept. -/
theorem parseMembers_ok (hInside : Inside items group members)
    (hRun : d.parseMembers items group (Image.read image group.start (group.stop - group.start))
      members out s = .ok out' t) :
    t = s ∧ out'.length = out.length ∧
      (∀ i ∈ members, ∃ payload, d.payloadOf image items i = some payload ∧
        (i < out.length → out'[i]? = some payload)) ∧
      ∀ i, i ∉ members → out'[i]? = out[i]? := by
  induction members generalizing out s with
  | nil =>
      cases hRun
      exact ⟨rfl, rfl, nofun, fun _ _ => rfl⟩
  | cons i rest ih =>
      obtain ⟨item, hItem, hLo, hHi, hWide, -⟩ := hInside i (by simp)
      simp only [parseMembers, hItem] at hRun
      obtain ⟨⟨header, payload⟩, u, hParse, hNext⟩ := bind_eq_ok.mp hRun
      obtain ⟨hStored, rfl⟩ := parse_ok hLo (by omega) hParse
      obtain ⟨rfl, hLength, hRest, hKept⟩ := ih (fun j hj => hInside j (by simp [hj])) hNext
      have hPayload : d.payloadOf image items i = some payload := by
        simp [payloadOf, hItem, hStored]
      rw [List.length_set] at hLength hRest
      refine ⟨rfl, hLength, ?_, ?_⟩
      · intro j hj
        by_cases hLater : j ∈ rest
        · exact hRest j hLater
        · obtain rfl : j = i := (List.mem_cons.mp hj).resolve_right hLater
          refine ⟨payload, hPayload, ?_⟩
          intro hBound
          rw [hKept j hLater, List.getElem?_set_self hBound]
      · intro j hj
        rw [List.mem_cons, not_or] at hj
        rw [hKept j hj.2, List.getElem?_set_ne (Ne.symm hj.1)]

theorem parseMembers_run (hInside : Inside items group members)
    (hAll : ∀ i ∈ members, ∃ payload, d.payloadOf image items i = some payload) (s : Store) :
    ∃ out', d.parseMembers items group (Image.read image group.start (group.stop - group.start))
      members out s = .ok out' s := by
  induction members generalizing out with
  | nil => exact ⟨out, rfl⟩
  | cons i rest ih =>
      obtain ⟨item, hItem, hLo, hHi, hWide, hFits⟩ := hInside i (by simp)
      obtain ⟨payload, hPayload⟩ := hAll i (by simp)
      simp only [payloadOf, hItem, Option.bind_some, Option.map_eq_some_iff] at hPayload
      obtain ⟨⟨header, found⟩, hStored, -⟩ := hPayload
      obtain ⟨out', hRest⟩ := ih (fun j hj => hInside j (by simp [hj]))
        fun j hj => hAll j (by simp [hj])
      refine ⟨out', ?_⟩
      simp only [parseMembers, hItem]
      exact (bind_of_ok (parse_run hLo (by omega) hFits hStored s)).trans hRest

/-- The buffers of some groups, as they are read from an image. -/
def buffersOf (image : Nat → UInt8) (groups : List ReadGroup) : List (ReadGroup × Bytes) :=
  groups.map fun group => (group, Image.read image group.start (group.stop - group.start))

theorem parseGroups_ok {groups : List ReadGroup}
    (hInside : ∀ group ∈ groups, Inside items group group.members)
    (hRun : d.parseGroups items (buffersOf image groups) out s = .ok out' t) :
    t = s ∧ out'.length = out.length ∧
      ∀ i, i < out.length → (∃ group ∈ groups, i ∈ group.members) →
        ∃ payload, d.payloadOf image items i = some payload ∧ out'[i]? = some payload := by
  suffices h : t = s ∧ out'.length = out.length ∧
      (∀ group ∈ groups, ∀ i ∈ group.members, i < out.length →
        ∃ payload, d.payloadOf image items i = some payload ∧ out'[i]? = some payload) ∧
      ∀ i, (∀ group ∈ groups, i ∉ group.members) → out'[i]? = out[i]? by
    obtain ⟨hState, hLength, hMembers, -⟩ := h
    exact ⟨hState, hLength, fun i hi ⟨group, hGroup, hIn⟩ => hMembers group hGroup i hIn hi⟩
  induction groups generalizing out s with
  | nil =>
      cases hRun
      exact ⟨rfl, rfl, nofun, fun _ _ => rfl⟩
  | cons group rest ih =>
      obtain ⟨mid, u, hMembers, hNext⟩ := bind_eq_ok.mp hRun
      obtain ⟨rfl, hLength, hParsed, hKept⟩ := parseMembers_ok (hInside group (by simp)) hMembers
      obtain ⟨rfl, hLength', hRest, hKept'⟩ := ih (fun g hg => hInside g (by simp [hg])) hNext
      refine ⟨rfl, hLength'.trans hLength, ?_, ?_⟩
      · intro g hg i hi hBound
        by_cases hLater : ∃ g ∈ rest, i ∈ g.members
        · obtain ⟨g', hg', hi'⟩ := hLater
          exact hRest g' hg' i hi' (by omega)
        · rcases List.mem_cons.mp hg with rfl | hTail
          · obtain ⟨payload, hPayload, hOut⟩ := hParsed i hi
            refine ⟨payload, hPayload, ?_⟩
            rw [hKept' i (by simpa using hLater), hOut hBound]
          · exact absurd ⟨g, hTail, hi⟩ hLater
      · intro i hi
        rw [hKept' i fun g hg => hi g (by simp [hg]), hKept i (hi group (by simp))]

theorem parseGroups_run {groups : List ReadGroup}
    (hInside : ∀ group ∈ groups, Inside items group group.members)
    (hAll : ∀ group ∈ groups, ∀ i ∈ group.members,
      ∃ payload, d.payloadOf image items i = some payload) (s : Store) :
    ∃ out', d.parseGroups items (buffersOf image groups) out s = .ok out' s := by
  induction groups generalizing out with
  | nil => exact ⟨out, rfl⟩
  | cons group rest ih =>
      obtain ⟨mid, hMembers⟩ := parseMembers_run (hInside group (by simp))
        (hAll group (by simp)) s
      obtain ⟨out', hRest⟩ := ih (fun g hg => hInside g (by simp [hg]))
        fun g hg => hAll g (by simp [hg])
      exact ⟨out', (bind_of_ok hMembers).trans hRest⟩

end Members

theorem zip_buffers (image : Nat → UInt8) (groups : List ReadGroup) :
    groups.zip ((groups.map fun group => (group.start, group.stop - group.start)).map fun request =>
      Image.read image request.1 request.2) = buffersOf image groups := by
  induction groups with
  | nil => rfl
  | cons group rest ih =>
      simp only [List.map_cons, List.zip_cons_cons, ih]
      rfl

/-- The items of the ranges lie inside them, whose ends are then in range. -/
theorem Grouped.parts {items : List ReadItem} {done : List Nat} {groups : List ReadGroup}
    (h : Grouped items done groups) {group : ReadGroup} (hGroup : group ∈ groups)
    (hStop : group.stop < 2 ^ 64) : Inside items group group.members := by
  intro i hi
  obtain ⟨item, hItem, hLo, hHi⟩ := h.inside group hGroup i hi
  have hDown := pageDown_le item.offset
  have hUp := le_pageUp (item.offset + item.length)
  exact ⟨item, hItem, by omega, by omega, by omega, by omega⟩

theorem Grouped.start_le_stop {items : List ReadItem} {done : List Nat} {groups : List ReadGroup}
    (h : Grouped items done groups) {group : ReadGroup} (hGroup : group ∈ groups) :
    group.start ≤ group.stop := by
  obtain ⟨i, hi, -, -, -⟩ := h.stop group hGroup
  obtain ⟨item, -, hLo, hHi⟩ := h.inside group hGroup i hi
  have hDown := pageDown_le item.offset
  have hUp := le_pageUp (item.offset + item.length)
  omega

/-- Records are read together exactly when the file holds each of them. -/
theorem readMany_iff {items : List ReadItem} {out : List Bytes}
    (hFlush : PagedFile.flush .data s = .ok () v) (hPlan : v.plan = []) :
    d.readMany items s = .ok out t ↔
      (∀ item ∈ items, InPages item.offset item.length) ∧
        items.map (fun item => (d.storedRecord (v.file .data).bytes item.offset item.length
          item.id).map Prod.snd) = out.map some ∧ t = v := by
  have hGrouped := readGroups_grouped items
  have hStops : (∀ item ∈ items, InPages item.offset item.length) ↔
      ∀ group ∈ readGroups items, group.stop < 2 ^ 63 := by
    constructor
    · intro hItems group hGroup
      obtain ⟨i, -, item, hItem, hStop⟩ := hGrouped.stop group hGroup
      rw [hStop]
      exact hItems item (List.mem_of_getElem? hItem)
    · intro hGroups item hItem
      obtain ⟨i, hi, rfl⟩ := List.getElem_of_mem hItem
      obtain ⟨group, hGroup, hIn⟩ := hGrouped.cover i (mem_readOrder.mpr hi)
      obtain ⟨other, hOther, -, hHi⟩ := hGrouped.inside group hGroup i hIn
      obtain rfl : items[i] = other := Option.some.inj ((List.getElem?_eq_getElem hi).symm.trans hOther)
      exact Nat.lt_of_le_of_lt hHi (hGroups group hGroup)
  -- a parsed batch has the payload of every item
  have hParsed : (∀ group ∈ readGroups items, group.stop < 2 ^ 64) → ∀ out' w,
      d.parseGroups items (buffersOf (v.file .data).bytes (readGroups items))
        (List.replicate items.length []) v = .ok out' w →
      items.map (fun item => (d.storedRecord (v.file .data).bytes item.offset item.length
        item.id).map Prod.snd) = out'.map some ∧ w = v := by
    intro hGroups out' w hParse
    obtain ⟨rfl, hLength, hEach⟩ :=
      parseGroups_ok (fun group hGroup => hGrouped.parts hGroup (hGroups group hGroup)) hParse
    rw [List.length_replicate] at hLength hEach
    refine ⟨?_, rfl⟩
    apply List.ext_getElem (by simp [hLength])
    intro i hLeft hRight
    rw [List.length_map] at hLeft
    obtain ⟨payload, hPayload, hOut⟩ :=
      hEach i hLeft (hGrouped.cover i (mem_readOrder.mpr hLeft))
    rw [payloadOf, List.getElem?_eq_getElem hLeft, Option.bind_some] at hPayload
    rw [List.getElem_map, hPayload, List.getElem_map]
    exact congrArg some ((List.getElem?_eq_some_iff.mp hOut).2.symm)
  constructor
  · intro hRun
    obtain ⟨_, v', hFlush', hNext⟩ := bind_eq_ok.mp hRun
    obtain rfl : v = v' := (EStateM.Result.ok.inj (hFlush.symm.trans hFlush')).2
    split at hNext
    · cases hNext
    rename_i hSums
    rw [Bool.not_eq_true, overflows, List.any_eq_false] at hSums
    obtain ⟨buffers, w, hRead, hParse⟩ := bind_eq_ok.mp hNext
    have hRange := readVec_inRange hRead
    obtain ⟨rfl, rfl⟩ := readVec_ok hRead
    rw [v.tick_of_plan hPlan, zip_buffers] at hParse
    have hWide : ∀ group ∈ readGroups items, group.stop < 2 ^ 64 := by
      intro group hGroup
      obtain ⟨i, -, item, hItem, hStop⟩ := hGrouped.stop group hGroup
      have hSum := hSums item (List.mem_of_getElem? hItem)
      have hLt := pageUp_lt (item.offset + item.length)
      rw [decide_eq_true_iff, Nat.not_le] at hSum
      omega
    obtain ⟨hStored, rfl⟩ := hParsed hWide out t hParse
    refine ⟨hStops.mpr fun group hGroup => ?_, hStored, rfl⟩
    -- the range of a stored record is not empty, so the kernel was asked for it
    obtain ⟨i, hi, item, hItem, hStop⟩ := hGrouped.stop group hGroup
    have hMem := List.mem_map_of_mem
      (f := fun item => (d.storedRecord (t.file .data).bytes item.offset item.length item.id).map
        Prod.snd) (List.mem_of_getElem? hItem)
    rw [hStored] at hMem
    obtain ⟨payload, -, hPayload⟩ := List.mem_map.mp hMem
    obtain ⟨found, hFound, -⟩ := Option.map_eq_some_iff.mp hPayload.symm
    have hSome := total_pos hFound
    have hUp := le_pageUp (item.offset + item.length)
    obtain ⟨other, hOther, hLo, -⟩ := hGrouped.inside group hGroup i hi
    obtain rfl : item = other := Option.some.inj (hItem.symm.trans hOther)
    have hDown := pageDown_le item.offset
    have hSum := hRange _ (List.mem_map_of_mem hGroup)
    simp only at hSum
    omega
  · rintro ⟨hItems, hOut, rfl⟩
    have hGroups := hStops.mp hItems
    have hWide : ∀ group ∈ readGroups items, group.stop < 2 ^ 64 := fun group hGroup =>
      (hGroups group hGroup).trans (by decide)
    have hFits : overflows items = false := by
      rw [overflows, List.any_eq_false]
      intro item hItem hOver
      have hRange := hItems item hItem
      exact absurd (fits_of_pageUp hRange) (Nat.not_lt.mpr (of_decide_eq_true hOver))
    have hAll : ∀ group ∈ readGroups items, ∀ i ∈ group.members,
        ∃ payload, d.payloadOf (t.file .data).bytes items i = some payload := by
      intro group hGroup i hi
      obtain ⟨item, hItem, -⟩ := hGrouped.inside group hGroup i hi
      have hMem := List.mem_map_of_mem
        (f := fun item => (d.storedRecord (t.file .data).bytes item.offset item.length item.id).map
          Prod.snd) (List.mem_of_getElem? hItem)
      rw [hOut] at hMem
      obtain ⟨payload, -, hPayload⟩ := List.mem_map.mp hMem
      exact ⟨payload, by rw [payloadOf, hItem, Option.bind_some, ← hPayload]⟩
    obtain ⟨out', hParse⟩ := parseGroups_run
      (fun group hGroup => hGrouped.parts hGroup (hWide group hGroup)) hAll t
    obtain rfl : out' = out := by
      have hSame := (hParsed hWide out' t hParse).1
      rw [hOut] at hSame
      exact (List.map_injective_iff.mpr (Option.some_injective _) hSame).symm
    have hRange : ∀ request ∈ (readGroups items).map fun group => (group.start, group.stop - group.start),
        request.1 + request.2 < 2 ^ 63 := by
      intro request hRequest
      obtain ⟨group, hGroup, rfl⟩ := List.mem_map.mp hRequest
      have hLe := hGrouped.start_le_stop hGroup
      have hStop := hGroups group hGroup
      simp only
      omega
    have hRead := readVec_run (n := .data) hPlan hRange
    rw [readMany, bind_of_ok hFlush, hFits, if_neg Bool.false_ne_true]
    refine (bind_of_ok hRead).trans ?_
    rw [zip_buffers]
    exact hParse

end DataFile

end HeapStore
