import HeapStore.BlockIo.Requests
import HeapStore.Storage.FlatCache
import HeapStore.Storage.Guarded
import HeapStore.Storage.Shape

/-! What block I/O is asked for: whole pages at page offsets that do not meet,
from a staging table that stays small. A file that is opened for direct I/O
takes nothing else, and a ring may complete the requests in any order. -/
namespace HeapStore

open Effect PagedFile StagedWrite

/-- What every handle and every issued request satisfies. -/
structure Disciplined (s : Store) : Prop where
  shaped : ∀ n, Shaped n s
  apart : ∀ n, Store.PagewiseDisjoint (s.paged n).stagedWrites
  few : ∀ n, (s.paged n).stagedWrites.length ≤ MAX_STAGED_WRITES
  issued : ∀ w ∈ s.issued, PageRequests w

/-- A property of stores as a relation that a call may keep. -/
def Along (I : Store → Prop) (s t : Store) : Prop := I s → I t

/-- Block requests with the bytes of a list of writes in their buffers. -/
def Buffered (w : BlockIo.World) (reqs : List BlockIo.BlockReq) (requests : List (Nat × Bytes)) : Prop :=
  List.Forall₂ (fun r request => r.off = request.1 ∧ Image.read w.memory r.pointer r.len = request.2)
    reqs requests

/-- Served as block requests, the writes are made one after the other. -/
theorem Buffered.served {w : BlockIo.World} {reqs : List BlockIo.BlockReq}
    {requests : List (Nat × Bytes)} (h : Buffered w reqs requests) :
    w.served false reqs = { w with file := w.file.writes requests } := by
  unfold Buffered at h
  induction reqs generalizing w requests with
  | nil =>
      cases h
      rfl
  | cons r rest ih =>
      cases h with
      | @cons _ request _ others hFirst hRest =>
          have hNext := ih (w := w.transfer false r.off r.pointer r.len) hRest
          rw [BlockIo.World.served, List.foldl_cons]
          rw [BlockIo.World.served] at hNext
          have hWrite : (w.transfer false r.off r.pointer r.len).file =
              w.file.write request.1 request.2 := by
            rw [← hFirst.1, ← hFirst.2]
            rfl
          rw [hNext, hWrite]
          rfl

/-- Page requests go to places that do not meet. -/
theorem PageRequests.separate {write : IssuedWrite} (h : PageRequests write) {w : BlockIo.World}
    {reqs : List BlockIo.BlockReq} (hBuffered : Buffered w reqs write.requests) :
    BlockIo.Apart false reqs := by
  have hSame : reqs.map (fun r => (r.off, r.len)) =
      write.requests.map fun request => (request.1, request.2.length) := by
    unfold Buffered at hBuffered
    generalize write.requests = requests at hBuffered
    induction hBuffered with
    | nil => rfl
    | cons hFirst _ ih =>
        rw [List.map_cons, List.map_cons, ih, ← hFirst.1, ← hFirst.2, Image.length_read]
  have hApart : (write.requests.map fun request => (request.1, request.2.length)).Pairwise fun a b =>
      a.1 + a.2 ≤ b.1 ∨ b.1 + b.2 ≤ a.1 := List.pairwise_map.mpr h.disjoint
  rw [← hSame] at hApart
  exact (List.pairwise_map.mp hApart).imp fun hEnds => .inr (.inr hEnds)

/-- Only the places of the requests matter. -/
theorem PageRequests.of_places {w : IssuedWrite} {places : List (Nat × Nat)}
    (hSame : w.requests.map (fun r => (r.1, r.2.length)) = places)
    (hPages : ∀ p ∈ places, p.1 % PAGE = 0 ∧ p.2 % PAGE = 0)
    (hApart : places.Pairwise fun a b => a.1 + a.2 ≤ b.1 ∨ b.1 + b.2 ≤ a.1) : PageRequests w := by
  have hPlace (r : Nat × Bytes) (hr : r ∈ w.requests) : (r.1, r.2.length) ∈ places :=
    hSame ▸ List.mem_map_of_mem (f := fun r : Nat × Bytes => (r.1, r.2.length)) hr
  constructor
  case aligned => exact fun r hr => (hPages _ (hPlace r hr)).1
  case whole => exact fun r hr => (hPages _ (hPlace r hr)).2
  case disjoint =>
    rw [← hSame] at hApart
    exact List.pairwise_map.mp hApart

/-- The requests that staged writes are sealed to. -/
theorem PageRequests.of_staged {w : IssuedWrite} {ws : List StagedWrite}
    (hApart : Store.PagewiseDisjoint ws)
    (hSame : w.requests.map (fun r => (r.1, r.2.length)) = ws.map fun w => (w.base, w.stop - w.base)) :
    PageRequests w := by
  have hBase (w : StagedWrite) : w.base ≤ w.stop :=
    (Nat.le_add_right _ _).trans w.endOffset_le_stop
  apply PageRequests.of_places hSame
  · intro p hp
    obtain ⟨w, -, rfl⟩ := List.mem_map.mp hp
    have hDown := w.base_mod
    have hStop := w.stop_mod
    have hLe := hBase w
    simp only [PAGE] at *
    omega
  · apply List.pairwise_map.mpr
    apply hApart.imp
    intro a b hAway
    have hA := hBase a
    have hB := hBase b
    rw [StagedWrite.Apart] at hAway
    dsimp only
    omega

namespace Disciplined

variable {s t : Store} {n : FileName}

/-- Only the handles and the issued requests matter. -/
theorem of_paged (h : Disciplined s) (hPaged : t.paged = s.paged)
    (hIssued : ∀ w ∈ t.issued, PageRequests w) : Disciplined t := by
  constructor
  case shaped =>
    intro n
    constructor
    · rw [hPaged]
      exact (h.shaped n).heads
    · rw [hPaged]
      exact (h.shaped n).tails
  case apart => exact hPaged ▸ h.apart
  case few => exact hPaged ▸ h.few
  case issued => exact hIssued

theorem congr (h : Disciplined s) (hPaged : t.paged = s.paged) (hIssued : t.issued = s.issued) :
    Disciplined t := h.of_paged hPaged (hIssued ▸ h.issued)

/-- A new handle for one file. -/
theorem setPaged (h : Disciplined s) {pf : PagedFile}
    (hHeads : ∀ w ∈ pf.stagedWrites, ∀ page, w.head = some page → page.length = PAGE)
    (hTails : ∀ p page, pf.tailPages p = some page → page.length = PAGE)
    (hApart : Store.PagewiseDisjoint pf.stagedWrites)
    (hFew : pf.stagedWrites.length ≤ MAX_STAGED_WRITES) : Disciplined (s.setPaged n pf) := by
  have hPaged (m : FileName) : (s.setPaged n pf).paged m = if m = n then pf else s.paged m := by
    simp only [Store.setPaged_paged, Function.update_apply]
  constructor
  case shaped =>
    intro m
    constructor
    · rw [hPaged]
      split
      · exact hHeads
      · exact (h.shaped m).heads
    · rw [hPaged]
      split
      · exact hTails
      · exact (h.shaped m).tails
  case apart =>
    intro m
    rw [hPaged]
    split
    · exact hApart
    · exact h.apart m
  case few =>
    intro m
    rw [hPaged]
    split
    · exact hFew
    · exact h.few m
  case issued => exact h.issued

theorem reset (h : Disciplined s) (n : FileName) : Disciplined (s.setPaged n .fresh) :=
  h.setPaged (fun _ hw => absurd hw (List.not_mem_nil)) (fun _ _ hPage => by cases hPage)
    List.Pairwise.nil (Nat.zero_le _)

/-- The handle changes in nothing but its reserved end. -/
theorem setAllocated (h : Disciplined s) (n : FileName) (allocatedEnd : Nat) :
    Disciplined (s.setPaged n { s.paged n with allocatedEnd }) :=
  h.setPaged (h.shaped n).heads (h.shaped n).tails (h.apart n) (h.few n)

end Disciplined

namespace PagedFile

variable {n : FileName} {w : StagedWrite} {s t : Store}

/-! Sealing only reads, and caches tail pages. -/

theorem readOne_quiet (n : FileName) (off len : Nat) : Keeps Quiet (readOne n off len) := by
  intro s
  cases hRun : readOne n off len s with
  | ok buf t => exact final_of_ok hRun ▸ (readOne_ok hRun).2 ▸ Quiet.tick s
  | error e t => exact final_of_error hRun ▸ (readOne_error hRun).2 ▸ Quiet.tick s

theorem lastPage_quiet (w : StagedWrite) (last : Nat) : Keeps Quiet (lastPage n w last) := by
  apply Keeps.bind (R := Quiet) Quiet.trans (Keeps.same (x := getPaged n) Quiet.refl fun _ => rfl)
  intro pf
  split
  · exact Keeps.pure Quiet.refl _
  split
  · exact Keeps.pure Quiet.refl _
  · exact readOne_quiet n last PAGE

theorem suffixPage_quiet (w : StagedWrite) : Keeps Quiet (suffixPage n w) := by
  unfold suffixPage
  split
  · exact Keeps.bind (R := Quiet) Quiet.trans (lastPage_quiet w _) fun _ => Keeps.pure Quiet.refl _
  · exact Keeps.pure Quiet.refl _

/-- Where sealing ends nothing was issued, no staging table and no other handle was
touched, and cached tail pages are whole pages. -/
structure Sealing (n : FileName) (s t : Store) : Prop where
  issued : t.issued = s.issued
  others : ∀ m, m ≠ n → t.paged m = s.paged m
  staged : (t.paged n).stagedWrites = (s.paged n).stagedWrites
  tails : ∀ p page, (t.paged n).tailPages p = some page → page.length = PAGE

theorem Sealing.of_quiet (h : Quiet s t)
    (hTails : ∀ p page, (s.paged n).tailPages p = some page → page.length = PAGE) :
    Sealing n s t := by
  refine ⟨h.issued, fun m _ => by rw [h.paged], by rw [h.paged], ?_⟩
  rw [h.paged]
  exact hTails

theorem Sealing.trans {u : Store} (h : Sealing n s t) (k : Sealing n t u) : Sealing n s u where
  issued := k.issued.trans h.issued
  others m hm := (k.others m hm).trans (h.others m hm)
  staged := k.staged.trans h.staged
  tails := k.tails

theorem sealWrite_sealing (hHead : ∀ page, w.head = some page → page.length = PAGE)
    (hTails : ∀ p page, (s.paged n).tailPages p = some page → page.length = PAGE) :
    Sealing n s (final (sealWrite n w) s) := by
  cases hRun : sealWrite n w s with
  | ok request t =>
      have hShaped := (sealWrite_shaped hHead hTails hRun).2.2
      obtain ⟨suffix, u, hSuffix, hRest⟩ := bind_eq_ok.mp hRun
      have hQuiet := (suffixPage_quiet w).ok hSuffix
      cases hRest
      rw [final_of_ok hRun]
      refine ⟨hQuiet.issued, fun m hm => ?_, ?_, hShaped⟩
      · rw [Store.setPaged_paged, Function.update_of_ne hm, hQuiet.paged]
      · rw [Store.setPaged_paged, Function.update_self, hQuiet.paged]
        rfl
  | error e t =>
      rw [final_of_error hRun]
      rcases bind_eq_error.mp hRun with hSuffix | ⟨suffix, u, hSuffix, hRest⟩
      · exact Sealing.of_quiet ((suffixPage_quiet w).error hSuffix) hTails
      · cases hRest

theorem sealWrites_sealing {ws : List StagedWrite}
    (hHeads : ∀ w ∈ ws, ∀ page, w.head = some page → page.length = PAGE)
    (hTails : ∀ p page, (s.paged n).tailPages p = some page → page.length = PAGE) :
    Sealing n s (final (sealWrites n ws) s) := by
  induction ws generalizing s with
  | nil => exact Sealing.of_quiet (Quiet.refl s) hTails
  | cons w rest ih =>
      have hFirst := sealWrite_sealing (n := n) (hHeads w (List.mem_cons_self ..)) hTails
      have hRest (t : Store) (hSealing : Sealing n s t) : Sealing n s (final (sealWrites n rest) t) :=
        hSealing.trans (ih (fun w hw => hHeads w (List.mem_cons_of_mem _ hw)) hSealing.tails)
      refine final_bind (fun e t hRun => final_of_error hRun ▸ hFirst) fun request t hRun => ?_
      have hNext := hRest t (final_of_ok hRun ▸ hFirst)
      refine final_bind (fun e u hError => final_of_error hError ▸ hNext) fun requests u hOk => ?_
      exact final_of_ok hOk ▸ hNext

/-- The requests are those of the staged writes, in their order. -/
theorem sealWrites_map {ws : List StagedWrite} {requests : List (Nat × Bytes)}
    (hHeads : ∀ w ∈ ws, ∀ page, w.head = some page → page.length = PAGE)
    (hTails : ∀ p page, (s.paged n).tailPages p = some page → page.length = PAGE)
    (hRun : sealWrites n ws s = .ok requests t) :
    requests.map (fun r => (r.1, r.2.length)) = ws.map fun w => (w.base, w.stop - w.base) := by
  induction ws generalizing s requests with
  | nil =>
      cases hRun
      rfl
  | cons w rest ih =>
      obtain ⟨first, u, hFirst, hRun⟩ := bind_eq_ok.mp hRun
      obtain ⟨others, v, hOthers, hPure⟩ := bind_eq_ok.mp hRun
      cases hPure
      obtain ⟨hBase, hLength, hKept⟩ := sealWrite_shaped (hHeads w (List.mem_cons_self ..)) hTails hFirst
      rw [List.map_cons, List.map_cons, hBase, hLength,
        ih (fun w hw => hHeads w (List.mem_cons_of_mem _ hw)) hKept hOthers]

/-- A write issues its requests, whether it completes or fails. -/
theorem writeVec_final (n : FileName) (requests : List (Nat × Bytes)) (s : Store) :
    (final (writeVec n requests) s).paged = s.paged ∧ (final (writeVec n requests) s).issued =
      s.issued ++ [⟨n, requests, s.disk, s.durable⟩] := by
  unfold final writeVec
  cases s.outcome with
  | failure written => exact ⟨rfl, rfl⟩
  | success =>
      dsimp only
      by_cases hAll : (requests.takeWhile fun request =>
          inFileRange request.1 request.2.length).length = requests.length
      · rw [if_pos hAll]
        exact ⟨rfl, rfl⟩
      · rw [if_neg hAll]
        exact ⟨rfl, rfl⟩

end PagedFile

namespace Disciplined

variable {s t : Store} {n : FileName} {off : Nat} {bytes : Bytes}

theorem wrote (h : Disciplined s) {requests : List (Nat × Bytes)}
    (hRequests : PageRequests ⟨n, requests, s.disk, s.durable⟩) :
    Disciplined (final (writeVec n requests) s) := by
  obtain ⟨hPaged, hIssued⟩ := writeVec_final n requests s
  apply h.of_paged hPaged
  rw [hIssued]
  intro w hw
  rcases List.mem_append.mp hw with hOld | hNew
  · exact h.issued w hOld
  · rw [List.mem_singleton.mp hNew]
    exact hRequests

theorem sealed (h : Disciplined s) (hSealing : Sealing n s t) : Disciplined t := by
  have hStaged (m : FileName) : (t.paged m).stagedWrites = (s.paged m).stagedWrites := by
    by_cases hm : m = n
    · rw [hm, hSealing.staged]
    · rw [hSealing.others m hm]
  constructor
  case shaped =>
    intro m
    refine ⟨hStaged m ▸ (h.shaped m).heads, ?_⟩
    by_cases hm : m = n
    · rw [hm]
      exact hSealing.tails
    · rw [hSealing.others m hm]
      exact (h.shaped m).tails
  case apart =>
    intro m
    rw [hStaged m]
    exact h.apart m
  case few =>
    intro m
    rw [hStaged m]
    exact h.few m
  case issued => exact hSealing.issued ▸ h.issued

/-- A flush empties the staging table, and issues whole pages at most. -/
theorem flushed (h : Disciplined s) :
    Disciplined (final (flush n) s) ∧ ((final (flush n) s).paged n).stagedWrites = [] := by
  by_cases hEmpty : (s.paged n).stagedWrites = []
  · rw [final_of_ok (flush_of_staged_nil hEmpty)]
    exact ⟨h, hEmpty⟩
  have hTaken : Disciplined (s.setPaged n { s.paged n with stagedWrites := [] }) :=
    h.setPaged (fun _ hw => absurd hw List.not_mem_nil) (h.shaped n).tails List.Pairwise.nil
      (Nat.zero_le _)
  have hStart : final (flush n) s = final (do
      let requests ← sealWrites n (s.paged n).stagedWrites
      writeVec n requests
      modifyPaged n fun pf => { pf with pendingBytes := 0 })
      (s.setPaged n { s.paged n with stagedWrites := [] }) := by
    unfold final
    rw [flush, bind_of_ok (getPaged_apply n s)]
    simp only [List.isEmpty_iff, hEmpty, if_false]
    rw [bind_of_ok (modifyPaged_apply n _ s)]
  rw [hStart]
  generalize hTable : (s.setPaged n { s.paged n with stagedWrites := [] }) = u at hTaken
  have hNone : (u.paged n).stagedWrites = [] := by
    rw [← hTable, Store.setPaged_paged, Function.update_self]
  have hTails := (hTaken.shaped n).tails
  have hSealing := sealWrites_sealing (n := n) (h.shaped n).heads hTails
  have hSealed (v : Store) (hv : Sealing n u v) : Disciplined v ∧ (v.paged n).stagedWrites = [] :=
    ⟨hTaken.sealed hv, hv.staged.trans hNone⟩
  apply final_bind (Q := fun v => Disciplined v ∧ (v.paged n).stagedWrites = [])
  · exact fun e v hRun => hSealed v (final_of_error hRun ▸ hSealing)
  intro requests v hRun
  obtain ⟨hv, hKept⟩ := hSealed v (final_of_ok hRun ▸ hSealing)
  have hRequests : PageRequests ⟨n, requests, v.disk, v.durable⟩ :=
    .of_staged (h.apart n) (sealWrites_map (h.shaped n).heads hTails hRun)
  have hWritten : Disciplined (final (writeVec n requests) v) ∧
      ((final (writeVec n requests) v).paged n).stagedWrites = [] :=
    ⟨hv.wrote hRequests, by rw [(writeVec_final n requests v).1, hKept]⟩
  apply final_bind (Q := fun v => Disciplined v ∧ (v.paged n).stagedWrites = [])
  · exact fun e w hWrite => final_of_error hWrite ▸ hWritten
  intro _ w hWrite
  rw [final_of_ok hWrite] at hWritten
  refine ⟨hWritten.1.setPaged (hWritten.1.shaped n).heads (hWritten.1.shaped n).tails
    (hWritten.1.apart n) (hWritten.1.few n), ?_⟩
  change ((w.setPaged n { w.paged n with pendingBytes := 0 }).paged n).stagedWrites = []
  rw [Store.setPaged_paged, Function.update_self]
  exact hWritten.2

/-! Staging. -/

/-- An open staged write takes more bytes. -/
theorem extended (h : Disciplined s) {i : Nat}
    (hOpen : (s.paged n).openWrite? off bytes.length = some i) :
    Disciplined (s.setPaged n ((s.paged n).extendWrite i bytes)) := by
  obtain ⟨before, w, after, hStaged, rfl, hEnd, hClear⟩ := openWrite?_some hOpen
  have hNew : ((s.paged n).extendWrite before.length bytes).stagedWrites =
      before ++ grown w bytes :: after := by
    rw [extendWrite, hStaged]
    exact modify_length_append before after w _
  have hStop : (grown w bytes).stop = pageUp (off + bytes.length) := by
    rw [stop, grown_endOffset, hEnd]
  have hApart := h.apart n
  rw [hStaged, Store.PagewiseDisjoint, List.pairwise_append, List.pairwise_cons] at hApart
  obtain ⟨hBefore, ⟨-, hAfter⟩, hCross⟩ := hApart
  have hAway (v : StagedWrite) (hv : v ∈ before ++ after) : Apart (grown w bytes) v := by
    rw [Apart, hStop, grown_base]
    exact hClear v hv
  apply h.setPaged
  · rw [hNew]
    intro v hv
    have hOld : ∃ x ∈ (s.paged n).stagedWrites, x.head = v.head := by
      rcases List.mem_append.mp hv with hv | hv
      · exact ⟨v, by simp [hStaged, hv], rfl⟩
      rcases List.mem_cons.mp hv with rfl | hv
      · exact ⟨w, by simp [hStaged], rfl⟩
      · exact ⟨v, by simp [hStaged, hv], rfl⟩
    obtain ⟨x, hx, hHead⟩ := hOld
    exact hHead ▸ (h.shaped n).heads x hx
  · exact (h.shaped n).tails
  · rw [hNew, Store.PagewiseDisjoint, List.pairwise_append, List.pairwise_cons]
    refine ⟨hBefore, ⟨fun v hv => hAway v (List.mem_append_right _ hv), hAfter⟩, ?_⟩
    intro v hv u hu
    rcases List.mem_cons.mp hu with rfl | hu
    · exact (hAway v (List.mem_append_left _ hv)).symm
    · exact hCross v hv u (List.mem_cons_of_mem _ hu)
  · have hFew := h.few n
    rw [hStaged] at hFew
    rw [hNew]
    simpa using hFew

theorem captureHead_quiet (n : FileName) (off : Nat) : Keeps Quiet (captureHead n off) := by
  apply Keeps.bind (R := Quiet) Quiet.trans (Keeps.same (x := getPaged n) Quiet.refl fun _ => rfl)
  intro pf
  split
  · exact Keeps.pure Quiet.refl _
  split
  · exact Keeps.pure Quiet.refl _
  · exact Keeps.bind (R := Quiet) Quiet.trans (readOne_quiet n _ _) fun _ => Keeps.pure Quiet.refl _

/-- The captured page is a whole page, and there is one for every unaligned offset. -/
theorem captureHead_length {head : Option Bytes}
    (hTails : ∀ p page, (s.paged n).tailPages p = some page → page.length = PAGE)
    (hRun : captureHead n off s = .ok head t) :
    (∀ page, head = some page → page.length = PAGE) ∧
      ((head.getD []).take (off - pageDown off)).length = off - pageDown off := by
  have hPage := lt_pageDown_add off
  have hDown := pageDown_le off
  rw [captureHead, bind_of_ok (getPaged_apply n s)] at hRun
  by_cases hPad : off - pageDown off = 0
  · simp only [hPad, if_true] at hRun ⊢
    cases hRun
    exact ⟨fun _ hSome => (by cases hSome), rfl⟩
  have hWhole : ∃ page, head = some page ∧ page.length = PAGE := by
    simp only [hPad, if_false] at hRun
    cases hCache : (s.paged n).tailPages (pageDown off) with
    | some page =>
        simp only [hCache] at hRun
        cases hRun
        exact ⟨page, rfl, hTails _ _ hCache⟩
    | none =>
        simp only [hCache] at hRun
        obtain ⟨page, u, hRead, hPure⟩ := bind_eq_ok.mp hRun
        cases hPure
        obtain ⟨rfl, -⟩ := readOne_ok hRead
        exact ⟨_, rfl, Image.length_read _ _ _⟩
  obtain ⟨page, rfl, hLength⟩ := hWhole
  refine ⟨fun _ hSome => by cases hSome; exact hLength, ?_⟩
  rw [Option.getD_some, List.length_take, hLength]
  omega

/-- A new staged write, in pages that no other staged write uses. -/
theorem pushed (h : Disciplined s)
    (hClear : ∀ v ∈ (s.paged n).stagedWrites,
      pageUp (off + bytes.length) ≤ v.base ∨ v.stop ≤ pageDown off)
    (hFew : (s.paged n).stagedWrites.length < MAX_STAGED_WRITES) :
    Disciplined (final (pushWrite n off bytes) s) := by
  have hQuiet := captureHead_quiet n off s
  apply final_bind (Q := Disciplined)
  · intro e t hRun
    rw [final_of_error hRun] at hQuiet
    exact h.congr hQuiet.paged hQuiet.issued
  intro head t hRun
  rw [final_of_ok hRun] at hQuiet
  have hPaged : t.paged n = s.paged n := by rw [hQuiet.paged]
  obtain ⟨hHead, hLength⟩ := captureHead_length (h.shaped n).tails hRun
  have hDown := pageDown_le off
  generalize hBuffer : (head.getD []).take (off - pageDown off) ++ bytes = buffer
  have hStop : StagedWrite.stop ⟨off, buffer, head⟩ = pageUp (off + bytes.length) := by
    rw [stop, endOffset, ← hBuffer, List.length_append, hLength]
    change pageUp (pageDown off + (off - pageDown off + bytes.length)) = _
    congr 1
    omega
  change Disciplined (t.setPaged n { t.paged n with
    pendingBytes := (t.paged n).pendingBytes + bytes.length
    stagedWrites := (t.paged n).stagedWrites ++
      [⟨off, (head.getD []).take (off - pageDown off) ++ bytes, head⟩] })
  rw [hPaged, hBuffer]
  apply (h.congr hQuiet.paged hQuiet.issued).setPaged
  · intro w hw
    rcases List.mem_append.mp hw with hOld | hNew
    · exact (h.shaped n).heads w hOld
    · rw [List.mem_singleton.mp hNew]
      exact hHead
  · exact (h.shaped n).tails
  · rw [Store.PagewiseDisjoint, List.pairwise_append]
    refine ⟨h.apart n, List.pairwise_singleton _ _, ?_⟩
    intro v hv w hw
    rw [List.mem_singleton.mp hw, Apart, hStop]
    exact (hClear v hv).symm
  · rw [List.length_append, List.length_singleton]
    exact hFew

/-- Room is made in the table, whether or not the flush that it takes completes. -/
theorem flushFull_final (h : Disciplined s) : Disciplined (final (flushFull n) s) ∧
    ((final (flushFull n) s).paged n).stagedWrites.length < MAX_STAGED_WRITES := by
  unfold final flushFull
  rw [bind_of_ok (getPaged_apply n s)]
  by_cases hFull : MAX_STAGED_WRITES ≤ (s.paged n).stagedWrites.length
  · rw [if_pos hFull]
    have hFlushed := h.flushed (n := n)
    unfold final at hFlushed
    refine ⟨hFlushed.1, ?_⟩
    rw [hFlushed.2]
    decide
  · rw [if_neg hFull]
    exact ⟨h, by simpa using hFull⟩

/-- Once it completes, no staged write shares a page with the new bytes. -/
theorem flushOverlapping_final (h : Disciplined s) (off len : Nat)
    (hFew : (s.paged n).stagedWrites.length < MAX_STAGED_WRITES) :
    Disciplined (final (flushOverlapping n off len) s) ∧
      ∀ t, flushOverlapping n off len s = .ok () t →
        (t.paged n).stagedWrites.length < MAX_STAGED_WRITES ∧
        ∀ v ∈ (t.paged n).stagedWrites, pageUp (off + len) ≤ v.base ∨ v.stop ≤ pageDown off := by
  by_cases hFits : off + len + PAGE < 2 ^ 64
  · by_cases hAny : ((s.paged n).stagedWrites.any fun w =>
        w.overlaps (pageDown off) (pageUp (off + len))) = true
    · have hStart : flushOverlapping n off len s = flush n s := by
        rw [flushOverlapping, bind_of_ok (pageUpU64_run hFits s), bind_of_ok (getPaged_apply n s),
          if_pos hAny]
      have hFlushed := h.flushed (n := n)
      unfold final at hFlushed ⊢
      rw [hStart]
      refine ⟨hFlushed.1, fun t hRun => ?_⟩
      rw [hRun] at hFlushed
      rw [hFlushed.2]
      exact ⟨by decide, fun _ hv => absurd hv List.not_mem_nil⟩
    · have hStart : flushOverlapping n off len s = .ok () s := by
        rw [flushOverlapping, bind_of_ok (pageUpU64_run hFits s), bind_of_ok (getPaged_apply n s),
          if_neg hAny]
        rfl
      rw [final_of_ok hStart]
      refine ⟨h, fun t hRun => ?_⟩
      cases hStart.symm.trans hRun
      refine ⟨hFew, fun v hv => overlaps_eq_false fun hOverlaps => hAny ?_⟩
      exact List.any_eq_true.mpr ⟨v, hv, hOverlaps⟩
  · -- rounding the new end up panics before anything is looked at
    have hPanic : flushOverlapping n off len s = .error (.panic "attempt to add with overflow") s := by
      rw [flushOverlapping, pageUpU64, if_pos (Nat.not_lt.mp hFits)]
      rfl
    rw [final_of_error hPanic]
    refine ⟨h, fun t hRun => ?_⟩
    rw [hPanic] at hRun
    cases hRun

/-- A staged write is taken by an open one, or gets pages of its own. -/
theorem staged (h : Disciplined s) (parts : List Bytes) : Disciplined (final (stage n off parts) s) := by
  unfold final stage
  rw [bind_of_ok (getPaged_apply n s)]
  split_ifs
  · exact h
  cases hOpen : (s.paged n).openWrite? off parts.flatten.length with
  | some i => exact h.extended hOpen
  | none =>
      change Disciplined (final (flushFull n >>= fun _ =>
        flushOverlapping n off parts.flatten.length >>= fun _ => pushWrite n off parts.flatten) s)
      have hFull := h.flushFull_final (n := n)
      apply final_bind
      · exact fun e t hRun => (final_of_error hRun ▸ hFull).1
      intro _ t hRun
      rw [final_of_ok hRun] at hFull
      have hClear := hFull.1.flushOverlapping_final off parts.flatten.length hFull.2
      apply final_bind
      · exact fun e u hRun => final_of_error hRun ▸ hClear.1
      intro _ u hRun
      obtain ⟨hFew, hApart⟩ := hClear.2 u hRun
      exact (final_of_ok hRun ▸ hClear.1).pushed hApart hFew

/-! Creating files and reserving space. -/

theorem synced (h : Disciplined s) (n : FileName) : Disciplined (final (sync n) s) := by
  unfold final sync
  cases s.outcome <;> exact h.congr rfl rfl

theorem truncated (h : Disciplined s) (n : FileName) : Disciplined (final (truncate n) s) := by
  unfold final truncate
  cases s.outcome <;> exact h.congr rfl rfl

/-- A new file gets its header page, and nothing is staged for it. -/
theorem created (h : Disciplined s) (kind layout : UInt8) :
    Disciplined (final (create n kind layout) s) := by
  have hHeader (w : IssuedWrite) (hw : w.requests = [(0, FileHeader.encode ⟨kind, layout⟩)]) :
      PageRequests w := by
    have hPlaces : w.requests.map (fun r => (r.1, r.2.length)) = [(0, PAGE)] := by
      rw [hw, List.map_singleton, FileHeader.length_encode]
    apply PageRequests.of_places hPlaces
    · intro p hp
      rw [List.mem_singleton.mp hp]
      exact ⟨rfl, Nat.mod_self PAGE⟩
    · exact List.pairwise_singleton _ _
  apply final_bind (Q := Disciplined)
  · exact fun e t hRun => final_of_error hRun ▸ h.truncated n
  intro _ t hTruncate
  have ht : Disciplined (t.setPaged n .fresh) := (final_of_ok hTruncate ▸ h.truncated n).reset n
  change Disciplined (final (writeVec n [(0, FileHeader.encode ⟨kind, layout⟩)] >>= fun _ =>
    sync n >>= fun _ => modifyPaged n fun pf => { pf with allocatedEnd := PAGE }) (t.setPaged n .fresh))
  have hWritten := ht.wrote (n := n) (hHeader _ rfl)
  apply final_bind
  · exact fun e u hRun => final_of_error hRun ▸ hWritten
  intro _ u hWrite
  have hSynced := (final_of_ok hWrite ▸ hWritten).synced n
  apply final_bind
  · exact fun e v hRun => final_of_error hRun ▸ hSynced
  intro _ v hSync
  exact (final_of_ok hSync ▸ hSynced).setAllocated n PAGE

theorem fallocated (h : Disciplined s) (n : FileName) (offset len : Nat) :
    Disciplined (final (fallocate n offset len) s) := by
  cases hRun : fallocate n offset len s with
  | ok _ t =>
      rw [final_of_ok hRun, (fallocate_ok hRun).2]
      exact h.congr rfl rfl
  | error e t =>
      rw [final_of_error hRun]
      unfold fallocate at hRun
      cases hOutcome : s.outcome with
      | failure written =>
          rw [hOutcome] at hRun
          cases hRun
          exact h.congr rfl rfl
      | success =>
          rw [hOutcome] at hRun
          dsimp only at hRun
          split at hRun <;> cases hRun
          exact h.congr rfl rfl

theorem reserved (h : Disciplined s) (upto chunk : Nat) :
    Disciplined (final (ensureAlloc n upto chunk) s) := by
  unfold final ensureAlloc
  rw [bind_of_ok (getPaged_apply n s)]
  split_ifs
  · exact h
  · exact h
  apply final_bind (Q := Disciplined)
  · exact fun e t hRun => (addU64_error hRun).2.1 ▸ h
  intro chunkEnd t hRun
  obtain ⟨-, rfl, -⟩ := addU64_ok hRun
  apply final_bind (Q := Disciplined)
  · exact fun e u hUp => (pageUpU64_error hUp).2.1 ▸ h
  intro newEnd u hUp
  obtain ⟨-, rfl, -⟩ := pageUpU64_ok hUp
  have hGrown := h.fallocated n (u.paged n).allocatedEnd (newEnd - (u.paged n).allocatedEnd)
  apply final_bind (Q := Disciplined)
  · exact fun e v hAlloc => final_of_error hAlloc ▸ hGrown
  intro _ v hAlloc
  exact (final_of_ok hAlloc ▸ hGrown).setAllocated n _

/-- Every call of a heap keeps the discipline. -/
theorem guarded : Guarded (Along Disciplined) where
  refl _ := id
  trans hFirst hSecond h := hSecond (hFirst h)
  readVec n requests s h := by
    cases hRun : readVec n requests s with
    | ok out t =>
        rw [final_of_ok hRun, (readVec_ok hRun).2]
        exact h.congr rfl rfl
    | error e t =>
        rw [final_of_error hRun, (readVec_error hRun).2]
        exact h.congr rfl rfl
  sync n s h := h.synced n
  flush n s h := h.flushed.1
  stageMeta n _ off parts s h := h.staged parts
  createMeta n _ kind layout s h := h.created kind layout
  noteAlloc upto s h := h.setAllocated .data _
  reset n s h := h.reset n
  handle n s t hKept h := (hKept h).setPaged (h.shaped n).heads (h.shaped n).tails (h.apart n) (h.few n)
  stageData off parts s h := h.staged parts
  createData kind layout s h := h.created kind layout
  ensureAlloc upto chunk s h := h.reserved upto chunk

end Disciplined

end HeapStore
