import HeapStore.Placement.BucketAlloc
import HeapStore.Format.Codec

/-! The victim search ends within three passes for each bucket, and its result
is the first grant number whose victim position settles it. -/
namespace HeapStore

/-- Inside a section the next grant number names the next victim position; a
new section starts at position zero. -/
theorem victimIndex_succ {g : Nat} (hPos : 0 < g) :
    (Nat.log2 (g + 1) = Nat.log2 g ∧ victimIndex (g + 1) = victimIndex g + 1) ∨
      (Nat.log2 (g + 1) = Nat.log2 g + 1 ∧ victimIndex (g + 1) = 0 ∧
        g + 1 = 2 ^ (Nat.log2 g + 1)) := by
  have hLe : 2 ^ Nat.log2 g ≤ g := Nat.log2_self_le (by omega)
  have hLt : g < 2 ^ (Nat.log2 g + 1) := Nat.lt_log2_self
  rcases Nat.lt_or_ge (g + 1) (2 ^ (Nat.log2 g + 1)) with hIn | hOut
  · left
    have hLog : Nat.log2 (g + 1) = Nat.log2 g := by
      rw [Nat.log2_eq_iff (by omega)]
      exact ⟨by omega, hIn⟩
    refine ⟨hLog, ?_⟩
    rw [victimIndex, victimIndex, hLog]
    omega
  · right
    have hEq : g + 1 = 2 ^ (Nat.log2 g + 1) := by omega
    have hLog : Nat.log2 (g + 1) = Nat.log2 g + 1 := by rw [hEq, Nat.log2_two_pow]
    refine ⟨hLog, ?_, hEq⟩
    rw [victimIndex, hLog, ← hEq, Nat.sub_self]

namespace BucketPlacement

variable {states : List BucketState} {need g next fuel : Nat} {grant : Grant}

/-- The passes that a search from this grant number can need with `n` buckets:
while a section is no longer than the buckets none of its positions ends it. -/
def passes (n g : Nat) : Nat :=
  if 2 ^ Nat.log2 g ≤ n then 3 * n + 1 - g else n + 1 - victimIndex g

theorem victimIndex_lt_of_examine (h : examine states need g = none) :
    0 < g ∧ victimIndex g < states.length := by
  unfold examine at h
  split at h
  · cases h
  split at h
  · cases h
  exact ⟨by omega, by omega⟩

/-- A pass that settles nothing leaves fewer passes. -/
theorem passes_succ {n : Nat} (hPos : 0 < g) (hIndex : victimIndex g < n) :
    passes n (g + 1) < passes n g := by
  have hLe : 2 ^ Nat.log2 g ≤ g := Nat.log2_self_le (by omega)
  have hDef : victimIndex g = g - 2 ^ Nat.log2 g := rfl
  rcases victimIndex_succ hPos with ⟨hLog, hNext⟩ | ⟨hLog, hNext, hEq⟩
  · simp only [passes, hLog, hNext]
    have hLt : g < 2 ^ (Nat.log2 g + 1) := Nat.lt_log2_self
    rw [Nat.pow_succ] at hLt
    split <;> omega
  · rw [Nat.pow_succ] at hEq
    simp only [passes, hLog, hNext, Nat.pow_succ]
    split <;> split <;> omega

theorem passes_le {n : Nat} (hn : 0 < n) (hPos : 0 < g) : passes n g ≤ 3 * n := by
  unfold passes
  split <;> omega

/-- The search ends as soon as it has the passes that the bound asks for. -/
theorem searchVictim_isSome (hPos : 0 < g) (hFuel : passes states.length g ≤ fuel)
    (hn : 0 < fuel) : (searchVictim states need fuel g).isSome := by
  induction fuel generalizing g with
  | zero => omega
  | succ fuel ih =>
      rw [searchVictim]
      cases hExamine : examine states need g with
      | some grant => rfl
      | none =>
          have hIndex := (victimIndex_lt_of_examine hExamine).2
          have hLess := passes_succ hPos hIndex
          have hMore : 0 < passes states.length (g + 1) := by
            have hDef : victimIndex (g + 1) = g + 1 - 2 ^ Nat.log2 (g + 1) := rfl
            rcases victimIndex_succ hPos with ⟨hLog, hNext⟩ | ⟨hLog, hNext, hEq⟩
            · simp only [passes]
              split <;> omega
            · simp only [passes]
              split <;> omega
          exact ih (by omega) (by omega) (by omega)

theorem searchVictim_ends (states : List BucketState) (need g : Nat) :
    ∃ grant next, searchVictim states need (searchFuel states) g = some (grant, next) := by
  have hSome : (searchVictim states need (searchFuel states) g).isSome := by
    rcases Nat.eq_zero_or_pos g with rfl | hPos
    · rfl
    rcases Nat.eq_zero_or_pos states.length with hNil | hn
    · simp only [searchFuel, hNil, searchVictim, examine, Nat.zero_le, if_true]
      rw [if_neg (by omega)]
      rfl
    · exact searchVictim_isSome hPos (by have := passes_le hn hPos; unfold searchFuel; omega)
        (by unfold searchFuel; omega)
  obtain ⟨⟨grant, next⟩, hSearch⟩ := Option.isSome_iff_exists.mp hSome
  exact ⟨grant, next, hSearch⟩

/-- The result is that of the first grant number that settles the search. -/
theorem searchVictim_eq_some (h : searchVictim states need fuel g = some (grant, next)) :
    ∃ last, g ≤ last ∧ last < g + fuel ∧ next = last + 1 ∧ examine states need last = some grant ∧
      ∀ k, g ≤ k → k < last → examine states need k = none := by
  induction fuel generalizing g with
  | zero => cases h
  | succ fuel ih =>
      rw [searchVictim] at h
      cases hExamine : examine states need g with
      | some first =>
          simp only [hExamine] at h
          cases h
          exact ⟨g, Nat.le_refl _, by omega, rfl, hExamine, fun k _ _ => by omega⟩
      | none =>
          simp only [hExamine] at h
          obtain ⟨last, hLo, hHi, hNext, hLast, hBefore⟩ := ih h
          refine ⟨last, by omega, by omega, hNext, hLast, fun k hk hkLast => ?_⟩
          rcases Nat.eq_or_lt_of_le hk with rfl | hk
          · exact hExamine
          · exact hBefore k hk hkLast

theorem examine_whole (h : examine states need g = some .whole) : g = 0 := by
  unfold examine at h
  split at h
  · assumption
  split at h
  · cases h
  split at h
  · cases h
  split at h <;> cases h

theorem examine_cut {i : Nat} (h : examine states need g = some (.cut i)) :
    i = victimIndex g ∧ ∃ victim, lastExtent? states i = some victim ∧ need ≤ victim.freeTail := by
  unfold examine at h
  split at h
  · cases h
  split at h
  · cases h
  split at h
  · cases h
  rename_i victim hVictim
  split at h
  · cases h
    exact ⟨rfl, victim, hVictim, by assumption⟩
  · cases h

theorem examine_missing (h : examine states need g = some .missing) :
    victimIndex g < states.length ∧ lastExtent? states (victimIndex g) = none := by
  unfold examine at h
  split at h
  · cases h
  split at h
  · cases h
  split at h
  · rename_i hIn _ hNone
    exact ⟨by omega, hNone⟩
  split at h <;> cases h

end BucketPlacement

end HeapStore
