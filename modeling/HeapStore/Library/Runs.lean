import Mathlib.Data.List.Basic

/-! Runs of a system that takes labelled steps: composition, invariants, and
simulation of one system by another. -/
namespace Runs

universe u v w

variable {σ : Type u} {τ : Type v} {ε : Type w} {step : σ → ε → σ → Prop} {s t m : σ}
  {events more : List ε}

/-- A sequence of steps, with the list of their labels. -/
inductive Steps (step : σ → ε → σ → Prop) (s : σ) : List ε → σ → Prop where
  | refl : Steps step s [] s
  | step {events : List ε} {e : ε} {m t : σ} (prior : Steps step s events m)
      (last : step m e t) : Steps step s (events ++ [e]) t

theorem Steps.trans (h : Steps step s events m) (k : Steps step m more t) :
    Steps step s (events ++ more) t := by
  induction k with
  | refl => simpa using h
  | step _ last ih =>
      rw [← List.append_assoc]
      exact ih.step last

/-- What the first state satisfies, and every step preserves along the labels
so far, the last state satisfies. -/
theorem Steps.invariant {I : List ε → σ → Prop}
    (hStep : ∀ events s e t, I events s → step s e t → I (events ++ [e]) t)
    (hInit : I events s) (hRun : Steps step s more t) : I (events ++ more) t := by
  induction hRun with
  | refl => simpa using hInit
  | step _ last ih =>
      rw [← List.append_assoc]
      exact hStep _ _ _ _ ih last

/-- What the first state satisfies, and every step preserves, the last state satisfies. -/
theorem Steps.preserves {I : σ → Prop} (hStep : ∀ s e t, I s → step s e t → I t) (hInit : I s)
    (hRun : Steps step s events t) : I t := by
  induction hRun with
  | refl => exact hInit
  | step _ last ih => exact hStep _ _ _ ih last

/-- A run is simulated by another system step by step. -/
theorem Steps.simulate {step' : τ → ε → τ → Prop} {R : List ε → σ → τ → Prop}
    (hStep : ∀ events s a e t, R events s a → step s e t → ∃ b, step' a e b ∧ R (events ++ [e]) t b)
    {a : τ} (hInit : R events s a) (hRun : Steps step s more t) :
    ∃ b, Steps step' a more b ∧ R (events ++ more) t b := by
  induction hRun with
  | refl => exact ⟨a, .refl, by simpa using hInit⟩
  | step _ last ih =>
      obtain ⟨b, hPrior, hRel⟩ := ih
      obtain ⟨c, hNext, hRel'⟩ := hStep _ _ _ _ _ hRel last
      exact ⟨c, hPrior.step hNext, by rwa [← List.append_assoc]⟩

/-- A run is simulated by another system whose labels are those of the first, renamed. -/
theorem Steps.simulate_map {δ : Type w} {step' : τ → δ → τ → Prop} {R : σ → τ → Prop} (f : ε → δ)
    (hStep : ∀ s a e t, R s a → step s e t → ∃ b, step' a (f e) b ∧ R t b)
    {a : τ} (hInit : R s a) (hRun : Steps step s more t) : ∃ b, Steps step' a (more.map f) b ∧ R t b := by
  induction hRun with
  | refl => exact ⟨a, .refl, hInit⟩
  | step _ last ih =>
      obtain ⟨b, hPrior, hRel⟩ := ih
      obtain ⟨c, hNext, hRel'⟩ := hStep _ _ _ _ hRel last
      refine ⟨c, ?_, hRel'⟩
      rw [List.map_append]
      exact hPrior.step hNext

end Runs
