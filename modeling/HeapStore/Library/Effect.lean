import Mathlib.Data.List.Basic

/-! Programs over a state that may fail and keep the state they failed in.
The rules below take a completed run of a composed program apart, and bound
what any run, completed or failed, does to the state. -/
namespace Effect

universe u

variable {ε σ τ α β : Type u}

/-- The state a program leaves, whatever its outcome. -/
def final (x : EStateM ε σ α) (s : σ) : σ :=
  match x s with
  | .ok _ t => t
  | .error _ t => t

/-- Run a program on one component of a larger state. -/
def zoom (get : τ → σ) (put : σ → τ → τ) (x : EStateM ε σ α) : EStateM ε τ α := fun t =>
  match x (get t) with
  | .ok a s => .ok a (put s t)
  | .error e s => .error e (put s t)

/-- Every run relates the state before to the state after. -/
def Keeps (R : σ → σ → Prop) (x : EStateM ε σ α) : Prop := ∀ s, R s (final x s)

/-- From this state the program can fail in the allowed ways only. -/
def FailsOnly (allowed : ε → Prop) (x : EStateM ε σ α) (s : σ) : Prop :=
  ∀ e t, x s = .error e t → allowed e

/-- From this state the program either completes with the postcondition or
fails in an allowed way. -/
def Meets (allowed : ε → Prop) (post : α → σ → Prop) (x : EStateM ε σ α) (s : σ) : Prop :=
  match x s with
  | .ok a t => post a t
  | .error e _ => allowed e

theorem bind_apply (x : EStateM ε σ α) (f : α → EStateM ε σ β) (s : σ) :
    (x >>= f) s = match x s with
      | .ok a t => f a t
      | .error e t => .error e t := rfl

@[simp] theorem pure_apply (a : α) (s : σ) : (pure a : EStateM ε σ α) s = .ok a s := rfl

@[simp] theorem throw_apply (e : ε) (s : σ) :
    (throw e : EStateM ε σ α) s = .error e s := rfl

@[simp] theorem get_apply (s : σ) : (get : EStateM ε σ σ) s = .ok s s := rfl

@[simp] theorem modify_apply (f : σ → σ) (s : σ) :
    (modify f : EStateM ε σ PUnit) s = .ok ⟨⟩ (f s) := rfl

theorem bind_of_ok {x : EStateM ε σ α} {f : α → EStateM ε σ β} {s t : σ} {a : α}
    (h : x s = .ok a t) : (x >>= f) s = f a t := by
  simp [bind_apply, h]

theorem bind_of_error {x : EStateM ε σ α} {f : α → EStateM ε σ β} {s t : σ} {e : ε}
    (h : x s = .error e t) : (x >>= f) s = .error e t := by
  simp [bind_apply, h]

/-- A composed program completes only when both of its parts do. -/
theorem bind_eq_ok {x : EStateM ε σ α} {f : α → EStateM ε σ β} {s u : σ} {b : β} :
    (x >>= f) s = .ok b u ↔ ∃ a t, x s = .ok a t ∧ f a t = .ok b u := by
  rw [bind_apply]
  cases h : x s with
  | ok a t => simp
  | error e t => simp

/-- A composed program fails in its first part or, after it, in its second. -/
theorem bind_eq_error {x : EStateM ε σ α} {f : α → EStateM ε σ β} {s u : σ} {e : ε} :
    (x >>= f) s = .error e u ↔
      x s = .error e u ∨ ∃ a t, x s = .ok a t ∧ f a t = .error e u := by
  rw [bind_apply]
  cases h : x s with
  | ok a t => simp
  | error e t => simp

theorem zoom_eq_ok {get : τ → σ} {put : σ → τ → τ} {x : EStateM ε σ α} {t u : τ} {a : α} :
    zoom get put x t = .ok a u ↔ ∃ s, x (get t) = .ok a s ∧ u = put s t := by
  unfold zoom
  cases h : x (get t) with
  | ok b s => simp [eq_comm]
  | error e s => simp

theorem zoom_eq_error {get : τ → σ} {put : σ → τ → τ} {x : EStateM ε σ α} {t u : τ} {e : ε} :
    zoom get put x t = .error e u ↔ ∃ s, x (get t) = .error e s ∧ u = put s t := by
  unfold zoom
  cases h : x (get t) with
  | ok b s => simp
  | error e s => simp [eq_comm]

theorem zoom_of_ok {get : τ → σ} {put : σ → τ → τ} {x : EStateM ε σ α} {t : τ} {s : σ} {a : α}
    (h : x (get t) = .ok a s) : zoom get put x t = .ok a (put s t) :=
  zoom_eq_ok.mpr ⟨s, h, rfl⟩

theorem final_of_ok {x : EStateM ε σ α} {s t : σ} {a : α} (h : x s = .ok a t) :
    final x s = t := by
  simp [final, h]

theorem final_of_error {x : EStateM ε σ α} {s t : σ} {e : ε} (h : x s = .error e t) :
    final x s = t := by
  simp [final, h]

/-- Programs with the same result end in the same state. -/
theorem final_congr {x y : EStateM ε σ α} {s t : σ} (h : x s = y t) : final x s = final y t := by
  rw [final, final, h]

theorem FailsOnly.pure (allowed : ε → Prop) (a : α) (s : σ) :
    FailsOnly allowed (Pure.pure a : EStateM ε σ α) s := fun _ _ h => by cases h

theorem FailsOnly.congr {allowed : ε → Prop} {x y : EStateM ε σ α} {s t : σ} (h : x s = y t) :
    FailsOnly allowed x s ↔ FailsOnly allowed y t := by
  unfold FailsOnly
  rw [h]

theorem FailsOnly.bind {allowed : ε → Prop} {x : EStateM ε σ α} {f : α → EStateM ε σ β} {s : σ}
    (hx : FailsOnly allowed x s) (hf : ∀ a t, x s = .ok a t → FailsOnly allowed (f a) t) :
    FailsOnly allowed (x >>= f) s := by
  intro e t h
  rcases bind_eq_error.mp h with hFirst | ⟨a, u, hFirst, hSecond⟩
  · exact hx e t hFirst
  · exact hf a u hFirst e t hSecond

theorem FailsOnly.zoom {allowed : ε → Prop} {get : τ → σ} {put : σ → τ → τ}
    {x : EStateM ε σ α} {t : τ} (h : FailsOnly allowed x (get t)) :
    FailsOnly allowed (zoom get put x) t := by
  intro e u hRun
  obtain ⟨s, hInner, -⟩ := zoom_eq_error.mp hRun
  exact h e s hInner

section Meets

variable {allowed : ε → Prop} {post : α → σ → Prop} {x : EStateM ε σ α} {s t : σ}

theorem meets_iff : Meets allowed post x s ↔
    (∀ a t, x s = .ok a t → post a t) ∧ FailsOnly allowed x s := by
  unfold Meets FailsOnly
  cases x s with
  | ok a t => simp
  | error e t => simp

theorem Meets.ok (h : Meets allowed post x s) {a : α} (hRun : x s = .ok a t) : post a t :=
  (meets_iff.mp h).1 a t hRun

theorem Meets.failsOnly (h : Meets allowed post x s) : FailsOnly allowed x s := (meets_iff.mp h).2

theorem Meets.of_ok {a : α} (hRun : x s = .ok a t) (hPost : post a t) : Meets allowed post x s := by
  rw [Meets, hRun]
  exact hPost

theorem Meets.of_error {e : ε} (hRun : x s = .error e t) (hAllowed : allowed e) :
    Meets allowed post x s := by
  rw [Meets, hRun]
  exact hAllowed

theorem Meets.pure {a : α} (h : post a s) : Meets allowed post (Pure.pure a) s := h

theorem Meets.throw {e : ε} (h : allowed e) : Meets allowed post (throw e : EStateM ε σ α) s := h

theorem Meets.mono {allowed' : ε → Prop} {post' : α → σ → Prop} (h : Meets allowed post x s)
    (hFail : ∀ e, allowed e → allowed' e) (hPost : ∀ a t, post a t → post' a t) :
    Meets allowed' post' x s := by
  unfold Meets at h ⊢
  cases hRun : x s with
  | ok a t =>
      rw [hRun] at h
      exact hPost a t h
  | error e t =>
      rw [hRun] at h
      exact hFail e h

/-- The rule of sequencing: what the first part establishes the second may assume. -/
theorem Meets.bind {post' : β → σ → Prop} {f : α → EStateM ε σ β} (hx : Meets allowed post x s)
    (hf : ∀ a t, post a t → Meets allowed post' (f a) t) : Meets allowed post' (x >>= f) s := by
  unfold Meets at hx
  cases hRun : x s with
  | ok a t =>
      rw [hRun] at hx
      have hSecond := hf a t hx
      unfold Meets at hSecond ⊢
      rwa [bind_of_ok hRun]
  | error e t =>
      rw [hRun] at hx
      exact Meets.of_error (bind_of_error hRun) hx

/-- A first part that is known to complete is left out. -/
theorem Meets.bind_of_ok {post' : β → σ → Prop} {f : α → EStateM ε σ β} {a : α}
    (hRun : x s = .ok a t) (h : Meets allowed post' (f a) t) : Meets allowed post' (x >>= f) s := by
  unfold Meets at h ⊢
  rwa [Effect.bind_of_ok hRun]

/-- A first part that only returns a value is left out. -/
theorem Meets.pure_bind {post' : β → σ → Prop} {f : α → EStateM ε σ β} {a : α}
    (h : Meets allowed post' (f a) s) : Meets allowed post' (Pure.pure a >>= f) s := h

end Meets

theorem Keeps.ok {R : σ → σ → Prop} {x : EStateM ε σ α} (keeps : Keeps R x) {s t : σ} {a : α}
    (h : x s = .ok a t) : R s t := by
  simpa only [final_of_ok h] using keeps s

theorem Keeps.error {R : σ → σ → Prop} {x : EStateM ε σ α} (keeps : Keeps R x) {s t : σ} {e : ε}
    (h : x s = .error e t) : R s t := by
  simpa only [final_of_error h] using keeps s

theorem Keeps.pure {R : σ → σ → Prop} (hRefl : ∀ s, R s s) (a : α) :
    Keeps R (Pure.pure a : EStateM ε σ α) := hRefl

theorem Keeps.throw {R : σ → σ → Prop} (hRefl : ∀ s, R s s) (e : ε) :
    Keeps R (throw e : EStateM ε σ α) := hRefl

theorem Keeps.bind {R : σ → σ → Prop} (hTrans : ∀ {s t u}, R s t → R t u → R s u)
    {x : EStateM ε σ α} {f : α → EStateM ε σ β} (hx : Keeps R x) (hf : ∀ a, Keeps R (f a)) :
    Keeps R (x >>= f) := by
  intro s
  cases h : x s with
  | ok a t =>
      have hFirst := hx.ok h
      have hSecond := hf a t
      unfold final at hSecond ⊢
      rw [bind_of_ok h]
      exact hTrans hFirst hSecond
  | error e t =>
      have hFirst := hx.error h
      unfold final
      rw [bind_of_error h]
      exact hFirst

/-- What holds where a composed program ends: where its first part fails, or where
its second part ends. -/
theorem final_bind {Q : σ → Prop} {x : EStateM ε σ α} {f : α → EStateM ε σ β} {s : σ}
    (hError : ∀ e t, x s = .error e t → Q t)
    (hOk : ∀ a t, x s = .ok a t → Q (final (f a) t)) : Q (final (x >>= f) s) := by
  cases hRun : x s with
  | ok a t =>
      have hNext := hOk a t hRun
      unfold final at hNext ⊢
      rwa [bind_of_ok hRun]
  | error e t =>
      rw [final_of_error (bind_of_error hRun)]
      exact hError e t hRun

/-- A program that leaves the state alone keeps every reflexive relation. -/
theorem Keeps.same {R : σ → σ → Prop} (hRefl : ∀ s, R s s) {x : EStateM ε σ α}
    (hSame : ∀ s, final x s = s) : Keeps R x := by
  intro s
  rw [hSame s]
  exact hRefl s

theorem Keeps.zoom {R : σ → σ → Prop} {S : τ → τ → Prop} {get : τ → σ} {put : σ → τ → τ}
    {x : EStateM ε σ α} (hx : Keeps R x) (hPut : ∀ t s, R (get t) s → S t (put s t)) :
    Keeps S (zoom get put x) := by
  intro t
  cases hRun : x (get t) with
  | ok a s =>
      rw [final_of_ok (zoom_of_ok hRun)]
      exact hPut t s (hx.ok hRun)
  | error e s =>
      rw [final_of_error (zoom_eq_error.mpr ⟨s, hRun, rfl⟩)]
      exact hPut t s (hx.error hRun)

end Effect
