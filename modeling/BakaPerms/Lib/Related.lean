import BakaPerms.Lib.Effect

/-!
# Computations from related states

Rules for two computations with a state and exceptions that run side by side.  `Alike R x y` says that from states
related by `R` they end alike: both return the same value or both throw the same exception, and the states are again
related.  For `y = x` this says that `x` does not show the difference between related states.
-/

namespace Effect

variable {ε σ τ α β : Type}

/-- Two ends with the same value or the same exception. -/
inductive Ends (R : σ → τ → Prop) : EStateM.Result ε σ α → EStateM.Result ε τ α → Prop
  | ok (a : α) {s : σ} {t : τ} (h : R s t) : Ends R (.ok a s) (.ok a t)
  | error (e : ε) {s : σ} {t : τ} (h : R s t) : Ends R (.error e s) (.error e t)

/-- The computations end alike from related states. -/
def Alike (R : σ → τ → Prop) (x : EStateM ε σ α) (y : EStateM ε τ α) : Prop := ∀ s t, R s t → Ends R (x s) (y t)

variable {R : σ → τ → Prop}

theorem Ends.final {x : EStateM ε σ α} {y : EStateM ε τ α} {s : σ} {t : τ} (h : Ends R (x s) (y t)) :
    R (final x s) (final y t) := by
  generalize hx : x s = rx at h
  generalize hy : y t = ry at h
  cases h with
  | ok a h =>
    rw [final_of_ok hx, final_of_ok hy]
    exact h
  | error e h =>
    rw [final_of_error hx, final_of_error hy]
    exact h

theorem Ends.bind {x : EStateM ε σ α} {y : EStateM ε τ α} {f : α → EStateM ε σ β} {g : α → EStateM ε τ β} {s : σ}
    {t : τ} (h : Ends R (x s) (y t)) (hfg : ∀ a, Alike R (f a) (g a)) : Ends R ((x >>= f) s) ((y >>= g) t) := by
  generalize hx : x s = rx at h
  generalize hy : y t = ry at h
  cases h with
  | ok a h =>
    rw [bind_of_ok hx, bind_of_ok hy]
    exact hfg a _ _ h
  | error e h =>
    rw [bind_of_error hx, bind_of_error hy]
    exact .error e h

theorem alike_pure (a : α) : Alike R (pure a : EStateM ε σ α) (pure a) := fun _ _ h => .ok a h

theorem Alike.bind {x : EStateM ε σ α} {y : EStateM ε τ α} {f : α → EStateM ε σ β} {g : α → EStateM ε τ β}
    (h : Alike R x y) (hfg : ∀ a, Alike R (f a) (g a)) : Alike R (x >>= f) (y >>= g) :=
  fun s t hst => (h s t hst).bind hfg

theorem Alike.map {x : EStateM ε σ α} {y : EStateM ε τ α} (h : Alike R x y) (f : α → β) :
    Alike R (f <$> x) (f <$> y) := h.bind fun a => alike_pure (f a)

/-- Computations that read the same. -/
theorem alike_get_bind {f : σ → EStateM ε σ α} {g : τ → EStateM ε τ α} (h : ∀ s t, R s t → Ends R (f s s) (g t t)) :
    Alike R (get >>= f) (get >>= g) := fun s t hst => h s t hst

theorem Alike.tryCatch {x : EStateM ε σ α} {y : EStateM ε τ α} {f : ε → EStateM ε σ α} {g : ε → EStateM ε τ α}
    (h : Alike R x y) (hfg : ∀ e, Alike R (f e) (g e)) : Alike R (tryCatch x f) (tryCatch y g) := by
  intro s t hst
  have hends := h s t hst
  generalize hx : x s = rx at hends
  generalize hy : y t = ry at hends
  cases hends with
  | ok a h =>
    rw [tryCatch_of_ok hx, tryCatch_of_ok hy]
    exact .ok a h
  | error e h =>
    rw [tryCatch_of_error hx, tryCatch_of_error hy]
    exact hfg e _ _ h

end Effect
