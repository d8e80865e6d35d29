import Mathlib.Order.Defs.Unbundled
import Mathlib.Tactic.Common

/-!
# Computations with a state and exceptions

Rules for `EStateM`: `final x s` is the state that `x` leaves behind, whether it returns or throws, and
`Within R x` says that the states before and after `x` are always related by `R`.  For a preorder `R` this is
closed under the ways of composing computations, so a frame condition (`Keeps` of an equation) or an invariant
(`Keeps P`) of a whole program follows from that of its single statements.  `Ensures x s Q E` is about one state to
start from, with a postcondition for each of the two ways to end.
-/

namespace Effect

variable {ε σ α β : Type} {R : σ → σ → Prop}

instance decidableEqResult [DecidableEq ε] [DecidableEq σ] [DecidableEq α] : DecidableEq (EStateM.Result ε σ α)
  | .ok a s, .ok a' s' => decidable_of_iff (a = a' ∧ s = s') (by simp)
  | .error e s, .error e' s' => decidable_of_iff (e = e' ∧ s = s') (by simp)
  | .ok _ _, .error _ _ => isFalse (by simp)
  | .error _ _, .ok _ _ => isFalse (by simp)

/-- The state after a computation, whether it returned or threw. -/
def final (x : EStateM ε σ α) (s : σ) : σ :=
  match x s with
  | .ok _ s' => s'
  | .error _ s' => s'

/-- The computation only makes moves of `R`. -/
def Within (R : σ → σ → Prop) (x : EStateM ε σ α) : Prop := ∀ s, R s (final x s)

/-- The moves that keep an invariant. -/
def Keeps (P : σ → Prop) (s s' : σ) : Prop := P s → P s'

/-- The moves that do not change a part of the state. -/
def Same {τ : Type} (part : σ → τ) (s s' : σ) : Prop := part s' = part s

instance (P : σ → Prop) : IsPreorder σ (Keeps P) where
  refl _ := id
  trans _ _ _ h h' := h' ∘ h

instance {τ : Type} (part : σ → τ) : IsPreorder σ (Same part) where
  refl _ := rfl
  trans _ _ _ h h' := h'.trans h

theorem final_of_ok {x : EStateM ε σ α} {s s' : σ} {a : α} (h : x s = .ok a s') : final x s = s' := by
  unfold final
  rw [h]

theorem final_of_error {x : EStateM ε σ α} {s s' : σ} {e : ε} (h : x s = .error e s') : final x s = s' := by
  unfold final
  rw [h]

theorem final_congr {x y : EStateM ε σ α} {s : σ} (h : x s = y s) : final x s = final y s := by
  unfold final
  rw [h]

@[simp] theorem final_pure (a : α) (s : σ) : final (pure a : EStateM ε σ α) s = s := rfl

@[simp] theorem final_throw (e : ε) (s : σ) : final (throw e : EStateM ε σ α) s = s := rfl

theorem bind_of_ok {x : EStateM ε σ α} {f : α → EStateM ε σ β} {s s' : σ} {a : α} (h : x s = .ok a s') :
    (x >>= f) s = f a s' := by
  show EStateM.bind x f s = f a s'
  unfold EStateM.bind
  rw [h]

theorem bind_of_error {x : EStateM ε σ α} {f : α → EStateM ε σ β} {s s' : σ} {e : ε} (h : x s = .error e s') :
    (x >>= f) s = .error e s' := by
  show EStateM.bind x f s = .error e s'
  unfold EStateM.bind
  rw [h]

theorem get_bind (f : σ → EStateM ε σ α) (s : σ) : ((get : EStateM ε σ σ) >>= f) s = f s s := rfl

theorem map_of_ok {x : EStateM ε σ α} {s s' : σ} {a : α} (h : x s = .ok a s') (f : α → β) :
    (f <$> x) s = .ok (f a) s' := bind_of_ok h

theorem map_of_error {x : EStateM ε σ α} {s s' : σ} {e : ε} (h : x s = .error e s') (f : α → β) :
    (f <$> x) s = .error e s' := bind_of_error h

theorem map_eq_ok {x : EStateM ε σ α} {f : α → β} {s s' : σ} {b : β} :
    (f <$> x) s = .ok b s' ↔ ∃ a, x s = .ok a s' ∧ f a = b := by
  cases h : x s with
  | ok a s' =>
    rw [map_of_ok h]
    constructor
    · rintro ⟨⟩
      exact ⟨a, rfl, rfl⟩
    · rintro ⟨a', ⟨⟩, rfl⟩
      rfl
  | error e s' =>
    rw [map_of_error h]
    constructor
    · rintro ⟨⟩
    · rintro ⟨a', ⟨⟩, -⟩

theorem map_eq_error {x : EStateM ε σ α} {f : α → β} {s s' : σ} {e : ε} :
    (f <$> x) s = .error e s' ↔ x s = .error e s' := by
  cases h : x s with
  | ok a s' =>
    rw [map_of_ok h]
    simp
  | error e s' =>
    rw [map_of_error h]
    simp

theorem map_congr {x y : EStateM ε σ α} {s : σ} (h : x s = y s) (f : α → β) : (f <$> x) s = (f <$> y) s := by
  cases hy : y s with
  | ok a s' => rw [map_of_ok (h.trans hy), map_of_ok hy]
  | error e s' => rw [map_of_error (h.trans hy), map_of_error hy]

theorem final_bind_of_ok {x : EStateM ε σ α} {f : α → EStateM ε σ β} {s s' : σ} {a : α} (h : x s = .ok a s') :
    final (x >>= f) s = final (f a) s' := by
  unfold final
  rw [bind_of_ok h]

theorem final_bind_of_error {x : EStateM ε σ α} {f : α → EStateM ε σ β} {s s' : σ} {e : ε}
    (h : x s = .error e s') : final (x >>= f) s = s' := final_of_error (bind_of_error h)

@[simp] theorem final_get_bind (f : σ → EStateM ε σ α) (s : σ) :
    final ((get : EStateM ε σ σ) >>= f) s = final (f s) s := rfl

@[simp] theorem final_bind_pure (x : EStateM ε σ α) (f : α → β) (s : σ) :
    final (x >>= fun a => pure (f a)) s = final x s := by
  cases h : x s with
  | ok a s' => rw [final_bind_of_ok h, final_of_ok h, final_pure]
  | error e s' => rw [final_bind_of_error h, final_of_error h]

@[simp] theorem final_map (f : α → β) (x : EStateM ε σ α) (s : σ) : final (f <$> x) s = final x s :=
  final_bind_pure x f s

/-- A sequence that returned: its first part returned, and the rest from there. -/
theorem bind_eq_ok {x : EStateM ε σ α} {f : α → EStateM ε σ β} {s s'' : σ} {b : β} :
    (x >>= f) s = .ok b s'' ↔ ∃ a s', x s = .ok a s' ∧ f a s' = .ok b s'' := by
  cases h : x s with
  | ok a s' =>
    rw [bind_of_ok h]
    simp
  | error e s' =>
    rw [bind_of_error h]
    simp

theorem pure_eq_ok {a b : α} {s s' : σ} : (pure a : EStateM ε σ α) s = .ok b s' ↔ a = b ∧ s = s' := by
  show EStateM.Result.ok a s = .ok b s' ↔ _
  simp

theorem throw_ne_ok {e : ε} {a : α} {s s' : σ} : (throw e : EStateM ε σ α) s ≠ .ok a s' := by
  intro h
  cases h

theorem tryCatch_of_ok {x : EStateM ε σ α} {handle : ε → EStateM ε σ α} {s s' : σ} {a : α} (h : x s = .ok a s') :
    tryCatch x handle s = .ok a s' := by
  show EStateM.tryCatch x handle s = _
  unfold EStateM.tryCatch
  simp [h]

/-- The handler starts from the state that the exception has left. -/
theorem tryCatch_of_error {x : EStateM ε σ α} {handle : ε → EStateM ε σ α} {s s' : σ} {e : ε}
    (h : x s = .error e s') : tryCatch x handle s = handle e s' := by
  show EStateM.tryCatch x handle s = _
  unfold EStateM.tryCatch
  simp [h]
  rfl

theorem within_of_result {x : EStateM ε σ α} (hok : ∀ s a s', x s = .ok a s' → R s s')
    (herr : ∀ s e s', x s = .error e s' → R s s') : Within R x := by
  intro s
  cases h : x s with
  | ok a s' =>
    rw [final_of_ok h]
    exact hok s a s' h
  | error e s' =>
    rw [final_of_error h]
    exact herr s e s' h

theorem Within.ite {p : Prop} [Decidable p] {x y : EStateM ε σ α} (hx : Within R x) (hy : Within R y) :
    Within R (if p then x else y) := by
  split
  · exact hx
  · exact hy

theorem Within.map {x : EStateM ε σ α} (hx : Within R x) (f : α → β) : Within R (f <$> x) := by
  intro s
  rw [final_map]
  exact hx s

section Rules

variable [IsPreorder σ R]

theorem within_get : Within R (get : EStateM ε σ σ) := fun s => refl_of R s

theorem within_pure (a : α) : Within R (pure a : EStateM ε σ α) := fun s => refl_of R s

theorem within_throw (e : ε) : Within R (throw e : EStateM ε σ α) := fun s => refl_of R s

theorem Within.bind {x : EStateM ε σ α} {f : α → EStateM ε σ β} (hx : Within R x) (hf : ∀ a, Within R (f a)) :
    Within R (x >>= f) := by
  intro s
  have h₁ := hx s
  cases h : x s with
  | ok a s' =>
    rw [final_of_ok h] at h₁
    have h₂ : R s' (final (x >>= f) s) := by
      unfold final
      rw [bind_of_ok h]
      exact hf a s'
    exact trans_of R h₁ h₂
  | error e s' =>
    rw [final_of_error h] at h₁
    rwa [final_of_error (bind_of_error h)]

theorem within_forM {γ : Type} {f : γ → EStateM ε σ PUnit} (hf : ∀ c, Within R (f c)) (l : List γ) :
    Within R (l.forM f) := by
  induction l with
  | nil => exact within_pure _
  | cons c l ih => exact (hf c).bind fun _ => ih

end Rules

theorem Within.mono {R' : σ → σ → Prop} {x : EStateM ε σ α} (hx : Within R x) (hR : ∀ s s', R s s' → R' s s') :
    Within R' x := fun s => hR s _ (hx s)

/-! ### Postconditions -/

/-- `Q` holds if the computation returns, and `E` if it throws. -/
def Ensures (x : EStateM ε σ α) (s : σ) (Q : α → σ → Prop) (E : ε → σ → Prop) : Prop :=
  match x s with
  | .ok a s' => Q a s'
  | .error e s' => E e s'

section Ensures

variable {Q : α → σ → Prop} {E : ε → σ → Prop} {s s' : σ}

theorem ensures_of_ok {x : EStateM ε σ α} {a : α} (h : x s = .ok a s') (hQ : Q a s') : Ensures x s Q E := by
  unfold Ensures
  rwa [h]

theorem ensures_of_error {x : EStateM ε σ α} {e : ε} (h : x s = .error e s') (hE : E e s') : Ensures x s Q E := by
  unfold Ensures
  rwa [h]

/-- The first part of a sequence: it returns and the rest goes on, or it throws. -/
theorem Ensures.bind {x : EStateM ε σ β} {f : β → EStateM ε σ α}
    (h : Ensures x s (fun b s' => Ensures (f b) s' Q E) E) : Ensures (x >>= f) s Q E := by
  unfold Ensures at h ⊢
  cases hx : x s with
  | ok b s' =>
    rw [hx] at h
    rwa [bind_of_ok hx]
  | error e s' =>
    rw [hx] at h
    rwa [bind_of_error hx]

/-- What a `try` block ensures, its `catch` ensures of what the block has thrown. -/
theorem Ensures.tryCatch {x : EStateM ε σ α} {handle : ε → EStateM ε σ α}
    (h : Ensures x s Q fun e s' => Ensures (handle e) s' Q E) : Ensures (tryCatch x handle) s Q E := by
  unfold Ensures at h ⊢
  cases hx : x s with
  | ok a s' =>
    rw [hx] at h
    rwa [tryCatch_of_ok hx]
  | error e s' =>
    rw [hx] at h
    rwa [tryCatch_of_error hx]

/-- A computation that does not throw. -/
theorem ensures_false {x : EStateM ε σ α} :
    Ensures x s Q (fun _ _ => False) ↔ ∃ a s', x s = .ok a s' ∧ Q a s' := by
  unfold Ensures
  cases x s <;> simp

end Ensures

/-! ### Computations without a state -/

theorem exceptBind_eq_ok {x : Except ε α} {f : α → Except ε β} {b : β} :
    (x >>= f) = .ok b ↔ ∃ a, x = .ok a ∧ f a = .ok b := by
  cases x <;> simp [bind, Except.bind]

theorem mapM_eq_ok_cons {f : α → Except ε β} {l : List α} {b : β} {bs : List β} :
    l.mapM f = .ok (b :: bs) ↔ ∃ a l', l = a :: l' ∧ f a = .ok b ∧ l'.mapM f = .ok bs := by
  cases l with
  | nil => simp [pure, Except.pure]
  | cons a l =>
    rw [List.mapM_cons]
    cases ha : f a <;> cases hl : l.mapM f <;> simp [ha, hl, bind, Except.bind, pure, Except.pure]

theorem exists_mapM_eq_ok {f : α → Except ε β} {l : List α} (h : ∀ a ∈ l, ∃ b, f a = .ok b) :
    ∃ bs, l.mapM f = .ok bs := by
  induction l with
  | nil => exact ⟨[], rfl⟩
  | cons a l ih =>
    obtain ⟨b, hb⟩ := h a (List.mem_cons_self ..)
    obtain ⟨bs, hbs⟩ := ih fun a' ha' => h a' (List.mem_cons_of_mem _ ha')
    exact ⟨b :: bs, mapM_eq_ok_cons.2 ⟨a, l, rfl, hb, hbs⟩⟩

/-- Results in another order are the results of the list in another order. -/
theorem exists_perm_mapM {f : α → Except ε β} {l : List α} {bs bs' : List β} (h : l.mapM f = .ok bs)
    (hp : bs'.Perm bs) : ∃ l' : List α, l'.Perm l ∧ l'.mapM f = .ok bs' := by
  induction hp generalizing l with
  | nil => exact ⟨l, .refl l, h⟩
  | cons b _ ih =>
    obtain ⟨a, l₁, rfl, ha, hl⟩ := mapM_eq_ok_cons.1 h
    obtain ⟨l', hperm, hl'⟩ := ih hl
    exact ⟨a :: l', hperm.cons a, mapM_eq_ok_cons.2 ⟨a, l', rfl, ha, hl'⟩⟩
  | swap b b' bs =>
    obtain ⟨a, l₁, rfl, ha, hl₁⟩ := mapM_eq_ok_cons.1 h
    obtain ⟨a', l₂, rfl, ha', hl₂⟩ := mapM_eq_ok_cons.1 hl₁
    exact ⟨a' :: a :: l₂, .swap a a' l₂,
      mapM_eq_ok_cons.2 ⟨a', _, rfl, ha', mapM_eq_ok_cons.2 ⟨a, l₂, rfl, ha, hl₂⟩⟩⟩
  | trans _ _ ih₁ ih₂ =>
    obtain ⟨l₂, hp₂, hl₂⟩ := ih₂ h
    obtain ⟨l₁, hp₁, hl₁⟩ := ih₁ hl₂
    exact ⟨l₁, hp₁.trans hp₂, hl₁⟩

/-! ### Translating exceptions -/

section MapError

variable {ε' : Type} (f : ε → ε')

/-- The computation with its exceptions translated. -/
def mapError (x : EStateM ε σ α) : EStateM ε' σ α := fun s =>
  match x s with
  | .ok a s' => .ok a s'
  | .error e s' => .error (f e) s'

variable {f}

theorem mapError_of_ok {x : EStateM ε σ α} {s s' : σ} {a : α} (h : x s = .ok a s') :
    mapError f x s = .ok a s' := by
  unfold mapError
  rw [h]

theorem mapError_of_error {x : EStateM ε σ α} {s s' : σ} {e : ε} (h : x s = .error e s') :
    mapError f x s = .error (f e) s' := by
  unfold mapError
  rw [h]

theorem mapError_eq_ok {x : EStateM ε σ α} {s s' : σ} {a : α} :
    mapError f x s = .ok a s' ↔ x s = .ok a s' := by
  cases h : x s with
  | ok b s'' => rw [mapError_of_ok h]; simp
  | error e s'' => rw [mapError_of_error h]; simp

theorem mapError_bind (x : EStateM ε σ α) (k : α → EStateM ε σ β) :
    mapError f (x >>= k) = mapError f x >>= fun a => mapError f (k a) := by
  funext s
  cases h : x s with
  | ok a s' =>
    rw [bind_of_ok (mapError_of_ok h)]
    unfold mapError
    rw [bind_of_ok h]
  | error e s' => rw [mapError_of_error (bind_of_error h), bind_of_error (mapError_of_error h)]

@[simp] theorem final_mapError (x : EStateM ε σ α) (s : σ) : final (mapError f x) s = final x s := by
  cases h : x s with
  | ok a s' => rw [final_of_ok (mapError_of_ok h), final_of_ok h]
  | error e s' => rw [final_of_error (mapError_of_error h), final_of_error h]

end MapError

/-- Sequences whose first parts do the same, and whose rests do the same from there. -/
theorem bind_congr {x y : EStateM ε σ α} {k l : α → EStateM ε σ β} {s : σ} (hx : x s = y s)
    (hk : ∀ a s', y s = .ok a s' → k a s' = l a s') : (x >>= k) s = (y >>= l) s := by
  cases hy : y s with
  | ok a s' => rw [bind_of_ok (hx.trans hy), bind_of_ok hy, hk a s' hy]
  | error e s' => rw [bind_of_error (hx.trans hy), bind_of_error hy]

end Effect
