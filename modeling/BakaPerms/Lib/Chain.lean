import Mathlib.Data.List.Nodup
import Mathlib.Data.List.Perm.Subperm
import Mathlib.Data.Nat.Find
import Mathlib.Logic.Function.Basic
import Mathlib.Tactic.Common

/-!
# Chains of a partial function

A partial function `f : α → Option α` (a parent link, a next pointer) is followed from an element as long as it
is defined.  `ascend f n a` is the element `n` links above `a`, `walk f n a` lists the elements met on the way,
and `f` is acyclic when no element is met again above itself.  The key facts: redirecting one link keeps `f`
acyclic exactly when the new target does not lead back (`acyclic_update_iff`), a chain of an acyclic function is
no longer than the set it lives in (`ascend_lt_length`), and cutting a walk at the first element seen twice loses
no element (`mem_takeDistinct_walk`).
-/

namespace Chain

variable {α ρ : Type*} {f g : α → Option α}

/-- The element `n` links above `a`. -/
def ascend (f : α → Option α) : Nat → α → Option α
  | 0, a => some a
  | n + 1, a => (f a).bind (ascend f n)

/-- The elements met from `a` within `n` links, `a` first. -/
def walk (f : α → Option α) : Nat → α → List α
  | 0, a => [a]
  | n + 1, a => a :: (f a).elim [] (walk f n)

/-- Some chain leads from `a` up to `b`. -/
def Reaches (f : α → Option α) (a b : α) : Prop := ∃ n, ascend f n a = some b

/-- No element is its own proper ancestor. -/
def Acyclic (f : α → Option α) : Prop := ∀ a n, ascend f (n + 1) a ≠ some a

@[simp] theorem ascend_zero (a : α) : ascend f 0 a = some a := rfl

theorem ascend_succ (n : Nat) (a : α) : ascend f (n + 1) a = (f a).bind (ascend f n) := rfl

theorem ascend_add (m n : Nat) (a : α) : ascend f (m + n) a = (ascend f m a).bind (ascend f n) := by
  induction m generalizing a with
  | zero => simp
  | succ m ih =>
    rw [Nat.add_right_comm, ascend_succ, ascend_succ]
    cases h : f a with
    | none => rfl
    | some b => exact ih b

theorem ascend_succ' (n : Nat) (a : α) : ascend f (n + 1) a = (ascend f n a).bind f := by
  rw [ascend_add]
  congr 1
  funext b
  rw [ascend_succ]
  cases f b <;> rfl

/-- A chain of a smaller function is a chain of the larger one. -/
theorem ascend_mono (hgf : ∀ a b, g a = some b → f a = some b) {n : Nat} {a b : α}
    (h : ascend g n a = some b) : ascend f n a = some b := by
  induction n generalizing a with
  | zero => exact h
  | succ n ih =>
    rw [ascend_succ] at h ⊢
    obtain ⟨c, hc, hb⟩ := Option.bind_eq_some_iff.1 h
    rw [hgf a c hc]
    exact ih hb

/-- Functions that agree on every element before the last of a chain have the same chain. -/
theorem ascend_congr {a : α} {n : Nat} (hfg : ∀ k < n, ∀ b, ascend f k a = some b → g b = f b) :
    ascend g n a = ascend f n a := by
  induction n with
  | zero => rfl
  | succ n ih =>
    rw [ascend_succ', ascend_succ', ih fun k hk => hfg k (Nat.lt_succ_of_lt hk)]
    cases h : ascend f n a with
    | none => rfl
    | some b => exact hfg n (Nat.lt_succ_self n) b h

theorem Acyclic.mono (hf : Acyclic f) (hgf : ∀ a b, g a = some b → f a = some b) : Acyclic g :=
  fun a n h => hf a n (ascend_mono hgf h)

/-- Along a chain of an acyclic function no element occurs at two heights. -/
theorem Acyclic.height_unique (hf : Acyclic f) {a b : α} {m n : Nat} (hm : ascend f m a = some b)
    (hn : ascend f n a = some b) : m = n := by
  have key : ∀ {m n : Nat}, ascend f m a = some b → ascend f n a = some b → ¬ m < n := by
    intro m n hm hn hlt
    obtain ⟨k, rfl⟩ := Nat.exists_eq_add_of_lt hlt
    rw [Nat.add_assoc, ascend_add, hm] at hn
    exact hf b k hn
  rcases Nat.lt_trichotomy m n with h | h | h
  · exact absurd h (key hm hn)
  · exact h
  · exact absurd h (key hn hm)

/-! ### Redirecting one link -/

section Update

variable [DecidableEq α]

/-- A chain that does not pass `a` before its end is unchanged by redirecting `a`. -/
theorem ascend_update {a c : α} {o : Option α} {n : Nat} (h : ∀ k < n, ascend f k c ≠ some a) :
    ascend (Function.update f a o) n c = ascend f n c := by
  induction n generalizing c with
  | zero => rfl
  | succ n ih =>
    have hca : c ≠ a := fun hca => h 0 (Nat.succ_pos n) (by rw [ascend_zero, hca])
    rw [ascend_succ, ascend_succ, Function.update_of_ne hca]
    cases hd : f c with
    | none => rfl
    | some d =>
      refine ih fun k hk hka => h (k + 1) (Nat.succ_lt_succ hk) ?_
      rw [ascend_succ, hd]
      exact hka

/-- A chain that redirecting `a` cuts leads through `a`. -/
theorem ascend_update_or {a c b : α} {o : Option α} {n : Nat} (h : ascend f n c = some b) :
    ascend (Function.update f a o) n c = some b ∨ ∃ k, ascend f (k + 1) a = some b := by
  by_cases hfree : ∀ k < n, ascend f k c ≠ some a
  · exact .inl ((ascend_update hfree).trans h)
  · push Not at hfree
    obtain ⟨k, hk, hka⟩ := hfree
    obtain ⟨j, rfl⟩ := Nat.exists_eq_add_of_lt hk
    rw [Nat.add_assoc, ascend_add, hka] at h
    exact .inr ⟨j, h⟩

/-- A chain that redirecting `a` makes possible leads through `a` and on from the new target. -/
theorem ascend_or_of_update {a c b : α} {o : Option α} {n : Nat}
    (h : ascend (Function.update f a o) n c = some b) :
    ascend f n c = some b ∨ ∃ d, o = some d ∧ Reaches f d b := by
  have hf : Function.update (Function.update f a o) a (f a) = f := by
    rw [Function.update_idem, Function.update_eq_self]
  rcases ascend_update_or (a := a) (o := f a) h with hold | hthrough
  · rw [hf] at hold
    exact .inl hold
  · -- the shortest way from `a` does not come back to `a`
    have hspec := Nat.find_spec hthrough
    have hmin : ∀ k < Nat.find hthrough, ascend (Function.update f a o) (k + 1) a ≠ some b :=
      fun k hk => Nat.find_min hthrough hk
    rw [ascend_succ, Function.update_self] at hspec
    obtain ⟨d, hd, hspec⟩ := Option.bind_eq_some_iff.1 hspec
    refine .inr ⟨d, hd, Nat.find hthrough, ?_⟩
    have hfree : ∀ k < Nat.find hthrough, ascend (Function.update f a o) k d ≠ some a := by
      intro k hk hka
      obtain ⟨j, hj⟩ := Nat.exists_eq_add_of_lt hk
      refine hmin j (by omega) ?_
      rw [hj, Nat.add_assoc, ascend_add, hka] at hspec
      exact hspec
    have hsame := ascend_update (o := f a) hfree
    rw [hf] at hsame
    exact hsame.trans hspec

/-- Redirecting `a` to `b` closes a cycle exactly when `b` already led to `a`. -/
theorem acyclic_update_iff (hf : Acyclic f) (a b : α) :
    Acyclic (Function.update f a (some b)) ↔ ¬ Reaches f b a := by
  constructor
  · intro hupd hreach
    -- along the shortest chain from `b` to `a` the redirected link is not used
    have hmin : ∀ k < Nat.find hreach, ascend f k b ≠ some a := fun k hk => Nat.find_min hreach hk
    refine hupd a (Nat.find hreach) ?_
    rw [ascend_succ, Function.update_self]
    exact (ascend_update hmin).trans (Nat.find_spec hreach)
  · intro hno c n hcyc
    have hb : ∀ m, ascend (Function.update f a (some b)) m b = ascend f m b :=
      fun m => ascend_update fun k _ h => hno ⟨k, h⟩
    by_cases hhit : ∃ k, k ≤ n ∧ ascend f k c = some a
    · -- the cycle passes `a`, so it continues from `b` and comes back to `a`
      obtain ⟨hk, hka⟩ := Nat.find_spec hhit
      have hpre : ∀ j < Nat.find hhit, ascend f j c ≠ some a :=
        fun j hj h => Nat.find_min hhit hj ⟨by omega, h⟩
      obtain ⟨m, hm⟩ := Nat.exists_eq_add_of_le hk
      rw [show n + 1 = Nat.find hhit + (m + 1) by omega, ascend_add, ascend_update hpre, hka] at hcyc
      have hret : ascend f m b = some c := by
        rw [← hb m]
        simpa [ascend_succ] using hcyc
      exact hno ⟨m + Nat.find hhit, by rw [ascend_add, hret]; exact hka⟩
    · have hfree : ∀ k < n + 1, ascend f k c ≠ some a :=
        fun k hk h => hhit ⟨k, Nat.le_of_lt_succ hk, h⟩
      rw [ascend_update hfree] at hcyc
      exact hf c n hcyc

/-- Cutting a link keeps a function acyclic. -/
theorem Acyclic.update_none (hf : Acyclic f) (a : α) : Acyclic (Function.update f a none) := by
  refine hf.mono fun c d h => ?_
  by_cases hca : c = a
  · rw [hca, Function.update_self] at h
    cases h
  · rwa [Function.update_of_ne hca] at h

end Update

/-! ### Short cycles -/

/-- No element comes back to itself within `n + 1` links. -/
def NoCycleWithin (f : α → Option α) (n : Nat) : Prop := ∀ a, ∀ k ≤ n, ascend f (k + 1) a ≠ some a

theorem NoCycleWithin.mono {n : Nat} (hf : NoCycleWithin f n) (hgf : ∀ a b, g a = some b → f a = some b) :
    NoCycleWithin g n :=
  fun a k hk h => hf a k hk (ascend_mono hgf h)

section UpdateShort

variable [DecidableEq α]

theorem NoCycleWithin.update_none {n : Nat} (hf : NoCycleWithin f n) (a : α) :
    NoCycleWithin (Function.update f a none) n := by
  refine hf.mono fun c d h => ?_
  by_cases hca : c = a
  · rw [hca, Function.update_self] at h
    cases h
  · rwa [Function.update_of_ne hca] at h

end UpdateShort

/-! ### Walks -/

theorem mem_walk {n : Nat} {a b : α} : b ∈ walk f n a ↔ ∃ k ≤ n, ascend f k a = some b := by
  induction n generalizing a with
  | zero => simp [walk, eq_comm]
  | succ n ih =>
    rw [walk, List.mem_cons]
    constructor
    · rintro (rfl | h)
      · exact ⟨0, Nat.zero_le _, rfl⟩
      · cases hc : f a with
        | none => rw [hc] at h; cases h
        | some c =>
          rw [hc] at h
          obtain ⟨k, hk, hkb⟩ := ih.1 h
          exact ⟨k + 1, Nat.succ_le_succ hk, by rw [ascend_succ, hc]; exact hkb⟩
    · rintro ⟨k, hk, hkb⟩
      cases k with
      | zero => exact .inl (Option.some.inj hkb).symm
      | succ k =>
        rw [ascend_succ] at hkb
        obtain ⟨c, hc, hcb⟩ := Option.bind_eq_some_iff.1 hkb
        rw [hc]
        exact .inr (ih.2 ⟨k, Nat.le_of_succ_le_succ hk, hcb⟩)

theorem walk_length {n : Nat} {a b : α} (h : ascend f n a = some b) : (walk f n a).length = n + 1 := by
  induction n generalizing a with
  | zero => rfl
  | succ n ih =>
    rw [ascend_succ] at h
    obtain ⟨c, hc, hcb⟩ := Option.bind_eq_some_iff.1 h
    rw [walk, hc, List.length_cons]
    exact congrArg (· + 1) (ih hcb)

theorem Acyclic.walk_nodup (hf : Acyclic f) (n : Nat) (a : α) : (walk f n a).Nodup := by
  induction n generalizing a with
  | zero => simp [walk]
  | succ n ih =>
    rw [walk]
    cases hc : f a with
    | none => simp
    | some c =>
      refine List.nodup_cons.2 ⟨fun hmem => ?_, ih c⟩
      obtain ⟨k, _, hk⟩ := mem_walk.1 hmem
      exact hf a k (by rw [ascend_succ, hc]; exact hk)

/-- A chain of an acyclic function whose elements all lie in `l` has fewer links than `l` has entries. -/
theorem ascend_lt_length (hf : Acyclic f) {l : List α} {n : Nat} {a b : α} (h : ascend f n a = some b)
    (hl : ∀ k ≤ n, ∀ x, ascend f k a = some x → x ∈ l) : n < l.length := by
  have hsub : walk f n a ⊆ l := fun x hx => by
    obtain ⟨k, hk, hx⟩ := mem_walk.1 hx
    exact hl k hk x hx
  have hle := (List.subperm_of_subset (hf.walk_nodup n a) hsub).length_le
  rw [walk_length h] at hle
  omega

/-! ### Cutting a walk at the first repetition -/

private theorem mem_visited_of_closed {visited : List α} (hcl : ∀ x ∈ visited, ∀ y, f x = some y → y ∈ visited)
    {n : Nat} {a b : α} (ha : a ∈ visited) (h : ascend f n a = some b) : b ∈ visited := by
  induction n generalizing a with
  | zero => exact Option.some.inj h ▸ ha
  | succ n ih =>
    rw [ascend_succ] at h
    obtain ⟨c, hc, hcb⟩ := Option.bind_eq_some_iff.1 h
    exact ih (hcl a ha c hc) hcb

section TakeDistinct

variable [DecidableEq α]

/-- The entries of a list up to the first one whose key was met before. -/
def takeDistinct (key : ρ → α) (visited : List α) : List ρ → List ρ
  | [] => []
  | r :: rows => if key r ∈ visited then [] else r :: takeDistinct key (key r :: visited) rows

theorem takeDistinct_map (key : ρ → α) (visited : List α) (rows : List ρ) :
    (takeDistinct key visited rows).map key = takeDistinct id visited (rows.map key) := by
  induction rows generalizing visited with
  | nil => rfl
  | cons r rows ih =>
    simp only [takeDistinct, List.map_cons, id_eq]
    split
    · rfl
    · rw [List.map_cons, ih]

theorem takeDistinct_sublist (key : ρ → α) (visited : List α) (rows : List ρ) :
    (takeDistinct key visited rows).Sublist rows := by
  induction rows generalizing visited with
  | nil => exact .slnil
  | cons r rows ih =>
    rw [takeDistinct]
    split
    · exact List.nil_sublist _
    · exact (ih _).cons_cons r

/-- When every link out of the visited elements stays among them or leads to `a`, the elements of a walk from `a`
are visited or kept. -/
private theorem mem_takeDistinct_walk_gen {visited : List α} {n : Nat} {a b : α}
    (hcl : ∀ x ∈ visited, ∀ y, f x = some y → y ∈ visited ∨ y = a) (hb : b ∈ walk f n a) :
    b ∈ visited ∨ b ∈ takeDistinct id visited (walk f n a) := by
  induction n generalizing a visited with
  | zero =>
    simp only [walk, takeDistinct, List.mem_singleton, id_eq] at hb ⊢
    subst hb
    by_cases h : b ∈ visited <;> simp [h]
  | succ n ih =>
    by_cases ha : a ∈ visited
    · obtain ⟨k, _, hk⟩ := mem_walk.1 hb
      refine .inl (mem_visited_of_closed (fun x hx y hy => ?_) ha hk)
      rcases hcl x hx y hy with h | h
      · exact h
      · exact h ▸ ha
    · rw [walk] at hb ⊢
      simp only [takeDistinct, id_eq, ha, ↓reduceIte, List.mem_cons]
      rcases List.mem_cons.1 hb with h | h
      · exact .inr (.inl h)
      · cases hc : f a with
        | none => rw [hc] at h; cases h
        | some c =>
          rw [hc] at h
          have hcl' : ∀ x ∈ a :: visited, ∀ y, f x = some y → y ∈ a :: visited ∨ y = c := by
            intro x hx y hy
            rcases List.mem_cons.1 hx with rfl | hx
            · exact .inr (Option.some.inj (hy.symm.trans hc))
            · rcases hcl x hx y hy with h | h
              · exact .inl (List.mem_cons_of_mem _ h)
              · exact .inl (h ▸ List.mem_cons_self ..)
          rcases ih hcl' h with h | h
          · rcases List.mem_cons.1 h with h | h
            · exact .inr (.inl h)
            · exact .inl h
          · exact .inr (.inr h)

/-- Cutting a walk at its first repetition keeps every element of the walk. -/
theorem mem_takeDistinct_walk {n : Nat} {a b : α} :
    b ∈ takeDistinct id [] (walk f n a) ↔ b ∈ walk f n a := by
  constructor
  · exact fun h => (takeDistinct_sublist ..).subset h
  · intro h
    have hnil : ∀ x ∈ ([] : List α), ∀ y, f x = some y → y ∈ ([] : List α) ∨ y = a := by simp
    simpa using mem_takeDistinct_walk_gen hnil h

end TakeDistinct

end Chain
