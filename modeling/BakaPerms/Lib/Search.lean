import Mathlib.Data.List.Basic
import Mathlib.Tactic.Common

/-!
# First hits

A search through a list that is arranged by rank returns the hit that outranks all others.  `r a b` reads "`a`
outranks `b`"; the list is pairwise related by `r`.
-/

namespace Search

variable {α : Type*} {r : α → α → Prop} {l : List α} {p : α → Bool} {a : α}

theorem rank_of_find?_eq_some (hl : l.Pairwise r) (h : l.find? p = some a) {b : α} (hb : b ∈ l) (hpb : p b)
    (hne : b ≠ a) : r a b := by
  obtain ⟨_, l₁, l₂, rfl, hbefore⟩ := List.find?_eq_some_iff_append.1 h
  rcases List.mem_append.1 hb with hb | hb
  · have hpn := hbefore b hb
    simp [hpb] at hpn
  · rcases List.mem_cons.1 hb with hb | hb
    · exact absurd hb hne
    · exact (List.pairwise_cons.1 (List.pairwise_append.1 hl).2.1).1 b hb

/-- The first hit is the hit that outranks every other. -/
theorem find?_eq_some_iff (hl : l.Pairwise r) (hr : ∀ a b, r a b → ¬ r b a) :
    l.find? p = some a ↔ a ∈ l ∧ p a ∧ ∀ b ∈ l, p b → b ≠ a → r a b := by
  constructor
  · intro h
    exact ⟨List.mem_of_find?_eq_some h, List.find?_some h, fun b hb hpb => rank_of_find?_eq_some hl h hb hpb⟩
  · rintro ⟨hmem, hpa, hmin⟩
    obtain ⟨c, hc⟩ := Option.isSome_iff_exists.1 (List.find?_isSome.2 ⟨a, hmem, hpa⟩)
    by_cases hca : c = a
    · rw [hc, hca]
    · have hac := hmin c (List.mem_of_find?_eq_some hc) (List.find?_some hc) hca
      have hca' := rank_of_find?_eq_some hl hc hmem hpa (Ne.symm hca)
      exact absurd hca' (hr a c hac)

/-- A stronger test that the first hit passes has the same first hit. -/
theorem find?_eq_of_imp {q : α → Bool} (hqp : ∀ x ∈ l, q x → p x) (hit : ∀ x, l.find? p = some x → q x) :
    l.find? q = l.find? p := by
  induction l with
  | nil => rfl
  | cons x l ih =>
    by_cases hp : p x
    · rw [List.find?_cons_of_pos hp] at hit ⊢
      rw [List.find?_cons_of_pos (hit x rfl)]
    · have hq : ¬ q x = true := fun hq => hp (hqp x (List.mem_cons_self ..) hq)
      rw [List.find?_cons_of_neg hp] at hit ⊢
      rw [List.find?_cons_of_neg hq]
      exact ih (fun y hy => hqp y (List.mem_cons_of_mem _ hy)) hit

end Search
