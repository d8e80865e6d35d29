import BakaPerms.Lib.Chain
import Mathlib.Logic.Function.Basic
import Mathlib.Tactic.Common

/-!
# Directories

Units with names of their own, each with a parent or without one, and the members that they have.  What makes this a
directory is part of the structure: no two units share a name, and parents and members belong to units that are there.
So every operation comes with the condition under which its result is a directory again.
-/

@[ext] structure Directory (U N P : Type*) where
  /-- The name of a unit, `none` for what is not a unit. -/
  name : U → Option N
  parent : U → Option U
  member : P → U → Prop
  name_injective : ∀ ⦃u v n⦄, name u = some n → name v = some n → u = v
  parent_exists : ∀ ⦃u v⦄, parent u = some v → (name u).isSome ∧ (name v).isSome
  member_exists : ∀ ⦃p u⦄, member p u → (name u).isSome

namespace Directory

variable {U N P : Type*} (d : Directory U N P)

/-- There is such a unit. -/
def Has (u : U) : Prop := (d.name u).isSome

/-- Parent links lead to units. -/
theorem has_of_ascend {n : ℕ} {u v : U} (hu : d.Has u) (h : Chain.ascend d.parent n u = some v) : d.Has v := by
  cases n with
  | zero =>
    cases h
    exact hu
  | succ n =>
    rw [Chain.ascend_succ'] at h
    obtain ⟨w, -, hv⟩ := Option.bind_eq_some_iff.1 h
    exact (d.parent_exists hv).2

/-- The unit is new, its name is free, and its parent is there or the unit itself. -/
structure CanCreate (u : U) (n : N) (parent : Option U) : Prop where
  new : ¬ d.Has u
  name_free : ∀ v, d.name v ≠ some n
  parent : ∀ v, parent = some v → v = u ∨ d.Has v

open Classical in
/-- The unit of a name. -/
noncomputable def find (n : N) : Option U := if h : ∃ u, d.name u = some n then some h.choose else none

theorem find_eq_some {n : N} {u : U} : d.find n = some u ↔ d.name u = some n := by
  unfold find
  constructor
  · intro h
    split at h
    · rename_i hex
      cases h
      exact hex.choose_spec
    · cases h
  · intro h
    have hex : ∃ u, d.name u = some n := ⟨u, h⟩
    rw [dif_pos hex, d.name_injective hex.choose_spec h]

variable [DecidableEq U]

def create (u : U) (n : N) (parent : Option U) (h : d.CanCreate u n parent) : Directory U N P where
  name := Function.update d.name u (some n)
  parent := Function.update d.parent u parent
  member := d.member
  name_injective v w m hv hw := by
    by_cases hvu : v = u <;> by_cases hwu : w = u
    · rw [hvu, hwu]
    · rw [hvu, Function.update_self] at hv
      rw [Function.update_of_ne hwu, ← hv] at hw
      exact absurd hw (h.name_free w)
    · rw [hwu, Function.update_self] at hw
      rw [Function.update_of_ne hvu, ← hw] at hv
      exact absurd hv (h.name_free v)
    · rw [Function.update_of_ne hvu] at hv
      rw [Function.update_of_ne hwu] at hw
      exact d.name_injective hv hw
  parent_exists v w hvw := by
    have hkept {x : U} (hx : x = u ∨ d.Has x) : (Function.update d.name u (some n) x).isSome := by
      by_cases hxu : x = u
      · rw [hxu, Function.update_self]
        rfl
      · rw [Function.update_of_ne hxu]
        exact hx.resolve_left hxu
    by_cases hvu : v = u
    · rw [hvu, Function.update_self] at hvw
      exact ⟨hkept (.inl hvu), hkept (h.parent w hvw)⟩
    · rw [Function.update_of_ne hvu] at hvw
      have hexists := d.parent_exists hvw
      exact ⟨hkept (.inr hexists.1), hkept (.inr hexists.2)⟩
  member_exists p v hv := by
    have hexists := d.member_exists hv
    by_cases hvu : v = u
    · rw [hvu, Function.update_self]
      rfl
    · rwa [Function.update_of_ne hvu]

/-- Nothing happens to what is not a unit. -/
def setParent (u : U) (parent : Option U) (h : ∀ v, parent = some v → d.Has u → d.Has v) : Directory U N P where
  name := d.name
  parent v := if v = u then (d.name u).bind fun _ => parent else d.parent v
  member := d.member
  name_injective := d.name_injective
  parent_exists v w hvw := by
    by_cases hvu : v = u
    · rw [if_pos hvu] at hvw
      obtain ⟨n, hn, hw⟩ := Option.bind_eq_some_iff.1 hvw
      have hu : d.Has u := Option.isSome_iff_exists.2 ⟨n, hn⟩
      rw [hvu]
      exact ⟨hu, h w hw hu⟩
    · rw [if_neg hvu] at hvw
      exact d.parent_exists hvw
  member_exists := d.member_exists

/-- The units below it lose their parent, and its members leave it. -/
def delete (u : U) : Directory U N P where
  name := Function.update d.name u none
  parent v := if v = u ∨ d.parent v = some u then none else d.parent v
  member p v := d.member p v ∧ v ≠ u
  name_injective v w m hv hw := by
    have hkept {x : U} (hx : Function.update d.name u none x = some m) : d.name x = some m := by
      by_cases hxu : x = u
      · rw [hxu, Function.update_self] at hx
        cases hx
      · rwa [Function.update_of_ne hxu] at hx
    exact d.name_injective (hkept hv) (hkept hw)
  parent_exists v w hvw := by
    obtain ⟨hv, hparent⟩ := Option.ite_none_left_eq_some.1 hvw
    rw [not_or] at hv
    have hwu : w ≠ u := fun h => hv.2 (h ▸ hparent)
    rw [Function.update_of_ne hv.1, Function.update_of_ne hwu]
    exact d.parent_exists hparent
  member_exists p v hv := by
    rw [Function.update_of_ne hv.2]
    exact d.member_exists hv.1

theorem delete_of_not_has {u : U} (h : ¬ d.Has u) : d.delete u = d := by
  have hparent {v w : U} (hvw : d.parent v = some w) : v ≠ u ∧ w ≠ u := by
    have hexists := d.parent_exists hvw
    exact ⟨fun hv => h (hv ▸ hexists.1), fun hw => h (hw ▸ hexists.2)⟩
  ext1
  · exact Function.update_eq_self_iff.2 (Option.not_isSome_iff_eq_none.1 h).symm
  · funext v
    refine Option.ext fun w => ?_
    show (if v = u ∨ d.parent v = some u then none else d.parent v) = some w ↔ _
    rw [Option.ite_none_left_eq_some, and_iff_right_iff_imp]
    rintro hvw (hv | hv)
    · exact (hparent hvw).1 hv
    · exact (hparent hv).2 rfl
  · funext p v
    refine propext (and_iff_left_of_imp fun hv hvu => h ?_)
    rw [← hvu]
    exact d.member_exists hv

omit [DecidableEq U]

def enter (p : P) (u : U) (h : d.Has u) : Directory U N P where
  name := d.name
  parent := d.parent
  member q v := d.member q v ∨ q = p ∧ v = u
  name_injective := d.name_injective
  parent_exists := d.parent_exists
  member_exists q v hv := by
    rcases hv with hv | ⟨-, rfl⟩
    · exact d.member_exists hv
    · exact h

theorem enter_of_member {p : P} {u : U} (h : d.member p u) : d.enter p u (d.member_exists h) = d := by
  ext1
  · rfl
  · rfl
  · funext q v
    refine propext (or_iff_left_of_imp ?_)
    rintro ⟨rfl, rfl⟩
    exact h

def leave (p : P) (u : U) : Directory U N P where
  name := d.name
  parent := d.parent
  member q v := d.member q v ∧ ¬ (q = p ∧ v = u)
  name_injective := d.name_injective
  parent_exists := d.parent_exists
  member_exists _ _ hv := d.member_exists hv.1

end Directory
