import Mathlib.Data.List.Basic
import Mathlib.Logic.Function.Basic
import Mathlib.Tactic.Common

/-!
# Rules in layers

A list of rules is searched for the first rule that applies, and its value counts (`first`).  Lists of rules stand in
layers, of which only the first one with a rule is asked; where nothing applies, a default is the verdict (`verdict`).
Two questions are answered about edits: what exactly the insertion of one rule does (`verdict_insertIdx`), and which
edits can move verdicts towards a value `a` only.  Such edits add rules with this value and drop rules with other values
(`Tends`), and they fill or empty a layer only as the default allows it (`verdict_of_towards`).
-/

namespace Rules

variable {α β κ : Type*}

/-- The value of the first rule that applies. -/
def first (applies : α → Bool) (value : α → β) (l : List α) : Option β := (l.find? applies).map value

/-- The verdict of the first layer of the path that has a rule. -/
def verdict (applies : α → Bool) (value : α → β) (d : β) (layer : κ → List α) : List κ → β
  | [] => d
  | k :: path =>
    if (layer k).isEmpty then verdict applies value d layer path else (first applies value (layer k)).getD d

section First

variable {applies : α → Bool} {value : α → β}

@[simp] theorem first_nil : first applies value [] = none := rfl

theorem first_cons_of_pos {r : α} (h : applies r) (l : List α) : first applies value (r :: l) = some (value r) := by
  rw [first, List.find?_cons_of_pos h, Option.map_some]

theorem first_cons_of_neg {r : α} (h : ¬ applies r) (l : List α) :
    first applies value (r :: l) = first applies value l := by
  rw [first, List.find?_cons_of_neg h, first]

theorem first_append (l l' : List α) :
    first applies value (l ++ l') = (first applies value l).or (first applies value l') := by
  rw [first, List.find?_append, Option.map_or]
  rfl

theorem first_eq_none {l : List α} : first applies value l = none ↔ ∀ r ∈ l, ¬ applies r := by
  rw [first, Option.map_eq_none_iff, List.find?_eq_none]

theorem mem_of_first {l : List α} {b : β} (h : first applies value l = some b) :
    ∃ r ∈ l, applies r ∧ value r = b := by
  obtain ⟨r, hr, hb⟩ := Option.map_eq_some_iff.1 h
  exact ⟨r, List.mem_of_find?_eq_some hr, List.find?_some hr, hb⟩

theorem insertIdx_eq_append {l : List α} {i : ℕ} (hi : i ≤ l.length) (r : α) :
    l.insertIdx i r = l.take i ++ r :: l.drop i := by
  induction l generalizing i with
  | nil =>
    obtain rfl := Nat.le_zero.1 hi
    rfl
  | cons x l ih =>
    cases i with
    | zero => rfl
    | succ i =>
      rw [List.insertIdx_succ_cons, ih (Nat.le_of_succ_le_succ hi)]
      rfl

/-- What is found after an insertion. -/
theorem first_insertIdx {l : List α} {i : ℕ} (hi : i ≤ l.length) (r : α) :
    first applies value (l.insertIdx i r) =
      if applies r then (first applies value (l.take i)).or (some (value r)) else first applies value l := by
  rw [insertIdx_eq_append hi, first_append]
  split
  · rename_i h
    rw [first_cons_of_pos h]
  · rename_i h
    rw [first_cons_of_neg h, ← first_append, List.take_append_drop]

/-- The rule that is found, and what stands before it. -/
theorem first_eq_some_of_split {before after : List α} {r : α} (hbefore : ∀ r' ∈ before, ¬ applies r') (hr : applies r) :
    first applies value (before ++ r :: after) = some (value r) := by
  rw [first_append, first_eq_none.2 hbefore, Option.none_or, first_cons_of_pos hr]

theorem split_of_first {l : List α} {b : β} (h : first applies value l = some b) :
    ∃ before r after, l = before ++ r :: after ∧ (∀ r' ∈ before, ¬ applies r') ∧ applies r ∧ value r = b := by
  obtain ⟨r, hfind, hb⟩ := Option.map_eq_some_iff.1 h
  obtain ⟨hr, before, after, hl, hbefore⟩ := List.find?_eq_some_iff_append.1 hfind
  exact ⟨before, r, after, hl, fun r' hr' => by simpa using hbefore r' hr', hr, hb⟩

end First

/-- The verdict is that of the first layer with a rule. -/
theorem verdict_eq_find (applies : α → Bool) (value : α → β) (d : β) (layer : κ → List α) (path : List κ) :
    verdict applies value d layer path =
      ((path.find? fun k => !(layer k).isEmpty).bind fun k => first applies value (layer k)).getD d := by
  induction path with
  | nil => rfl
  | cons k path ih =>
    rw [verdict]
    by_cases hk : (layer k).isEmpty
    · rw [if_pos hk, ih, List.find?_cons_of_neg (by simpa using hk)]
    · rw [if_neg hk, List.find?_cons_of_pos (by simpa using hk), Option.bind_some]

/-! ### One layer is edited -/

section Edit

variable {applies : α → Bool} {value : α → β} {d : β} {layer layer' : κ → List α}

theorem verdict_congr {path : List κ} (h : ∀ k ∈ path, layer k = layer' k) :
    verdict applies value d layer path = verdict applies value d layer' path := by
  induction path with
  | nil => rfl
  | cons k path ih =>
    rw [verdict, verdict, h k (List.mem_cons_self ..), ih fun k' hk' => h k' (List.mem_cons_of_mem _ hk')]

/-- Layers without rules are passed over. -/
theorem verdict_append_of_empty {before : List κ} (h : ∀ k ∈ before, layer k = []) (path : List κ) :
    verdict applies value d layer (before ++ path) = verdict applies value d layer path := by
  induction before with
  | nil => rfl
  | cons k before ih =>
    rw [List.cons_append, verdict, h k (List.mem_cons_self ..)]
    exact ih fun k' hk' => h k' (List.mem_cons_of_mem _ hk')

/-- Behind a layer with rules nothing is asked. -/
theorem verdict_append_of_nonempty {before : List κ} (h : ∃ k ∈ before, layer k ≠ []) (path : List κ) :
    verdict applies value d layer (before ++ path) = verdict applies value d layer before := by
  induction before with
  | nil =>
    obtain ⟨k, hk, -⟩ := h
    cases hk
  | cons k before ih =>
    rw [List.cons_append, verdict, verdict]
    by_cases hk : (layer k).isEmpty
    · rw [if_pos hk, if_pos hk]
      refine ih ?_
      obtain ⟨k', hk', hne⟩ := h
      rcases List.mem_cons.1 hk' with rfl | hk'
      · exact absurd (List.isEmpty_iff.1 hk) hne
      · exact ⟨k', hk', hne⟩
    · rw [if_neg hk, if_neg hk]

variable [DecidableEq κ]

theorem verdict_update_of_notMem {path : List κ} {k : κ} (h : k ∉ path) (l : List α) :
    verdict applies value d (Function.update layer k l) path = verdict applies value d layer path := by
  refine verdict_congr fun k' hk' => Function.update_of_ne ?_ ..
  rintro rfl
  exact h hk'

/-- An edit of the layer that is asked. -/
theorem verdict_update {before after : List κ} {k : κ} (hnodup : (before ++ k :: after).Nodup)
    (hempty : ∀ k' ∈ before, layer k' = []) (l : List α) :
    verdict applies value d (Function.update layer k l) (before ++ k :: after) =
      if l.isEmpty then verdict applies value d layer after else (first applies value l).getD d := by
  obtain ⟨-, hafter, hdisjoint⟩ := List.nodup_append.1 hnodup
  have hbefore : ∀ k' ∈ before, Function.update layer k l k' = [] := by
    intro k' hk'
    rw [Function.update_of_ne (hdisjoint k' hk' k (List.mem_cons_self ..))]
    exact hempty k' hk'
  rw [verdict_append_of_empty hbefore, verdict, Function.update_self,
    verdict_update_of_notMem (List.nodup_cons.1 hafter).1]

/-- An edit of a layer behind one with rules. -/
theorem verdict_update_of_nonempty {before after : List κ} {k : κ} (hk : k ∉ before)
    (hne : ∃ k' ∈ before, layer k' ≠ []) (l : List α) :
    verdict applies value d (Function.update layer k l) (before ++ k :: after) =
      verdict applies value d layer (before ++ k :: after) := by
  have hne' : ∃ k' ∈ before, Function.update layer k l k' ≠ [] := by
    obtain ⟨k', hk', hk'ne⟩ := hne
    have hk'k : k' ≠ k := by
      rintro rfl
      exact hk hk'
    refine ⟨k', hk', ?_⟩
    rwa [Function.update_of_ne hk'k]
  rw [verdict_append_of_nonempty hne', verdict_append_of_nonempty hne, verdict_update_of_notMem hk]

/-- What a new rule does: where it applies it decides, unless an earlier rule of the layer does; where it does not apply
it only counts as the first rule of the layer. -/
theorem verdict_insertIdx {before after : List κ} {k : κ} (hnodup : (before ++ k :: after).Nodup)
    (hempty : ∀ k' ∈ before, layer k' = []) {i : ℕ} (hi : i ≤ (layer k).length) (r : α) :
    verdict applies value d (Function.update layer k ((layer k).insertIdx i r)) (before ++ k :: after) =
      if applies r then (first applies value ((layer k).take i)).getD (value r)
      else if layer k = [] then d else verdict applies value d layer (before ++ k :: after) := by
  have hne : ((layer k).insertIdx i r).isEmpty = false := by
    rw [insertIdx_eq_append hi]
    simp
  rw [verdict_update hnodup hempty, if_neg (by rw [hne]; exact Bool.false_ne_true), first_insertIdx hi]
  by_cases h : applies r
  · rw [if_pos h, if_pos h]
    cases first applies value ((layer k).take i) <;> rfl
  · rw [if_neg h, if_neg h]
    by_cases hl : layer k = []
    · rw [if_pos hl, hl, first_nil, Option.getD_none]
    · rw [if_neg hl, verdict_append_of_empty hempty, verdict, if_neg (by simpa using hl)]

end Edit

/-! ### Edits towards a value -/

section Towards

variable {applies applies' : α → Bool} {value : α → β} {a d : β}

/-- Rules with the value `a` are added, and rules with other values are dropped; rules may start or cease to apply in
the same sense. -/
inductive Tends (applies applies' : α → Bool) (value : α → β) (a : β) : List α → List α → Prop
  | nil : Tends applies applies' value a [] []
  | keep {r : α} {l l' : List α} (h : applies r = applies' r) (hl : Tends applies applies' value a l l') :
    Tends applies applies' value a (r :: l) (r :: l')
  | drop {r : α} {l l' : List α} (h : applies r → value r ≠ a) (hl : Tends applies applies' value a l l') :
    Tends applies applies' value a (r :: l) l'
  | add {r : α} {l l' : List α} (h : applies' r → value r = a) (hl : Tends applies applies' value a l l') :
    Tends applies applies' value a l (r :: l')

/-- If the value of the list was `a`, it still is. -/
def Towards (applies applies' : α → Bool) (value : α → β) (d a : β) (l l' : List α) : Prop :=
  (first applies value l).getD d = a → (first applies' value l').getD d = a

theorem Towards.refl (applies : α → Bool) (value : α → β) (d a : β) (l : List α) :
    Towards applies applies value d a l l := id

/-- What is found in the list that tends towards `a`, as far as it depends on what was found before. -/
theorem Tends.first {l l' : List α} (h : Tends applies applies' value a l l') :
    (Rules.first applies value l = some a → Rules.first applies' value l' = some a) ∧
      (Rules.first applies value l = none →
        Rules.first applies' value l' = none ∨ Rules.first applies' value l' = some a) := by
  induction h with
  | nil => exact ⟨id, .inl⟩
  | @keep r l l' h hl ih =>
    by_cases hr : applies r
    · rw [first_cons_of_pos hr, first_cons_of_pos (h ▸ hr)]
      exact ⟨id, fun hnone => by cases hnone⟩
    · rw [first_cons_of_neg hr, first_cons_of_neg (h ▸ hr)]
      exact ih
  | @drop r l l' h hl ih =>
    by_cases hr : applies r
    · rw [first_cons_of_pos hr]
      exact ⟨fun hsome => absurd (Option.some.inj hsome) (h hr), fun hnone => by cases hnone⟩
    · rwa [first_cons_of_neg hr]
  | @add r l l' h hl ih =>
    by_cases hr : applies' r
    · rw [first_cons_of_pos hr, h hr]
      exact ⟨fun _ => rfl, fun _ => .inr rfl⟩
    · rwa [first_cons_of_neg hr]

theorem Tends.towards {l l' : List α} (h : Tends applies applies' value a l l') (d : β) :
    Towards applies applies' value d a l l' := by
  intro hd
  cases hl : Rules.first applies value l with
  | some b =>
    rw [hl, Option.getD_some] at hd
    rw [h.first.1 (hd ▸ hl), Option.getD_some]
  | none =>
    rw [hl, Option.getD_none] at hd
    rcases h.first.2 hl with h' | h'
    · rw [h', Option.getD_none, hd]
    · rw [h', Option.getD_some]

/-- Only some of the rules stay, and those that stay may start or cease to apply. -/
theorem Tends.filter {keep : α → Bool} {l : List α}
    (hdrop : ∀ r ∈ l, applies r → (¬ keep r ∨ ¬ applies' r) → value r ≠ a)
    (hadd : ∀ r ∈ l, keep r → applies' r → ¬ applies r → value r = a) :
    Tends applies applies' value a l (l.filter keep) := by
  induction l with
  | nil => exact .nil
  | cons r l ih =>
    have hl := ih (fun r hr => hdrop r (List.mem_cons_of_mem _ hr)) fun r hr => hadd r (List.mem_cons_of_mem _ hr)
    have hd := hdrop r (List.mem_cons_self ..)
    have ha := hadd r (List.mem_cons_self ..)
    by_cases hk : keep r
    · rw [List.filter_cons_of_pos hk]
      by_cases h : applies r <;> by_cases h' : applies' r
      · exact .keep (h.trans h'.symm) hl
      · exact .drop (fun _ => hd h (.inr h')) (.add (fun h'' => absurd h'' h') hl)
      · exact .drop (fun h'' => absurd h'' h) (.add (fun _ => ha hk h' h) hl)
      · exact .keep ((Bool.not_eq_true _ ▸ h).trans (Bool.not_eq_true _ ▸ h').symm) hl
    · rw [List.filter_cons_of_neg hk]
      exact .drop (fun h => hd h (.inl hk)) hl

theorem Tends.of_applies {l : List α} (hdrop : ∀ r ∈ l, applies r → ¬ applies' r → value r ≠ a)
    (hadd : ∀ r ∈ l, applies' r → ¬ applies r → value r = a) : Tends applies applies' value a l l := by
  have h : Tends applies applies' value a l (l.filter fun _ => true) :=
    .filter (fun r hr h hkeep => hdrop r hr h (hkeep.resolve_left fun hno => hno rfl)) fun r hr _ => hadd r hr
  rwa [List.filter_true] at h

theorem Tends.refl (applies : α → Bool) (value : α → β) (a : β) (l : List α) : Tends applies applies value a l l :=
  .of_applies (fun _ _ h h' => absurd h h') fun _ _ h h' => absurd h h'

theorem Tends.append {l₁ l₁' l₂ l₂' : List α} (h₁ : Tends applies applies' value a l₁ l₁')
    (h₂ : Tends applies applies' value a l₂ l₂') : Tends applies applies' value a (l₁ ++ l₂) (l₁' ++ l₂') := by
  induction h₁ with
  | nil => exact h₂
  | keep h _ ih => exact .keep h ih
  | drop h _ ih => exact .drop h ih
  | add h _ ih => exact .add h ih

theorem Tends.insertIdx {l : List α} {i : ℕ} (hi : i ≤ l.length) {r : α} (hr : value r = a) :
    Tends applies applies value a l (l.insertIdx i r) := by
  rw [insertIdx_eq_append hi]
  have h := (Tends.refl applies value a (l.take i)).append (.add (fun _ => hr) (.refl applies value a (l.drop i)))
  rwa [List.take_append_drop] at h

theorem Tends.eraseIdx {l : List α} {i : ℕ} (hr : ∀ r, l[i]? = some r → value r ≠ a) :
    Tends applies applies value a l (l.eraseIdx i) := by
  induction l generalizing i with
  | nil => exact .nil
  | cons r l ih =>
    cases i with
    | zero => exact .drop (fun _ => hr r rfl) (.refl applies value a l)
    | succ i => exact .keep rfl (ih fun r' hr' => hr r' hr')

/-- A rule with the value `a` moves to the front. -/
theorem towards_move_up {s t u : List α} {r : α} (hr : value r = a) :
    Towards applies applies value d a (s ++ (t ++ r :: u)) (s ++ r :: (t ++ u)) := by
  intro h
  by_cases happ : applies r
  · rw [first_append, first_cons_of_pos happ]
    rw [first_append] at h
    cases hs : first applies value s with
    | some b =>
      rw [hs] at h
      exact h
    | none => exact hr
  · rw [first_append, first_cons_of_neg happ, first_append]
    rwa [first_append, first_append, first_cons_of_neg happ] at h

/-- A rule with another value moves to the back. -/
theorem towards_move_down {s t u : List α} {r : α} (hr : value r ≠ a) :
    Towards applies applies value d a (s ++ r :: (t ++ u)) (s ++ (t ++ r :: u)) := by
  intro h
  by_cases happ : applies r
  · rw [first_append, first_cons_of_pos happ] at h
    rw [first_append]
    cases hs : first applies value s with
    | some b =>
      rw [hs] at h
      exact h
    | none =>
      rw [hs] at h
      exact absurd h hr
  · rw [first_append, first_cons_of_neg happ, first_append] at h
    rwa [first_append, first_append, first_cons_of_neg happ]

/-- A rule moves from one index to another, to the front if it has the value `a` and to the back if not. -/
theorem towards_move {l : List α} {i j : ℕ} (hi : i < l.length) (hj : j < l.length) (hup : value l[i] = a → j ≤ i)
    (hdown : value l[i] ≠ a → i ≤ j) :
    Towards applies applies value d a l ((l.eraseIdx i).insertIdx j l[i]) := by
  have hsplit : l = l.take i ++ l[i] :: l.drop (i + 1) := by
    rw [List.getElem_cons_drop, List.take_append_drop]
  have herase : l.eraseIdx i = l.take i ++ l.drop (i + 1) := List.eraseIdx_eq_take_drop_succ ..
  have hlen : j ≤ (l.eraseIdx i).length := by
    rw [List.length_eraseIdx_of_lt hi]
    omega
  have htake : (l.take i).length = i := List.length_take_of_le (Nat.le_of_lt hi)
  rw [insertIdx_eq_append hlen, herase]
  by_cases hr : value l[i] = a
  · have hji := hup hr
    have hmove : Towards applies applies value d a
        ((l.take i).take j ++ ((l.take i).drop j ++ l[i] :: l.drop (i + 1)))
        ((l.take i).take j ++ l[i] :: ((l.take i).drop j ++ l.drop (i + 1))) := towards_move_up hr
    rw [← List.append_assoc, List.take_append_drop, ← hsplit] at hmove
    rwa [List.take_append_of_le_length (by omega), List.drop_append_of_le_length (by omega)]
  · have hij := hdown hr
    have hmove : Towards applies applies value d a
        (l.take i ++ l[i] :: ((l.drop (i + 1)).take (j - i) ++ (l.drop (i + 1)).drop (j - i)))
        (l.take i ++ ((l.drop (i + 1)).take (j - i) ++ l[i] :: (l.drop (i + 1)).drop (j - i))) :=
      towards_move_down hr
    rw [List.take_append_drop, ← hsplit] at hmove
    have htake' : (l.take i ++ l.drop (i + 1)).take j = l.take i ++ (l.drop (i + 1)).take (j - i) := by
      rw [List.take_append, htake, List.take_of_length_le (by omega)]
    have hdrop' : (l.take i ++ l.drop (i + 1)).drop j = (l.drop (i + 1)).drop (j - i) := by
      rw [List.drop_append, htake, List.drop_eq_nil_of_le (by omega), List.nil_append]
    rw [htake', hdrop', List.append_assoc]
    exact hmove

/-- If in every layer the value can only move towards `a`, and layers are filled or emptied only as the default allows
it, then a verdict that was `a` is `a`. -/
theorem verdict_of_towards {layer layer' : κ → List α} {path : List κ}
    (hlayer : ∀ k ∈ path, Towards applies applies' value d a (layer k) (layer' k))
    (hfill : d ≠ a → ∀ k ∈ path, layer k = [] → layer' k = [])
    (hclear : d = a → ∀ k ∈ path, layer' k = [] → layer k = [])
    (h : verdict applies value d layer path = a) : verdict applies' value d layer' path = a := by
  induction path with
  | nil => exact h
  | cons k path ih =>
    have hrest := ih (fun k' hk' => hlayer k' (List.mem_cons_of_mem _ hk'))
      (fun hd k' hk' => hfill hd k' (List.mem_cons_of_mem _ hk'))
      fun hd k' hk' => hclear hd k' (List.mem_cons_of_mem _ hk')
    have hk := hlayer k (List.mem_cons_self ..)
    unfold Towards at hk
    rw [verdict] at h ⊢
    by_cases hl : layer k = [] <;> by_cases hl' : layer' k = []
    · rw [hl, List.isEmpty_nil, if_pos rfl] at h
      rw [hl', List.isEmpty_nil, if_pos rfl]
      exact hrest h
    · rw [if_neg (by simpa using hl')]
      refine hk ?_
      rw [hl, first_nil, Option.getD_none]
      by_contra hd
      exact hl' (hfill hd k (List.mem_cons_self ..) hl)
    · rw [if_neg (by simpa using hl)] at h
      have hd := hk h
      rw [hl', first_nil, Option.getD_none] at hd
      exact absurd (hclear hd k (List.mem_cons_self ..) hl') hl
    · rw [if_neg (by simpa using hl)] at h
      rw [if_neg (by simpa using hl')]
      exact hk h

end Towards

end Rules
