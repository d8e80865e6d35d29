import Mathlib.Data.List.Nodup
import Mathlib.Data.List.Sort
import Mathlib.Order.Lattice
import Mathlib.Tactic.Common

/-!
# Keyed tables

A table is the list of its rows.  `insert`, `delete` and `update` are the three statements that change it; `insert`
and `update` fail with `none` as soon as two rows share a key, `update` after every single row it rewrites.  `visit`
is an update that goes through the rows in another order.  Reading in key order is `List.insertionSort`; on a table
without two rows of one key the order of the rows in the list is irrelevant to it (`sort_eq_of_perm`).
-/

namespace Table

variable {ρ κ : Type*}

section Statements

variable [DecidableEq κ] (key : ρ → κ) (sel : ρ → Bool) (f : ρ → ρ)

/-- Add a row, unless its key is taken. -/
def insert (r : ρ) (t : List ρ) : Option (List ρ) :=
  if key r ∈ t.map key then none else some (t ++ [r])

/-- Drop the selected rows. -/
def delete (t : List ρ) : List ρ := t.filter fun r => !sel r

/-- Rewrite the selected rows of the second list one at a time; the first list holds the rows already visited. -/
def updateLoop (seen : List ρ) : List ρ → Option (List ρ)
  | [] => some seen
  | r :: todo =>
    if sel r then
      if key (f r) ∈ (seen ++ todo).map key then none else updateLoop (seen ++ [f r]) todo
    else updateLoop (seen ++ [r]) todo

/-- Rewrite the selected rows, failing when a rewritten row has the key of another row of that moment. -/
def update (t : List ρ) : Option (List ρ) := updateLoop key sel f [] t

/-- An update that visits the rows in a given order of their places. -/
def visit : List Nat → List ρ → Option (List ρ)
  | [], t => some t
  | i :: is, t =>
    match t[i]? with
    | none => visit is t
    | some r =>
      if sel r then
        if key (f r) ∈ (t.eraseIdx i).map key then none else visit is (t.set i (f r))
      else visit is t

/-- The table after an update that does not fail. -/
def rewrite (t : List ρ) : List ρ := t.map fun r => if sel r then f r else r

variable {key sel f}

theorem insert_eq_some {r : ρ} {t t' : List ρ} (h : insert key r t = some t') :
    key r ∉ t.map key ∧ t' = t ++ [r] := by
  unfold insert at h
  split at h
  · cases h
  · rename_i hk
    exact ⟨hk, (Option.some.inj h).symm⟩

private theorem updateLoop_eq_some {seen todo t' : List ρ} (h : updateLoop key sel f seen todo = some t') :
    t' = seen ++ rewrite sel f todo := by
  induction todo generalizing seen with
  | nil =>
    rw [← Option.some.inj h]
    simp [rewrite]
  | cons r todo ih =>
    unfold updateLoop at h
    by_cases hs : sel r
    · rw [if_pos hs] at h
      split at h
      · cases h
      · rw [ih h]
        simp [rewrite, hs]
    · rw [if_neg hs] at h
      rw [ih h]
      simp [rewrite, hs]

/-- An update that succeeds has rewritten every selected row and no other. -/
theorem update_eq_some {t t' : List ρ} (h : update key sel f t = some t') : t' = rewrite sel f t := by
  simpa using updateLoop_eq_some h

private theorem nodup_updateLoop {seen todo t' : List ρ} (hk : ((seen ++ todo).map key).Nodup)
    (h : updateLoop key sel f seen todo = some t') : (t'.map key).Nodup := by
  induction todo generalizing seen with
  | nil =>
    rw [← Option.some.inj h]
    simpa using hk
  | cons r todo ih =>
    unfold updateLoop at h
    by_cases hs : sel r
    · rw [if_pos hs] at h
      split at h
      · cases h
      · rename_i hnew
        refine ih ?_ h
        rw [List.map_append, List.map_cons, List.nodup_middle] at hk
        rw [List.append_assoc, List.singleton_append, List.map_append, List.map_cons, List.nodup_middle]
        rw [List.map_append] at hnew
        exact List.nodup_cons.2 ⟨hnew, (List.nodup_cons.1 hk).2⟩
    · rw [if_neg hs] at h
      refine ih ?_ h
      rwa [List.append_assoc, List.singleton_append]

/-- An update that succeeds keeps the key. -/
theorem nodup_update {t t' : List ρ} (hk : (t.map key).Nodup) (h : update key sel f t = some t') :
    (t'.map key).Nodup :=
  nodup_updateLoop (by simpa using hk) h

private theorem updateLoop_of_fresh {seen todo : List ρ}
    (hfresh : ∀ r ∈ todo, sel r → ∀ r' ∈ seen ++ todo, key (f r) ≠ key r')
    (hnodup : ((todo.filter sel).map fun r => key (f r)).Nodup) :
    updateLoop key sel f seen todo = some (seen ++ rewrite sel f todo) := by
  induction todo generalizing seen with
  | nil => simp [updateLoop, rewrite]
  | cons r todo ih =>
    unfold updateLoop
    by_cases hs : sel r
    · rw [List.filter_cons_of_pos hs, List.map_cons, List.nodup_cons] at hnodup
      have hnew : key (f r) ∉ (seen ++ todo).map key := by
        intro hmem
        obtain ⟨r', hr', hkey⟩ := List.mem_map.1 hmem
        refine hfresh r (List.mem_cons_self ..) hs r' ?_ hkey.symm
        rcases List.mem_append.1 hr' with hr' | hr'
        · exact List.mem_append_left _ hr'
        · exact List.mem_append_right _ (List.mem_cons_of_mem _ hr')
      rw [if_pos hs, if_neg hnew, ih ?_ hnodup.2]
      · simp [rewrite, hs]
      · intro r₁ hr₁ hs₁ r₂ hr₂
        rw [List.append_assoc, List.singleton_append, List.mem_append, List.mem_cons] at hr₂
        rcases hr₂ with hr₂ | rfl | hr₂
        · exact hfresh r₁ (List.mem_cons_of_mem _ hr₁) hs₁ r₂ (List.mem_append_left _ hr₂)
        · exact fun h => hnodup.1 (h ▸ List.mem_map.2 ⟨r₁, List.mem_filter.2 ⟨hr₁, hs₁⟩, rfl⟩)
        · exact hfresh r₁ (List.mem_cons_of_mem _ hr₁) hs₁ r₂
            (List.mem_append_right _ (List.mem_cons_of_mem _ hr₂))
    · rw [List.filter_cons_of_neg hs] at hnodup
      rw [if_neg hs, ih ?_ hnodup]
      · simp [rewrite, hs]
      · intro r₁ hr₁ hs₁ r₂ hr₂
        rw [List.append_assoc, List.singleton_append] at hr₂
        exact hfresh r₁ (List.mem_cons_of_mem _ hr₁) hs₁ r₂ hr₂

/-- An update succeeds when the new keys are distinct and no row has one of them before. -/
theorem update_of_fresh {t : List ρ} (hfresh : ∀ r ∈ t, sel r → ∀ r' ∈ t, key (f r) ≠ key r')
    (hnodup : ((t.filter sel).map fun r => key (f r)).Nodup) : update key sel f t = some (rewrite sel f t) :=
  updateLoop_of_fresh (by simpa using hfresh) hnodup

/-- The rows visited so far are rewritten, the others are as they were. -/
private theorem visit_of_distinct {is : List Nat} {t : List ρ} (his : is.Nodup)
    (hfresh : ∀ i ∈ is, ∀ r, t[i]? = some r → sel r → ∀ r' ∈ t, key (f r) ≠ key r')
    (hdistinct : ∀ i ∈ is, ∀ j ∈ is, i ≠ j → ∀ r r', t[i]? = some r → t[j]? = some r' → sel r → sel r' →
      key (f r) ≠ key (f r')) :
    ∃ t', visit key sel f is t = some t' ∧ ∀ j, t'[j]? = (t[j]?).map fun r => if j ∈ is ∧ sel r then f r else r := by
  induction is generalizing t with
  | nil => exact ⟨t, rfl, by simp⟩
  | cons i is ih =>
    obtain ⟨hi, his⟩ := List.nodup_cons.1 his
    have hrest := ih his (fun j hj => hfresh j (List.mem_cons_of_mem _ hj))
      (fun j hj k hk => hdistinct j (List.mem_cons_of_mem _ hj) k (List.mem_cons_of_mem _ hk))
    unfold visit
    cases hr : t[i]? with
    | none =>
      obtain ⟨t', ht', hget⟩ := hrest
      refine ⟨t', ht', fun j => ?_⟩
      by_cases hj : j = i
      · rw [hget, hj, hr]
        rfl
      · simp [hget, hj]
    | some r =>
      by_cases hs : sel r
      · have hlt : i < t.length := (List.getElem?_eq_some_iff.1 hr).1
        have hnew : key (f r) ∉ (t.eraseIdx i).map key := by
          intro hmem
          obtain ⟨r', hr', hkey⟩ := List.mem_map.1 hmem
          exact hfresh i (List.mem_cons_self ..) r hr hs r' (List.mem_of_mem_eraseIdx hr') hkey.symm
        have hold : ∀ j ∈ is, (t.set i (f r))[j]? = t[j]? := fun j hj =>
          List.getElem?_set_ne fun h : i = j => hi (h ▸ hj)
        obtain ⟨t', ht', hget⟩ := ih (t := t.set i (f r)) his
          (by
            intro j hj r₁ hr₁ hs₁ r₂ hr₂
            rw [hold j hj] at hr₁
            rcases List.mem_or_eq_of_mem_set hr₂ with hr₂ | rfl
            · exact hfresh j (List.mem_cons_of_mem _ hj) r₁ hr₁ hs₁ r₂ hr₂
            · exact hdistinct j (List.mem_cons_of_mem _ hj) i (List.mem_cons_self ..) (fun h => hi (h ▸ hj)) r₁ r hr₁
                hr hs₁ hs)
          (by
            intro j hj k hk hjk r₁ r₂ hr₁ hr₂
            rw [hold j hj] at hr₁
            rw [hold k hk] at hr₂
            exact hdistinct j (List.mem_cons_of_mem _ hj) k (List.mem_cons_of_mem _ hk) hjk r₁ r₂ hr₁ hr₂)
        simp only [hs, ↓reduceIte, hnew]
        refine ⟨t', ht', fun j => ?_⟩
        by_cases hj : j = i
        · rw [hget, hj, List.getElem?_set_self hlt, hr]
          simp [hi, hs]
        · simp [hget, hj, List.getElem?_set_ne (Ne.symm hj)]
      · obtain ⟨t', ht', hget⟩ := hrest
        simp only [hs]
        refine ⟨t', ht', fun j => ?_⟩
        by_cases hj : j = i
        · rw [hget, hj, hr]
          simp [hs]
        · simp [hget, hj]

/-- In whatever order the rows are visited, an update succeeds when the new keys are distinct and no row has one of
them before, and it does to the table what every other order does. -/
theorem visit_of_fresh {is : List Nat} {t : List ρ} (his : is.Perm (List.range t.length))
    (hfresh : ∀ r ∈ t, sel r → ∀ r' ∈ t, key (f r) ≠ key r')
    (hnodup : ((t.filter sel).map fun r => key (f r)).Nodup) : visit key sel f is t = some (rewrite sel f t) := by
  have hpair := List.pairwise_iff_getElem.1 (List.pairwise_filter.1 (List.pairwise_map.1 hnodup))
  obtain ⟨t', ht', hget⟩ := visit_of_distinct (f := f) (his.nodup_iff.2 List.nodup_range)
    (fun i _ r hr => hfresh r (List.mem_of_getElem? hr)) fun i _ j _ hij r r' hr hr' hs hs' => by
      obtain ⟨hi, rfl⟩ := List.getElem?_eq_some_iff.1 hr
      obtain ⟨hj, rfl⟩ := List.getElem?_eq_some_iff.1 hr'
      rcases Nat.lt_or_gt_of_ne hij with hlt | hlt
      · exact hpair i j hi hj hlt hs hs'
      · exact (hpair j i hj hi hlt hs' hs).symm
  rw [ht']
  refine congrArg some (List.ext_getElem? fun j => ?_)
  rw [hget, rewrite, List.getElem?_map]
  refine Option.map_congr fun r hr => ?_
  have hj : j ∈ is := his.mem_iff.2 (List.mem_range.2 (List.getElem?_eq_some_iff.1 hr).1)
  simp [hj]

theorem nodup_insert {r : ρ} {t t' : List ρ} (hk : (t.map key).Nodup) (h : insert key r t = some t') :
    (t'.map key).Nodup := by
  obtain ⟨hnew, rfl⟩ := insert_eq_some h
  rw [List.map_append, List.map_singleton, ← List.concat_eq_append]
  exact hk.concat hnew

omit [DecidableEq κ] in
theorem nodup_delete {t : List ρ} (hk : (t.map key).Nodup) : ((delete sel t).map key).Nodup :=
  hk.sublist (List.filter_sublist.map key)

/-- A rewriting that does not touch the key. -/
theorem map_rewrite {γ : Type*} {g : ρ → γ} (hg : ∀ r, g (f r) = g r) (t : List ρ) :
    (rewrite sel f t).map g = t.map g := by
  unfold rewrite
  rw [List.map_map]
  refine List.map_congr_left fun r _ => ?_
  by_cases hs : sel r <;> simp [hs, hg]

theorem mem_rewrite {r : ρ} {t : List ρ} :
    r ∈ rewrite sel f t ↔ ∃ r' ∈ t, (if sel r' then f r' else r') = r := by
  simp [rewrite]

/-- Rows that the update leaves in their class are rewritten inside it. -/
theorem filter_rewrite {p : ρ → Bool} (hp : ∀ r, p (f r) = p r) (t : List ρ) :
    (rewrite sel f t).filter p = rewrite sel f (t.filter p) := by
  have hcomp : (p ∘ fun r => if sel r then f r else r) = p := by
    funext r
    by_cases hs : sel r <;> simp [hs, hp]
  rw [rewrite, List.filter_map, hcomp]
  rfl

theorem rewrite_of_forall_not {t : List ρ} (h : ∀ r ∈ t, sel r = false) : rewrite sel f t = t := by
  conv => rhs; rw [← List.map_id t]
  exact List.map_congr_left fun r hr => by simp [h r hr]

/-- The row of a key, in a table without two rows of one key. -/
theorem find?_eq_some_iff {t : List ρ} (hk : (t.map key).Nodup) {k : κ} {r : ρ} :
    t.find? (fun r' => key r' == k) = some r ↔ r ∈ t ∧ key r = k := by
  constructor
  · intro hf
    exact ⟨List.mem_of_find?_eq_some hf, by simpa using List.find?_some hf⟩
  · rintro ⟨hr, rfl⟩
    cases hf : t.find? fun r' => key r' == key r with
    | none =>
      have := List.find?_eq_none.1 hf r hr
      simp at this
    | some r' =>
      have hmem := List.mem_of_find?_eq_some hf
      have hkey : key r' = key r := by simpa using List.find?_some hf
      rw [List.inj_on_of_nodup_map hk hmem hr hkey]

end Statements

/-! ### Reading in key order -/

section Sorting

variable [LinearOrder κ] (key : ρ → κ)

/-- Rows listed by strictly increasing key are what sorting any arrangement of them gives. -/
theorem sort_eq_of_perm {t l : List ρ} (hp : t.Perm l) (hl : l.Pairwise fun a b => key a < key b) :
    t.insertionSort (fun a b => key a ≤ key b) = l := by
  have : Std.Total fun a b : ρ => key a ≤ key b := ⟨fun a b => le_total (key a) (key b)⟩
  have : IsTrans ρ fun a b => key a ≤ key b := ⟨fun _ _ _ => le_trans⟩
  have hs := List.pairwise_insertionSort (fun a b => key a ≤ key b) t
  have hperm := (List.perm_insertionSort (fun a b => key a ≤ key b) t).trans hp
  refine hperm.eq_of_pairwise (fun a b ha hb hab hba => ?_) hs (hl.imp le_of_lt)
  have hkey : (l.map key).Nodup := List.pairwise_map.2 (hl.imp ne_of_lt)
  exact List.inj_on_of_nodup_map hkey (hperm.subset ha) hb (le_antisymm hab hba)

/-- Sorting a table without repeated keys lists its rows by strictly increasing key. -/
theorem pairwise_sort {t : List ρ} (hk : (t.map key).Nodup) :
    (t.insertionSort fun a b => key a ≤ key b).Pairwise fun a b => key a < key b := by
  have : Std.Total fun a b : ρ => key a ≤ key b := ⟨fun a b => le_total (key a) (key b)⟩
  have : IsTrans ρ fun a b => key a ≤ key b := ⟨fun _ _ _ => le_trans⟩
  have hs := List.pairwise_insertionSort (fun a b => key a ≤ key b) t
  have hk' := ((List.perm_insertionSort (fun a b => key a ≤ key b) t).map key).nodup_iff.2 hk
  exact hs.imp₂ (fun _ _ => lt_of_le_of_ne) (List.pairwise_map.1 hk')

/-- The list of all rows that satisfy `p`, by strictly increasing key. -/
def Enumerates (p : ρ → Prop) (l : List ρ) : Prop := (l.Pairwise fun a b => key a < key b) ∧ ∀ r, r ∈ l ↔ p r

/-- There is one such list at most. -/
theorem Enumerates.unique {p : ρ → Prop} {l l' : List ρ} (h : Enumerates key p l) (h' : Enumerates key p l') :
    l = l' := by
  have : Std.Irrefl fun a b : ρ => key a < key b := ⟨fun _ => lt_irrefl _⟩
  have : Std.Antisymm fun a b : ρ => key a < key b := ⟨fun _ _ hab hba => absurd (hab.trans hba) (lt_irrefl _)⟩
  exact h.1.eq_of_mem_iff h'.1 fun r => (h.2 r).trans (h'.2 r).symm

end Sorting

end Table
