import BakaPerms.Lib.Table
import Mathlib.Data.List.InsertIdx
import Mathlib.Algebra.Order.Ring.Int

/-!
# Lists kept as numbered entries

A list can be kept as a set of entries that carry their position: `number 0 l` writes the positions `0, 1, 2, …`
next to the elements of `l`, and `Stores s l` says that `s` is some arrangement of these entries.  Inserting,
erasing and permuting then become renumberings of the entries; each theorem below says which renumbering realises
which list operation.
-/

namespace Numbering

variable {β : Type*}

/-- The entries of a list, numbered from `k` on. -/
def number (k : Int) : List β → List (Int × β)
  | [] => []
  | b :: l => (k, b) :: number (k + 1) l

/-- The entries are those of `l`, in some arrangement. -/
def Stores (s : List (Int × β)) (l : List β) : Prop := s.Perm (number 0 l)

/-- The numbers are distinct and not negative; there may be gaps between them. -/
structure Numbered (s : List (Int × β)) : Prop where
  nodup : (s.map Prod.fst).Nodup
  nonneg : ∀ x ∈ s, 0 ≤ x.1

/-- The elements in the order of their numbers. -/
def readOff (s : List (Int × β)) : List β := (s.insertionSort fun a b => a.1 ≤ b.1).map Prod.snd

@[simp] theorem map_snd_number (k : Int) (l : List β) : (number k l).map Prod.snd = l := by
  induction l generalizing k with
  | nil => rfl
  | cons b l ih => rw [number, List.map_cons, ih]

theorem length_number (k : Int) (l : List β) : (number k l).length = l.length := by
  have := congrArg List.length (map_snd_number k l)
  rwa [List.length_map] at this

theorem map_fst_number (k : Int) (l : List β) :
    (number k l).map Prod.fst = (List.range l.length).map fun i : Nat => k + (i : Int) := by
  induction l generalizing k with
  | nil => rfl
  | cons b l ih =>
    rw [number, List.map_cons, ih, List.length_cons, List.range_succ_eq_map, List.map_cons, List.map_map]
    refine congr (congrArg List.cons (by simp)) (List.map_congr_left fun i _ => ?_)
    simp only [Function.comp_apply, Nat.succ_eq_add_one, Nat.cast_add, Nat.cast_one]
    omega

theorem bounds_of_mem_number {k : Int} {l : List β} {x : Int × β} (h : x ∈ number k l) :
    k ≤ x.1 ∧ x.1 < k + l.length := by
  have hx := List.mem_map_of_mem (f := Prod.fst) h
  rw [map_fst_number] at hx
  obtain ⟨i, hi, he⟩ := List.mem_map.1 hx
  have := List.mem_range.1 hi
  omega

theorem number_append (k : Int) (l₁ l₂ : List β) :
    number k (l₁ ++ l₂) = number k l₁ ++ number (k + l₁.length) l₂ := by
  induction l₁ generalizing k with
  | nil => simp [number]
  | cons b l ih =>
    simp only [List.cons_append, number, ih, List.length_cons, Nat.cast_add, Nat.cast_one]
    rw [Int.add_assoc, Int.add_comm 1]

theorem pairwise_number (k : Int) (l : List β) : (number k l).Pairwise fun a b => a.1 < b.1 := by
  induction l generalizing k with
  | nil => exact .nil
  | cons b l ih =>
    refine List.pairwise_cons.2 ⟨fun x hx => ?_, ih (k + 1)⟩
    have := (bounds_of_mem_number hx).1
    show k < x.1
    omega

/-- Numbering the mapped elements is mapping inside the entries. -/
theorem number_shift (k d : Int) (l : List β) :
    (number k l).map (fun x => (x.1 + d, x.2)) = number (k + d) l := by
  induction l generalizing k with
  | nil => rfl
  | cons b l ih =>
    rw [number, List.map_cons, ih, number, Int.add_right_comm]

theorem Stores.readOff_eq {s : List (Int × β)} {l : List β} (h : Stores s l) : readOff s = l := by
  unfold readOff
  rw [Table.sort_eq_of_perm Prod.fst h (pairwise_number 0 l), map_snd_number]

theorem Stores.length_eq {s : List (Int × β)} {l : List β} (h : Stores s l) : s.length = l.length :=
  (List.Perm.length_eq h).trans (length_number 0 l)

/-- The numbers in use are exactly `0, …, n - 1`. -/
theorem Stores.fst_perm {s : List (Int × β)} {l : List β} (h : Stores s l) :
    (s.map Prod.fst).Perm ((List.range s.length).map fun i : Nat => (i : Int)) := by
  have hp := List.Perm.map Prod.fst h
  rw [map_fst_number] at hp
  rw [h.length_eq]
  simpa using hp

theorem Stores.bounds {s : List (Int × β)} {l : List β} (h : Stores s l) {x : Int × β} (hx : x ∈ s) :
    0 ≤ x.1 ∧ x.1 < l.length := by
  simpa using bounds_of_mem_number (List.Perm.subset h hx)

theorem Stores.numbered {s : List (Int × β)} {l : List β} (h : Stores s l) : Numbered s where
  nodup := (List.Perm.nodup_iff (List.Perm.map Prod.fst h)).2 (List.pairwise_map.2 ((pairwise_number 0 l).imp ne_of_lt))
  nonneg _ hx := (h.bounds hx).1

theorem Numbered.sublist {s s' : List (Int × β)} (h : Numbered s) (hs : s'.Sublist s) : Numbered s' where
  nodup := h.nodup.sublist (hs.map Prod.fst)
  nonneg x hx := h.nonneg x (hs.subset hx)

theorem stores_nil : Stores ([] : List (Int × β)) [] := .nil

/-- The next free number is the length of the list. -/
theorem Stores.max_succ {s : List (Int × β)} {l : List β} (h : Stores s l) :
    ((s.map Prod.fst).max?.getD (-1)) + 1 = l.length := by
  cases hm : (s.map Prod.fst).max? with
  | none =>
    have hs : s = [] := by simpa using hm
    subst hs
    rw [← h.length_eq]
    rfl
  | some m =>
    obtain ⟨hmem, hmax⟩ := List.max?_eq_some_iff.1 hm
    obtain ⟨x, hx, rfl⟩ := List.mem_map.1 hmem
    have hlt := (h.bounds hx).2
    have hlast : ((l.length - 1 : Nat) : Int) ∈ s.map Prod.fst := by
      refine h.fst_perm.symm.subset (List.mem_map.2 ⟨l.length - 1, List.mem_range.2 ?_, rfl⟩)
      rw [h.length_eq]
      have := (h.bounds hx).1
      omega
    have := hmax _ hlast
    rw [Option.getD_some]
    omega

/-! ### The renumberings -/

/-- A new entry with the next number is appended. -/
theorem Stores.append {s : List (Int × β)} {l : List β} (h : Stores s l) (b : β) :
    Stores (s ++ [((l.length : Int), b)]) (l ++ [b]) := by
  unfold Stores
  rw [number_append]
  simpa [number] using List.Perm.append_right [((l.length : Int), b)] h

private theorem map_number {k d : Int} {φ : Int → Int} (l : List β)
    (hφ : ∀ i, k ≤ i → i < k + l.length → φ i = i + d) :
    (number k l).map (fun x => (φ x.1, x.2)) = number (k + d) l := by
  rw [← number_shift]
  refine List.map_congr_left fun x hx => ?_
  have hb := bounds_of_mem_number hx
  rw [hφ x.1 hb.1 hb.2]

private theorem filter_number {k m : Int} (l : List β) (hm : m < k ∨ k + l.length ≤ m) :
    ((number k l).filter fun x => decide (x.1 ≠ m)) = number k l := by
  refine List.filter_eq_self.2 fun x hx => ?_
  have hb := bounds_of_mem_number hx
  simp only [ne_eq, decide_not, Bool.not_eq_eq_eq_not, Bool.not_true, decide_eq_false_iff_not]
  omega

/-- Moving the numbers from `pos` on up by one makes room for a new entry at `pos`. -/
theorem Stores.insertIdx {s : List (Int × β)} {l : List β} (h : Stores s l) {pos : Nat} (hpos : pos ≤ l.length)
    (b : β) (φ : Int → Int) (hlo : ∀ i : Int, 0 ≤ i → i < pos → φ i = i)
    (hhi : ∀ i : Int, pos ≤ i → φ i = i + 1) :
    Stores (s.map (fun x => (φ x.1, x.2)) ++ [((pos : Int), b)]) (l.insertIdx pos b) := by
  obtain ⟨l₁, l₂, rfl, rfl, hins⟩ := List.exists_of_modifyTailIdx (List.cons b) hpos
  refine (List.Perm.append_right _ (List.Perm.map _ h)).trans ?_
  rw [List.insertIdx, hins, number_append, List.map_append, number_append, number, Int.zero_add,
    map_number (d := 0) l₁ (fun i h₀ h₁ => by rw [hlo i h₀ (by omega), Int.add_zero]),
    map_number (d := 1) l₂ (fun i h₀ _ => hhi i h₀), Int.add_zero, List.append_assoc]
  exact List.Perm.append_left _ (List.perm_append_singleton _ _)

/-- Dropping the entry `pos` and moving the larger numbers down by one erases the element at `pos`. -/
theorem Stores.eraseIdx {s : List (Int × β)} {l : List β} (h : Stores s l) {pos : Nat} (hpos : pos < l.length)
    (φ : Int → Int) (hlo : ∀ i : Int, 0 ≤ i → i < pos → φ i = i) (hhi : ∀ i : Int, pos < i → φ i = i - 1) :
    Stores ((s.filter fun x => decide (x.1 ≠ (pos : Int))).map fun x => (φ x.1, x.2)) (l.eraseIdx pos) := by
  obtain ⟨l₁, l₂, rfl, rfl, herase⟩ := List.exists_of_modifyTailIdx List.tail hpos.le
  rw [← List.eraseIdx_eq_modifyTailIdx] at herase
  refine (List.Perm.map _ (List.Perm.filter _ h)).trans (List.Perm.of_eq ?_)
  cases l₂ with
  | nil => simp at hpos
  | cons b l₂ =>
    rw [herase, number_append, Int.zero_add, number, List.filter_append, filter_number l₁ (by omega),
      List.filter_cons_of_neg (by simp), filter_number l₂ (by omega), List.map_append, List.tail_cons,
      number_append, Int.zero_add,
      map_number (d := 0) l₁ (fun i h₀ h₁ => by rw [hlo i h₀ (by omega), Int.add_zero]),
      map_number (d := -1) l₂ (fun i h₀ _ => by rw [hhi i (by omega), Int.sub_eq_add_neg]),
      Int.add_zero, Int.add_neg_cancel_right]

/-- Numbering entries by their place in a given arrangement of them stores that arrangement. -/
theorem stores_of_place {s L : List (Int × β)} (hp : s.Perm L) (hnd : (L.map Prod.fst).Nodup) :
    Stores (s.map fun x => (((L.map Prod.fst).idxOf x.1 : Int), x.2)) (L.map Prod.snd) := by
  unfold Stores
  refine (List.Perm.map _ hp).trans (List.Perm.of_eq ?_)
  apply List.ext_getElem
  · rw [List.length_map, length_number, List.length_map]
  · intro i h₁ h₂
    rw [List.length_map] at h₁
    have hi : (L.map Prod.fst).idxOf L[i].1 = i := by
      have := hnd.idxOf_getElem i (by simpa using h₁)
      rwa [List.getElem_map] at this
    have hfst : (number 0 (L.map Prod.snd))[i].1 = (i : Int) := by
      have := congrArg (fun l : List Int => l[i]?) (map_fst_number 0 (L.map Prod.snd))
      simp only [List.getElem?_map, List.getElem?_eq_getElem h₂, Option.map_some] at this
      rw [List.getElem?_eq_getElem (by simpa using h₁)] at this
      simpa using this
    have hsnd : (number 0 (L.map Prod.snd))[i].2 = L[i].2 := by
      have := congrArg (fun l : List β => l[i]?) (map_snd_number 0 (L.map Prod.snd))
      simp only [List.getElem?_map, List.getElem?_eq_getElem h₂, Option.map_some,
        List.getElem?_eq_getElem h₁] at this
      exact Option.some.inj this
    rw [List.getElem_map, hi]
    exact Prod.ext hfst.symm hsnd.symm

/-! ### Renumbering one entry at a time -/

/-- Give the numbers `i, i + 1, …` to the entries that are numbered as listed, one after another. -/
def relabel (i : Int) : List Int → Int → Int
  | [], x => x
  | k :: ks, x => relabel (i + 1) ks (if x = k then i else x)

/-- The new numbers do not get in the way of the old ones when these are negative. -/
theorem relabel_eq {i : Int} {ks : List Int} (hi : 0 ≤ i) (hks : ∀ k ∈ ks, k < 0) (x : Int) :
    relabel i ks x = if x ∈ ks then i + (ks.idxOf x : Int) else x := by
  induction ks generalizing i x with
  | nil => rfl
  | cons k ks ih =>
    have hks' : ∀ k' ∈ ks, k' < 0 := fun k' h => hks k' (List.mem_cons_of_mem _ h)
    rw [relabel, ih (by omega) hks']
    by_cases hx : x = k
    · subst hx
      -- `x` is moved to `i`, which is not one of the numbers that are still to be moved
      have hni : i ∉ ks := fun h => by have := hks' i h; omega
      simp [hni]
    · have hkx : (k == x) = false := by simpa using Ne.symm hx
      simp only [hx, ↓reduceIte, List.mem_cons, false_or, List.idxOf_cons, hkx, cond_false, Nat.cast_add,
        Nat.cast_one]
      split <;> omega

private theorem idxOf_map_neg (l : List Int) (x : Int) :
    (l.map fun y => -(y + 1)).idxOf (-(x + 1)) = l.idxOf x := by
  induction l with
  | nil => rfl
  | cons y l ih =>
    rw [List.map_cons, List.idxOf_cons, List.idxOf_cons, ih]
    have : (-(y + 1) == -(x + 1)) = (y == x) := by
      rw [Bool.eq_iff_iff, beq_iff_eq, beq_iff_eq]
      omega
    rw [this]

/-- The loop on negated numbers: those of the list get their place in it, the others stay negated. -/
theorem relabel_negated {ls : List Int} (h₀ : ∀ y ∈ ls, 0 ≤ y) (x : Int) :
    relabel 0 (ls.map fun y => -(y + 1)) (-(x + 1)) = if x ∈ ls then (ls.idxOf x : Int) else -(x + 1) := by
  have hneg : ∀ k ∈ ls.map fun y => -(y + 1), k < 0 := by
    intro k hk
    obtain ⟨y, hy, rfl⟩ := List.mem_map.1 hk
    have := h₀ y hy
    omega
  have hmem : -(x + 1) ∈ (ls.map fun y => -(y + 1)) ↔ x ∈ ls := by
    rw [List.mem_map]
    constructor
    · rintro ⟨y, hy, heq⟩
      have hyx : y = x := by omega
      exact hyx ▸ hy
    · exact fun hx => ⟨x, hx, rfl⟩
  rw [relabel_eq (Int.le_refl 0) hneg, idxOf_map_neg, Int.zero_add]
  exact if_congr hmem rfl rfl

/-- Negating all numbers and then giving `0, 1, 2, …` to the entries of an arrangement, one after another, stores
that arrangement. -/
theorem stores_relabel {s L : List (Int × β)} (hp : s.Perm L) (hnd : (L.map Prod.fst).Nodup)
    (h₀ : ∀ x ∈ L, 0 ≤ x.1) :
    Stores (s.map fun x => (relabel 0 ((L.map Prod.fst).map fun y => -(y + 1)) (-(x.1 + 1)), x.2))
      (L.map Prod.snd) := by
  have heq : (s.map fun x => (relabel 0 ((L.map Prod.fst).map fun y => -(y + 1)) (-(x.1 + 1)), x.2)) =
      s.map fun x => (((L.map Prod.fst).idxOf x.1 : Int), x.2) := by
    refine List.map_congr_left fun x hx => ?_
    have h₀' : ∀ y ∈ L.map Prod.fst, 0 ≤ y := by
      intro y hy
      obtain ⟨z, hz, rfl⟩ := List.mem_map.1 hy
      exact h₀ z hz
    rw [relabel_negated h₀', if_pos (List.mem_map_of_mem (hp.subset hx))]
  rw [heq]
  exact stores_of_place hp hnd

end Numbering
