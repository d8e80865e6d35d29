import BakaPerms.Resolver
import Mathlib.Data.List.Basic

/-!
# Node paths

What `buildNodePath` computes, without its loop.  A node is under `k` when `k` is one of its prefixes and a dot
follows (`Under`).  The path of `m` holds the strings that speak about `m` (`Covers`): `m` itself, everything `m`
is under, and the root wildcard; each of them comes before the less specific ones (`buildNodePath_eq_ok`).
-/

namespace BakaPerms

/-- `k` is a prefix of `m` that is immediately followed by a dot. -/
def Under (m k : String) : Prop := ∃ rest, m = k ++ "." ++ rest

/-- `k` is `m`, a prefix of `m` before a dot, or the root wildcard. -/
def Covers (k m : String) : Prop := k = m ∨ Under m k ∨ k = "*"

/-- Longer strings are more specific, and the root wildcard is the least specific of all. -/
def MoreSpecific (k k' : String) : Prop := k ≠ "*" ∧ (k' = "*" ∨ k'.toList.length < k.toList.length)

theorem MoreSpecific.asymm {k k' : String} (h : MoreSpecific k k') : ¬ MoreSpecific k' k := by
  rintro ⟨hne', h'⟩
  rcases h with ⟨hne, h⟩
  rcases h with h | h
  · exact hne' h
  · rcases h' with h' | h'
    · exact hne h'
    · omega

theorem MoreSpecific.trans {k k' k'' : String} (h : MoreSpecific k k') (h' : MoreSpecific k' k'') :
    MoreSpecific k k'' := by
  obtain ⟨hne, hlt⟩ := h
  obtain ⟨hne', hlt'⟩ := h'
  exact ⟨hne, hlt'.imp_right fun h => Nat.lt_trans h (hlt.resolve_left hne')⟩

theorem MoreSpecific.ne {k k' : String} (h : MoreSpecific k k') : k ≠ k' := by
  rintro rfl
  exact h.asymm h

theorem under_iff_toList {m k : String} : Under m k ↔ ∃ rest, m.toList = k.toList ++ '.' :: rest := by
  constructor
  · rintro ⟨rest, rfl⟩
    exact ⟨rest.toList, by simp⟩
  · rintro ⟨rest, h⟩
    refine ⟨String.ofList rest, ?_⟩
    rw [← String.toList_inj, h]
    simp

theorem Under.length_lt {m k : String} (h : Under m k) : k.toList.length < m.toList.length := by
  obtain ⟨rest, hrest⟩ := under_iff_toList.1 h
  have := congrArg List.length hrest
  simp only [List.length_append, List.length_cons] at this
  omega

theorem not_under_wildcard (k : String) : ¬ Under "*" k := by
  intro h
  obtain ⟨rest, hrest⟩ := under_iff_toList.1 h
  have hdot : '.' ∈ "*".toList := by
    rw [hrest]
    simp
  simp at hdot

theorem Under.trans {m k k' : String} (h : Under m k) (h' : Under k k') : Under m k' := by
  obtain ⟨rest, rfl⟩ := h
  obtain ⟨rest', rfl⟩ := h'
  exact ⟨rest' ++ "." ++ rest, by simp [String.append_assoc]⟩

/-! ### One round of the loop -/

theorem rfind_eq_none {c : Char} {l : List Char} (h : rfind c l = none) : c ∉ l := by
  induction l with
  | nil => simp
  | cons x l ih =>
    unfold rfind at h
    cases hl : rfind c l with
    | some i => simp [hl] at h
    | none =>
      by_cases hx : x = c
      · simp [hl, hx] at h
      · have := ih hl
        simp [this, Ne.symm hx]

theorem rfind_eq_some {c : Char} {l : List Char} {i : Nat} (h : rfind c l = some i) :
    ∃ suffix, l = l.take i ++ c :: suffix ∧ c ∉ suffix := by
  induction l generalizing i with
  | nil => simp [rfind] at h
  | cons x l ih =>
    unfold rfind at h
    cases hl : rfind c l with
    | some j =>
      simp only [hl, Option.some.injEq] at h
      subst h
      obtain ⟨suffix, hsplit, hnot⟩ := ih hl
      refine ⟨suffix, ?_, hnot⟩
      rw [List.take_succ_cons, List.cons_append, ← hsplit]
    | none =>
      have hnot := rfind_eq_none hl
      by_cases hx : x = c
      · simp only [hl, hx, ↓reduceIte, Option.some.injEq] at h
        subst h
        exact ⟨l, by simp [hx], hnot⟩
      · simp [hl, hx] at h

/-- The last dot splits a node into its parent node, which it is under, and a part without dots. -/
theorem under_iff_of_rfind {m k : String} {pos : Nat} (h : rfind '.' m.toList = some pos) :
    Under m k ↔ k = substr m pos ∨ Under (substr m pos) k := by
  obtain ⟨suffix, hsplit, hnot⟩ := rfind_eq_some h
  have hparent : (substr m pos).toList = m.toList.take pos := by simp [substr]
  constructor
  · intro hk
    obtain ⟨rest, hrest⟩ := under_iff_toList.1 hk
    rw [hsplit] at hrest
    rcases List.append_eq_append_iff.1 hrest with ⟨mid, hk, hmid⟩ | ⟨mid, hp, hmid⟩
    · cases mid with
      | nil =>
        left
        rw [← String.toList_inj, hparent, hk, List.append_nil]
      | cons c mid =>
        -- the dot after `k` would lie behind the last dot
        have hdot : '.' ∈ suffix := by
          simp only [List.cons_append, List.cons.injEq] at hmid
          rw [hmid.2]
          simp
        exact absurd hdot hnot
    · cases mid with
      | nil =>
        left
        rw [← String.toList_inj, hparent, hp, List.append_nil]
      | cons c mid =>
        right
        simp only [List.cons_append, List.cons.injEq] at hmid
        rw [under_iff_toList, hparent, hp, ← hmid.1]
        exact ⟨mid, rfl⟩
  · have hm : Under m (substr m pos) := by
      rw [under_iff_toList, hparent]
      exact ⟨suffix, hsplit⟩
    rintro (rfl | hk)
    · exact hm
    · exact hm.trans hk

namespace PermissionResolver

/-- The loop pushes exactly the strings that the node is under; as many rounds as the node has characters are
enough for it. -/
theorem mem_parentNodes {rounds : Nat} {m k : String} (hr : m.toList.length ≤ rounds) :
    k ∈ parentNodes rounds m ↔ Under m k := by
  induction rounds generalizing m with
  | zero =>
    have hnot : ¬ Under m k := fun h => by
      have := h.length_lt
      omega
    simp [parentNodes, hnot]
  | succ rounds ih =>
    unfold parentNodes
    cases h : rfind '.' m.toList with
    | none =>
      have hnot : ¬ Under m k := by
        intro hk
        obtain ⟨rest, hrest⟩ := under_iff_toList.1 hk
        refine rfind_eq_none h ?_
        rw [hrest]
        simp
      simp [hnot]
    | some pos =>
      have hparent : Under m (substr m pos) := (under_iff_of_rfind h).2 (.inl rfl)
      have hlt := hparent.length_lt
      rw [under_iff_of_rfind h]
      simp only [List.mem_cons]
      rw [ih (by omega)]

theorem pairwise_parentNodes (rounds : Nat) (m : String) : (m :: parentNodes rounds m).Pairwise Under := by
  induction rounds generalizing m with
  | zero => simp [parentNodes]
  | succ rounds ih =>
    unfold parentNodes
    cases h : rfind '.' m.toList with
    | none => simp
    | some pos =>
      have hparent : Under m (substr m pos) := (under_iff_of_rfind h).2 (.inl rfl)
      refine List.pairwise_cons.2 ⟨fun k hk => ?_, ih _⟩
      rcases List.mem_cons.1 hk with rfl | hk
      · exact hparent
      · exact hparent.trans ((List.pairwise_cons.1 (ih (substr m pos))).1 k hk)

theorem mem_ownPath {m k : String} : k ∈ ownPath m ↔ k = m ∨ Under m k := by
  unfold ownPath
  rw [List.mem_cons, mem_parentNodes (Nat.le_refl _)]

private theorem ne_wildcard_of_under {k k' : String} (h : Under k k') : k ≠ "*" := by
  rintro rfl
  exact not_under_wildcard k' h

theorem buildNodePath_eq_ok {m : String} (hm : m ≠ "") :
    ∃ path, buildNodePath m = .ok path ∧ (∀ k, k ∈ path ↔ Covers k m) ∧ path.Pairwise MoreSpecific ∧ path ≠ [] := by
  have hown : (ownPath m).Pairwise MoreSpecific := by
    refine (pairwise_parentNodes _ m).imp fun {k k'} h => ?_
    exact ⟨ne_wildcard_of_under h, .inr h.length_lt⟩
  unfold buildNodePath
  rw [if_neg hm]
  refine ⟨_, rfl, ?_⟩
  by_cases hlast : (ownPath m).getLast? = some "*"
  · have hmem : "*" ∈ ownPath m := List.mem_of_getLast? hlast
    simp only [hlast, ne_eq, not_true_eq_false, ↓reduceIte]
    refine ⟨fun k => ?_, hown, by simp [ownPath]⟩
    constructor
    · intro hk
      rcases mem_ownPath.1 hk with hk | hk
      · exact .inl hk
      · exact .inr (.inl hk)
    · rintro (hk | hk | rfl)
      · exact mem_ownPath.2 (.inl hk)
      · exact mem_ownPath.2 (.inr hk)
      · exact hmem
  · simp only [ne_eq, hlast, not_false_eq_true, ↓reduceIte]
    refine ⟨fun k => ?_, ?_, by simp⟩
    · rw [List.mem_append, mem_ownPath, List.mem_singleton, or_assoc]
      rfl
    · refine List.pairwise_append.2 ⟨hown, by simp, fun k hk k' hk' => ?_⟩
      rw [List.mem_singleton] at hk'
      refine ⟨?_, .inl hk'⟩
      rintro rfl
      -- nothing follows the wildcard in the node's own path, so it would be the last one
      obtain ⟨l₁, l₂, hl⟩ := List.append_of_mem hk
      cases l₂ with
      | nil => simp [hl] at hlast
      | cons k₂ l₂ =>
        rw [hl] at hown
        have := (List.pairwise_cons.1 (List.pairwise_append.1 hown).2.1).1 k₂ (List.mem_cons_self ..)
        exact this.1 rfl

/-! ### The path as a whole -/

/-- More rounds than the node has characters do not change the loop. -/
theorem parentNodes_eq {rounds rounds' : Nat} {m : String} (hr : m.toList.length ≤ rounds)
    (hr' : m.toList.length ≤ rounds') : parentNodes rounds m = parentNodes rounds' m := by
  induction rounds generalizing m rounds' with
  | zero =>
    have hnil : m.toList = [] := List.length_eq_zero_iff.1 (Nat.le_zero.1 hr)
    cases rounds' with
    | zero => rfl
    | succ rounds' => simp [parentNodes, hnil, rfind]
  | succ rounds ih =>
    cases rounds' with
    | zero =>
      have hnil : m.toList = [] := List.length_eq_zero_iff.1 (Nat.le_zero.1 hr')
      simp [parentNodes, hnil, rfind]
    | succ rounds' =>
      unfold parentNodes
      cases h : rfind '.' m.toList with
      | none => rfl
      | some pos =>
        have hlt := ((under_iff_of_rfind h).2 (.inl rfl)).length_lt
        exact congrArg (substr m pos :: ·) (ih (by omega) (by omega))

theorem ownPath_of_none {m : String} (h : rfind '.' m.toList = none) : ownPath m = [m] := by
  unfold ownPath
  cases m.toList.length with
  | zero => rfl
  | succ n => simp [parentNodes, h]

theorem ownPath_of_some {m : String} {pos : Nat} (h : rfind '.' m.toList = some pos) :
    ownPath m = m :: ownPath (substr m pos) := by
  have hlt := ((under_iff_of_rfind h).2 (.inl rfl)).length_lt
  unfold ownPath
  cases hn : m.toList.length with
  | zero => omega
  | succ n =>
    rw [parentNodes, h]
    exact congrArg (m :: substr m pos :: ·) (parentNodes_eq (by omega) (Nat.le_refl _))

/-- The loop ends at its `break`: the last string has no dot. -/
theorem getLast_ownPath (m : String) :
    ∃ last, (ownPath m).getLast? = some last ∧ rfind '.' last.toList = none := by
  induction hn : m.toList.length using Nat.strongRecOn generalizing m with
  | ind n ih =>
    cases h : rfind '.' m.toList with
    | none =>
      refine ⟨m, ?_, h⟩
      rw [ownPath_of_none h]
      rfl
    | some pos =>
      have hlt := ((under_iff_of_rfind h).2 (.inl rfl)).length_lt
      obtain ⟨last, hlast, hnone⟩ := ih _ (hn ▸ hlt) (substr m pos) rfl
      refine ⟨last, ?_, hnone⟩
      rw [ownPath_of_some h, List.getLast?_cons, hlast]
      rfl

/-- The last dot of a node. -/
theorem rfind_of_split {m q rest : String} (h : m = q ++ "." ++ rest) (hrest : '.' ∉ rest.toList) :
    ∃ pos, rfind '.' m.toList = some pos ∧ substr m pos = q := by
  have hm : m.toList = q.toList ++ '.' :: rest.toList := by simp [h]
  cases hr : rfind '.' m.toList with
  | none =>
    have hnot := rfind_eq_none hr
    simp [hm] at hnot
  | some pos =>
    refine ⟨pos, rfl, ?_⟩
    have hq : Under m q := ⟨rest, h⟩
    rcases (under_iff_of_rfind hr).1 hq with heq | hunder
    · exact heq.symm
    · -- a dot after `q` and before the last one would lie in `rest`
      obtain ⟨suffix, hsplit, -⟩ := rfind_eq_some hr
      obtain ⟨mid, hmid⟩ := under_iff_toList.1 hunder
      have hparent : (substr m pos).toList = m.toList.take pos := by simp [substr]
      rw [← hparent, hmid, hm, List.append_assoc, List.append_cancel_left_eq] at hsplit
      simp only [List.cons_append, List.cons.injEq, true_and] at hsplit
      rw [hsplit] at hrest
      simp at hrest

theorem getLast_buildNodePath {m : String} {path : List String} (h : buildNodePath m = .ok path) :
    path.getLast? = some "*" := by
  unfold buildNodePath at h
  split at h
  · cases h
  · rw [← Except.ok.inj h]
    split
    · exact List.getLast?_concat
    · rename_i hlast
      simpa using hlast

/-- The path of a node continues with the path of the node before its last dot. -/
theorem buildNodePath_cons {m q rest : String} (h : m = q ++ "." ++ rest) (hrest : '.' ∉ rest.toList) (hq : q ≠ "") :
    ∃ path, buildNodePath q = .ok path ∧ buildNodePath m = .ok (m :: path) := by
  obtain ⟨pos, hpos, hsub⟩ := rfind_of_split h hrest
  have hm : m ≠ "" := by
    rintro rfl
    have hlen := congrArg (fun s => s.toList.length) h
    simp at hlen
  have hown : ownPath m = m :: ownPath q := by rw [ownPath_of_some hpos, hsub]
  obtain ⟨last, hlast, -⟩ := getLast_ownPath q
  have hlast' : (ownPath m).getLast? = (ownPath q).getLast? := by
    rw [hown, List.getLast?_cons, hlast]
    rfl
  unfold buildNodePath
  rw [if_neg hm, if_neg hq]
  refine ⟨_, rfl, ?_⟩
  dsimp only
  rw [hlast', hown]
  split <;> rfl

/-- `buildNodePath` lists the ancestors of a node: its loop ends, the list has no repetitions, starts with the node
and ends with the root wildcard, and its members are the strings that speak about the node, in strictly decreasing
length up to a wildcard that is appended.  The path continues with the path of the parent node. -/
theorem buildNodePath_lists {m : String} (hm : m ≠ "") :
    ∃ path, buildNodePath m = .ok path ∧
      (∃ last, (ownPath m).getLast? = some last ∧ rfind '.' last.toList = none) ∧
      (path = ownPath m ∨ (path = ownPath m ++ ["*"] ∧ "*" ∉ ownPath m)) ∧
      (ownPath m).Pairwise (fun k k' => k'.toList.length < k.toList.length) ∧
      path.Nodup ∧ path.head? = some m ∧ path.getLast? = some "*" ∧
      (∀ k, k ∈ path ↔ k = m ∨ (∃ rest, m = k ++ "." ++ rest) ∨ k = "*") ∧
      ∀ q rest, m = q ++ "." ++ rest → '.' ∉ rest.toList → q ≠ "" →
        ∃ path', buildNodePath q = .ok path' ∧ path = m :: path' := by
  obtain ⟨path, hpath, hmem, hpairwise, -⟩ := buildNodePath_eq_ok hm
  have hnodup : path.Nodup := hpairwise.imp fun {k k'} h => by
    rintro rfl
    exact h.asymm h
  have happ : path = ownPath m ∨ path = ownPath m ++ ["*"] := by
    unfold buildNodePath at hpath
    rw [if_neg hm] at hpath
    rw [← Except.ok.inj hpath]
    split
    · exact .inr rfl
    · exact .inl rfl
  refine ⟨path, hpath, getLast_ownPath m, ?_, (pairwise_parentNodes _ m).imp Under.length_lt, hnodup, ?_,
    getLast_buildNodePath hpath, hmem, ?_⟩
  · refine happ.imp_right fun h => ⟨h, ?_⟩
    rw [h, List.nodup_append] at hnodup
    exact fun hstar => hnodup.2.2 "*" hstar "*" (List.mem_singleton_self _) rfl
  · rcases happ with h | h <;> rw [h] <;> rfl
  · intro q rest hsplit hrest hq
    obtain ⟨path', hq', hm'⟩ := buildNodePath_cons hsplit hrest hq
    exact ⟨path', hq', Except.ok.inj (hpath.symm.trans hm')⟩

theorem buildNodePath_lists_sample :
    ∃ path, buildNodePath "a..b" = .ok path ∧ path.Nodup ∧ path.head? = some "a..b" ∧ path.getLast? = some "*" := by
  obtain ⟨path, hpath, -, -, -, hnodup, hhead, hlast, -⟩ := buildNodePath_lists (m := "a..b") (by decide)
  exact ⟨path, hpath, hnodup, hhead, hlast⟩

theorem buildNodePath_empty : buildNodePath "" = .error (.invalidArgument "Permission node must not be empty") := rfl

end PermissionResolver

end BakaPerms
