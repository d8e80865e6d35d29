import BakaPerms.Lib.Rules
import BakaPerms.SharedStore

/-!
# Every order of an ACL

`moveACE` puts one ACE at another place, and that is enough: whatever order of its `n` ACEs a node should have, at most
`n - 1` calls of `moveACE` give it that order (`moves_reach`).  None of them throws, and nothing else changes.
-/

namespace BakaPerms

open Effect PermissionManager PermissionRepository

/-- None of the calls of the run throws. -/
def NoneThrows (m : PermissionManager) (calls : List Call) : Prop :=
  ∀ part call, part ++ [call] <+: calls → ¬ call.Throws (runCalls m part)

theorem noneThrows_nil (m : PermissionManager) : NoneThrows m [] := by
  intro part call hpart
  have hnil := List.prefix_nil.1 hpart
  simp at hnil

theorem NoneThrows.cons {m : PermissionManager} {call : Call} {calls : List Call} (h : ¬ call.Throws m)
    (hcalls : NoneThrows (call.apply m) calls) : NoneThrows m (call :: calls) := by
  intro part call' hpart
  cases part with
  | nil =>
    obtain ⟨rfl, -⟩ := List.cons_prefix_cons.1 hpart
    exact h
  | cons first part =>
    obtain ⟨rfl, hrest⟩ := List.cons_prefix_cons.1 hpart
    exact hcalls part call' hrest

/-- The move that brings an element to the front of the part that is not yet in order. -/
theorem moveElem_append {α : Type} (front l l' : List α) (b : α) :
    moveElem (front ++ (l ++ b :: l')) (front.length + l.length) front.length = front ++ b :: (l ++ l') := by
  have hget : (front ++ (l ++ b :: l'))[front.length + l.length]? = some b := by
    rw [List.getElem?_append_right (Nat.le_add_right ..), Nat.add_sub_cancel_left,
      List.getElem?_append_right (Nat.le_refl _), Nat.sub_self]
    rfl
  have herase : (front ++ (l ++ b :: l')).eraseIdx (front.length + l.length) = front ++ (l ++ l') := by
    rw [List.eraseIdx_append_of_length_le (Nat.le_add_right ..), Nat.add_sub_cancel_left,
      List.eraseIdx_append_of_length_le (Nat.le_refl _), Nat.sub_self]
    rfl
  have hlen : front.length ≤ (front ++ (l ++ l')).length := by
    rw [List.length_append]
    exact Nat.le_add_right ..
  unfold moveElem
  rw [hget, herase]
  dsimp only
  rw [Rules.insertIdx_eq_append hlen, List.take_left, List.drop_left]

/-- Selection: the elements are moved to their places one after another, from the front. -/
theorem exists_moves {α : Type} (front : List α) {l l' : List α} (h : l.Perm l') :
    ∃ moves : List (Nat × Nat), moves.length ≤ l'.length - 1 ∧
      (∀ move ∈ moves, move.1 < front.length + l.length ∧ move.2 < front.length + l.length) ∧
      moves.foldl (fun l move => moveElem l move.1 move.2) (front ++ l) = front ++ l' := by
  induction l' generalizing front l with
  | nil =>
    rw [h.eq_nil]
    exact ⟨[], Nat.le_refl _, fun _ hmove => absurd hmove List.not_mem_nil, rfl⟩
  | cons b l' ih =>
    obtain ⟨s, t, rfl⟩ := List.append_of_mem (h.symm.subset (List.mem_cons_self ..))
    have hrest : (s ++ t).Perm l' := (List.perm_middle.symm.trans h).cons_inv
    cases l' with
    | nil =>
      obtain ⟨rfl, rfl⟩ := List.append_eq_nil_iff.1 hrest.eq_nil
      exact ⟨[], Nat.le_refl _, fun _ hmove => absurd hmove List.not_mem_nil, rfl⟩
    | cons c l' =>
      obtain ⟨moves, hlen, hrange, hfold⟩ := ih (front ++ [b]) hrest
      refine ⟨(front.length + s.length, front.length) :: moves, ?_, ?_, ?_⟩
      · simp only [List.length_cons] at hlen ⊢
        omega
      · intro move hmove
        rcases List.mem_cons.1 hmove with rfl | hmove
        · simp only [List.length_append, List.length_cons]
          omega
        · have hbound := hrange move hmove
          simp only [List.length_append, List.length_cons, List.length_nil] at hbound ⊢
          omega
      · rw [List.append_assoc, List.append_assoc] at hfold
        rw [List.foldl_cons, moveElem_append]
        exact hfold

/-! ### The calls -/

theorem length_moveElem {α : Type} (l : List α) {i j : Nat} (hi : i < l.length) (hj : j < l.length) :
    (moveElem l i j).length = l.length := (moveElem_perm l hi hj).length_eq

/-- A call of `moveACE` with indices of the list. -/
theorem moveACE_inRange {m : PermissionManager} (hm : m.db.Sound) {k : String} {i j : Nat}
    (hi : i < (aclAt m.db k).length) (hj : j < (aclAt m.db k).length) :
    ¬ (Call.moveACE k i j).Throws m ∧
      aclAt ((Call.moveACE k i j).apply m).db = Function.update (aclAt m.db) k (moveElem (aclAt m.db k) i j) := by
  have happly : (AclOp.moveACE k i j).apply (aclAt m.db) =
      some (Function.update (aclAt m.db) k (moveElem (aclAt m.db k) i j)) := by
    rw [AclOp.apply]
    by_cases hij : (i : Int) = j
    · obtain rfl := Int.ofNat.inj hij
      have hsame : moveElem (aclAt m.db k) i i = aclAt m.db k := by
        rw [moveElem_of_lt hi, List.insertIdx_eraseIdx_getElem]
      rw [if_pos rfl, hsame, Function.update_eq_self]
    · rw [if_neg hij, if_pos (by omega), Int.toNat_natCast, Int.toNat_natCast]
  constructor
  · rw [Call.throws_iff hm rfl, happly]
    exact Option.some_ne_none _
  · have hacl := Call.aclAt_effect hm (.moveACE k i j)
    rw [← Call.apply_db] at hacl
    refine hacl.trans ?_
    show ((AclOp.moveACE k i j).apply (aclAt m.db)).getD (aclAt m.db) = _
    rw [happly, Option.getD_some]

/-- A run of such calls. -/
theorem moves_run {m : PermissionManager} (hm : m.db.Sound) {k : String} {moves : List (Nat × Nat)}
    (hmoves : ∀ move ∈ moves, move.1 < (aclAt m.db k).length ∧ move.2 < (aclAt m.db k).length) :
    NoneThrows m (moves.map fun move => .moveACE k move.1 move.2) ∧
      aclAt (runCalls m (moves.map fun move => .moveACE k move.1 move.2)).db =
        Function.update (aclAt m.db) k (moves.foldl (fun l move => moveElem l move.1 move.2) (aclAt m.db k)) := by
  induction moves generalizing m with
  | nil => exact ⟨noneThrows_nil m, (Function.update_eq_self ..).symm⟩
  | cons move moves ih =>
    obtain ⟨hi, hj⟩ := hmoves move (List.mem_cons_self ..)
    obtain ⟨hthrows, hacl⟩ := moveACE_inRange hm hi hj
    have hsound : ((Call.moveACE k move.1 move.2).apply m).db.Sound := by
      rw [Call.apply_db]
      exact Call.sound_effect hm _
    have hlen : (aclAt ((Call.moveACE k move.1 move.2).apply m).db k).length = (aclAt m.db k).length := by
      rw [hacl, Function.update_self, length_moveElem _ hi hj]
    obtain ⟨hrest, hrun⟩ := ih hsound fun move' hmove' => by
      rw [hlen]
      exact hmoves move' (List.mem_cons_of_mem _ hmove')
    refine ⟨.cons hthrows hrest, hrun.trans ?_⟩
    rw [hacl, Function.update_idem, Function.update_self]
    rfl

theorem sameGroups_moves (m : PermissionManager) (k : String) (moves : List (Nat × Nat)) :
    (runCalls m (moves.map fun move => .moveACE k move.1 move.2)).db.groups = m.db.groups ∧
      (runCalls m (moves.map fun move => .moveACE k move.1 move.2)).db.playerGroups = m.db.playerGroups := by
  induction moves generalizing m with
  | nil => exact ⟨rfl, rfl⟩
  | cons move moves ih =>
    have hsame := Prod.mk.inj (within_moveACE aclMoves_sameGroups k move.1 move.2 m.db)
    have hdb : ((Call.moveACE k move.1 move.2).apply m).db =
        final (PermissionRepository.moveACE k move.1 move.2) m.db := Call.apply_db m _
    rw [← hdb] at hsame
    obtain ⟨hgroups, hplayers⟩ := ih ((Call.moveACE k move.1 move.2).apply m)
    exact ⟨hgroups.trans hsame.1, hplayers.trans hsame.2⟩

/-- Every order of the `n` ACEs of a node is reached by at most `n - 1` calls of `moveACE`, none of which throws.  The
ACLs of the other nodes, the groups and the memberships stay as they are. -/
theorem moves_reach {m : PermissionManager} (hm : m.db.Sound) {k : String} {acl : List Payload}
    (hacl : acl.Perm (aclAt m.db k)) :
    ∃ moves : List (Nat × Nat), moves.length ≤ acl.length - 1 ∧
      NoneThrows m (moves.map fun move => .moveACE k move.1 move.2) ∧
      aclAt (runCalls m (moves.map fun move => .moveACE k move.1 move.2)).db = Function.update (aclAt m.db) k acl ∧
      (runCalls m (moves.map fun move => .moveACE k move.1 move.2)).db.groups = m.db.groups ∧
      (runCalls m (moves.map fun move => .moveACE k move.1 move.2)).db.playerGroups = m.db.playerGroups := by
  obtain ⟨moves, hlen, hrange, hfold⟩ := exists_moves [] hacl.symm
  rw [List.nil_append, List.nil_append] at hfold
  simp only [List.length_nil, Nat.zero_add] at hrange
  obtain ⟨hnone, hrun⟩ := moves_run hm hrange
  rw [hfold] at hrun
  exact ⟨moves, hlen, hnone, hrun, sameGroups_moves m k moves⟩

/-- Four ACEs of one node. -/
def fourACEs : PermissionManager :=
  runCalls (.init Db.empty) [.appendACE "t1" "a" "p" 0 .deny, .appendACE "t2" "a" "q" 0 .allow,
    .appendACE "t3" "a" "r" 0 .allow, .appendACE "t4" "a" "*" 0 .deny]

theorem moves_reach_sample :
    ∃ moves : List (Nat × Nat), moves.length ≤ 3 ∧
      NoneThrows fourACEs (moves.map fun move => .moveACE "a" move.1 move.2) ∧
      aclAt (runCalls fourACEs (moves.map fun move => .moveACE "a" move.1 move.2)).db =
        Function.update (aclAt fourACEs.db) "a" (aclAt fourACEs.db "a").reverse ∧
      (runCalls fourACEs (moves.map fun move => .moveACE "a" move.1 move.2)).db.groups = fourACEs.db.groups ∧
      (runCalls fourACEs (moves.map fun move => .moveACE "a" move.1 move.2)).db.playerGroups =
        fourACEs.db.playerGroups := by
  have hlen : (aclAt fourACEs.db "a").reverse.length - 1 = 3 := by decide +kernel
  have hsound : fourACEs.db.Sound := sound_runCalls Db.sound_empty _
  have hmoves := moves_reach hsound (List.reverse_perm (aclAt fourACEs.db "a"))
  rwa [hlen] at hmoves

end BakaPerms
