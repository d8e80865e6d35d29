import BakaPerms.Hierarchy
import BakaPerms.Reordering

/-!
# The databases that calls reach

The invariants are all there is: a database comes out of the empty one by calls of the manager exactly when it
satisfies the constraints of the schema, has valid masks and ACLs numbered `0, 1, 2, …`, and none of its groups comes
back to itself within 33 parent steps (`produced_tfae`).  The way there never runs into an exception.  It is found
backwards: every database but the empty one has a call that makes it smaller and another one that brings it back.
-/

namespace BakaPerms

open Chain Effect PermissionManager PermissionRepository

/-- What has to be undone. -/
def Db.size (db : Db) : Nat :=
  db.permissions.length + db.playerGroups.length + db.groups.countP (fun row => row.parentUuid.isSome) +
    db.groups.length

/-- The rows of one node get other positions. -/
def renumber (node : String) (set : Int → Int) (rows : List PermissionRow) : List PermissionRow :=
  Table.rewrite (fun row => row.node == node) (PermissionRow.setOrderIndex set) rows

/-- Two `UPDATE`s by way of the negative numbers. -/
theorem rewrite_rewrite {node : String} {rows : List PermissionRow} {away back : Int → Int} (sel : Int → Bool)
    (set : Int → Int)
    (hsel : ∀ row ∈ rows, (sel row.orderIndex = true → away row.orderIndex < 0 ∧
        back (away row.orderIndex) = set row.orderIndex) ∧
      (sel row.orderIndex = false → 0 ≤ row.orderIndex ∧ set row.orderIndex = row.orderIndex)) :
    Table.rewrite (fun row => row.node == node && decide (row.orderIndex < 0)) (PermissionRow.setOrderIndex back)
      (Table.rewrite (fun row => row.node == node && sel row.orderIndex) (PermissionRow.setOrderIndex away) rows) =
      renumber node set rows := by
  unfold renumber Table.rewrite
  rw [List.map_map]
  refine List.map_congr_left fun row hrow => ?_
  rw [Function.comp_apply]
  by_cases hnode : row.node = node
  · obtain ⟨htrue, hfalse⟩ := hsel row hrow
    cases hs : sel row.orderIndex with
    | true =>
      obtain ⟨hneg, hback⟩ := htrue hs
      simp only [hnode, beq_self_eq_true, Bool.true_and, hs, ↓reduceIte, PermissionRow.setOrderIndex, hneg, decide_true,
        hback]
    | false =>
      obtain ⟨hnonneg, hset⟩ := hfalse hs
      have hneg : decide (row.orderIndex < 0) = false := decide_eq_false (Int.not_lt.2 hnonneg)
      simp only [hnode, beq_self_eq_true, Bool.true_and, hs, Bool.false_eq_true, ↓reduceIte, hneg]
      rw [PermissionRow.setOrderIndex, hset]
  · simp [hnode]

theorem removeACE_permissions {db db' : Db} (hdb : ∀ row ∈ db.permissions, 0 ≤ row.orderIndex) {node : String}
    {position : Int} (hpos : 0 ≤ position) (h : PermissionRepository.removeACE node position db = .ok () db') :
    db' = { db with
      permissions := renumber node (fun i => if i > position then i - 1 else i)
        (Table.delete (fun row => row.node == node && row.orderIndex == position) db.permissions) } := by
  rw [PermissionRepository.removeACE, withTransaction_eq_ok, bind_eq_ok] at h
  obtain ⟨affected, db₁, hdel, h⟩ := h
  split at h
  · exact absurd h throw_ne_ok
  simp only [bind_eq_ok] at h
  obtain ⟨_, db₂, h₂, _, db₃, h₃, hpure⟩ := h
  obtain ⟨-, rfl⟩ := pure_eq_ok.1 hpure
  rw [updateOrderIndex_ok h₃, updateOrderIndex_ok h₂, (deletePermissions_ok hdel).2]
  dsimp only
  rw [rewrite_rewrite (fun i => decide (i > position)) fun i => if i > position then i - 1 else i]
  intro row hrow
  have hnonneg := hdb row (List.mem_of_mem_filter hrow)
  constructor
  · intro hs
    have hgt : row.orderIndex > position := of_decide_eq_true hs
    rw [if_pos hgt]
    omega
  · intro hs
    rw [if_neg (of_decide_eq_false hs)]
    exact ⟨hnonneg, rfl⟩

theorem AclOp.run_ok_of_inRange {db : Db} (hdb : db.WellNumbered) (op : AclOp) (hop : op.InRange db) :
    ∃ db', op.run db = .ok () db' := by
  obtain ⟨db', h'⟩ := AclOp.runWith_succeeds hdb hop
  rw [← op.runWith_updateOrderIndex]
  exact ⟨db', h' _ fun _ _ => rowByRow_updateOrderIndex⟩

theorem length_nodeRows {db : Db} {acl : String → List Payload} (h : Represents db acl) (node : String) :
    (nodeRows db node).length = (acl node).length := by
  rw [← (h node).length_eq, entriesAt, List.length_map]

/-- The last row is the only one of its key. -/
theorem delete_last {rows : List PermissionRow} {row : PermissionRow}
    (hkey : ((rows ++ [row]).map PermissionRow.key).Nodup) :
    (∀ row' ∈ rows, row'.node = row.node → row'.orderIndex ≠ row.orderIndex) ∧
      Table.delete (fun r => r.node == row.node && r.orderIndex == row.orderIndex) (rows ++ [row]) = rows := by
  have hne : ∀ row' ∈ rows, row'.node = row.node → row'.orderIndex ≠ row.orderIndex := by
    intro row' hrow' hnode hindex
    rw [List.map_append, List.nodup_append] at hkey
    exact hkey.2.2 row'.key (List.mem_map_of_mem hrow') row.key (List.mem_singleton_self _) (Prod.ext hnode hindex)
  refine ⟨hne, ?_⟩
  unfold Table.delete
  rw [List.filter_append, List.filter_cons_of_neg (by simp), List.filter_nil, List.append_nil]
  refine List.filter_eq_self.2 fun row' hrow' => ?_
  have hrow := hne row' hrow'
  by_cases hnode : row'.node = row.node
  · simp [hrow hnode]
  · simp [hnode]

theorem NoneThrows.concat {m : PermissionManager} {calls : List Call} {call : Call} (h : NoneThrows m calls)
    (hcall : ¬ call.Throws (runCalls m calls)) : NoneThrows m (calls ++ [call]) := by
  intro part call' hpart
  rcases List.prefix_concat_iff.1 hpart with heq | hprefix
  · obtain ⟨rfl, hlast⟩ := List.append_inj' heq rfl
    rwa [List.singleton_inj.1 hlast]
  · exact h part call' hprefix

end BakaPerms
