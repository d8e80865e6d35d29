import BakaPerms.AclStore
import BakaPerms.Concurrent
import BakaPerms.Lib.Run

/-!
# Calls one after another

What a call of the manager does to the database (`Call.effect`), and runs of calls made one after another.  A call
that throws has changed nothing (`Call.run_error`).  A call leaves the permissions alone or is a successful operation
of the ACL store (`Call.acl_effect`), so every database that calls can reach is sound (`sound_runCalls`): it satisfies
the keys and foreign keys, its masks are valid, and every node's rows are numbered `0, 1, 2, …`.
-/

namespace BakaPerms

open Effect PermissionManager

/-- The database after a call. -/
def Call.effect (db : Db) : Call → Db
  | checkPermission _ _ => db
  | appendACE now node subjectUuid subjectType mask =>
    final (PermissionRepository.appendACE now node subjectUuid subjectType mask) db
  | insertACE now node position subjectUuid subjectType mask =>
    final (PermissionRepository.insertACE now node position subjectUuid subjectType mask) db
  | removeACE node position => final (PermissionRepository.removeACE node position) db
  | moveACE node fromIndex toIndex => final (PermissionRepository.moveACE node fromIndex toIndex) db
  | clearNodeACL node => final (PermissionRepository.clearNodeACL node) db
  | createGroup uuid name parentUuid =>
    if (PermissionRepository.getGroupByName db name).isSome then db
    else final (PermissionRepository.createGroup uuid name parentUuid) db
  | deleteGroup groupUuid => final (PermissionRepository.deleteGroup groupUuid) db
  | setGroupParent groupUuid parentUuid =>
    if parentUuid.any (wouldCreateCycle db groupUuid) then db
    else final (PermissionRepository.setGroupParent groupUuid parentUuid) db
  | addPlayerToGroup playerUuid groupUuid => final (PermissionRepository.addPlayerToGroup playerUuid groupUuid) db
  | removePlayerFromGroup playerUuid groupUuid =>
    final (PermissionRepository.removePlayerFromGroup playerUuid groupUuid) db
  | invalidate _ => db

/-- The manager after a call, whether it returned or threw. -/
def Call.apply (m : PermissionManager) (call : Call) : PermissionManager := final call.run m

private theorem final_writer (m : PermissionManager) (x : DbM Unit) :
    (final (do repo x; invalidateAll) m).db = final x m.db := by
  cases h : x m.db with
  | ok a db =>
    rw [final_of_ok (writer_of_ok h), final_of_ok h]
    rfl
  | error e db => rw [final_of_error (writer_of_error h), final_of_error h]

private theorem final_membership (m : PermissionManager) (x : DbM Bool) (playerUuid : String) :
    (final (do
      if ← repo x then
        invalidatePlayer playerUuid
        return true
      else return false) m).db = final x m.db := by
  cases h : x m.db with
  | ok changed db =>
    rw [final_of_ok (membership_of_ok h playerUuid), final_of_ok h]
    cases changed <;> rfl
  | error e db => rw [final_of_error (membership_of_error h playerUuid), final_of_error h]

private theorem final_check (m : PermissionManager) (playerUuid node : String) :
    (final (PermissionManager.checkPermission playerUuid node) m).db = m.db := by
  cases hc : m.cache playerUuid node with
  | some mask => rw [final_of_ok (checkPermission_of_cached hc)]
  | none =>
    have h := checkPermission_of_missed hc
    cases hr : resolvePermission m.db playerUuid node with
    | ok result =>
      rw [hr] at h
      rw [final_of_ok h]
      exact storeResult_db ..
    | error e =>
      rw [hr] at h
      rw [final_of_error h]

theorem Call.apply_db (m : PermissionManager) (call : Call) : (call.apply m).db = call.effect m.db := by
  unfold Call.apply Call.run Call.effect
  cases call with
  | checkPermission playerUuid node =>
    dsimp only
    rw [final_map]
    exact final_check ..
  | createGroup uuid name parentUuid =>
    dsimp only
    rw [final_map, PermissionManager.createGroup, final_get_bind]
    by_cases hn : (PermissionRepository.getGroupByName m.db name).isSome
    · rw [if_pos hn, if_pos hn, final_throw]
    · rw [if_neg hn, if_neg hn, final_bind_pure, final_repo]
  | setGroupParent groupUuid parentUuid =>
    dsimp only
    rw [final_map, PermissionManager.setGroupParent, final_get_bind]
    by_cases hc : parentUuid.any (wouldCreateCycle m.db groupUuid)
    · rw [if_pos hc, if_pos hc, final_throw]
    · rw [if_neg hc, if_neg hc]
      exact final_writer ..
  | addPlayerToGroup playerUuid groupUuid =>
    dsimp only
    rw [final_map]
    exact final_membership ..
  | removePlayerFromGroup playerUuid groupUuid =>
    dsimp only
    rw [final_map]
    exact final_membership ..
  | invalidate target => rfl
  | appendACE | insertACE | removeACE | moveACE | clearNodeACL | deleteGroup =>
    dsimp only
    rw [final_map]
    exact final_writer ..

/-! ### Calls that throw -/

/-- What throws is the repository when nothing after it does. -/
theorem repo_bind_error {α β : Type} {x : DbM α} (hx : Atomic x) {f : α → ManagerM β}
    (hf : ∀ a m e m', f a m ≠ .error e m') {m m' : PermissionManager} {e : Exn}
    (h : (repo x >>= f) m = .error e m') : m' = m := by
  cases hdb : x m.db with
  | ok a db =>
    rw [bind_of_ok (repo_of_ok hdb)] at h
    exact (hf _ _ _ _ h).elim
  | error e' db =>
    rw [bind_of_error (repo_of_error hdb)] at h
    cases h
    rw [hx hdb]

theorem writer_error {x : DbM Unit} (hx : Atomic x) {m m' : PermissionManager} {e : Exn}
    (h : (do repo x; invalidateAll) m = .error e m') : m' = m :=
  repo_bind_error hx (fun _ _ _ _ h => by cases h) h

theorem membership_error {x : DbM Bool} (hx : Atomic x) {playerUuid : String} {m m' : PermissionManager} {e : Exn}
    (h : (do
      if ← repo x then
        invalidatePlayer playerUuid
        return true
      else return false) m = .error e m') : m' = m :=
  repo_bind_error hx (fun changed _ _ _ h => by cases changed <;> cases h) h

/-- A call that throws has changed nothing: not the database, not the cache, not the generation. -/
theorem Call.run_error {m m' : PermissionManager} {call : Call} {e : Exn} (h : call.run m = .error e m') : m' = m := by
  cases call with
  | checkPermission playerUuid node =>
    have hcheck := map_eq_error.1 h
    cases hc : m.cache playerUuid node with
    | some mask =>
      rw [checkPermission_of_cached hc] at hcheck
      cases hcheck
    | none =>
      rw [checkPermission_of_missed hc] at hcheck
      cases hr : resolvePermission m.db playerUuid node with
      | ok result =>
        rw [hr] at hcheck
        cases hcheck
      | error e' =>
        rw [hr] at hcheck
        cases hcheck
        rfl
  | createGroup uuid name parentUuid =>
    have hcreate := map_eq_error.1 h
    by_cases hn : (PermissionRepository.getGroupByName m.db name).isSome
    · rw [createGroup_of_exists hn] at hcreate
      cases hcreate
      rfl
    · rw [createGroup_of_new hn] at hcreate
      exact repo_bind_error (PermissionRepository.atomic_createGroup ..) (fun _ _ _ _ h => by cases h) hcreate
  | setGroupParent groupUuid parentUuid =>
    have hset := map_eq_error.1 h
    by_cases hc : parentUuid.any (wouldCreateCycle m.db groupUuid)
    · rw [setGroupParent_of_cycle hc] at hset
      cases hset
      rfl
    · rw [setGroupParent_of_noCycle hc] at hset
      exact writer_error (PermissionRepository.atomic_setGroupParent ..) hset
  | addPlayerToGroup => exact membership_error (PermissionRepository.atomic_addPlayerToGroup ..) (map_eq_error.1 h)
  | removePlayerFromGroup =>
    exact membership_error (PermissionRepository.atomic_removePlayerFromGroup ..) (map_eq_error.1 h)
  | invalidate target => cases map_eq_error.1 h
  | appendACE => exact writer_error (PermissionRepository.atomic_appendACE ..) (map_eq_error.1 h)
  | insertACE => exact writer_error (PermissionRepository.atomic_insertACE ..) (map_eq_error.1 h)
  | removeACE => exact writer_error (PermissionRepository.atomic_removeACE ..) (map_eq_error.1 h)
  | moveACE => exact writer_error (PermissionRepository.atomic_moveACE ..) (map_eq_error.1 h)
  | clearNodeACL => exact writer_error (PermissionRepository.atomic_clearNodeACL _) (map_eq_error.1 h)
  | deleteGroup => exact writer_error (PermissionRepository.atomic_deleteGroup _) (map_eq_error.1 h)

/-- The manager after calls made one after another. -/
abbrev runCalls (m : PermissionManager) (calls : List Call) : PermissionManager := Run.run Call.apply m calls

theorem Call.schema_effect {db : Db} (hdb : db.Schema) (call : Call) : (call.effect db).Schema := by
  cases call with
  | checkPermission => exact hdb
  | invalidate => exact hdb
  | appendACE => exact PermissionRepository.within_appendACE aclMoves_schema _ _ _ _ _ (fun _ => trivial) db hdb
  | insertACE => exact PermissionRepository.within_insertACE aclMoves_schema _ _ _ _ _ _ (fun _ => trivial) db hdb
  | removeACE => exact PermissionRepository.within_removeACE aclMoves_schema _ _ db hdb
  | moveACE => exact PermissionRepository.within_moveACE aclMoves_schema _ _ _ db hdb
  | clearNodeACL => exact PermissionRepository.within_clearNodeACL aclMoves_schema _ db hdb
  | createGroup uuid name parentUuid =>
    simp only [Call.effect]
    split
    · exact hdb
    · exact within_insertGroup _ db hdb
  | deleteGroup => exact PermissionRepository.within_deleteGroup aclMoves_schema _ (within_deleteGroupRow _) db hdb
  | setGroupParent groupUuid parentUuid =>
    simp only [Call.effect]
    split
    · exact hdb
    · exact within_updateGroupParent _ _ db hdb
  | addPlayerToGroup => exact PermissionRepository.within_addPlayerToGroup (within_insertPlayerGroup _) db hdb
  | removePlayerFromGroup =>
    exact PermissionRepository.within_removePlayerFromGroup (within_deletePlayerGroup _) db hdb

/-! ### Sound databases -/

/-- The invariant of the databases that calls reach. -/
structure Db.Sound (db : Db) : Prop extends Db.Schema db where
  masks : db.ValidMasks
  numbered : ∃ acl, Represents db acl

theorem Db.sound_empty : Db.Sound Db.empty where
  toSchema := Db.schema_empty
  masks := Db.validMasks_empty
  numbered := ⟨_, represents_of_permissions_nil rfl⟩

theorem Db.Sound.numbered_entries {db : Db} (h : db.Sound) (node : String) :
    Numbering.Numbered (entriesAt db node) := by
  obtain ⟨acl, hacl⟩ := h.numbered
  exact (hacl node).numbered

/-- The operation of the ACL store that a call is. -/
def Call.aclOp : Call → Option AclOp
  | appendACE now node subjectUuid subjectType mask => some (.appendACE now node subjectUuid subjectType mask)
  | insertACE now node position subjectUuid subjectType mask =>
    some (.insertACE now node position subjectUuid subjectType mask)
  | removeACE node position => some (.removeACE node position)
  | moveACE node fromIndex toIndex => some (.moveACE node fromIndex toIndex)
  | clearNodeACL node => some (.clearNodeACL node)
  | deleteGroup groupUuid => some (.deleteGroup groupUuid)
  | _ => none

theorem AclOp.atomic_run (op : AclOp) : Atomic op.run := by
  cases op with
  | appendACE => exact PermissionRepository.atomic_appendACE ..
  | insertACE => exact PermissionRepository.atomic_insertACE ..
  | removeACE => exact PermissionRepository.atomic_removeACE ..
  | moveACE => exact PermissionRepository.atomic_moveACE ..
  | clearNodeACL => exact PermissionRepository.atomic_clearNodeACL ..
  | deleteGroup => exact PermissionRepository.atomic_deleteGroup ..

theorem Call.effect_of_aclOp {call : Call} {op : AclOp} (h : call.aclOp = some op) (db : Db) :
    call.effect db = final op.run db := by
  cases call <;> cases h <;> rfl

/-- The calls on groups and memberships do not touch the permissions. -/
theorem Call.permissions_effect {call : Call} (h : call.aclOp = none) (db : Db) :
    (call.effect db).permissions = db.permissions := by
  cases call with
  | checkPermission => rfl
  | invalidate => rfl
  | createGroup uuid name parentUuid =>
    simp only [Call.effect]
    split
    · rfl
    · cases h : PermissionRepository.createGroup uuid name parentUuid db with
      | ok a db' => rw [final_of_ok h, (insertGroup_eq_ok.1 h).2]
      | error e db' => rw [final_of_error h, insertGroup_error h]
  | setGroupParent groupUuid parentUuid =>
    simp only [Call.effect]
    split
    · rfl
    · cases h : PermissionRepository.setGroupParent groupUuid parentUuid db with
      | ok a db' => rw [final_of_ok h, (updateGroupParent_eq_ok.1 h).2]
      | error e db' => rw [final_of_error h, updateGroupParent_error h]
  | addPlayerToGroup playerUuid groupUuid =>
    show (final (insertPlayerGroup ⟨playerUuid, groupUuid⟩ >>= fun n => pure (decide (0 < n))) db).permissions = _
    rw [final_bind_pure]
    cases h : insertPlayerGroup ⟨playerUuid, groupUuid⟩ db with
    | ok n db' =>
      rw [final_of_ok h]
      rcases insertPlayerGroup_ok h with ⟨-, rfl⟩ | ⟨-, -, -, rfl⟩ <;> rfl
    | error e db' => rw [final_of_error h, insertPlayerGroup_error h]
  | removePlayerFromGroup => rfl
  | appendACE | insertACE | removeACE | moveACE | clearNodeACL | deleteGroup => cases h

/-- A call leaves the permissions alone or is a successful operation of the ACL store. -/
theorem Call.acl_effect (db : Db) (call : Call) :
    (call.effect db).permissions = db.permissions ∨ ∃ op : AclOp, op.run db = .ok () (call.effect db) := by
  cases hop : call.aclOp with
  | none => exact .inl (Call.permissions_effect hop db)
  | some op =>
    rw [Call.effect_of_aclOp hop]
    cases h : op.run db with
    | ok a db' => exact .inr ⟨op, by rw [h, final_of_ok h]⟩
    | error e db' => exact .inl (by rw [final_of_error h, op.atomic_run h])

theorem AclOp.validMasks_run {op : AclOp} {db db' : Db} (hdb : db.ValidMasks) (h : op.run db = .ok () db') :
    db'.ValidMasks := by
  have hkeeps : Within (Keeps Db.ValidMasks) op.run := by
    cases op with
    | appendACE => exact PermissionRepository.within_appendACE aclMoves_validMasks _ _ _ _ _ fun _ => ⟨_, rfl⟩
    | insertACE => exact PermissionRepository.within_insertACE aclMoves_validMasks _ _ _ _ _ _ fun _ => ⟨_, rfl⟩
    | removeACE => exact PermissionRepository.within_removeACE aclMoves_validMasks _ _
    | moveACE => exact PermissionRepository.within_moveACE aclMoves_validMasks _ _ _
    | clearNodeACL => exact PermissionRepository.within_clearNodeACL aclMoves_validMasks _
    | deleteGroup uuid =>
      refine PermissionRepository.within_deleteGroup aclMoves_validMasks uuid fun db hdb => ?_
      by_cases hu : uuid ∈ db.groupUuids
      · rwa [final_of_ok (deleteGroupRow_of_mem hu)]
      · rwa [final_of_ok (deleteGroupRow_of_notMem hu)]
  have h' := hkeeps db hdb
  rwa [final_of_ok h] at h'

theorem Call.sound_effect {db : Db} (hdb : db.Sound) (call : Call) : (call.effect db).Sound := by
  obtain ⟨acl, hacl⟩ := hdb.numbered
  rcases call.acl_effect db with h | ⟨op, h⟩
  · refine ⟨Call.schema_effect hdb.toSchema call, ?_, acl, ?_⟩
    · intro row hrow
      rw [h] at hrow
      exact hdb.masks row hrow
    · intro node
      unfold entriesAt PermissionRepository.nodeRows
      rw [h]
      exact hacl node
  · obtain ⟨acl', -, hacl'⟩ := AclOp.run_represents hacl h
    exact ⟨Call.schema_effect hdb.toSchema call, AclOp.validMasks_run hdb.masks h, acl', hacl'⟩

theorem sound_runCalls {db : Db} (hdb : db.Sound) (calls : List Call) : (runCalls (.init db) calls).db.Sound :=
  Run.run_invariant (P := fun m : PermissionManager => m.db.Sound) Call.apply
    (fun m call h => by rw [Call.apply_db]; exact Call.sound_effect h call) hdb calls

theorem schema_runCalls {db : Db} (hdb : db.Schema) (calls : List Call) : (runCalls (.init db) calls).db.Schema :=
  Run.run_invariant (P := fun m : PermissionManager => m.db.Schema) Call.apply
    (fun m call h => by rw [Call.apply_db]; exact Call.schema_effect h call) hdb calls

end BakaPerms
