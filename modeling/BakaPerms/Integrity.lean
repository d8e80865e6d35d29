import BakaPerms.Repository

/-!
# Integrity of the tables

The constraints of the schema (`Db.Schema`) and the values that `access_mask` can have (`Db.ValidMasks`) hold
after every operation of the repository, whether it returns or throws.  An operation is a sequence of statements,
so what it can do to the tables follows from what its statements can do: `AclMoves R ok` says that the statements
on `permissions` make moves of `R`, where `ok` holds of the rows that are inserted.
-/

namespace BakaPerms

open Effect

structure Db.Keys (db : Db) : Prop where
  groups_key : db.groupUuids.Nodup
  groups_name : (db.groups.map GroupRow.name).Nodup
  playerGroups_key : db.playerGroups.Nodup
  permissions_key : (db.permissions.map PermissionRow.key).Nodup

structure Db.ForeignKeys (db : Db) : Prop where
  parent_exists : ∀ row ∈ db.groups, ∀ parent, row.parentUuid = some parent → parent ∈ db.groupUuids
  membership_exists : ∀ row ∈ db.playerGroups, row.groupUuid ∈ db.groupUuids

structure Db.Schema (db : Db) : Prop extends Db.Keys db, Db.ForeignKeys db

/-- Every `access_mask` is the value of an access mask. -/
def Db.ValidMasks (db : Db) : Prop := ∀ row ∈ db.permissions, ∃ mask : AccessMask, row.accessMask = mask.toInt

theorem Db.schema_empty : Db.Schema Db.empty where
  groups_key := List.nodup_nil
  groups_name := List.nodup_nil
  playerGroups_key := List.nodup_nil
  permissions_key := List.nodup_nil
  parent_exists := by simp [Db.empty]
  membership_exists := by simp [Db.empty]

theorem Db.validMasks_empty : Db.ValidMasks Db.empty := by simp [Db.ValidMasks, Db.empty]

/-! ### Operations as sequences of statements -/

/-- The statements on `permissions` make moves of `R`. -/
structure AclMoves (R : Db → Db → Prop) (ok : PermissionRow → Prop) : Prop where
  insert : ∀ row, ok row → Within R (insertPermission row)
  update : ∀ sel set, Within R (updateOrderIndex sel set)
  delete : ∀ sel, Within R (deletePermissions sel)

namespace PermissionRepository

section Composition

variable {R : Db → Db → Prop} [IsPreorder Db R] {ok : PermissionRow → Prop}

theorem within_appendACE (h : AclMoves R ok) (now node subjectUuid : String) (subjectType : Int)
    (mask : AccessMask) (hok : ∀ i, ok ⟨node, i, subjectUuid, subjectType, mask.toInt, now⟩) :
    Within R (appendACE now node subjectUuid subjectType mask) :=
  within_withTransaction ((within_query _).bind fun _ => h.insert _ (hok _))

theorem within_insertACE (h : AclMoves R ok) (now node : String) (position : Int) (subjectUuid : String)
    (subjectType : Int) (mask : AccessMask) (hok : ∀ i, ok ⟨node, i, subjectUuid, subjectType, mask.toInt, now⟩) :
    Within R (insertACE now node position subjectUuid subjectType mask) := by
  refine within_withTransaction ((within_query _).bind fun count => Within.ite (within_throw _) ?_)
  exact (h.update _ _).bind fun _ => (h.update _ _).bind fun _ => h.insert _ (hok _)

theorem within_removeACE (h : AclMoves R ok) (node : String) (orderIndex : Int) :
    Within R (removeACE node orderIndex) := by
  refine within_withTransaction ((h.delete _).bind fun affected => Within.ite (within_throw _) ?_)
  exact (h.update _ _).bind fun _ => (h.update _ _).bind fun _ => within_pure _

theorem within_writeACLFrom (h : AclMoves R ok) (node : String) (i : Int) (acl : List ACE) :
    Within R (writeACLFrom node i acl) := by
  induction acl generalizing i with
  | nil => exact within_pure _
  | cons ace acl ih => exact (h.update _ _).bind fun _ => ih (i + 1)

theorem within_writeACL (h : AclMoves R ok) (node : String) (acl : List ACE) : Within R (writeACL node acl) :=
  (h.update _ _).bind fun _ => within_writeACLFrom h node 0 acl

theorem within_reindexACL (h : AclMoves R ok) (node : String) : Within R (reindexACL node) :=
  (within_query _).bind fun acl => within_writeACL h node acl

theorem within_moveACE (h : AclMoves R ok) (node : String) (fromIndex toIndex : Int) :
    Within R (moveACE node fromIndex toIndex) := by
  refine Within.ite (within_pure _) (within_withTransaction ((within_query _).bind fun acl => ?_))
  split
  · exact within_throw _
  · exact within_writeACL h node _

theorem within_clearNodeACL (h : AclMoves R ok) (node : String) : Within R (clearNodeACL node) :=
  (h.delete _).bind fun _ => within_pure _

theorem within_deleteGroup (h : AclMoves R ok) (uuid : String) (hrow : Within R (deleteGroupRow uuid)) :
    Within R (deleteGroup uuid) := by
  refine within_withTransaction ((within_query _).bind fun nodes => (h.delete _).bind fun _ => ?_)
  exact hrow.bind fun _ => within_forM (within_reindexACL h) nodes

theorem within_addPlayerToGroup {playerUuid groupUuid : String}
    (h : Within R (insertPlayerGroup ⟨playerUuid, groupUuid⟩)) : Within R (addPlayerToGroup playerUuid groupUuid) :=
  h.bind fun _ => within_pure _

theorem within_removePlayerFromGroup {playerUuid groupUuid : String}
    (h : Within R (deletePlayerGroup ⟨playerUuid, groupUuid⟩)) :
    Within R (removePlayerFromGroup playerUuid groupUuid) :=
  h.bind fun _ => within_pure _

end Composition

end PermissionRepository

/-! ### The statements keep the constraints -/

theorem aclMoves_sameGroups : AclMoves SameGroups fun _ => True where
  insert row _ := within_insertPermission row
  update := within_updateOrderIndex
  delete := within_deletePermissions

/-- Tables with the same groups and memberships satisfy the same constraints, up to the key of `permissions`. -/
theorem Db.Schema.congr {db db' : Db} (h : db.Schema) (hg : db'.groups = db.groups)
    (hp : db'.playerGroups = db.playerGroups) (hk : (db'.permissions.map PermissionRow.key).Nodup) : db'.Schema := by
  have huuids : db'.groupUuids = db.groupUuids := by
    unfold Db.groupUuids
    rw [hg]
  exact {
    groups_key := huuids ▸ h.groups_key
    groups_name := hg ▸ h.groups_name
    playerGroups_key := hp ▸ h.playerGroups_key
    permissions_key := hk
    parent_exists := by
      rw [hg, huuids]
      exact h.parent_exists
    membership_exists := by
      rw [hp, huuids]
      exact h.membership_exists }

theorem aclMoves_schema : AclMoves (Keeps Db.Schema) fun _ => True where
  insert row _ := by
    intro db hdb
    unfold final insertPermission
    cases hi : Table.insert PermissionRow.key row db.permissions with
    | none => exact hdb
    | some rows => exact hdb.congr rfl rfl (Table.nodup_insert hdb.permissions_key hi)
  update sel set := by
    intro db hdb
    unfold final updateOrderIndex
    cases hu : Table.update PermissionRow.key sel (fun row => { row with orderIndex := set row.orderIndex })
      db.permissions with
    | none => exact hdb
    | some rows => exact hdb.congr rfl rfl (Table.nodup_update hdb.permissions_key hu)
  delete sel := fun _ hdb => hdb.congr rfl rfl (Table.nodup_delete hdb.permissions_key)

/-- A property of rows that does not look at `order_index` holds of all rows when it holds of the new ones. -/
theorem aclMoves_forall {Q : PermissionRow → Prop} (hQ : ∀ set row, Q row → Q (row.setOrderIndex set)) :
    AclMoves (Keeps fun db => ∀ row ∈ db.permissions, Q row) Q where
  insert row hrow := by
    intro db hdb
    unfold final insertPermission
    cases hi : Table.insert PermissionRow.key row db.permissions with
    | none => exact hdb
    | some rows =>
      obtain ⟨-, rfl⟩ := Table.insert_eq_some hi
      intro row' hrow'
      rcases List.mem_append.1 hrow' with hrow' | hrow'
      · exact hdb row' hrow'
      · rwa [List.mem_singleton.1 hrow']
  update sel set := by
    intro db hdb
    unfold final updateOrderIndex
    cases hu : Table.update PermissionRow.key sel (fun row => { row with orderIndex := set row.orderIndex })
      db.permissions with
    | none => exact hdb
    | some rows =>
      rw [Table.update_eq_some hu]
      intro row hrow
      obtain ⟨row', hrow', rfl⟩ := Table.mem_rewrite.1 hrow
      split
      · exact hQ set row' (hdb row' hrow')
      · exact hdb row' hrow'
  delete sel := fun _ hdb row hrow => hdb row (List.mem_of_mem_filter hrow)

theorem aclMoves_validMasks :
    AclMoves (Keeps Db.ValidMasks) fun row => ∃ mask : AccessMask, row.accessMask = mask.toInt :=
  aclMoves_forall fun _ _ h => h

theorem within_insertGroup (row : GroupRow) : Within (Keeps Db.Schema) (insertGroup row) := by
  refine within_of_result (fun db _ db' h hdb => ?_) (fun db e db' h hdb => insertGroup_error h ▸ hdb)
  obtain ⟨⟨hu, hn, hp⟩, rfl⟩ := insertGroup_eq_ok.1 h
  have huuids : Db.groupUuids { db with groups := db.groups ++ [row] } = db.groupUuids ++ [row.uuid] := by
    simp [Db.groupUuids]
  refine ⟨⟨?_, ?_, hdb.playerGroups_key, hdb.permissions_key⟩, ?_, ?_⟩
  · rw [huuids, ← List.concat_eq_append]
    exact hdb.groups_key.concat hu
  · rw [List.map_append, List.map_singleton, ← List.concat_eq_append]
    exact hdb.groups_name.concat hn
  · intro row' hrow' parent hparent
    rw [huuids, List.mem_append, List.mem_singleton]
    rcases List.mem_append.1 hrow' with hrow' | hrow'
    · exact .inl (hdb.parent_exists row' hrow' parent hparent)
    · rw [List.mem_singleton.1 hrow'] at hparent
      rcases List.mem_cons.1 (hp parent hparent) with h | h
      · exact .inr h
      · exact .inl h
  · intro pg hpg
    rw [huuids, List.mem_append]
    exact .inl (hdb.membership_exists pg hpg)

theorem within_updateGroupParent (uuid : String) (parentUuid : Option String) :
    Within (Keeps Db.Schema) (updateGroupParent uuid parentUuid) := by
  refine within_of_result (fun db _ db' h hdb => ?_) (fun db e db' h hdb => updateGroupParent_error h ▸ hdb)
  obtain ⟨hf, rfl⟩ := updateGroupParent_eq_ok.1 h
  have huuids : Db.groupUuids { db with groups := withParent db.groups uuid parentUuid } = db.groupUuids :=
    map_uuid_withParent ..
  refine ⟨⟨?_, ?_, hdb.playerGroups_key, hdb.permissions_key⟩, ?_, ?_⟩
  · rw [huuids]
    exact hdb.groups_key
  · rw [withParent, Table.map_rewrite (GroupRow.name_setParent _)]
    exact hdb.groups_name
  · intro row hrow parent hparent
    rw [huuids]
    obtain ⟨row', hrow', rfl⟩ := Table.mem_rewrite.1 hrow
    by_cases hu : row'.uuid = uuid
    · simp only [hu, beq_self_eq_true, ↓reduceIte] at hparent
      exact hf (hu ▸ List.mem_map_of_mem hrow') parent hparent
    · simp only [beq_iff_eq, hu, ↓reduceIte] at hparent
      exact hdb.parent_exists row' hrow' parent hparent
  · rw [huuids]
    exact hdb.membership_exists

theorem within_deleteGroupRow (uuid : String) : Within (Keeps Db.Schema) (deleteGroupRow uuid) := by
  intro db hdb
  by_cases hu : uuid ∈ db.groupUuids
  · rw [final_of_ok (deleteGroupRow_of_mem hu)]
    have huuids := map_uuid_withoutGroup db.groups uuid
    have hmem : ∀ v, v ∈ db.groupUuids → v ≠ uuid → v ∈ (withoutGroup db.groups uuid).map GroupRow.uuid := by
      intro v hv hne
      rw [huuids]
      exact List.mem_filter.2 ⟨hv, by simpa using hne⟩
    refine ⟨⟨?_, ?_, ?_, hdb.permissions_key⟩, ?_, ?_⟩
    · show ((withoutGroup db.groups uuid).map GroupRow.uuid).Nodup
      rw [huuids]
      exact hdb.groups_key.filter _
    · show ((withoutGroup db.groups uuid).map GroupRow.name).Nodup
      rw [withoutGroup, Table.map_rewrite (GroupRow.name_setParent _)]
      exact Table.nodup_delete hdb.groups_name
    · exact hdb.playerGroups_key.filter _
    · intro row hrow parent hparent
      obtain ⟨row', hrow', rfl⟩ := Table.mem_rewrite.1 hrow
      by_cases hp : row'.parentUuid = some uuid
      · simp [hp] at hparent
      · simp only [beq_iff_eq, hp, ↓reduceIte] at hparent
        refine hmem parent (hdb.parent_exists row' (List.mem_of_mem_filter hrow') parent hparent) ?_
        rintro rfl
        exact hp hparent
    · intro pg hpg
      obtain ⟨hpg, hne⟩ := List.mem_filter.1 hpg
      exact hmem pg.groupUuid (hdb.membership_exists pg hpg) (by simpa using hne)
  · rw [final_of_ok (deleteGroupRow_of_notMem hu)]
    exact hdb

theorem within_insertPlayerGroup (row : PlayerGroupRow) : Within (Keeps Db.Schema) (insertPlayerGroup row) := by
  refine within_of_result (fun db n db' h hdb => ?_) (fun db e db' h hdb => insertPlayerGroup_error h ▸ hdb)
  rcases insertPlayerGroup_ok h with ⟨-, rfl⟩ | ⟨-, hm, hg, rfl⟩
  · exact hdb
  · refine ⟨⟨hdb.groups_key, hdb.groups_name, ?_, hdb.permissions_key⟩, hdb.parent_exists, ?_⟩
    · rw [← List.concat_eq_append]
      exact hdb.playerGroups_key.concat hm
    · intro pg hpg
      rcases List.mem_append.1 hpg with hpg | hpg
      · exact hdb.membership_exists pg hpg
      · rwa [List.mem_singleton.1 hpg]

theorem within_deletePlayerGroup (row : PlayerGroupRow) : Within (Keeps Db.Schema) (deletePlayerGroup row) := by
  intro db hdb
  exact ⟨⟨hdb.groups_key, hdb.groups_name, hdb.playerGroups_key.filter _, hdb.permissions_key⟩,
    hdb.parent_exists, fun pg hpg => hdb.membership_exists pg (List.mem_of_mem_filter hpg)⟩

/-! ### What `deleteGroup` does to the groups -/

/-- The groups and memberships after a group has been deleted, with the actions of the foreign keys. -/
theorem PermissionRepository.deleteGroup_groups {uuid : String} {db db' : Db}
    (h : PermissionRepository.deleteGroup uuid db = .ok () db') :
    (uuid ∈ db.groupUuids ∧ db'.groups = withoutGroup db.groups uuid ∧
        db'.playerGroups = Table.delete (fun row => row.groupUuid == uuid) db.playerGroups) ∨
      (uuid ∉ db.groupUuids ∧ db'.groups = db.groups ∧ db'.playerGroups = db.playerGroups) := by
  rw [PermissionRepository.deleteGroup, withTransaction_eq_ok, bind_eq_ok] at h
  obtain ⟨affected, db₀, hq, h⟩ := h
  obtain ⟨-, rfl⟩ := query_eq_ok.1 hq
  obtain ⟨_, db₁, hdel, h⟩ := bind_eq_ok.1 h
  obtain ⟨-, rfl⟩ := deletePermissions_ok hdel
  obtain ⟨_, db₂, hrow, hloop⟩ := bind_eq_ok.1 h
  have hsame := within_forM (PermissionRepository.within_reindexACL aclMoves_sameGroups) affected db₂
  rw [final_of_ok hloop] at hsame
  obtain ⟨hgroups, hplayers⟩ := Prod.mk.inj hsame
  rw [hgroups, hplayers]
  by_cases hu : uuid ∈ db.groupUuids
  · left
    have hrow' := hrow.symm.trans (deleteGroupRow_of_mem hu)
    cases hrow'
    exact ⟨hu, rfl, rfl⟩
  · right
    have hrow' := hrow.symm.trans (deleteGroupRow_of_notMem hu)
    cases hrow'
    exact ⟨hu, rfl, rfl⟩

/-! ### Operations that fail -/

/-- A computation that throws leaves the tables as they were. -/
def Atomic {α : Type} (x : DbM α) : Prop := ∀ ⦃db e db'⦄, x db = .error e db' → db' = db

theorem atomic_withTransaction {α : Type} (fn : DbM α) : Atomic (withTransaction fn) :=
  fun _ _ _ h => withTransaction_error h

theorem Atomic.bind_pure {α β : Type} {x : DbM α} (hx : Atomic x) (f : α → β) :
    Atomic (x >>= fun a => pure (f a)) := by
  intro db e db' h
  cases hxd : x db with
  | ok a db₁ =>
    rw [bind_of_ok hxd] at h
    cases h
  | error e' db₁ =>
    rw [bind_of_error hxd] at h
    cases h
    exact hx hxd

namespace PermissionRepository

theorem atomic_appendACE (now node subjectUuid : String) (subjectType : Int) (mask : AccessMask) :
    Atomic (appendACE now node subjectUuid subjectType mask) := atomic_withTransaction _

theorem atomic_insertACE (now node : String) (position : Int) (subjectUuid : String) (subjectType : Int)
    (mask : AccessMask) : Atomic (insertACE now node position subjectUuid subjectType mask) :=
  atomic_withTransaction _

theorem atomic_removeACE (node : String) (orderIndex : Int) : Atomic (removeACE node orderIndex) :=
  atomic_withTransaction _

theorem atomic_moveACE (node : String) (fromIndex toIndex : Int) : Atomic (moveACE node fromIndex toIndex) := by
  unfold moveACE
  split
  · intro db e db' h
    cases h
  · exact atomic_withTransaction _

theorem atomic_clearNodeACL (node : String) : Atomic (clearNodeACL node) := by
  intro db e db' h
  cases h

theorem atomic_deleteGroup (uuid : String) : Atomic (deleteGroup uuid) := atomic_withTransaction _

theorem atomic_createGroup (uuid name : String) (parentUuid : Option String) :
    Atomic (createGroup uuid name parentUuid) := fun _ _ _ h => insertGroup_error h

theorem atomic_setGroupParent (uuid : String) (parentUuid : Option String) :
    Atomic (setGroupParent uuid parentUuid) := fun _ _ _ h => updateGroupParent_error h

theorem atomic_addPlayerToGroup (playerUuid groupUuid : String) : Atomic (addPlayerToGroup playerUuid groupUuid) :=
  Atomic.bind_pure (fun _ _ _ h => insertPlayerGroup_error h) _

theorem atomic_removePlayerFromGroup (playerUuid groupUuid : String) :
    Atomic (removePlayerFromGroup playerUuid groupUuid) := by
  intro db e db' h
  cases h

end PermissionRepository

end BakaPerms
