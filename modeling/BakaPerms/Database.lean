import BakaPerms.Lib.Effect
import BakaPerms.Lib.Table
import BakaPerms.Types

/-!
# The database

The three tables of `initializeSchema` and the SQL statements that change them, with the constraints SQLite
enforces: the primary keys, the unique group name, and the two foreign keys with their `ON DELETE` actions.  A
statement that violates a constraint throws and leaves the tables as they were.  `DbM` is a computation against
the database that may throw; the tables keep what was done before the throw, unless `withTransaction` rolls it
back.
-/

namespace BakaPerms

structure GroupRow where
  uuid : String
  name : String
  parentUuid : Option String
  deriving DecidableEq, Repr

structure PlayerGroupRow where
  playerUuid : String
  groupUuid : String
  deriving DecidableEq, Repr

structure PermissionRow where
  node : String
  orderIndex : Int
  subjectUuid : String
  subjectType : Int
  accessMask : Int
  createdAt : String
  deriving DecidableEq, Repr

/-- `PRIMARY KEY (node, order_index)`. -/
def PermissionRow.key (row : PermissionRow) : String × Int := (row.node, row.orderIndex)

structure Db where
  groups : List GroupRow
  playerGroups : List PlayerGroupRow
  permissions : List PermissionRow
  deriving DecidableEq, Repr

/-- The database right after `initializeSchema`. -/
def Db.empty : Db := ⟨[], [], []⟩

/-- The row after `SET parent_uuid = …`. -/
def GroupRow.setParent (parentUuid : Option String) (row : GroupRow) : GroupRow :=
  { row with parentUuid := parentUuid }

@[simp] theorem GroupRow.uuid_setParent (parentUuid : Option String) (row : GroupRow) :
    (row.setParent parentUuid).uuid = row.uuid := rfl

@[simp] theorem GroupRow.name_setParent (parentUuid : Option String) (row : GroupRow) :
    (row.setParent parentUuid).name = row.name := rfl

@[simp] theorem GroupRow.parentUuid_setParent (parentUuid : Option String) (row : GroupRow) :
    (row.setParent parentUuid).parentUuid = parentUuid := rfl

def Db.groupUuids (db : Db) : List String := db.groups.map GroupRow.uuid

abbrev DbM := EStateM Exn Db

/-- `SQLiteDatabase::withTransaction`: a throw rolls the tables back to `BEGIN`. -/
def withTransaction {α : Type} (fn : DbM α) : DbM α := fun db =>
  match fn db with
  | .ok a db' => .ok a db'
  | .error e _ => .error e db

/-- A query whose rows are decoded by code that may throw. -/
def query {α : Type} (select : Db → Except Exn α) : DbM α := fun db =>
  match select db with
  | .ok a => .ok a db
  | .error e => .error e db

theorem withTransaction_eq_ok {α : Type} {fn : DbM α} {db db' : Db} {a : α} :
    withTransaction fn db = .ok a db' ↔ fn db = .ok a db' := by
  unfold withTransaction
  split
  · rename_i h
    rw [h]
  · rename_i h
    rw [h]
    simp

theorem withTransaction_of_error {α : Type} {fn : DbM α} {db db' : Db} {e : Exn} (h : fn db = .error e db') :
    withTransaction fn db = .error e db := by
  unfold withTransaction
  rw [h]

/-- A transaction that throws after its first statement. -/
theorem withTransaction_bind_throw {α β : Type} {x : DbM α} {f : α → DbM β} {db db' : Db} {a : α} {e : Exn}
    (hx : x db = .ok a db') (hf : f a = throw e) : withTransaction (x >>= f) db = .error e db := by
  have hthrow : (x >>= f) db = .error e db' := by
    rw [Effect.bind_of_ok hx, hf]
    rfl
  exact withTransaction_of_error hthrow

/-- A transaction that throws leaves the tables as they were. -/
theorem withTransaction_error {α : Type} {fn : DbM α} {db db' : Db} {e : Exn}
    (h : withTransaction fn db = .error e db') : db' = db := by
  unfold withTransaction at h
  split at h
  · cases h
  · cases h
    rfl

theorem query_eq_ok {α : Type} {select : Db → Except Exn α} {db db' : Db} {a : α} :
    query select db = .ok a db' ↔ select db = .ok a ∧ db = db' := by
  unfold query
  split
  · rename_i h
    rw [h]
    simp
  · rename_i h
    rw [h]
    simp

section Frames

variable {R : Db → Db → Prop} [IsPreorder Db R]

theorem within_withTransaction {α : Type} {fn : DbM α} (h : Effect.Within R fn) :
    Effect.Within R (withTransaction fn) := by
  intro db
  cases hfn : fn db with
  | ok a db' =>
    rw [Effect.final_of_ok (withTransaction_eq_ok.2 hfn), ← Effect.final_of_ok hfn]
    exact h db
  | error e db' =>
    rw [Effect.final_of_error (withTransaction_of_error hfn)]
    exact refl_of R db

theorem within_query {α : Type} (select : Db → Except Exn α) : Effect.Within R (query select) := by
  intro db
  unfold Effect.final query
  split <;> rename_i h <;> split at h <;> cases h <;> exact refl_of R _

end Frames

/-! ### Statements on `permissions` -/

/-- `INSERT INTO permissions`. -/
def insertPermission (row : PermissionRow) : DbM Unit := fun db =>
  match Table.insert PermissionRow.key row db.permissions with
  | some rows => .ok () { db with permissions := rows }
  | none => .error (.database "UNIQUE constraint failed: permissions.node, permissions.order_index") db

/-- `UPDATE permissions SET order_index = … WHERE …`, with the number of rewritten rows. -/
def updateOrderIndex (sel : PermissionRow → Bool) (set : Int → Int) : DbM Nat := fun db =>
  match Table.update PermissionRow.key sel (fun row => { row with orderIndex := set row.orderIndex })
      db.permissions with
  | some rows => .ok (db.permissions.countP sel) { db with permissions := rows }
  | none => .error (.database "UNIQUE constraint failed: permissions.node, permissions.order_index") db

/-- `DELETE FROM permissions WHERE …`, with the number of deleted rows. -/
def deletePermissions (sel : PermissionRow → Bool) : DbM Nat := fun db =>
  .ok (db.permissions.countP sel) { db with permissions := Table.delete sel db.permissions }

theorem insertPermission_eq_ok {row : PermissionRow} {db db' : Db} :
    insertPermission row db = .ok () db' ↔
      row.key ∉ db.permissions.map PermissionRow.key ∧ db' = { db with permissions := db.permissions ++ [row] } := by
  unfold insertPermission Table.insert
  by_cases h : row.key ∈ db.permissions.map PermissionRow.key
  · simp only [h, ↓reduceIte, reduceCtorEq, not_true_eq_false, false_and]
  · simp only [h, ↓reduceIte, EStateM.Result.ok.injEq, true_and, not_false_eq_true]
    exact eq_comm

/-- The row after `SET order_index = …`. -/
def PermissionRow.setOrderIndex (set : Int → Int) (row : PermissionRow) : PermissionRow :=
  { row with orderIndex := set row.orderIndex }

theorem updateOrderIndex_ok {sel : PermissionRow → Bool} {set : Int → Int} {db db' : Db} {n : Nat}
    (h : updateOrderIndex sel set db = .ok n db') :
    db' = { db with permissions := Table.rewrite sel (PermissionRow.setOrderIndex set) db.permissions } := by
  unfold updateOrderIndex at h
  split at h
  · rename_i hu
    cases h
    rw [Table.update_eq_some hu]
    rfl
  · cases h

theorem deletePermissions_ok {sel : PermissionRow → Bool} {db db' : Db} {n : Nat}
    (h : deletePermissions sel db = .ok n db') :
    n = db.permissions.countP sel ∧ db' = { db with permissions := Table.delete sel db.permissions } := by
  cases h
  exact ⟨rfl, rfl⟩

/-- The moves that do not touch the groups and the memberships. -/
abbrev SameGroups : Db → Db → Prop := Effect.Same fun db => (db.groups, db.playerGroups)

theorem within_insertPermission (row : PermissionRow) : Effect.Within SameGroups (insertPermission row) := by
  intro db
  unfold Effect.final insertPermission
  split <;> rename_i h <;> split at h <;> cases h <;> rfl

theorem within_updateOrderIndex (sel : PermissionRow → Bool) (set : Int → Int) :
    Effect.Within SameGroups (updateOrderIndex sel set) := by
  intro db
  unfold Effect.final updateOrderIndex
  split <;> rename_i h <;> split at h <;> cases h <;> rfl

theorem within_deletePermissions (sel : PermissionRow → Bool) : Effect.Within SameGroups (deletePermissions sel) :=
  fun _ => rfl

/-! ### Statements on `groups` and `player_groups` -/

/-- `INSERT INTO groups`. -/
def insertGroup (row : GroupRow) : DbM Unit := fun db =>
  -- SQLite looks into the index of the unique name before the one of the primary key
  if row.name ∈ db.groups.map GroupRow.name then .error (.database "UNIQUE constraint failed: groups.name") db
  else if row.uuid ∈ db.groupUuids then .error (.database "UNIQUE constraint failed: groups.uuid") db
  -- the new row is there when the foreign key is checked, so it may be its own parent
  else if ∀ parent ∈ row.parentUuid, parent ∈ row.uuid :: db.groupUuids then
    .ok () { db with groups := db.groups ++ [row] }
  else .error (.database "FOREIGN KEY constraint failed") db

/-- `UPDATE groups SET parent_uuid = ? WHERE uuid = ?`. -/
def updateGroupParent (uuid : String) (parentUuid : Option String) : DbM Unit := fun db =>
  if uuid ∈ db.groupUuids ∧ ∃ parent ∈ parentUuid, parent ∉ db.groupUuids then
    .error (.database "FOREIGN KEY constraint failed") db
  else
    .ok () { db with groups := Table.rewrite (fun row => row.uuid == uuid) (GroupRow.setParent parentUuid) db.groups }

/-- `DELETE FROM groups WHERE uuid = ?`, with `ON DELETE SET NULL` on the children and `ON DELETE CASCADE` on the
memberships. -/
def deleteGroupRow (uuid : String) : DbM Unit := fun db =>
  .ok () { db with
    groups := if uuid ∈ db.groupUuids then
        Table.rewrite (fun row => row.parentUuid == some uuid) (GroupRow.setParent none)
          (Table.delete (fun row => row.uuid == uuid) db.groups)
      else db.groups
    playerGroups := if uuid ∈ db.groupUuids then
        Table.delete (fun row => row.groupUuid == uuid) db.playerGroups
      else db.playerGroups }

/-- `INSERT OR IGNORE INTO player_groups`, with the number of inserted rows.  `IGNORE` covers the primary key, not
the foreign key. -/
def insertPlayerGroup (row : PlayerGroupRow) : DbM Nat := fun db =>
  if row ∈ db.playerGroups then .ok 0 db
  else if row.groupUuid ∈ db.groupUuids then .ok 1 { db with playerGroups := db.playerGroups ++ [row] }
  else .error (.database "FOREIGN KEY constraint failed") db

/-- `DELETE FROM player_groups WHERE player_uuid = ? AND group_uuid = ?`, with the number of deleted rows. -/
def deletePlayerGroup (row : PlayerGroupRow) : DbM Nat := fun db =>
  .ok (db.playerGroups.countP (· == row)) { db with playerGroups := Table.delete (· == row) db.playerGroups }

theorem insertGroup_eq_ok {row : GroupRow} {db db' : Db} :
    insertGroup row db = .ok () db' ↔
      (row.uuid ∉ db.groupUuids ∧ row.name ∉ db.groups.map GroupRow.name ∧
        ∀ parent, row.parentUuid = some parent → parent ∈ row.uuid :: db.groupUuids) ∧
      db' = { db with groups := db.groups ++ [row] } := by
  unfold insertGroup
  by_cases hn : row.name ∈ db.groups.map GroupRow.name
  · simp only [hn, ↓reduceIte, reduceCtorEq, not_true_eq_false, false_and, and_false]
  by_cases hu : row.uuid ∈ db.groupUuids
  · simp only [hu, hn, ↓reduceIte, reduceCtorEq, not_true_eq_false, false_and]
  by_cases hp : ∀ parent ∈ row.parentUuid, parent ∈ row.uuid :: db.groupUuids
  · simp only [hu, hn, ↓reduceIte]
    rw [if_pos hp]
    constructor
    · intro h
      cases h
      exact ⟨⟨not_false, not_false, hp⟩, rfl⟩
    · rintro ⟨-, rfl⟩
      rfl
  · simp only [hu, hn, ↓reduceIte]
    rw [if_neg hp]
    constructor
    · intro h
      cases h
    · intro h
      exact absurd h.1.2.2 hp

theorem insertGroup_error {row : GroupRow} {db db' : Db} {e : Exn} (h : insertGroup row db = .error e db') :
    db' = db := by
  unfold insertGroup at h
  split at h
  · cases h
    rfl
  split at h
  · cases h
    rfl
  split at h
  · cases h
  · cases h
    rfl

/-- The groups after a parent has been set. -/
def withParent (groups : List GroupRow) (uuid : String) (parentUuid : Option String) : List GroupRow :=
  Table.rewrite (fun row => row.uuid == uuid) (GroupRow.setParent parentUuid) groups

@[simp] theorem map_uuid_withParent (groups : List GroupRow) (uuid : String) (parentUuid : Option String) :
    (withParent groups uuid parentUuid).map GroupRow.uuid = groups.map GroupRow.uuid :=
  Table.map_rewrite (GroupRow.uuid_setParent _) _

theorem updateGroupParent_eq_ok {uuid : String} {parentUuid : Option String} {db db' : Db} :
    updateGroupParent uuid parentUuid db = .ok () db' ↔
      (uuid ∈ db.groupUuids → ∀ parent, parentUuid = some parent → parent ∈ db.groupUuids) ∧
      db' = { db with groups := withParent db.groups uuid parentUuid } := by
  unfold updateGroupParent
  by_cases hf : uuid ∈ db.groupUuids ∧ ∃ parent ∈ parentUuid, parent ∉ db.groupUuids
  · rw [if_pos hf]
    constructor
    · intro h
      cases h
    · rintro ⟨h, -⟩
      obtain ⟨hu, parent, hparent, hnot⟩ := hf
      exact absurd (h hu parent hparent) hnot
  · rw [if_neg hf]
    constructor
    · intro h
      cases h
      refine ⟨fun hu parent hparent => ?_, rfl⟩
      by_contra hnot
      exact hf ⟨hu, parent, hparent, hnot⟩
    · rintro ⟨-, rfl⟩
      rfl

theorem updateGroupParent_error {uuid : String} {parentUuid : Option String} {db db' : Db} {e : Exn}
    (h : updateGroupParent uuid parentUuid db = .error e db') : db' = db := by
  unfold updateGroupParent at h
  split at h
  · cases h
    rfl
  · cases h

/-- Deleting a group that is not there changes nothing. -/
theorem deleteGroupRow_of_notMem {uuid : String} {db : Db} (h : uuid ∉ db.groupUuids) :
    deleteGroupRow uuid db = .ok () db := by
  simp [deleteGroupRow, h]

/-- The groups after one of them has been deleted. -/
def withoutGroup (groups : List GroupRow) (uuid : String) : List GroupRow :=
  Table.rewrite (fun row => row.parentUuid == some uuid) (GroupRow.setParent none)
    (Table.delete (fun row => row.uuid == uuid) groups)

theorem map_uuid_withoutGroup (groups : List GroupRow) (uuid : String) :
    (withoutGroup groups uuid).map GroupRow.uuid = (groups.map GroupRow.uuid).filter fun v => !(v == uuid) := by
  unfold withoutGroup Table.delete
  rw [Table.map_rewrite (GroupRow.uuid_setParent _), List.filter_map]
  rfl

theorem deleteGroupRow_of_mem {uuid : String} {db : Db} (h : uuid ∈ db.groupUuids) :
    deleteGroupRow uuid db = .ok () { db with
      groups := withoutGroup db.groups uuid
      playerGroups := Table.delete (fun row => row.groupUuid == uuid) db.playerGroups } := by
  simp [deleteGroupRow, h, withoutGroup]

theorem insertPlayerGroup_ok {row : PlayerGroupRow} {db db' : Db} {n : Nat}
    (h : insertPlayerGroup row db = .ok n db') :
    (n = 0 ∧ db' = db) ∨ (n = 1 ∧ row ∉ db.playerGroups ∧ row.groupUuid ∈ db.groupUuids ∧
      db' = { db with playerGroups := db.playerGroups ++ [row] }) := by
  unfold insertPlayerGroup at h
  split at h
  · cases h
    exact .inl ⟨rfl, rfl⟩
  · rename_i hm
    split at h
    · rename_i hg
      cases h
      exact .inr ⟨rfl, hm, hg, rfl⟩
    · cases h

theorem insertPlayerGroup_error {row : PlayerGroupRow} {db db' : Db} {e : Exn}
    (h : insertPlayerGroup row db = .error e db') : db' = db := by
  unfold insertPlayerGroup at h
  split at h
  · cases h
  · split at h
    · cases h
    · cases h
      rfl

end BakaPerms
