import BakaPerms.AclStore

/-!
# The order in which an UPDATE visits its rows

`updateOrderIndex` visits the rows in the order of the table.  SQLite may visit them in any order, and in another one
for every statement, so the operations are stated here once more over the UPDATE statements that they make, numbered
in the order in which a call makes them on a node (`AclOp.runWith`); with `updateOrderIndex` for each of them they are
the operations of the repository.  An UPDATE that moves its rows to distinct free keys does the same in every order
(`RowByRow`).
-/

namespace BakaPerms

open Effect Numbering

/-- The order in which a statement visits the rows of a table, by their places in the table. -/
structure RowOrder where
  places : List PermissionRow → List Nat
  perm : ∀ rows, (places rows).Perm (List.range rows.length)

/-- `UPDATE permissions SET order_index = … WHERE …`. -/
abbrev Update := (PermissionRow → Bool) → (Int → Int) → DbM Nat

/-- `updateOrderIndex` with the rows visited in the given order. -/
def updateOrderIndexIn (order : RowOrder) : Update := fun sel set db =>
  match Table.visit PermissionRow.key sel (PermissionRow.setOrderIndex set) (order.places db.permissions)
      db.permissions with
  | some rows => .ok (db.permissions.countP sel) { db with permissions := rows }
  | none => .error (.database "UNIQUE constraint failed: permissions.node, permissions.order_index") db

namespace PermissionRepository

def insertACEWith (update : Nat → Update) (now node : String) (position : Int) (subjectUuid : String)
    (subjectType : Int) (mask : AccessMask) : DbM Unit :=
  withTransaction do
    let count ← query fun db => .ok (nodeRows db node).length
    if position < 0 ∨ position > count then
      throw (.outOfRange s!"ACE position {position} is out of range [0, {count}]")
    else
      let _ ← update 0 (fun row => row.node == node && decide (row.orderIndex ≥ position)) fun i => -(i + 1)
      let _ ← update 1 (fun row => row.node == node && decide (row.orderIndex < 0)) fun i => -i
      insertPermission ⟨node, position, subjectUuid, subjectType, mask.toInt, now⟩

def removeACEWith (update : Nat → Update) (node : String) (orderIndex : Int) : DbM Unit :=
  withTransaction do
    let affected ← deletePermissions fun row => row.node == node && row.orderIndex == orderIndex
    if affected = 0 then
      throw (.outOfRange s!"No ACE found at position {orderIndex} on node '{node}'")
    else
      let _ ← update 0 (fun row => row.node == node && decide (row.orderIndex > orderIndex)) fun i => -i
      let _ ← update 1 (fun row => row.node == node && decide (row.orderIndex < 0)) fun i => -i - 1

def writeACLFromWith (update : Nat → Update) (node : String) (i : Int) : List ACE → DbM Unit
  | [] => pure ()
  | ace :: acl => do
    let _ ← update 0 (fun row => row.node == node && row.orderIndex == -(ace.orderIndex + 1)) fun _ => i
    writeACLFromWith (fun k => update (k + 1)) node (i + 1) acl

def writeACLWith (update : Nat → Update) (node : String) (acl : List ACE) : DbM Unit := do
  let _ ← update 0 (fun row => row.node == node) fun i => -(i + 1)
  writeACLFromWith (fun k => update (k + 1)) node 0 acl

def reindexACLWith (update : Nat → Update) (node : String) : DbM Unit := do
  let acl ← query fun db => getNodeACL db node
  writeACLWith update node acl

theorem fromIndex_lt {acl : List ACE} {fromIndex toIndex : Int}
    (h : ¬ (fromIndex < 0 ∨ fromIndex ≥ acl.length ∨ toIndex < 0 ∨ toIndex ≥ acl.length)) :
    fromIndex.toNat < acl.length := by
  omega

def moveACEWith (update : Nat → Update) (node : String) (fromIndex toIndex : Int) : DbM Unit :=
  if fromIndex = toIndex then pure ()
  else withTransaction do
    let acl ← query fun db => getNodeACL db node
    if h : fromIndex < 0 ∨ fromIndex ≥ acl.length ∨ toIndex < 0 ∨ toIndex ≥ acl.length then
      throw (.outOfRange
        s!"ACE move position out of range: from={fromIndex}, to={toIndex}, size={acl.length}")
    else
      let ace := acl.get ⟨fromIndex.toNat, fromIndex_lt h⟩
      writeACLWith update node ((acl.eraseIdx fromIndex.toNat).insertIdx toIndex.toNat ace)

def deleteGroupWith (update : String → Nat → Update) (uuid : String) : DbM Unit :=
  withTransaction do
    let affectedRows ← query fun db =>
      .ok ((db.permissions.filter fun row => row.subjectUuid == uuid).map PermissionRow.node).dedup
    let _ ← deletePermissions fun row => row.subjectUuid == uuid
    deleteGroupRow uuid
    affectedRows.forM fun node => reindexACLWith (update node) node

theorem writeACLFromWith_updateOrderIndex (node : String) (i : Int) (acl : List ACE) :
    writeACLFromWith (fun _ => updateOrderIndex) node i acl = writeACLFrom node i acl := by
  induction acl generalizing i with
  | nil => rfl
  | cons ace acl ih =>
    rw [writeACLFromWith, writeACLFrom]
    exact congrArg _ (funext fun _ => ih (i + 1))

theorem writeACLWith_updateOrderIndex (node : String) (acl : List ACE) :
    writeACLWith (fun _ => updateOrderIndex) node acl = writeACL node acl :=
  congrArg _ (funext fun _ => writeACLFromWith_updateOrderIndex node 0 acl)

theorem reindexACLWith_updateOrderIndex (node : String) :
    reindexACLWith (fun _ => updateOrderIndex) node = reindexACL node :=
  congrArg _ (funext fun acl => writeACLWith_updateOrderIndex node acl)

end PermissionRepository

open PermissionRepository

/-- The operation, with the UPDATE statements that it makes on each node. -/
def AclOp.runWith (update : String → Nat → Update) : AclOp → DbM Unit
  | appendACE now node subjectUuid subjectType mask =>
    PermissionRepository.appendACE now node subjectUuid subjectType mask
  | insertACE now node position subjectUuid subjectType mask =>
    insertACEWith (update node) now node position subjectUuid subjectType mask
  | removeACE node position => removeACEWith (update node) node position
  | moveACE node fromIndex toIndex => moveACEWith (update node) node fromIndex toIndex
  | clearNodeACL node => PermissionRepository.clearNodeACL node
  | deleteGroup uuid => deleteGroupWith update uuid

/-- With the UPDATE statements of the model the operations are those of the repository. -/
theorem AclOp.runWith_updateOrderIndex (op : AclOp) : op.runWith (fun _ _ => updateOrderIndex) = op.run := by
  cases op with
  | moveACE node fromIndex toIndex =>
    simp only [runWith, run, moveACEWith, PermissionRepository.moveACE, writeACLWith_updateOrderIndex]
  | deleteGroup uuid =>
    simp only [runWith, run, deleteGroupWith, PermissionRepository.deleteGroup, reindexACLWith_updateOrderIndex]
  | appendACE | insertACE | removeACE | clearNodeACL => rfl

/-! ### Moves to free keys -/

/-- The selected rows move to distinct keys that no row has. -/
structure FreeMoves (sel : PermissionRow → Bool) (set : Int → Int) (rows : List PermissionRow) : Prop where
  fresh : ∀ row ∈ rows, sel row → ∀ row' ∈ rows, (row.setOrderIndex set).key ≠ row'.key
  distinct : ((rows.filter sel).map fun row => (row.setOrderIndex set).key).Nodup

/-- The UPDATE succeeds where the moves are free, and rewrites the selected rows. -/
def RowByRow (update : Update) : Prop :=
  ∀ sel set (db : Db), FreeMoves sel set db.permissions → update sel set db = .ok (db.permissions.countP sel)
    { db with permissions := Table.rewrite sel (PermissionRow.setOrderIndex set) db.permissions }

theorem rowByRow_updateOrderIndex : RowByRow updateOrderIndex := by
  intro sel set db h
  have hupdate : Table.update PermissionRow.key sel (fun row => { row with orderIndex := set row.orderIndex })
      db.permissions = some _ := Table.update_of_fresh h.fresh h.distinct
  unfold updateOrderIndex
  rw [hupdate]
  rfl

theorem rowByRow_updateOrderIndexIn (order : RowOrder) : RowByRow (updateOrderIndexIn order) := by
  intro sel set db h
  unfold updateOrderIndexIn
  rw [Table.visit_of_fresh (order.perm _) h.fresh h.distinct]

/-- An UPDATE of the rows of a node is free when it moves them to distinct values that are not in use. -/
theorem freeMoves_of_entries {db : Db} {node : String} {p : Int → Bool} {sel : PermissionRow → Bool}
    {set : Int → Int} (hsel : ∀ row, sel row = (row.node == node && p row.orderIndex))
    (hnd : ((entriesAt db node).map Prod.fst).Nodup)
    (hfresh : ∀ x ∈ entriesAt db node, p x.1 → ∀ y ∈ entriesAt db node, set x.1 ≠ y.1)
    (hinj : ∀ i j, p i → p j → set i = set j → i = j) : FreeMoves sel set db.permissions := by
  have hsel' : ∀ row, sel row = true ↔ row.node = node ∧ p row.orderIndex = true := by
    intro row
    rw [hsel, Bool.and_eq_true, beq_iff_eq]
  constructor
  · intro row hrow hs row' hrow' hkey
    obtain ⟨hnode, hp⟩ := (hsel' row).1 hs
    obtain ⟨hnode', hindex⟩ := Prod.mk.inj hkey
    exact hfresh _ (entry_mem_entriesAt hrow hnode) hp _ (entry_mem_entriesAt hrow' (hnode'.symm.trans hnode)) hindex
  · -- the selected rows are rows of the node, and those have distinct values
    have hfilter : db.permissions.filter sel = (nodeRows db node).filter fun row => p row.orderIndex := by
      unfold nodeRows
      rw [List.filter_filter]
      exact List.filter_congr fun row _ => by rw [hsel, Bool.and_comm]
    have hrows : ((nodeRows db node).map PermissionRow.orderIndex).Nodup := by
      rw [entriesAt, List.map_map] at hnd
      exact hnd
    rw [hfilter, List.Nodup, List.pairwise_map]
    refine ((List.pairwise_map.1 hrows).filter _).imp_of_mem fun {a b} ha hb hne hkey => hne ?_
    exact hinj _ _ (by simpa using (List.mem_filter.1 ha).2) (by simpa using (List.mem_filter.1 hb).2)
      (Prod.mk.inj hkey).2

end BakaPerms
