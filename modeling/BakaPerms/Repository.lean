import BakaPerms.Database
import BakaPerms.Lib.Chain
import Mathlib.Data.Prod.Lex
import Mathlib.Data.List.Dedup
import Mathlib.Data.String.Basic

/-!
# The repository

`Data/PermissionRepository.cpp`.  Operations that only read are functions of the database, the others are `DbM`
computations.  `ORDER BY` is `List.insertionSort` on the ordering columns, and `now` is the value of
`datetime('now')` that a new row gets.
-/

namespace BakaPerms

def toAccessMask (value : Int) : Except Exn AccessMask :=
  if value = AccessMask.deny.toInt then .ok .deny
  else if value = AccessMask.allow.toInt then .ok .allow
  else .error (.outOfRange s!"Invalid access_mask value in database: {value}")

def rowToGroupInfo (row : GroupRow) : GroupInfo := ⟨row.uuid, row.name, row.parentUuid⟩

def rowToACE (row : PermissionRow) : Except Exn ACE := do
  let mask ← toAccessMask row.accessMask
  return ⟨row.orderIndex, row.subjectUuid, row.subjectType, mask⟩

namespace PermissionRepository

/-! ### Groups and membership -/

def createGroup (uuid name : String) (parentUuid : Option String) : DbM Unit :=
  insertGroup ⟨uuid, name, parentUuid⟩

def setGroupParent (uuid : String) (parentUuid : Option String) : DbM Unit :=
  updateGroupParent uuid parentUuid

def getGroup (db : Db) (uuid : String) : Option GroupInfo :=
  (db.groups.find? fun row => row.uuid == uuid).map rowToGroupInfo

def getGroupByName (db : Db) (name : String) : Option GroupInfo :=
  (db.groups.find? fun row => row.name == name).map rowToGroupInfo

def getAllGroups (db : Db) : List GroupInfo :=
  (db.groups.insertionSort fun a b => a.name ≤ b.name).map rowToGroupInfo

def addPlayerToGroup (playerUuid groupUuid : String) : DbM Bool := do
  let changed ← insertPlayerGroup ⟨playerUuid, groupUuid⟩
  return decide (0 < changed)

def removePlayerFromGroup (playerUuid groupUuid : String) : DbM Bool := do
  let changed ← deletePlayerGroup ⟨playerUuid, groupUuid⟩
  return decide (0 < changed)

/-- The rows of `player_groups JOIN groups` for a player. -/
def playerGroupRows (db : Db) (playerUuid : String) : List GroupRow :=
  (db.playerGroups.filter fun pg => pg.playerUuid == playerUuid).flatMap fun pg =>
    db.groups.filter fun g => pg.groupUuid == g.uuid

def getPlayerGroups (db : Db) (playerUuid : String) : List GroupInfo :=
  ((playerGroupRows db playerUuid).insertionSort fun a b => a.name ≤ b.name).map rowToGroupInfo

/-- The query has no `ORDER BY`; SQLite answers it from the index of the primary key, which is sorted by
`player_uuid`. -/
def getGroupMembers (db : Db) (groupUuid : String) : List String :=
  ((db.playerGroups.filter fun pg => pg.groupUuid == groupUuid).map PlayerGroupRow.playerUuid).insertionSort (· ≤ ·)

/-! ### Ancestry -/

/-- The rows that the recursive part of the query adds for the rows of one depth. -/
def parentRows (groups : List GroupRow) (level : List GroupRow) : List GroupRow :=
  level.flatMap fun a => groups.filter fun g => some g.uuid == a.parentUuid

/-- The rows of the recursive query with their depth, from one depth on; `bound` levels may still be added. -/
def ancestryRows (groups : List GroupRow) : Nat → Nat → List GroupRow → List (GroupRow × Nat)
  | 0, depth, level => level.map (·, depth)
  | bound + 1, depth, level =>
    level.map (·, depth) ++ ancestryRows groups bound (depth + 1) (parentRows groups level)

/-- `WHERE a.depth < 32`. -/
def maxDepth : Nat := 32

def getGroupAncestry (db : Db) (groupUuid : String) : List GroupInfo :=
  let start := db.groups.filter fun g => g.uuid == groupUuid
  let rows := (ancestryRows db.groups maxDepth 0 start).insertionSort fun a b => a.2 ≤ b.2
  -- the loop over the rows stops at the first uuid it has visited
  Chain.takeDistinct GroupInfo.uuid [] (rows.map fun row => rowToGroupInfo row.1)

/-! ### ACL operations -/

def nodeRows (db : Db) (node : String) : List PermissionRow :=
  db.permissions.filter fun row => row.node == node

def getNodeACL (db : Db) (node : String) : Except Exn (List ACE) :=
  ((nodeRows db node).insertionSort fun a b => a.orderIndex ≤ b.orderIndex).mapM rowToACE

/-- `SELECT COALESCE(MAX(order_index), -1) + 1`. -/
def nextOrderIndex (db : Db) (node : String) : Int :=
  (((nodeRows db node).map PermissionRow.orderIndex).max?.getD (-1)) + 1

def appendACE (now node subjectUuid : String) (subjectType : Int) (mask : AccessMask) : DbM Unit :=
  withTransaction do
    let nextIndex ← query fun db => .ok (nextOrderIndex db node)
    insertPermission ⟨node, nextIndex, subjectUuid, subjectType, mask.toInt, now⟩

def insertACE (now node : String) (position : Int) (subjectUuid : String) (subjectType : Int)
    (mask : AccessMask) : DbM Unit :=
  withTransaction do
    let count ← query fun db => .ok (nodeRows db node).length
    if position < 0 ∨ position > count then
      throw (.outOfRange s!"ACE position {position} is out of range [0, {count}]")
    else
      -- by way of the negative numbers, so that no two rows share a number while the rows are rewritten
      let _ ← updateOrderIndex (fun row => row.node == node && decide (row.orderIndex ≥ position)) fun i => -(i + 1)
      let _ ← updateOrderIndex (fun row => row.node == node && decide (row.orderIndex < 0)) fun i => -i
      insertPermission ⟨node, position, subjectUuid, subjectType, mask.toInt, now⟩

def removeACE (node : String) (orderIndex : Int) : DbM Unit :=
  withTransaction do
    let affected ← deletePermissions fun row => row.node == node && row.orderIndex == orderIndex
    if affected = 0 then
      throw (.outOfRange s!"No ACE found at position {orderIndex} on node '{node}'")
    else
      let _ ← updateOrderIndex (fun row => row.node == node && decide (row.orderIndex > orderIndex)) fun i => -i
      let _ ← updateOrderIndex (fun row => row.node == node && decide (row.orderIndex < 0)) fun i => -i - 1

/-- The loop of `writeACL` from index `i` on. -/
def writeACLFrom (node : String) (i : Int) : List ACE → DbM Unit
  | [] => pure ()
  | ace :: acl => do
    -- `writeACL` has moved the row of the entry to this number
    let _ ← updateOrderIndex (fun row => row.node == node && row.orderIndex == -(ace.orderIndex + 1)) fun _ => i
    writeACLFrom node (i + 1) acl

def writeACL (node : String) (acl : List ACE) : DbM Unit := do
  let _ ← updateOrderIndex (fun row => row.node == node) fun i => -(i + 1)
  writeACLFrom node 0 acl

def reindexACL (node : String) : DbM Unit := do
  let acl ← query fun db => getNodeACL db node
  writeACL node acl

def moveACE (node : String) (fromIndex toIndex : Int) : DbM Unit :=
  if fromIndex = toIndex then pure ()
  else withTransaction do
    let acl ← query fun db => getNodeACL db node
    if h : fromIndex < 0 ∨ fromIndex ≥ acl.length ∨ toIndex < 0 ∨ toIndex ≥ acl.length then
      throw (.outOfRange
        s!"ACE move position out of range: from={fromIndex}, to={toIndex}, size={acl.length}")
    else
      let ace := acl.get ⟨fromIndex.toNat, by omega⟩
      writeACL node ((acl.eraseIdx fromIndex.toNat).insertIdx toIndex.toNat ace)

def clearNodeACL (node : String) : DbM Unit := do
  let _ ← deletePermissions fun row => row.node == node

def deleteGroup (uuid : String) : DbM Unit :=
  withTransaction do
    -- the nodes are read before their rows are gone
    let affectedRows ← query fun db =>
      .ok ((db.permissions.filter fun row => row.subjectUuid == uuid).map PermissionRow.node).dedup
    let _ ← deletePermissions fun row => row.subjectUuid == uuid
    deleteGroupRow uuid
    affectedRows.forM reindexACL

def getSubjectACEs (db : Db) (subjectUuid : String) : Except Exn (List NodeACE) :=
  let rows := db.permissions.filter fun row => row.subjectUuid == subjectUuid
  (rows.insertionSort fun a b => toLex a.key ≤ toLex b.key).mapM fun row => do
    return ⟨row.node, ← rowToACE row⟩

/-- The map that the loop of `getNodeACLBatch` fills. -/
abbrev AclMap := String → Option (List ACE)

def pushACE (result : AclMap) (row : PermissionRow) : Except Exn AclMap := do
  let ace ← rowToACE row
  return Function.update result row.node (some ((result row.node).getD [] ++ [ace]))

def getNodeACLBatch (db : Db) (nodes : List String) : Except Exn AclMap :=
  if nodes = [] then .ok fun _ => none
  else
    let rows := db.permissions.filter fun row => decide (row.node ∈ nodes)
    (rows.insertionSort fun a b => toLex a.key ≤ toLex b.key).foldlM pushACE fun _ => none

end PermissionRepository

end BakaPerms
