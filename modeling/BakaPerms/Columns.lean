import BakaPerms.Listings

/-!
# Columns

`Database/DbTypes.hpp` and the two functions of `SQLiteDatabase` that take values to SQLite and back.  SQLite keeps an
integer in 64 bits, the code reads it as an `int` by a cast that drops the upper half, and the other models take it as
an `Int`.  Here the queries of the repository are decoded column by column, as the code does it: on rows whose integers
fit an `int` no column is read with the wrong type or index, and the result is that of the model (`Columns.agrees`).
-/

namespace BakaPerms

open PermissionRepository

/-- What a column holds, by its storage class. -/
inductive SqliteValue
  | integer (v : Int64)
  | float (v : Float)
  | text (v : String)
  | blob
  | null

inductive DbValue
  | null
  | int (v : Int32)
  | int64 (v : Int64)
  | double (v : Float)
  | text (v : String)

/-- What can go wrong where columns are read and integers are computed. -/
inductive Fault
  | thrown (e : Exn)
  | badIndex
  | badVariantAccess
  | overflow

structure Row where
  columns : List DbValue

namespace SQLiteDatabase

def bindParam : DbValue → SqliteValue
  | .null => .null
  | .int v => .integer v.toInt64
  | .int64 v => .integer v
  | .double v => .float v
  | .text v => .text v

def extractColumn : SqliteValue → DbValue
  | .integer v => .int64 v
  | .float v => .double v
  | .text v => .text v
  -- the `default` of the switch
  | .blob | .null => .null

def extractRow (columns : List SqliteValue) : Row := ⟨columns.map extractColumn⟩

end SQLiteDatabase

open SQLiteDatabase

namespace Row

/-- `columns_.at(index)`. -/
def column (row : Row) (index : Nat) : Except Fault DbValue :=
  match row.columns[index]? with
  | some v => .ok v
  | none => .error .badIndex

def getInt (row : Row) (index : Nat) : Except Fault Int32 := do
  match ← row.column index with
  | .int v => return v
  | .int64 v => return v.toInt32
  | _ => throw .badVariantAccess

def getString (row : Row) (index : Nat) : Except Fault String := do
  match ← row.column index with
  | .text v => return v
  | _ => throw .badVariantAccess

def isNull (row : Row) (index : Nat) : Except Fault Bool := do
  match ← row.column index with
  | .null => return true
  | _ => return false

end Row

/-! ### Integers -/

/-- The value of an `INTEGER` column. -/
def integer (v : Int) : SqliteValue := .integer (Int64.ofInt v)

/-- The value is one of an `int`. -/
def FitsInt (v : Int) : Prop := -2 ^ 31 ≤ v ∧ v < 2 ^ 31

theorem FitsInt.toInt_ofInt {v : Int} (h : FitsInt v) : (Int32.ofInt v).toInt = v :=
  Int32.toInt_ofInt_of_le h.1 h.2

/-- An integer that is written and read again, as an `int` or from the result of an expression. -/
theorem getInt_integer (v : Int) (columns : List SqliteValue) {index : Nat}
    (h : columns[index]? = some (integer v)) : (extractRow columns).getInt index = .ok (Int32.ofInt v) := by
  have hcolumn : (extractRow columns).columns[index]? = some (.int64 (Int64.ofInt v)) := by
    show (columns.map extractColumn)[index]? = _
    rw [List.getElem?_map, h]
    rfl
  unfold Row.getInt Row.column
  rw [hcolumn]
  exact congrArg Except.ok (Int64.toInt32_ofInt ..)

theorem getString_text (v : String) (columns : List SqliteValue) {index : Nat}
    (h : columns[index]? = some (.text v)) : (extractRow columns).getString index = .ok v := by
  have hcolumn : (extractRow columns).columns[index]? = some (.text v) := by
    show (columns.map extractColumn)[index]? = _
    rw [List.getElem?_map, h]
    rfl
  unfold Row.getString Row.column
  rw [hcolumn]
  rfl

/-! ### The rows of the tables -/

def GroupRow.columns (row : GroupRow) : List SqliteValue :=
  [.text row.uuid, .text row.name, row.parentUuid.elim .null .text]

/-- `order_index, subject_uuid, subject_type, access_mask`. -/
def PermissionRow.aceColumns (row : PermissionRow) : List SqliteValue :=
  [integer row.orderIndex, .text row.subjectUuid, integer row.subjectType, integer row.accessMask]

def PermissionRow.nodeACEColumns (row : PermissionRow) : List SqliteValue := .text row.node :: row.aceColumns

/-- The integers of the row. -/
structure PermissionRow.Fits (row : PermissionRow) : Prop where
  orderIndex : FitsInt row.orderIndex
  subjectType : FitsInt row.subjectType
  accessMask : FitsInt row.accessMask

namespace Columns

def rowToGroupInfo (row : Row) : Except Fault GroupInfo := do
  let uuid ← row.getString 0
  let name ← row.getString 1
  let parentUuid ← if ← row.isNull 2 then pure none else some <$> row.getString 2
  return ⟨uuid, name, parentUuid⟩

/-- The ACE in four columns from the given one on. -/
def readACE (row : Row) (first : Nat) : Except Fault ACE := do
  let orderIndex ← row.getInt first
  let subjectUuid ← row.getString (first + 1)
  let subjectType ← row.getInt (first + 2)
  let value ← row.getInt (first + 3)
  let mask ← (toAccessMask value.toInt).mapError .thrown
  return ⟨orderIndex.toInt, subjectUuid, subjectType.toInt, mask⟩

def rowToACE (row : Row) : Except Fault ACE := readACE row 0

theorem rowToGroupInfo_columns (row : GroupRow) :
    rowToGroupInfo (extractRow row.columns) = .ok (BakaPerms.rowToGroupInfo row) := by
  obtain ⟨uuid, name, parentUuid⟩ := row
  cases parentUuid with
  | none => rfl
  | some parent => rfl

/-- The integers of the columns are narrowed to `int`s. -/
theorem readACE_narrow {row : PermissionRow} {columns : List SqliteValue} {first : Nat}
    (hcolumns : columns.drop first = row.aceColumns) :
    readACE (extractRow columns) first = (toAccessMask (Int32.ofInt row.accessMask).toInt).mapError .thrown >>=
      fun mask => .ok ⟨(Int32.ofInt row.orderIndex).toInt, row.subjectUuid, (Int32.ofInt row.subjectType).toInt,
        mask⟩ := by
  have hget (k : Nat) : columns[first + k]? = row.aceColumns[k]? := by
    rw [← hcolumns, List.getElem?_drop]
  unfold readACE
  rw [getInt_integer row.orderIndex columns (show columns[first]? = _ from hget 0),
    getString_text row.subjectUuid columns (hget 1), getInt_integer row.subjectType columns (hget 2),
    getInt_integer row.accessMask columns (hget 3)]
  rfl

theorem readACE_columns {row : PermissionRow} (h : row.Fits) {columns : List SqliteValue} {first : Nat}
    (hcolumns : columns.drop first = row.aceColumns) :
    readACE (extractRow columns) first = (BakaPerms.rowToACE row).mapError .thrown := by
  rw [readACE_narrow hcolumns, h.orderIndex.toInt_ofInt, h.subjectType.toInt_ofInt, h.accessMask.toInt_ofInt]
  unfold BakaPerms.rowToACE
  cases toAccessMask row.accessMask with
  | ok mask => rfl
  | error e => rfl

/-! ### The queries -/

def getGroup (db : Db) (uuid : String) : Except Fault (Option GroupInfo) :=
  (db.groups.find? fun row => row.uuid == uuid).mapM fun row => rowToGroupInfo (extractRow row.columns)

def getGroupByName (db : Db) (name : String) : Except Fault (Option GroupInfo) :=
  (db.groups.find? fun row => row.name == name).mapM fun row => rowToGroupInfo (extractRow row.columns)

def getAllGroups (db : Db) : Except Fault (List GroupInfo) :=
  (db.groups.insertionSort fun a b => a.name ≤ b.name).mapM fun row => rowToGroupInfo (extractRow row.columns)

def getPlayerGroups (db : Db) (playerUuid : String) : Except Fault (List GroupInfo) :=
  ((playerGroupRows db playerUuid).insertionSort fun a b => a.name ≤ b.name).mapM fun row =>
    rowToGroupInfo (extractRow row.columns)

def getGroupMembers (db : Db) (groupUuid : String) : Except Fault (List String) :=
  (((db.playerGroups.filter fun pg => pg.groupUuid == groupUuid).map PlayerGroupRow.playerUuid).insertionSort
    (· ≤ ·)).mapM fun playerUuid => (extractRow [.text playerUuid]).getString 0

def getGroupAncestry (db : Db) (groupUuid : String) : Except Fault (List GroupInfo) := do
  let start := db.groups.filter fun g => g.uuid == groupUuid
  let rows := (ancestryRows db.groups maxDepth 0 start).insertionSort fun a b => a.2 ≤ b.2
  let infos ← rows.mapM fun row => rowToGroupInfo (extractRow row.1.columns)
  return Chain.takeDistinct GroupInfo.uuid [] infos

def getNodeACL (db : Db) (node : String) : Except Fault (List ACE) :=
  ((nodeRows db node).insertionSort fun a b => a.orderIndex ≤ b.orderIndex).mapM fun row =>
    rowToACE (extractRow row.aceColumns)

def getSubjectACEs (db : Db) (subjectUuid : String) : Except Fault (List NodeACE) :=
  let rows := db.permissions.filter fun row => row.subjectUuid == subjectUuid
  (rows.insertionSort fun a b => toLex a.key ≤ toLex b.key).mapM fun row => do
    let node ← (extractRow row.nodeACEColumns).getString 0
    let ace ← readACE (extractRow row.nodeACEColumns) 1
    return ⟨node, ace⟩

def pushACE (result : AclMap) (row : Row) : Except Fault AclMap := do
  let node ← row.getString 0
  let ace ← readACE row 1
  return Function.update result node (some ((result node).getD [] ++ [ace]))

def getNodeACLBatch (db : Db) (nodes : List String) : Except Fault AclMap :=
  if nodes = [] then .ok fun _ => none
  else
    let rows := db.permissions.filter fun row => decide (row.node ∈ nodes)
    (rows.insertionSort fun a b => toLex a.key ≤ toLex b.key).foldlM
      (fun result row => pushACE result (extractRow row.nodeACEColumns)) fun _ => none

/-! ### The queries agree with the model -/

theorem mapM_ok {α β : Type} {f : α → Except Fault β} {g : α → β} (h : ∀ x, f x = .ok (g x)) (xs : List α) :
    xs.mapM f = .ok (xs.map g) := by
  induction xs with
  | nil => rfl
  | cons x xs ih =>
    rw [List.mapM_cons, h x, ih]
    rfl

theorem option_mapM_ok {α β : Type} {f : α → Except Fault β} {g : α → β} (h : ∀ x, f x = .ok (g x)) (x : Option α) :
    x.mapM f = .ok (x.map g) := by
  cases x with
  | none => rfl
  | some x =>
    rw [Option.mapM_some, h x]
    rfl

theorem mapM_mapError {α β : Type} {f : α → Except Fault β} {g : α → Except Exn β} {xs : List α}
    (h : ∀ x ∈ xs, f x = (g x).mapError .thrown) : xs.mapM f = (xs.mapM g).mapError .thrown := by
  induction xs with
  | nil => rfl
  | cons x xs ih =>
    rw [List.mapM_cons, List.mapM_cons, h x (List.mem_cons_self ..), ih fun y hy => h y (List.mem_cons_of_mem _ hy)]
    cases g x with
    | error e => rfl
    | ok y => cases xs.mapM g <;> rfl

theorem foldlM_mapError {α β : Type} {f : β → α → Except Fault β} {g : β → α → Except Exn β} {xs : List α}
    (h : ∀ b, ∀ x ∈ xs, f b x = (g b x).mapError .thrown) (b : β) :
    xs.foldlM f b = (xs.foldlM g b).mapError .thrown := by
  induction xs generalizing b with
  | nil => rfl
  | cons x xs ih =>
    rw [List.foldlM_cons, List.foldlM_cons, h b x (List.mem_cons_self ..)]
    cases g b x with
    | error e => rfl
    | ok b' => exact ih (fun b y hy => h b y (List.mem_cons_of_mem _ hy)) b'

/-- Every query of the repository, decoded from its columns, is the query of the model. -/
structure Agrees (db : Db) : Prop where
  group : ∀ uuid, getGroup db uuid = .ok (PermissionRepository.getGroup db uuid)
  groupByName : ∀ name, getGroupByName db name = .ok (PermissionRepository.getGroupByName db name)
  allGroups : getAllGroups db = .ok (PermissionRepository.getAllGroups db)
  playerGroups : ∀ playerUuid, getPlayerGroups db playerUuid = .ok (PermissionRepository.getPlayerGroups db playerUuid)
  groupMembers : ∀ groupUuid, getGroupMembers db groupUuid = .ok (PermissionRepository.getGroupMembers db groupUuid)
  groupAncestry : ∀ groupUuid,
    getGroupAncestry db groupUuid = .ok (PermissionRepository.getGroupAncestry db groupUuid)
  nodeACL : ∀ node, getNodeACL db node = (PermissionRepository.getNodeACL db node).mapError .thrown
  subjectACEs : ∀ subjectUuid,
    getSubjectACEs db subjectUuid = (PermissionRepository.getSubjectACEs db subjectUuid).mapError .thrown
  nodeACLBatch : ∀ nodes, getNodeACLBatch db nodes = (PermissionRepository.getNodeACLBatch db nodes).mapError .thrown

theorem getNodeACL_columns {db : Db} {node : String} (h : ∀ row ∈ db.permissions, row.node = node → row.Fits) :
    getNodeACL db node = (PermissionRepository.getNodeACL db node).mapError .thrown := by
  refine mapM_mapError fun row hrow => readACE_columns ?_ rfl
  obtain ⟨hmem, hnode⟩ := mem_sortedRows.1 hrow
  exact h row hmem hnode

theorem getSubjectACEs_columns {db : Db} (h : ∀ row ∈ db.permissions, row.Fits) (subjectUuid : String) :
    getSubjectACEs db subjectUuid = (PermissionRepository.getSubjectACEs db subjectUuid).mapError .thrown := by
  refine mapM_mapError fun row hrow => ?_
  have hfits := h row (mem_subjectRows.1 hrow).1
  rw [getString_text row.node row.nodeACEColumns rfl, readACE_columns hfits rfl]
  cases BakaPerms.rowToACE row with
  | ok ace => rfl
  | error e => rfl

theorem getNodeACLBatch_columns {db : Db} (h : ∀ row ∈ db.permissions, row.Fits) (nodes : List String) :
    getNodeACLBatch db nodes = (PermissionRepository.getNodeACLBatch db nodes).mapError .thrown := by
  unfold getNodeACLBatch PermissionRepository.getNodeACLBatch
  by_cases hnodes : nodes = []
  · rw [if_pos hnodes, if_pos hnodes]
    rfl
  · rw [if_neg hnodes, if_neg hnodes]
    refine foldlM_mapError (fun result row hrow => ?_) _
    have hfits := h row (List.mem_of_mem_filter ((List.mem_insertionSort _).1 hrow))
    unfold pushACE PermissionRepository.pushACE
    rw [getString_text row.node row.nodeACEColumns rfl]
    simp only [bind, Except.bind]
    rw [readACE_columns hfits rfl]
    cases BakaPerms.rowToACE row with
    | ok ace => rfl
    | error e => rfl

theorem agrees {db : Db} (h : ∀ row ∈ db.permissions, row.Fits) : Agrees db where
  group _ := option_mapM_ok rowToGroupInfo_columns _
  groupByName _ := option_mapM_ok rowToGroupInfo_columns _
  allGroups := mapM_ok rowToGroupInfo_columns _
  playerGroups _ := mapM_ok rowToGroupInfo_columns _
  groupMembers _ := (mapM_ok (fun playerUuid : String => getString_text playerUuid _ rfl) _).trans
    (congrArg Except.ok (List.map_id _))
  groupAncestry groupUuid := by
    unfold getGroupAncestry PermissionRepository.getGroupAncestry
    dsimp only
    rw [mapM_ok (g := fun row : GroupRow × Nat => BakaPerms.rowToGroupInfo row.1)
      fun row => rowToGroupInfo_columns row.1]
    rfl
  nodeACL _ := getNodeACL_columns fun row hrow _ => h row hrow
  subjectACEs := getSubjectACEs_columns h
  nodeACLBatch := getNodeACLBatch_columns h

end Columns

end BakaPerms
