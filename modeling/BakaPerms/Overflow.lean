import BakaPerms.Columns
import BakaPerms.Reachability

/-!
# Machine integers

The operations of the ACL store with the integers of the code: positions, counts and loop counters are `int`s, what a
statement returns is narrowed to one, and an addition that leaves the `int`s is undefined.  As long as the lists of
the nodes have fewer than `2 ^ 31` entries none of this can be seen: over every run of calls the tables, the outcomes
and the queries are those of the model (`machine_run`).
-/

namespace BakaPerms

open Effect Numbering PermissionRepository SQLiteDatabase

instance FitsInt.decidable (v : Int) : Decidable (FitsInt v) := inferInstanceAs (Decidable (_ ∧ _))

abbrev MachineM := EStateM Fault Db

/-- What an `int` parameter is in a statement: the integer that `bindParam` binds. -/
def bound (v : Int32) : Int :=
  match bindParam (.int v) with
  | .integer w => w.toInt
  | _ => 0

@[simp] theorem bound_eq (v : Int32) : bound v = v.toInt := Int32.toInt_toInt64 v

@[simp] theorem toInt_ofInt_mask (mask : AccessMask) : (Int32.ofInt mask.toInt).toInt = mask.toInt := by
  cases mask <;> rfl

/-- A statement whose `int` parameters are `bound`; texts are bound as they are. -/
def statement {α : Type} (x : DbM α) : MachineM α := mapError Fault.thrown x

/-- `SQLiteDatabase::withTransaction`. -/
def transaction {α : Type} (fn : MachineM α) : MachineM α := fun db =>
  match fn db with
  | .ok a db' => .ok a db'
  | .error e _ => .error e db

/-- A query with the code that reads its rows. -/
def select {α : Type} (decode : Db → Except Fault α) : MachineM α := fun db =>
  match decode db with
  | .ok a => .ok a db
  | .error e => .error e db

/-- An aggregate, which has one row with one integer. -/
def queryInt (value : Db → Int) : MachineM Int32 := select fun db => (extractRow [integer (value db)]).getInt 0

/-- The result of an `int` computation. -/
def checked (v : Int) : MachineM Int32 := if FitsInt v then pure (Int32.ofInt v) else throw .overflow

namespace Machine

def appendACE (now node subjectUuid : String) (subjectType : Int32) (mask : AccessMask) : MachineM Unit :=
  transaction do
    let nextIndex ← queryInt fun db => nextOrderIndex db node
    statement (insertPermission
      ⟨node, bound nextIndex, subjectUuid, bound subjectType, bound (Int32.ofInt mask.toInt), now⟩)

def insertACE (now node : String) (position : Int32) (subjectUuid : String) (subjectType : Int32)
    (mask : AccessMask) : MachineM Unit :=
  transaction do
    let count ← queryInt fun db => (nodeRows db node).length
    if position < 0 ∨ position > count then
      throw (.thrown (.outOfRange s!"ACE position {position.toInt} is out of range [0, {count.toInt}]"))
    else
      let _ ← statement (updateOrderIndex
        (fun row => row.node == node && decide (row.orderIndex ≥ bound position)) fun i => -(i + 1))
      let _ ← statement (updateOrderIndex (fun row => row.node == node && decide (row.orderIndex < 0)) fun i => -i)
      statement (insertPermission
        ⟨node, bound position, subjectUuid, bound subjectType, bound (Int32.ofInt mask.toInt), now⟩)

def removeACE (node : String) (orderIndex : Int32) : MachineM Unit :=
  transaction do
    let changes ← statement (deletePermissions fun row => row.node == node && row.orderIndex == bound orderIndex)
    let affected := Int32.ofNat changes
    if affected = 0 then
      throw (.thrown (.outOfRange s!"No ACE found at position {orderIndex.toInt} on node '{node}'"))
    else
      let _ ← statement (updateOrderIndex
        (fun row => row.node == node && decide (row.orderIndex > bound orderIndex)) fun i => -i)
      let _ ← statement (updateOrderIndex
        (fun row => row.node == node && decide (row.orderIndex < 0)) fun i => -i - 1)

/-- The UPDATE in the loop of `writeACL`, with the number of rewritten rows. -/
def rewriteACE (node : String) (i : Int32) (ace : ACE) : MachineM Nat := do
  let next ← checked (ace.orderIndex + 1)
  let orderIndex ← checked (-next.toInt)
  statement (updateOrderIndex (fun row => row.node == node && row.orderIndex == bound orderIndex) fun _ => bound i)

/-- The loop of `writeACL` from index `i` on, with the entries from there on. -/
def writeACLFrom (node : String) (size i : Int32) : List ACE → MachineM Unit
  -- `size` is the length or less, so the loop has ended
  | [] => pure ()
  | ace :: acl =>
    if i < size then do
      let _ ← rewriteACE node i ace
      let i' ← checked (i.toInt + 1)
      writeACLFrom node size i' acl
    else pure ()

def writeACL (node : String) (acl : List ACE) : MachineM Unit := do
  let _ ← statement (updateOrderIndex (fun row => row.node == node) fun i => -(i + 1))
  writeACLFrom node (Int32.ofNat acl.length) 0 acl

def reindexACL (node : String) : MachineM Unit := do
  let acl ← select fun db => Columns.getNodeACL db node
  writeACL node acl

def moveACE (node : String) (fromIndex toIndex : Int32) : MachineM Unit :=
  if fromIndex = toIndex then pure ()
  else transaction do
    let acl ← select fun db => Columns.getNodeACL db node
    let size := Int32.ofNat acl.length
    if fromIndex < 0 ∨ fromIndex ≥ size ∨ toIndex < 0 ∨ toIndex ≥ size then
      throw (.thrown (.outOfRange
        s!"ACE move position out of range: from={fromIndex.toInt}, to={toIndex.toInt}, size={acl.length}"))
    else
      match acl[fromIndex.toInt.toNat]? with
      | none => throw .badIndex
      | some ace => writeACL node ((acl.eraseIdx fromIndex.toInt.toNat).insertIdx toIndex.toInt.toNat ace)

def clearNodeACL (node : String) : MachineM Unit := statement (PermissionRepository.clearNodeACL node)

def deleteGroup (uuid : String) : MachineM Unit :=
  transaction do
    let affectedRows ← select fun db =>
      .ok (((db.permissions.filter fun row => row.subjectUuid == uuid).map PermissionRow.node).dedup.map
        fun node => extractRow [.text node])
    let _ ← statement (deletePermissions fun row => row.subjectUuid == uuid)
    statement (deleteGroupRow uuid)
    affectedRows.forM fun row => do
      let node ← select fun _ => row.getString 0
      reindexACL node

end Machine

/-! ### Values that fit -/

section Fits

variable {α β : Type} {db : Db}

theorem statement_bind (x : DbM α) (k : α → DbM β) :
    statement (x >>= k) = statement x >>= fun a => statement (k a) := mapError_bind x k

theorem transaction_of_eq {fn : MachineM α} {x : DbM α} (h : fn db = statement x db) :
    transaction fn db = statement (withTransaction x) db := by
  unfold transaction
  rw [h]
  cases hx : x db with
  | ok a db' =>
    have hcommit : withTransaction x db = .ok a db' := withTransaction_eq_ok.2 hx
    rw [statement, mapError_of_ok hx, statement, mapError_of_ok hcommit]
  | error e db' =>
    rw [statement, mapError_of_error hx, statement, mapError_of_error (withTransaction_of_error hx)]

theorem select_of_ok {decode : Db → Except Fault α} {a : α} (h : decode db = .ok a) :
    select decode db = .ok a db := by
  unfold select
  rw [h]

theorem select_of_eq {decode : Db → Except Fault α} {result : Db → Except Exn α}
    (h : decode db = (result db).mapError .thrown) : select decode db = statement (query result) db := by
  unfold select statement mapError query
  rw [h]
  cases result db <;> rfl

theorem checked_of_fits {v : Int} (h : FitsInt v) : checked v = pure (Int32.ofInt v) := if_pos h

/-- A sequence that starts with a query: what the code has read, and what it stands for in the model. -/
theorem select_bind {γ : Type} {decode : Db → Except Fault γ} {result : Db → Except Exn β} {c : γ} {b : β}
    (hdecode : decode db = .ok c) (hresult : result db = .ok b) {k : γ → MachineM α} {l : β → DbM α}
    (h : k c db = statement (l b) db) : (select decode >>= k) db = statement (query result >>= l) db := by
  have hquery : statement (query result) db = .ok b db := mapError_of_ok (query_eq_ok.2 ⟨hresult, rfl⟩)
  rw [bind_of_ok (select_of_ok hdecode), h, statement_bind, bind_of_ok hquery]

/-- A sequence that starts with an aggregate, which is a number that fits. -/
theorem queryInt_bind {value : Db → Int} (h : FitsInt (value db)) {result : Db → β} {k : Int32 → MachineM α}
    {l : β → DbM α} (hk : ∀ v : Int32, v.toInt = value db → k v db = statement (l (result db)) db) :
    (queryInt value >>= k) db = statement (query (fun db => .ok (result db)) >>= l) db :=
  select_bind (getInt_integer _ _ rfl) rfl (hk _ h.toInt_ofInt)

end Fits

/-! ### The operations on one node -/

/-- The integers of the entries are `int`s, and so are the next position and the number of the entries. -/
structure Small (s : List (Int × Payload)) : Prop where
  orderIndex : ∀ x ∈ s, 0 ≤ x.1 ∧ x.1 + 1 < 2 ^ 31
  subjectType : ∀ x ∈ s, FitsInt x.2.subjectType
  accessMask : ∀ x ∈ s, FitsInt x.2.accessMask
  length : s.length < 2 ^ 31

namespace Small

variable {db : Db} {node : String}

theorem sublist {s s' : List (Int × Payload)} (h : Small s) (hs : s'.Sublist s) : Small s' where
  orderIndex x hx := h.orderIndex x (hs.subset hx)
  subjectType x hx := h.subjectType x (hs.subset hx)
  accessMask x hx := h.accessMask x (hs.subset hx)
  length := Nat.lt_of_le_of_lt hs.length_le h.length

theorem fits (h : Small (entriesAt db node)) : ∀ row ∈ db.permissions, row.node = node → row.Fits := by
  intro row hrow hnode
  have hmem := entry_mem_entriesAt hrow hnode
  have hindex : 0 ≤ row.orderIndex ∧ row.orderIndex + 1 < 2 ^ 31 := h.orderIndex row.entry hmem
  exact ⟨⟨by omega, by omega⟩, h.subjectType row.entry hmem, h.accessMask row.entry hmem⟩

theorem length_nodeRows (h : Small (entriesAt db node)) : (nodeRows db node).length < 2 ^ 31 := by
  have hlength := h.length
  rwa [entriesAt, List.length_map] at hlength

theorem nextOrderIndex (h : Small (entriesAt db node)) : FitsInt (nextOrderIndex db node) := by
  unfold PermissionRepository.nextOrderIndex
  cases hmax : ((nodeRows db node).map PermissionRow.orderIndex).max? with
  | none => exact ⟨by decide, by decide⟩
  | some i =>
    obtain ⟨row, hrow, rfl⟩ := List.mem_map.1 (List.max?_mem hmax)
    have hindex : 0 ≤ row.orderIndex ∧ row.orderIndex + 1 < 2 ^ 31 :=
      h.orderIndex row.entry (List.mem_map_of_mem hrow)
    exact ⟨by simp only [Option.getD_some]; omega, hindex.2⟩

/-- The entries that `getNodeACL` lists, and how many they are. -/
theorem getNodeACL (h : Small (entriesAt db node)) {acl : List ACE} (hacl : getNodeACL db node = .ok acl) :
    (∀ ace ∈ acl, 0 ≤ ace.orderIndex ∧ ace.orderIndex + 1 < 2 ^ 31) ∧ acl.length < 2 ^ 31 := by
  have hindex := orderIndex_getNodeACL hacl
  constructor
  · intro ace hace
    have hmem : ace.orderIndex ∈ acl.map ACE.orderIndex := List.mem_map_of_mem hace
    rw [hindex] at hmem
    obtain ⟨x, hx, heq⟩ := List.mem_map.1 hmem
    rw [← heq]
    exact h.orderIndex x ((List.mem_insertionSort _).1 hx)
  · have hlen := congrArg List.length hindex
    rw [List.length_map, List.length_map, List.length_insertionSort] at hlen
    rw [hlen]
    exact h.length

end Small

namespace Machine

variable {db : Db} {node : String}

theorem appendACE_eq (h : Small (entriesAt db node)) (now subjectUuid : String) (subjectType : Int32)
    (mask : AccessMask) :
    appendACE now node subjectUuid subjectType mask db =
      statement (PermissionRepository.appendACE now node subjectUuid subjectType.toInt mask) db := by
  refine transaction_of_eq (queryInt_bind h.nextOrderIndex fun v hv => ?_)
  simp only [bound_eq, toInt_ofInt_mask, hv]

theorem insertACE_eq (h : Small (entriesAt db node)) (now : String) (position : Int32) (subjectUuid : String)
    (subjectType : Int32) (mask : AccessMask) :
    insertACE now node position subjectUuid subjectType mask db =
      statement (PermissionRepository.insertACE now node position.toInt subjectUuid subjectType.toInt mask) db := by
  have hlength := h.length_nodeRows
  refine transaction_of_eq (queryInt_bind ⟨by omega, by omega⟩ fun count hcount => ?_)
  have hcond : (position < 0 ∨ position > count) ↔
      (position.toInt < 0 ∨ position.toInt > (nodeRows db node).length) := by
    rw [← hcount]
    exact Iff.or Int32.lt_iff_toInt_lt Int32.lt_iff_toInt_lt
  by_cases hrange : position < 0 ∨ position > count
  · rw [if_pos hrange, if_pos (hcond.1 hrange), hcount]
    rfl
  · rw [if_neg hrange, if_neg (mt hcond.2 hrange)]
    simp only [statement_bind, bound_eq, toInt_ofInt_mask]

theorem removeACE_eq (h : Small (entriesAt db node)) (orderIndex : Int32) :
    removeACE node orderIndex db = statement (PermissionRepository.removeACE node orderIndex.toInt) db := by
  refine transaction_of_eq ?_
  simp only [bound_eq]
  rw [statement_bind]
  refine bind_congr rfl fun changes db' hchanges => ?_
  have hcount : changes ≤ (nodeRows db node).length := by
    cases hchanges
    rw [nodeRows, ← List.countP_eq_length_filter]
    exact List.countP_mono_left fun row _ hsel => (Bool.and_eq_true_iff.1 hsel).1
  have hlength := h.length_nodeRows
  have hzero : Int32.ofNat changes = 0 ↔ changes = 0 := by
    rw [← Int32.toInt_inj, Int32.toInt_ofNat_of_lt (by omega), Int32.toInt_zero]
    omega
  by_cases hnone : changes = 0
  · rw [if_pos (hzero.2 hnone), if_pos hnone]
    rfl
  · rw [if_neg fun h => hnone (hzero.1 h), if_neg hnone]
    simp only [statement_bind]
    rfl

/-- The UPDATE of an entry whose negated position is an `int`. -/
theorem rewriteACE_eq {ace : ACE} (hace : 0 ≤ ace.orderIndex ∧ ace.orderIndex + 1 < 2 ^ 31) (i : Int32) :
    rewriteACE node i ace = statement
      (updateOrderIndex (fun row => row.node == node && row.orderIndex == -(ace.orderIndex + 1)) fun _ => i.toInt) := by
  have hnext : FitsInt (ace.orderIndex + 1) := ⟨by omega, hace.2⟩
  have hnegated : FitsInt (-(ace.orderIndex + 1)) := ⟨by omega, by omega⟩
  rw [rewriteACE, checked_of_fits hnext, pure_bind, hnext.toInt_ofInt, checked_of_fits hnegated, pure_bind]
  simp only [bound_eq, hnegated.toInt_ofInt]

/-- The loop never leaves the `int`s when the positions do not. -/
theorem writeACLFrom_eq {acl : List ACE} (hacl : ∀ ace ∈ acl, 0 ≤ ace.orderIndex ∧ ace.orderIndex + 1 < 2 ^ 31)
    {size i : Int32} (hsize : size.toInt = i.toInt + acl.length) :
    writeACLFrom node size i acl = statement (PermissionRepository.writeACLFrom node i.toInt acl) := by
  induction acl generalizing i with
  | nil => rfl
  | cons ace acl ih =>
    have hmin := i.le_toInt
    have hmax := size.toInt_lt
    rw [List.length_cons] at hsize
    have hi : FitsInt (i.toInt + 1) := ⟨by omega, by omega⟩
    have hloop : i < size := Int32.lt_iff_toInt_lt.2 (by omega)
    rw [writeACLFrom, if_pos hloop, rewriteACE_eq (hacl ace (List.mem_cons_self ..)), checked_of_fits hi]
    simp only [pure_bind]
    rw [ih (fun a ha => hacl a (List.mem_cons_of_mem _ ha)) (by rw [hi.toInt_ofInt]; omega), hi.toInt_ofInt,
      PermissionRepository.writeACLFrom, statement_bind]

theorem writeACL_eq {acl : List ACE} (hacl : ∀ ace ∈ acl, 0 ≤ ace.orderIndex ∧ ace.orderIndex + 1 < 2 ^ 31)
    (hlength : acl.length < 2 ^ 31) : writeACL node acl = statement (PermissionRepository.writeACL node acl) := by
  have hsize : (Int32.ofNat acl.length).toInt = (0 : Int32).toInt + acl.length := by
    rw [Int32.toInt_ofNat_of_lt hlength, Int32.toInt_zero, Int.zero_add]
  rw [writeACL, writeACLFrom_eq hacl hsize, PermissionRepository.writeACL, statement_bind]
  rfl

/-- Reading the ACL of the node, and what is done with it. -/
theorem getNodeACL_bind (h : Small (entriesAt db node)) {k : List ACE → MachineM Unit} {l : List ACE → DbM Unit}
    (hk : ∀ acl, PermissionRepository.getNodeACL db node = .ok acl → k acl db = statement (l acl) db) :
    (select (fun db => Columns.getNodeACL db node) >>= k) db =
      statement (query (fun db => PermissionRepository.getNodeACL db node) >>= l) db := by
  rw [statement_bind]
  refine bind_congr (select_of_eq (Columns.getNodeACL_columns h.fits)) fun acl db' hacl => ?_
  obtain ⟨hread, rfl⟩ := query_eq_ok.1 (mapError_eq_ok.1 hacl)
  exact hk acl hread

theorem reindexACL_eq (h : Small (entriesAt db node)) :
    reindexACL node db = statement (PermissionRepository.reindexACL node) db := by
  refine getNodeACL_bind h fun acl hacl => ?_
  obtain ⟨hindex, hlength⟩ := h.getNodeACL hacl
  rw [writeACL_eq hindex hlength]

theorem moveACE_eq (h : Small (entriesAt db node)) (fromIndex toIndex : Int32) :
    moveACE node fromIndex toIndex db =
      statement (PermissionRepository.moveACE node fromIndex.toInt toIndex.toInt) db := by
  unfold moveACE PermissionRepository.moveACE
  by_cases hsame : fromIndex = toIndex
  · rw [if_pos hsame, if_pos (congrArg Int32.toInt hsame)]
    rfl
  · rw [if_neg hsame, if_neg fun h => hsame (Int32.toInt_inj.1 h)]
    refine transaction_of_eq (getNodeACL_bind h fun acl hacl => ?_)
    obtain ⟨hindex, hlength⟩ := h.getNodeACL hacl
    have hsize : (Int32.ofNat acl.length).toInt = acl.length := Int32.toInt_ofNat_of_lt hlength
    have hcond : (fromIndex < 0 ∨ fromIndex ≥ Int32.ofNat acl.length ∨ toIndex < 0 ∨
        toIndex ≥ Int32.ofNat acl.length) ↔ (fromIndex.toInt < 0 ∨ fromIndex.toInt ≥ acl.length ∨
        toIndex.toInt < 0 ∨ toIndex.toInt ≥ acl.length) := by
      simp only [ge_iff_le, Int32.lt_iff_toInt_lt, Int32.le_iff_toInt_le, hsize, Int32.toInt_zero]
    dsimp only
    by_cases hrange : fromIndex < 0 ∨ fromIndex ≥ Int32.ofNat acl.length ∨ toIndex < 0 ∨
        toIndex ≥ Int32.ofNat acl.length
    · rw [if_pos hrange, dif_pos (hcond.1 hrange)]
      rfl
    · have hrange' := mt hcond.2 hrange
      rw [if_neg hrange, dif_neg hrange']
      have hfrom : fromIndex.toInt.toNat < acl.length := by omega
      have hto : toIndex.toInt.toNat < acl.length := by omega
      rw [List.getElem?_eq_getElem hfrom]
      dsimp only
      have hperm := moveElem_perm acl hfrom hto
      rw [moveElem_of_lt hfrom] at hperm
      rw [writeACL_eq (fun ace hace => hindex ace (hperm.subset hace)) (hperm.length_eq ▸ hlength)]
      rfl

/-- The loop of `deleteGroup`; reindexing a node leaves the rows of the others alone. -/
theorem forM_reindexACL_eq {nodes : List String} (hnodup : nodes.Nodup)
    (h : ∀ node ∈ nodes, Small (entriesAt db node)) :
    ((nodes.map fun node => extractRow [.text node]).forM fun row => do
      let node ← select fun _ => row.getString 0
      reindexACL node) db = statement (nodes.forM PermissionRepository.reindexACL) db := by
  induction nodes generalizing db with
  | nil => rfl
  | cons node nodes ih =>
    obtain ⟨hnode, hnodup⟩ := List.nodup_cons.1 hnodup
    have hfirst := h node (List.mem_cons_self ..)
    show ((select (fun _ => (extractRow [.text node]).getString 0) >>= reindexACL) >>= fun _ => _) db =
      statement (PermissionRepository.reindexACL node >>= fun _ => nodes.forM PermissionRepository.reindexACL) db
    rw [statement_bind]
    refine bind_congr (reindexACL_eq hfirst) fun _ db' hdb' => ih hnodup fun k hk => ?_
    obtain ⟨acl, db₀, hread, hwrite⟩ := bind_eq_ok.1 (mapError_eq_ok.1 hdb')
    obtain ⟨-, rfl⟩ := query_eq_ok.1 hread
    have hne : k ≠ node := by
      rintro rfl
      exact hnode hk
    rw [entriesAt_writeACL hwrite, Function.update_of_ne hne]
    exact h k (List.mem_cons_of_mem _ hk)

theorem deleteGroup_eq (h : ∀ node, Small (entriesAt db node)) (uuid : String) :
    deleteGroup uuid db = statement (PermissionRepository.deleteGroup uuid) db := by
  refine transaction_of_eq ?_
  refine select_bind (by rfl) (by rfl) ?_
  simp only [statement_bind]
  refine bind_congr rfl fun _ db₁ hdelete => bind_congr rfl fun _ db₂ hgroup => ?_
  obtain ⟨-, rfl⟩ := deletePermissions_ok (mapError_eq_ok.1 hdelete)
  have hperm : db₂.permissions = Table.delete (fun row => row.subjectUuid == uuid) db.permissions := by
    cases mapError_eq_ok.1 hgroup
    rfl
  refine forM_reindexACL_eq (List.nodup_dedup _) fun node _ => ?_
  rw [entriesAt_deleteSubject hperm]
  exact (h node).sublist List.filter_sublist

end Machine

/-! ### Runs -/

/-- The `int` arguments are `int`s. -/
def AclOp.Fits : AclOp → Prop
  | appendACE _ _ _ subjectType _ => FitsInt subjectType
  | insertACE _ _ position _ subjectType _ => FitsInt position ∧ FitsInt subjectType
  | removeACE _ position => FitsInt position
  | moveACE _ fromIndex toIndex => FitsInt fromIndex ∧ FitsInt toIndex
  | clearNodeACL _ | deleteGroup _ => True

instance AclOp.decidableFits : (op : AclOp) → Decidable op.Fits
  | appendACE _ _ _ subjectType _ => FitsInt.decidable subjectType
  | insertACE _ _ position _ subjectType _ => inferInstanceAs (Decidable (FitsInt position ∧ FitsInt subjectType))
  | removeACE _ position => FitsInt.decidable position
  | moveACE _ fromIndex toIndex => inferInstanceAs (Decidable (FitsInt fromIndex ∧ FitsInt toIndex))
  | clearNodeACL _ | deleteGroup _ => instDecidableTrue

def AclOp.machine : AclOp → MachineM Unit
  | appendACE now node subjectUuid subjectType mask =>
    Machine.appendACE now node subjectUuid (Int32.ofInt subjectType) mask
  | insertACE now node position subjectUuid subjectType mask =>
    Machine.insertACE now node (Int32.ofInt position) subjectUuid (Int32.ofInt subjectType) mask
  | removeACE node position => Machine.removeACE node (Int32.ofInt position)
  | moveACE node fromIndex toIndex => Machine.moveACE node (Int32.ofInt fromIndex) (Int32.ofInt toIndex)
  | clearNodeACL node => Machine.clearNodeACL node
  | deleteGroup uuid => Machine.deleteGroup uuid

theorem AclOp.machine_eq {op : AclOp} (hop : op.Fits) {db : Db} (h : ∀ node, Small (entriesAt db node)) :
    op.machine db = statement op.run db := by
  cases op with
  | appendACE now node subjectUuid subjectType mask =>
    have heq := Machine.appendACE_eq (h node) now subjectUuid (Int32.ofInt subjectType) mask
    rwa [FitsInt.toInt_ofInt hop] at heq
  | insertACE now node position subjectUuid subjectType mask =>
    have heq := Machine.insertACE_eq (h node) now (Int32.ofInt position) subjectUuid (Int32.ofInt subjectType) mask
    rwa [FitsInt.toInt_ofInt hop.1, FitsInt.toInt_ofInt hop.2] at heq
  | removeACE node position =>
    have heq := Machine.removeACE_eq (h node) (Int32.ofInt position)
    rwa [FitsInt.toInt_ofInt hop] at heq
  | moveACE node fromIndex toIndex =>
    have heq := Machine.moveACE_eq (h node) (Int32.ofInt fromIndex) (Int32.ofInt toIndex)
    rwa [FitsInt.toInt_ofInt hop.1, FitsInt.toInt_ofInt hop.2] at heq
  | clearNodeACL node => rfl
  | deleteGroup uuid => exact Machine.deleteGroup_eq h uuid

theorem fitsInt_mask (mask : AccessMask) : FitsInt mask.toInt := by
  cases mask <;> decide

structure Payload.Fits (x : Payload) : Prop where
  subjectType : FitsInt x.subjectType
  accessMask : FitsInt x.accessMask

/-- The integers in the lists are `int`s, and no list has more than `n` entries. -/
structure Bounded (n : Nat) (acl : String → List Payload) : Prop where
  payload : ∀ node, ∀ x ∈ acl node, x.Fits
  length : ∀ node, (acl node).length ≤ n

namespace Bounded

variable {n : Nat} {acl : String → List Payload}

theorem update (h : Bounded n acl) {node : String} {l : List Payload} (hl : ∀ x ∈ l, x.Fits)
    (hlength : l.length ≤ n + 1) : Bounded (n + 1) (Function.update acl node l) := by
  constructor <;> intro k <;> by_cases hk : k = node
  · subst hk
    rwa [Function.update_self]
  · rw [Function.update_of_ne hk]
    exact h.payload k
  · subst hk
    rwa [Function.update_self]
  · rw [Function.update_of_ne hk]
    exact Nat.le_succ_of_le (h.length k)

/-- An operation makes a list longer by one at most. -/
theorem apply (h : Bounded n acl) {op : AclOp} (hop : op.Fits) {acl' : String → List Payload}
    (happly : op.apply acl = some acl') : Bounded (n + 1) acl' := by
  have hsame : Bounded (n + 1) acl := ⟨h.payload, fun node => Nat.le_succ_of_le (h.length node)⟩
  cases op with
  | appendACE now node subjectUuid subjectType mask =>
    cases happly
    refine h.update (fun x hx => ?_) ?_
    · rcases List.mem_append.1 hx with hx | hx
      · exact h.payload node x hx
      · rw [List.mem_singleton.1 hx]
        exact ⟨hop, fitsInt_mask mask⟩
    · rw [List.length_append]
      exact Nat.succ_le_succ (h.length node)
  | insertACE now node position subjectUuid subjectType mask =>
    obtain ⟨hrange, rfl⟩ := Option.ite_some_none_eq_some.1 happly
    refine h.update (fun x hx => ?_) ?_
    · rcases (List.mem_insertIdx (by omega)).1 hx with rfl | hx
      · exact ⟨hop.2, fitsInt_mask mask⟩
      · exact h.payload node x hx
    · exact (List.length_insertIdx_le_succ ..).trans (Nat.succ_le_succ (h.length node))
  | removeACE node position =>
    obtain ⟨-, rfl⟩ := Option.ite_some_none_eq_some.1 happly
    exact h.update (fun x hx => h.payload node x (List.mem_of_mem_eraseIdx hx))
      ((List.length_eraseIdx_le ..).trans (hsame.length node))
  | moveACE node fromIndex toIndex =>
    simp only [AclOp.apply] at happly
    split at happly
    · cases happly
      exact hsame
    · obtain ⟨hrange, rfl⟩ := Option.ite_some_none_eq_some.1 happly
      have hperm := moveElem_perm (acl node) (show fromIndex.toNat < _ by omega) (show toIndex.toNat < _ by omega)
      exact h.update (fun x hx => h.payload node x (hperm.subset hx)) (hperm.length_eq ▸ hsame.length node)
  | clearNodeACL node =>
    cases happly
    exact h.update (fun _ hx => absurd hx List.not_mem_nil) (Nat.zero_le _)
  | deleteGroup uuid =>
    cases happly
    exact ⟨fun node x hx => h.payload node x (List.mem_of_mem_filter hx),
      fun node => (List.length_filter_le _ _).trans (hsame.length node)⟩

theorem small (h : Bounded n acl) (hn : n < 2 ^ 31) {db : Db} (hacl : Represents db acl) (node : String) :
    Small (entriesAt db node) := by
  have hlength := h.length node
  have hpayload (x : Int × Payload) (hx : x ∈ entriesAt db node) : x.2.Fits := by
    have hmem : x.2 ∈ (number 0 (acl node)).map Prod.snd := List.mem_map_of_mem ((hacl node).subset hx)
    rw [map_snd_number] at hmem
    exact h.payload node x.2 hmem
  refine ⟨fun x hx => ?_, fun x hx => (hpayload x hx).subjectType, fun x hx => (hpayload x hx).accessMask, ?_⟩
  · have hbounds := (hacl node).bounds hx
    omega
  · rw [(hacl node).length_eq]
    omega

end Bounded

/-- The integers that the calls are given are `int`s. -/
def Call.Fits (call : Call) : Prop := ∀ op ∈ call.aclOp, op.Fits

instance Call.decidableFits (call : Call) : Decidable call.Fits :=
  inferInstanceAs (Decidable (∀ op ∈ call.aclOp, op.Fits))

/-- The tables after a call, with the integers of the code. -/
def Call.machineEffect (db : Db) (call : Call) : Db :=
  match call.aclOp with
  | some op => final op.machine db
  | none => call.effect db

theorem Call.machineEffect_eq {call : Call} (hcall : call.Fits) {db : Db} (h : ∀ node, Small (entriesAt db node)) :
    call.machineEffect db = call.effect db := by
  unfold Call.machineEffect
  cases hop : call.aclOp with
  | none => rfl
  | some op =>
    have heq : op.machine db = statement op.run db := AclOp.machine_eq (hcall op hop) h
    show final op.machine db = _
    rw [Call.effect_of_aclOp hop, final_congr heq, statement, final_mapError]

theorem Call.bounded_effect {call : Call} (hcall : call.Fits) {db : Db} {n : Nat} {acl : String → List Payload}
    (hacl : Represents db acl) (h : Bounded n acl) :
    ∃ acl', Represents (call.effect db) acl' ∧ Bounded (n + 1) acl' := by
  have hsame : Bounded (n + 1) acl := ⟨h.payload, fun node => Nat.le_succ_of_le (h.length node)⟩
  cases hop : call.aclOp with
  | none =>
    have hentries : entriesAt (call.effect db) = entriesAt db := by
      funext node
      unfold entriesAt nodeRows
      rw [Call.permissions_effect hop]
    exact ⟨acl, hacl.congr hentries, hsame⟩
  | some op =>
    rw [Call.effect_of_aclOp hop]
    cases hrun : op.run db with
    | ok a db' =>
      rw [final_of_ok hrun]
      obtain ⟨acl', happly, hacl'⟩ := AclOp.run_represents hacl hrun
      exact ⟨acl', hacl', h.apply (hcall op hop) happly⟩
    | error e db' =>
      rw [final_of_error hrun, op.atomic_run hrun]
      exact ⟨acl, hacl, hsame⟩

theorem machineRun_eq {m : PermissionManager} {n : Nat} {acl : String → List Payload} (hacl : Represents m.db acl)
    (h : Bounded n acl) {calls : List Call} (hcalls : ∀ call ∈ calls, call.Fits) (hn : n + calls.length < 2 ^ 31) :
    Run.run Call.machineEffect m.db calls = (runCalls m calls).db ∧
      ∀ node, Small (entriesAt (runCalls m calls).db node) := by
  induction calls generalizing m n acl with
  | nil => exact ⟨rfl, h.small hn hacl⟩
  | cons call calls ih =>
    rw [List.length_cons] at hn
    have hcall := hcalls call (List.mem_cons_self ..)
    have hstep : call.machineEffect m.db = (call.apply m).db :=
      (Call.machineEffect_eq hcall (h.small (by omega) hacl)).trans (Call.apply_db m call).symm
    obtain ⟨acl', hacl', h'⟩ := Call.bounded_effect hcall hacl h
    rw [← Call.apply_db] at hacl'
    show Run.run Call.machineEffect (call.machineEffect m.db) calls = (runCalls (call.apply m) calls).db ∧ _
    rw [hstep]
    exact ih hacl' h' (fun c hc => hcalls c (List.mem_cons_of_mem _ hc)) (by omega)

theorem bounded_of_sound {db : Db} (hdb : db.Sound) (htypes : ∀ row ∈ db.permissions, FitsInt row.subjectType)
    {n : Nat} (hlength : ∀ node, (nodeRows db node).length ≤ n) : Bounded n (aclAt db) where
  payload node x hx := by
    obtain ⟨row, hrow, rfl⟩ := List.mem_map.1 hx
    obtain ⟨hmem, -⟩ := mem_sortedRows.1 hrow
    obtain ⟨mask, hmask⟩ := hdb.masks row hmem
    refine ⟨htypes row hmem, ?_⟩
    show FitsInt row.accessMask
    rw [hmask]
    exact fitsInt_mask mask
  length node := by
    rw [aclAt, List.length_map, List.length_insertionSort]
    exact hlength node

/-- With lists of less than `2 ^ 31` entries the calls do what they do in the model, and the queries read what the
model says. -/
theorem machine_run {db : Db} (hdb : db.Sound) (htypes : ∀ row ∈ db.permissions, FitsInt row.subjectType)
    {calls : List Call} (hcalls : ∀ call ∈ calls, call.Fits)
    (hlength : ∀ node, (nodeRows db node).length + calls.length < 2 ^ 31) :
    Run.run Call.machineEffect db calls = (runCalls (.init db) calls).db ∧
      (∀ op : AclOp, op.Fits → op.machine (runCalls (.init db) calls).db =
        statement op.run (runCalls (.init db) calls).db) ∧
      Columns.Agrees (runCalls (.init db) calls).db := by
  obtain ⟨acl, hacl⟩ := hdb.numbered
  have hroom := hlength ""
  have hbounded : Bounded (2 ^ 31 - 1 - calls.length) (aclAt db) := bounded_of_sound hdb htypes fun node => by
    have := hlength node
    omega
  rw [hacl.aclAt_eq] at hbounded
  obtain ⟨htables, hsmall⟩ := machineRun_eq (m := .init db) hacl hbounded hcalls (by omega)
  refine ⟨htables, fun op hop => AclOp.machine_eq hop hsmall, Columns.agrees fun row hrow => ?_⟩
  exact (hsmall row.node).fits row hrow rfl

/-- An ACE inserted in front of another, moved behind it, and the group of one of them deleted. -/
def intCalls : List Call :=
  [.createGroup "g" "staff" none, .appendACE "t1" "a" "g" 1 .allow, .insertACE "t2" "a" 0 "p" 0 .deny,
    .moveACE "a" 0 1, .removeACE "a" (-1), .deleteGroup "g"]

theorem machine_run_sample :
    Run.run Call.machineEffect Db.empty intCalls = (runCalls (.init Db.empty) intCalls).db ∧
      (∀ op : AclOp, op.Fits → op.machine (runCalls (.init Db.empty) intCalls).db =
        statement op.run (runCalls (.init Db.empty) intCalls).db) ∧
      Columns.Agrees (runCalls (.init Db.empty) intCalls).db :=
  machine_run Db.sound_empty (fun row hrow => absurd hrow List.not_mem_nil) (by decide) fun node => by
    show 0 + intCalls.length < 2 ^ 31
    decide

end BakaPerms
