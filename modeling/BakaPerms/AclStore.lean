import BakaPerms.Lib.Numbering
import BakaPerms.Lib.Run
import BakaPerms.Repository

/-!
# The ACL store

What the permissions table is for: a map from nodes to lists of payloads, the positions in a list being the
`order_index` values.  `Represents db acl` says that the rows of every node are the entries of its list, numbered
`0, 1, 2, …`, in some arrangement.  Each operation of the repository that succeeds acts on the represented map as
its list operation (`AclOp.apply`); the operations go through states in which the numbering of a node is broken,
so each is traced through its statements on the entries of the one node it is about.
-/

namespace BakaPerms

open Effect Numbering PermissionRepository

/-- The columns of a row besides its place. -/
structure Payload where
  subjectUuid : String
  subjectType : Int
  accessMask : Int
  createdAt : String
  deriving DecidableEq, Repr

def PermissionRow.payload (row : PermissionRow) : Payload :=
  ⟨row.subjectUuid, row.subjectType, row.accessMask, row.createdAt⟩

def PermissionRow.entry (row : PermissionRow) : Int × Payload := (row.orderIndex, row.payload)

def entriesAt (db : Db) (node : String) : List (Int × Payload) := (nodeRows db node).map PermissionRow.entry

theorem entry_mem_entriesAt {db : Db} {node : String} {row : PermissionRow} (hrow : row ∈ db.permissions)
    (hnode : row.node = node) : row.entry ∈ entriesAt db node :=
  List.mem_map_of_mem (List.mem_filter.2 ⟨hrow, beq_iff_eq.2 hnode⟩)

/-- The payloads of the rows of a node, sorted by `order_index`. -/
def aclAt (db : Db) (node : String) : List Payload :=
  ((nodeRows db node).insertionSort fun a b => a.orderIndex ≤ b.orderIndex).map PermissionRow.payload

/-- The table holds the lists of the map. -/
def Represents (db : Db) (acl : String → List Payload) : Prop := ∀ node, Stores (entriesAt db node) (acl node)

theorem sort_map_entry (rows : List PermissionRow) :
    (rows.insertionSort fun a b => a.orderIndex ≤ b.orderIndex).map PermissionRow.entry =
      (rows.map PermissionRow.entry).insertionSort fun a b => a.1 ≤ b.1 :=
  List.map_insertionSort _ _ _ _ fun _ _ _ _ => Iff.rfl

theorem aclAt_eq_readOff (db : Db) (node : String) : aclAt db node = readOff (entriesAt db node) := by
  unfold readOff entriesAt aclAt
  rw [← sort_map_entry, List.map_map]
  rfl

theorem Represents.aclAt_eq {db : Db} {acl : String → List Payload} (h : Represents db acl) : aclAt db = acl := by
  funext node
  rw [aclAt_eq_readOff, (h node).readOff_eq]

theorem represents_of_permissions_nil {db : Db} (h : db.permissions = []) : Represents db fun _ => [] := by
  intro node
  unfold entriesAt nodeRows
  rw [h]
  exact stores_nil

theorem Represents.congr {db db' : Db} {acl : String → List Payload} (h : Represents db acl)
    (he : entriesAt db' = entriesAt db) : Represents db' acl := fun node => he ▸ h node

/-- A change of the entries of one node is a change of its list. -/
theorem Represents.update {db db' : Db} {acl : String → List Payload} (h : Represents db acl) {node : String}
    {s : List (Int × Payload)} {l : List Payload} (he : entriesAt db' = Function.update (entriesAt db) node s)
    (hs : Stores s l) : Represents db' (Function.update acl node l) := by
  intro k
  rw [he]
  by_cases hk : k = node
  · subst hk
    rwa [Function.update_self, Function.update_self]
  · rw [Function.update_of_ne hk, Function.update_of_ne hk]
    exact h k

/-! ### The statements on the entries of a node -/

private theorem entry_setOrderIndex (set : Int → Int) (row : PermissionRow) :
    (row.setOrderIndex set).entry = (set row.entry.1, row.entry.2) := rfl

theorem entriesAt_rewrite {node : String} {p : Int → Bool} {sel : PermissionRow → Bool} {set : Int → Int}
    (hsel : ∀ row, sel row = (row.node == node && p row.orderIndex)) (db : Db) :
    entriesAt { db with permissions := Table.rewrite sel (PermissionRow.setOrderIndex set) db.permissions } =
      Function.update (entriesAt db) node
        ((entriesAt db node).map fun x => (if p x.1 then set x.1 else x.1, x.2)) := by
  funext k
  have hk : nodeRows { db with permissions := Table.rewrite sel (PermissionRow.setOrderIndex set) db.permissions } k =
      Table.rewrite sel (PermissionRow.setOrderIndex set) (nodeRows db k) :=
    Table.filter_rewrite (p := fun row : PermissionRow => row.node == k) (f := PermissionRow.setOrderIndex set)
      (fun _ => rfl) _
  unfold entriesAt
  rw [hk]
  by_cases hkn : k = node
  · subst hkn
    rw [Function.update_self, Table.rewrite, List.map_map, List.map_map]
    refine List.map_congr_left fun row hrow => ?_
    have hnode : (row.node == k) = true := (List.mem_filter.1 hrow).2
    simp only [Function.comp_apply, hsel, hnode, Bool.true_and]
    by_cases hp : p row.orderIndex = true
    · rw [if_pos hp, entry_setOrderIndex, if_pos (show p row.entry.1 = true from hp)]
    · rw [if_neg hp, if_neg (show ¬ p row.entry.1 = true from hp)]
  · rw [Function.update_of_ne hkn, Table.rewrite_of_forall_not]
    intro row hrow
    have hnode : row.node = k := by simpa using (List.mem_filter.1 hrow).2
    rw [hsel, hnode]
    simp [hkn]

theorem entriesAt_updateOrderIndex {node : String} {p : Int → Bool} {sel : PermissionRow → Bool} {set : Int → Int}
    {db db' : Db} {n : Nat} (hsel : ∀ row, sel row = (row.node == node && p row.orderIndex))
    (h : updateOrderIndex sel set db = .ok n db') :
    entriesAt db' = Function.update (entriesAt db) node
      ((entriesAt db node).map fun x => (if p x.1 then set x.1 else x.1, x.2)) := by
  obtain rfl := updateOrderIndex_ok h
  exact entriesAt_rewrite hsel db

theorem entriesAt_insertPermission {row : PermissionRow} {db db' : Db}
    (h : insertPermission row db = .ok () db') :
    entriesAt db' = Function.update (entriesAt db) row.node (entriesAt db row.node ++ [row.entry]) := by
  obtain ⟨_, rfl⟩ := insertPermission_eq_ok.1 h
  funext k
  unfold entriesAt nodeRows
  rw [List.filter_append, List.map_append]
  by_cases hk : k = row.node
  · subst hk
    simp
  · rw [Function.update_of_ne hk, List.filter_cons_of_neg (by simpa using Ne.symm hk)]
    simp

theorem entriesAt_deletePermission {node : String} {position : Int} {db db' : Db} {n : Nat}
    (h : deletePermissions (fun row => row.node == node && row.orderIndex == position) db = .ok n db') :
    entriesAt db' = Function.update (entriesAt db) node
      ((entriesAt db node).filter fun x => decide (x.1 ≠ position)) := by
  obtain ⟨-, rfl⟩ := deletePermissions_ok h
  funext k
  unfold entriesAt nodeRows Table.delete
  rw [List.filter_comm]
  by_cases hk : k = node
  · subst hk
    rw [Function.update_self, List.filter_map]
    congr 1
    refine List.filter_congr fun row hrow => ?_
    have hnode : (row.node == k) = true := (List.mem_filter.1 hrow).2
    by_cases hp : row.orderIndex = position <;> simp [hnode, hp, PermissionRow.entry]
  · rw [Function.update_of_ne hk]
    congr 1
    refine List.filter_eq_self.2 fun row hrow => ?_
    have hnode : row.node = k := by simpa using (List.mem_filter.1 hrow).2
    simp [hnode, hk]

/-- The loop of `writeACL` renumbers the rows of the node one after another. -/
theorem writeACLFrom_ok {node : String} {acl : List ACE} {i : Int} {db db' : Db}
    (h : writeACLFrom node i acl db = .ok () db') :
    db' = { db with
      permissions := Table.rewrite (fun row => row.node == node)
        (PermissionRow.setOrderIndex (relabel i ((acl.map ACE.orderIndex).map fun y => -(y + 1))))
        db.permissions } := by
  induction acl generalizing i db with
  | nil =>
    obtain ⟨_, rfl⟩ := pure_eq_ok.1 h
    have hid : Table.rewrite (fun row => row.node == node) (PermissionRow.setOrderIndex (relabel i []))
        db.permissions = db.permissions := by
      unfold Table.rewrite
      conv => rhs; rw [← List.map_id db.permissions]
      exact List.map_congr_left fun row _ => ite_self row
    rw [List.map_nil, List.map_nil, hid]
  | cons ace acl ih =>
    rw [writeACLFrom, bind_eq_ok] at h
    obtain ⟨_, db₁, h₁, h₂⟩ := h
    rw [ih h₂, updateOrderIndex_ok h₁]
    simp only [Table.rewrite, List.map_map, List.map_cons]
    congr 1
    refine List.map_congr_left fun row _ => ?_
    by_cases hn : row.node = node
    · by_cases hi : row.orderIndex = -(ace.orderIndex + 1) <;>
        simp only [Function.comp_apply, PermissionRow.setOrderIndex, relabel, hn, hi, beq_self_eq_true, Bool.and_self,
          Bool.true_and, beq_iff_eq, ↓reduceIte]
    · simp [hn]

theorem writeACL_ok {node : String} {acl : List ACE} {db db' : Db} (h : writeACL node acl db = .ok () db') :
    db' = { db with
      permissions := Table.rewrite (fun row => row.node == node)
        (PermissionRow.setOrderIndex fun i => relabel 0 ((acl.map ACE.orderIndex).map fun y => -(y + 1)) (-(i + 1)))
        db.permissions } := by
  rw [writeACL, bind_eq_ok] at h
  obtain ⟨_, db₁, h₁, h₂⟩ := h
  rw [writeACLFrom_ok h₂, updateOrderIndex_ok h₁]
  simp only [Table.rewrite, List.map_map]
  congr 1
  refine List.map_congr_left fun row _ => ?_
  by_cases hn : row.node = node
  · simp only [Function.comp_apply, PermissionRow.setOrderIndex, hn, beq_self_eq_true, ↓reduceIte]
  · simp [hn]

theorem entriesAt_writeACL {node : String} {acl : List ACE} {db db' : Db} (h : writeACL node acl db = .ok () db') :
    entriesAt db' = Function.update (entriesAt db) node ((entriesAt db node).map fun x =>
      (relabel 0 ((acl.map ACE.orderIndex).map fun y => -(y + 1)) (-(x.1 + 1)), x.2)) := by
  rw [writeACL_ok h]
  exact entriesAt_rewrite (p := fun _ => true) (fun _ => (Bool.and_true _).symm) db

/-- `writeACL` with the ACEs of the node's rows in a given arrangement stores that arrangement. -/
theorem stores_writeACL {node : String} {acl : List ACE} {db db' : Db} {L : List (Int × Payload)}
    (h : writeACL node acl db = .ok () db') (hp : (entriesAt db node).Perm L) (hnd : (L.map Prod.fst).Nodup)
    (h₀ : ∀ x ∈ L, 0 ≤ x.1) (hacl : acl.map ACE.orderIndex = L.map Prod.fst) :
    ∃ s, entriesAt db' = Function.update (entriesAt db) node s ∧ Stores s (L.map Prod.snd) := by
  refine ⟨_, entriesAt_writeACL h, ?_⟩
  rw [hacl]
  exact stores_relabel hp hnd h₀

/-! ### The rows that `getNodeACL` returns -/

private theorem rowToACE_ok {row : PermissionRow} {ace : ACE} (h : rowToACE row = .ok ace) :
    ace.orderIndex = row.orderIndex := by
  unfold rowToACE at h
  cases hm : toAccessMask row.accessMask with
  | error e => rw [hm] at h; cases h
  | ok mask =>
    rw [hm] at h
    cases h
    rfl

private theorem mapM_rowToACE_ok {rows : List PermissionRow} {acl : List ACE} (h : rows.mapM rowToACE = .ok acl) :
    acl.map ACE.orderIndex = rows.map PermissionRow.orderIndex := by
  induction rows generalizing acl with
  | nil =>
    cases h
    rfl
  | cons row rows ih =>
    rw [List.mapM_cons] at h
    cases hr : rowToACE row with
    | error e => rw [hr] at h; cases h
    | ok ace =>
      cases hrs : rows.mapM rowToACE with
      | error e => rw [hr, hrs] at h; cases h
      | ok aces =>
        rw [hr, hrs] at h
        cases h
        rw [List.map_cons, List.map_cons, rowToACE_ok hr, ih hrs]

/-- The positions that `getNodeACL` lists are those of the sorted entries. -/
theorem orderIndex_getNodeACL {db : Db} {node : String} {acl : List ACE} (h : getNodeACL db node = .ok acl) :
    acl.map ACE.orderIndex = ((entriesAt db node).insertionSort fun a b => a.1 ≤ b.1).map Prod.fst := by
  rw [mapM_rowToACE_ok h, entriesAt, ← sort_map_entry, List.map_map]
  rfl

/-! ### The operations -/

theorem appendACE_represents {now node subjectUuid : String} {subjectType : Int} {mask : AccessMask}
    {db db' : Db} {acl : String → List Payload} (hacl : Represents db acl)
    (h : appendACE now node subjectUuid subjectType mask db = .ok () db') :
    Represents db' (Function.update acl node (acl node ++ [⟨subjectUuid, subjectType, mask.toInt, now⟩])) := by
  rw [appendACE, withTransaction_eq_ok, bind_eq_ok] at h
  obtain ⟨next, db₁, hq, hins⟩ := h
  obtain ⟨hnext, rfl⟩ := query_eq_ok.1 hq
  have hlen : next = (acl node).length := by
    rw [← (hacl node).max_succ, entriesAt, List.map_map]
    exact (Except.ok.inj hnext).symm
  refine hacl.update (entriesAt_insertPermission hins) ?_
  show Stores (entriesAt db node ++ [(next, _)]) _
  rw [hlen]
  exact (hacl node).append _

theorem insertACE_represents {now node subjectUuid : String} {position subjectType : Int} {mask : AccessMask}
    {db db' : Db} {acl : String → List Payload} (hacl : Represents db acl)
    (h : insertACE now node position subjectUuid subjectType mask db = .ok () db') :
    (0 ≤ position ∧ position ≤ (acl node).length) ∧ Represents db' (Function.update acl node
      ((acl node).insertIdx position.toNat ⟨subjectUuid, subjectType, mask.toInt, now⟩)) := by
  rw [insertACE, withTransaction_eq_ok, bind_eq_ok] at h
  obtain ⟨count, db₀, hq, h⟩ := h
  obtain ⟨hcount, rfl⟩ := query_eq_ok.1 hq
  have hlen : count = (acl node).length := by
    rw [← (hacl node).length_eq, entriesAt, List.length_map]
    exact (Except.ok.inj hcount).symm
  split at h
  · exact absurd h throw_ne_ok
  · rename_i hpos
    have hrange : 0 ≤ position ∧ position ≤ (acl node).length := by omega
    obtain ⟨pos, rfl⟩ := Int.eq_ofNat_of_zero_le hrange.1
    refine ⟨hrange, ?_⟩
    simp only [bind_eq_ok] at h
    obtain ⟨_, db₁, h₁, _, db₂, h₂, h₃⟩ := h
    have e₁ := entriesAt_updateOrderIndex (p := fun i => decide (i ≥ (pos : Int))) (fun _ => rfl) h₁
    have e₂ := entriesAt_updateOrderIndex (p := fun i => decide (i < 0)) (fun _ => rfl) h₂
    have e₃ := entriesAt_insertPermission h₃
    rw [e₂, e₁, Function.update_idem, Function.update_idem, Function.update_self, Function.update_self,
      List.map_map] at e₃
    refine hacl.update e₃ ?_
    -- both updates together raise the positions from `pos` on by one
    refine Stores.insertIdx (hacl node) (by omega) _
      (fun i => if decide ((if decide (i ≥ (pos : Int)) then -(i + 1) else i) < 0) then
        -(if decide (i ≥ (pos : Int)) then -(i + 1) else i)
        else if decide (i ≥ (pos : Int)) then -(i + 1) else i) ?_ ?_
    · intro i h₀ hi
      simp only [decide_eq_true_eq]
      split <;> split <;> omega
    · intro i hi
      simp only [decide_eq_true_eq]
      split <;> split <;> omega

theorem removeACE_represents {node : String} {position : Int} {db db' : Db} {acl : String → List Payload}
    (hacl : Represents db acl) (h : removeACE node position db = .ok () db') :
    (0 ≤ position ∧ position < (acl node).length) ∧
      Represents db' (Function.update acl node ((acl node).eraseIdx position.toNat)) := by
  rw [removeACE, withTransaction_eq_ok, bind_eq_ok] at h
  obtain ⟨affected, db₁, hdel, h⟩ := h
  have e₁ := entriesAt_deletePermission hdel
  split at h
  · exact absurd h throw_ne_ok
  · rename_i hne
    have hmem : ∃ x ∈ entriesAt db node, x.1 = position := by
      rw [(deletePermissions_ok hdel).1] at hne
      obtain ⟨row, hrow, hsel⟩ := List.countP_pos_iff.1 (Nat.pos_of_ne_zero hne)
      simp only [Bool.and_eq_true, beq_iff_eq] at hsel
      exact ⟨row.entry, List.mem_map_of_mem (List.mem_filter.2 ⟨hrow, by simpa using hsel.1⟩), hsel.2⟩
    obtain ⟨x, hx, hxpos⟩ := hmem
    have hrange : 0 ≤ position ∧ position < (acl node).length := hxpos ▸ (hacl node).bounds hx
    obtain ⟨pos, rfl⟩ := Int.eq_ofNat_of_zero_le hrange.1
    refine ⟨hrange, ?_⟩
    rw [bind_eq_ok] at h
    obtain ⟨_, db₂, h₂, h⟩ := h
    obtain ⟨_, db₃, h₃, h⟩ := bind_eq_ok.1 h
    obtain ⟨_, rfl⟩ := pure_eq_ok.1 h
    have e₂ := entriesAt_updateOrderIndex (p := fun i => decide (i > (pos : Int))) (fun _ => rfl) h₂
    have e₃ := entriesAt_updateOrderIndex (p := fun i => decide (i < 0)) (fun _ => rfl) h₃
    rw [e₂, e₁, Function.update_idem, Function.update_idem, Function.update_self, Function.update_self,
      List.map_map] at e₃
    refine hacl.update e₃ ?_
    -- both updates together lower the positions after `pos` by one
    refine Stores.eraseIdx (hacl node) (by omega)
      (fun i => if decide ((if decide (i > (pos : Int)) then -i else i) < 0) then
        -(if decide (i > (pos : Int)) then -i else i) - 1 else if decide (i > (pos : Int)) then -i else i) ?_ ?_
    · intro i h₀ hi
      simp only [decide_eq_true_eq]
      split <;> split <;> omega
    · intro i hi
      simp only [decide_eq_true_eq]
      split <;> split <;> omega

/-- Erase the element at one index and insert it at another index of the shortened list. -/
def moveElem {α : Type} (l : List α) (i j : Nat) : List α :=
  match l[i]? with
  | some b => (l.eraseIdx i).insertIdx j b
  | none => l

theorem moveElem_of_lt {α : Type} {l : List α} {i : Nat} (hi : i < l.length) (j : Nat) :
    moveElem l i j = (l.eraseIdx i).insertIdx j l[i] := by
  unfold moveElem
  rw [List.getElem?_eq_getElem hi]

theorem map_moveElem {α β : Type} (f : α → β) (l : List α) (i j : Nat) :
    (moveElem l i j).map f = moveElem (l.map f) i j := by
  unfold moveElem
  rw [List.getElem?_map]
  cases l[i]? with
  | none => rfl
  | some b => rw [Option.map_some, List.map_insertIdx, List.eraseIdx_map]

theorem moveElem_perm {α : Type} (l : List α) {i j : Nat} (hi : i < l.length) (hj : j < l.length) :
    (moveElem l i j).Perm l := by
  rw [moveElem_of_lt hi]
  have hlen : j ≤ (l.eraseIdx i).length := by
    rw [List.length_eraseIdx_of_lt hi]
    omega
  exact (List.perm_insertIdx _ _ hlen).trans (List.getElem_cons_eraseIdx_perm hi)

theorem Represents.sort_entries {db : Db} {acl : String → List Payload} (h : Represents db acl) (node : String) :
    ((entriesAt db node).insertionSort fun a b => a.1 ≤ b.1) = number 0 (acl node) :=
  Table.sort_eq_of_perm Prod.fst (h node) (pairwise_number 0 _)

theorem moveACE_represents {node : String} {fromIndex toIndex : Int} {db db' : Db} {acl : String → List Payload}
    (hacl : Represents db acl) (hne : fromIndex ≠ toIndex) (h : moveACE node fromIndex toIndex db = .ok () db') :
    (0 ≤ fromIndex ∧ fromIndex < (acl node).length ∧ 0 ≤ toIndex ∧ toIndex < (acl node).length) ∧
      Represents db' (Function.update acl node (moveElem (acl node) fromIndex.toNat toIndex.toNat)) := by
  rw [moveACE, if_neg hne, withTransaction_eq_ok, bind_eq_ok] at h
  obtain ⟨rows, db₀, hq, h⟩ := h
  obtain ⟨hrows, rfl⟩ := query_eq_ok.1 hq
  have hidx := orderIndex_getNodeACL hrows
  rw [hacl.sort_entries] at hidx
  have hlen : rows.length = (acl node).length := by
    have := congrArg List.length hidx
    rwa [List.length_map, List.length_map, length_number] at this
  split at h
  · exact absurd h throw_ne_ok
  · rename_i hpos
    have hrange : 0 ≤ fromIndex ∧ fromIndex < (acl node).length ∧ 0 ≤ toIndex ∧ toIndex < (acl node).length := by
      omega
    refine ⟨hrange, ?_⟩
    have hmoved : (rows.eraseIdx fromIndex.toNat).insertIdx toIndex.toNat
        (rows.get ⟨fromIndex.toNat, by omega⟩) = moveElem rows fromIndex.toNat toIndex.toNat :=
      (moveElem_of_lt (by omega) _).symm
    have hperm : (moveElem (number 0 (acl node)) fromIndex.toNat toIndex.toNat).Perm (number 0 (acl node)) :=
      moveElem_perm _ (by rw [length_number]; omega) (by rw [length_number]; omega)
    have hw : writeACL node (moveElem rows fromIndex.toNat toIndex.toNat) db = .ok () db' := hmoved ▸ h
    obtain ⟨s, he, hs⟩ := stores_writeACL hw ((hacl node).trans hperm.symm)
      ((hperm.map Prod.fst).nodup_iff.2 (List.pairwise_map.2 ((pairwise_number 0 _).imp ne_of_lt)))
      (fun x hx => (bounds_of_mem_number (hperm.subset hx)).1)
      (by rw [map_moveElem, map_moveElem, hidx])
    rw [map_moveElem, map_snd_number] at hs
    exact hacl.update he hs

theorem clearNodeACL_represents {node : String} {db db' : Db} {acl : String → List Payload}
    (hacl : Represents db acl) (h : clearNodeACL node db = .ok () db') :
    Represents db' (Function.update acl node []) := by
  rw [clearNodeACL, bind_eq_ok] at h
  obtain ⟨_, db₁, hdel, h⟩ := h
  obtain ⟨-, rfl⟩ := deletePermissions_ok hdel
  obtain ⟨-, rfl⟩ := pure_eq_ok.1 h
  refine hacl.update (s := []) ?_ stores_nil
  funext k
  unfold entriesAt nodeRows Table.delete
  rw [List.filter_filter]
  by_cases hk : k = node
  · subst hk
    simp
  · rw [Function.update_of_ne hk]
    congr 1
    refine List.filter_congr fun row _ => ?_
    by_cases hr : row.node = k <;> simp [hr, hk]

/-- Reindexing a node whose numbers have gaps closes the gaps and keeps the order. -/
theorem reindexACL_represents {node : String} {db db' : Db} {L : List (Int × Payload)}
    (h : reindexACL node db = .ok () db') (hp : (entriesAt db node).Perm L)
    (hL : L.Pairwise fun a b => a.1 < b.1) (h₀ : ∀ x ∈ L, 0 ≤ x.1) :
    ∃ s, entriesAt db' = Function.update (entriesAt db) node s ∧ Stores s (L.map Prod.snd) := by
  rw [reindexACL, bind_eq_ok] at h
  obtain ⟨acl, db₀, hq, h⟩ := h
  obtain ⟨hacl, rfl⟩ := query_eq_ok.1 hq
  refine stores_writeACL h hp (List.pairwise_map.2 (hL.imp ne_of_lt)) h₀ ?_
  rw [orderIndex_getNodeACL hacl, Table.sort_eq_of_perm Prod.fst hp hL]

/-- The loop of `deleteGroup` reindexes the listed nodes and leaves the others alone. -/
theorem forM_reindexACL {nodes : List String} {db db' : Db} {L : String → List (Int × Payload)}
    (h : nodes.forM reindexACL db = .ok () db') (hnd : nodes.Nodup)
    (hp : ∀ node ∈ nodes, (entriesAt db node).Perm (L node))
    (hL : ∀ node, (L node).Pairwise fun a b => a.1 < b.1) (h₀ : ∀ node, ∀ x ∈ L node, 0 ≤ x.1) :
    (∀ node ∈ nodes, Stores (entriesAt db' node) ((L node).map Prod.snd)) ∧
      ∀ node, node ∉ nodes → entriesAt db' node = entriesAt db node := by
  induction nodes generalizing db with
  | nil =>
    obtain ⟨_, rfl⟩ := pure_eq_ok.1 h
    exact ⟨fun _ hmem => absurd hmem List.not_mem_nil, fun _ _ => rfl⟩
  | cons n nodes ih =>
    obtain ⟨_, db₁, h₁, h₂⟩ := bind_eq_ok.1 h
    obtain ⟨hn, hnd⟩ := List.nodup_cons.1 hnd
    obtain ⟨s, he, hs⟩ := reindexACL_represents h₁ (hp n (List.mem_cons_self ..)) (hL n) (h₀ n)
    have hother : ∀ node, node ≠ n → entriesAt db₁ node = entriesAt db node := fun node hne => by
      rw [he, Function.update_of_ne hne]
    obtain ⟨ih₁, ih₂⟩ := ih h₂ hnd fun node hmem => by
      rw [hother node fun hne => hn (hne ▸ hmem)]
      exact hp node (List.mem_cons_of_mem _ hmem)
    constructor
    · intro node hmem
      rcases List.mem_cons.1 hmem with rfl | hmem
      · rwa [ih₂ node hn, he, Function.update_self]
      · exact ih₁ node hmem
    · intro node hmem
      rw [List.mem_cons, not_or] at hmem
      rw [ih₂ node hmem.2, hother node hmem.1]

/-- Without the rows of a subject every node keeps its other entries. -/
theorem entriesAt_deleteSubject {db db' : Db} {uuid : String}
    (h : db'.permissions = Table.delete (fun row => row.subjectUuid == uuid) db.permissions) (node : String) :
    entriesAt db' node = (entriesAt db node).filter fun x => decide (x.2.subjectUuid ≠ uuid) := by
  unfold entriesAt nodeRows
  rw [h, Table.delete, List.filter_comm, List.filter_map]
  congr 1
  refine List.filter_congr fun row _ => ?_
  by_cases hu : row.subjectUuid = uuid <;> simp [hu, PermissionRow.entry, PermissionRow.payload]

/-- A node that has no row of the subject has no entry of it. -/
theorem subject_ne_of_notMem {db : Db} {uuid node : String}
    (h : node ∉ (db.permissions.filter fun row => row.subjectUuid == uuid).map PermissionRow.node)
    {x : Int × Payload} (hx : x ∈ entriesAt db node) : x.2.subjectUuid ≠ uuid := by
  obtain ⟨row, hrow, rfl⟩ := List.mem_map.1 hx
  obtain ⟨hrow, hnode⟩ := List.mem_filter.1 hrow
  intro hsub
  exact h (List.mem_map.2 ⟨row, List.mem_filter.2 ⟨hrow, beq_iff_eq.2 hsub⟩, beq_iff_eq.1 hnode⟩)

theorem deleteGroup_represents {uuid : String} {db db' : Db} {acl : String → List Payload}
    (hacl : Represents db acl) (h : deleteGroup uuid db = .ok () db') :
    Represents db' fun node => (acl node).filter fun x => decide (x.subjectUuid ≠ uuid) := by
  rw [deleteGroup, withTransaction_eq_ok, bind_eq_ok] at h
  obtain ⟨affected, db₀, hq, h⟩ := h
  obtain ⟨haff, rfl⟩ := query_eq_ok.1 hq
  obtain ⟨_, db₁, hdel, h⟩ := bind_eq_ok.1 h
  obtain ⟨-, rfl⟩ := deletePermissions_ok hdel
  obtain ⟨_, db₂, hgroup, hloop⟩ := bind_eq_ok.1 h
  -- the entries of a node after the two deletions
  have hperm : db₂.permissions = Table.delete (fun row => row.subjectUuid == uuid) db.permissions := by
    cases hgroup
    rfl
  have hentries := entriesAt_deleteSubject hperm
  let L : String → List (Int × Payload) := fun node =>
    (number 0 (acl node)).filter fun x => decide (x.2.subjectUuid ≠ uuid)
  have hp : ∀ node, (entriesAt db₂ node).Perm (L node) := fun node => by
    rw [hentries]
    exact List.Perm.filter _ (hacl node)
  have hsnd : ∀ node, (L node).map Prod.snd = (acl node).filter fun x => decide (x.subjectUuid ≠ uuid) := by
    intro node
    conv => rhs; rw [← map_snd_number 0 (acl node), List.filter_map]
    rfl
  have hnodup : affected.Nodup := by
    rw [← Except.ok.inj haff]
    exact List.nodup_dedup _
  obtain ⟨hin, hout⟩ := forM_reindexACL hloop hnodup (fun node _ => hp node)
    (fun node => (pairwise_number 0 _).filter _)
    (fun node x hx => (bounds_of_mem_number (List.mem_of_mem_filter hx)).1)
  intro node
  show Stores _ ((acl node).filter _)
  by_cases hmem : node ∈ affected
  · rw [← hsnd]
    exact hin node hmem
  · -- no row of the node had the subject, so nothing was deleted from it
    have hout' := hout node hmem
    rw [← Except.ok.inj haff, List.mem_dedup] at hmem
    have hnone : ∀ x ∈ entriesAt db node, x.2.subjectUuid ≠ uuid := fun x hx => subject_ne_of_notMem hmem hx
    have hall : (acl node).filter (fun x => decide (x.subjectUuid ≠ uuid)) = acl node := by
      refine List.filter_eq_self.2 fun x hx => ?_
      rw [← map_snd_number 0 (acl node)] at hx
      obtain ⟨y, hy, rfl⟩ := List.mem_map.1 hx
      simpa using hnone y ((hacl node).symm.subset hy)
    rw [hout', hentries, hall, List.filter_eq_self.2 fun x hx => by simpa using hnone x hx]
    exact hacl node

/-! ### Runs of the store -/

/-- The calls that change the permissions table. -/
inductive AclOp
  | appendACE (now node subjectUuid : String) (subjectType : Int) (mask : AccessMask)
  | insertACE (now node : String) (position : Int) (subjectUuid : String) (subjectType : Int) (mask : AccessMask)
  | removeACE (node : String) (position : Int)
  | moveACE (node : String) (fromIndex toIndex : Int)
  | clearNodeACL (node : String)
  | deleteGroup (uuid : String)

/-- The call on the database. -/
def AclOp.run : AclOp → DbM Unit
  | appendACE now node subjectUuid subjectType mask =>
    PermissionRepository.appendACE now node subjectUuid subjectType mask
  | insertACE now node position subjectUuid subjectType mask =>
    PermissionRepository.insertACE now node position subjectUuid subjectType mask
  | removeACE node position => PermissionRepository.removeACE node position
  | moveACE node fromIndex toIndex => PermissionRepository.moveACE node fromIndex toIndex
  | clearNodeACL node => PermissionRepository.clearNodeACL node
  | deleteGroup uuid => PermissionRepository.deleteGroup uuid

/-- The call on the map from nodes to lists; `none` when a position is not one of the list. -/
def AclOp.apply (op : AclOp) (acl : String → List Payload) : Option (String → List Payload) :=
  match op with
  | appendACE now node subjectUuid subjectType mask =>
    some (Function.update acl node (acl node ++ [⟨subjectUuid, subjectType, mask.toInt, now⟩]))
  | insertACE now node position subjectUuid subjectType mask =>
    if 0 ≤ position ∧ position ≤ (acl node).length then
      some (Function.update acl node
        ((acl node).insertIdx position.toNat ⟨subjectUuid, subjectType, mask.toInt, now⟩))
    else none
  | removeACE node position =>
    if 0 ≤ position ∧ position < (acl node).length then
      some (Function.update acl node ((acl node).eraseIdx position.toNat))
    else none
  | moveACE node fromIndex toIndex =>
    if fromIndex = toIndex then some acl
    else if 0 ≤ fromIndex ∧ fromIndex < (acl node).length ∧ 0 ≤ toIndex ∧ toIndex < (acl node).length then
      some (Function.update acl node (moveElem (acl node) fromIndex.toNat toIndex.toNat))
    else none
  | clearNodeACL node => some (Function.update acl node [])
  | deleteGroup uuid => some fun node => (acl node).filter fun x => decide (x.subjectUuid ≠ uuid)

/-- A call that succeeds acts on the represented map as its list operation. -/
theorem AclOp.run_represents {op : AclOp} {db db' : Db} {acl : String → List Payload} (hacl : Represents db acl)
    (h : op.run db = .ok () db') : ∃ acl', op.apply acl = some acl' ∧ Represents db' acl' := by
  cases op with
  | appendACE now node subjectUuid subjectType mask => exact ⟨_, rfl, appendACE_represents hacl h⟩
  | insertACE now node position subjectUuid subjectType mask =>
    obtain ⟨hrange, hrep⟩ := insertACE_represents hacl h
    exact ⟨_, if_pos hrange, hrep⟩
  | removeACE node position =>
    obtain ⟨hrange, hrep⟩ := removeACE_represents hacl h
    exact ⟨_, if_pos hrange, hrep⟩
  | moveACE node fromIndex toIndex =>
    by_cases hft : fromIndex = toIndex
    · have hid : PermissionRepository.moveACE node fromIndex toIndex db = .ok () db' := h
      rw [PermissionRepository.moveACE, if_pos hft] at hid
      obtain ⟨-, rfl⟩ := pure_eq_ok.1 hid
      exact ⟨acl, if_pos hft, hacl⟩
    · obtain ⟨hrange, hrep⟩ := moveACE_represents hacl hft h
      exact ⟨_, (if_neg hft).trans (if_pos hrange), hrep⟩
  | clearNodeACL node => exact ⟨_, rfl, clearNodeACL_represents hacl h⟩
  | deleteGroup uuid => exact ⟨_, rfl, deleteGroup_represents hacl h⟩

theorem forM_run_represents {ops : List AclOp} {db db' : Db} {acl : String → List Payload}
    (hacl : Represents db acl) (h : ops.forM AclOp.run db = .ok () db') :
    ∃ acl', ops.foldlM (fun acl op => AclOp.apply op acl) acl = some acl' ∧ Represents db' acl' := by
  induction ops generalizing db acl with
  | nil =>
    obtain ⟨-, rfl⟩ := pure_eq_ok.1 h
    exact ⟨acl, rfl, hacl⟩
  | cons op ops ih =>
    obtain ⟨_, db₁, h₁, h₂⟩ := bind_eq_ok.1 h
    obtain ⟨acl₁, ha₁, hr₁⟩ := AclOp.run_represents hacl h₁
    obtain ⟨acl', ha', hr'⟩ := ih hr₁ h₂
    refine ⟨acl', ?_, hr'⟩
    rw [List.foldlM_cons, ha₁]
    exact ha'

/-- A represented node with `n` rows uses exactly the positions `0, …, n - 1`. -/
theorem Represents.contiguous {db : Db} {acl : String → List Payload} (h : Represents db acl) (node : String)
    (i : Int) :
    (∃ row ∈ nodeRows db node, row.orderIndex = i) ↔ 0 ≤ i ∧ i < ((nodeRows db node).length : Int) := by
  have hp := (h node).fst_perm
  rw [entriesAt, List.length_map, List.map_map] at hp
  constructor
  · rintro ⟨row, hrow, rfl⟩
    obtain ⟨k, hk, he⟩ := List.mem_map.1 (hp.subset (List.mem_map_of_mem hrow))
    have := List.mem_range.1 hk
    have : (k : Int) = row.orderIndex := he
    omega
  · rintro ⟨h₀, hlt⟩
    obtain ⟨k, rfl⟩ := Int.eq_ofNat_of_zero_le h₀
    obtain ⟨row, hrow, he⟩ :=
      List.mem_map.1 (hp.symm.subset (List.mem_map.2 ⟨k, List.mem_range.2 (by omega), rfl⟩))
    exact ⟨row, hrow, he⟩

/-- After any sequence of successful calls on an empty table the positions of every node are `0, …, n - 1`, the
lists are those that the list operations compute, and one more successful call acts as its list operation. -/
theorem aclStore_refines {db₀ db : Db} (h₀ : db₀.permissions = []) {ops : List AclOp}
    (hrun : ops.forM AclOp.run db₀ = .ok () db) :
    (∀ node i, (∃ row ∈ nodeRows db node, row.orderIndex = i) ↔ 0 ≤ i ∧ i < ((nodeRows db node).length : Int)) ∧
      ops.foldlM (fun acl op => AclOp.apply op acl) (fun _ => []) = some (aclAt db) ∧
      ∀ op db', AclOp.run op db = .ok () db' → op.apply (aclAt db) = some (aclAt db') := by
  obtain ⟨acl, happly, hrep⟩ := forM_run_represents (represents_of_permissions_nil h₀) hrun
  rw [hrep.aclAt_eq]
  refine ⟨hrep.contiguous, happly, fun op db' h => ?_⟩
  obtain ⟨acl', ha', hr'⟩ := AclOp.run_represents hrep h
  rw [ha', hr'.aclAt_eq]

/-- Three ACEs of one node, one inserted in front, one moved to the end, and a group deleted. -/
def sampleOps : List AclOp :=
  [.appendACE "t1" "a" "g" 1 .allow, .appendACE "t2" "a" "*" 0 .deny, .insertACE "t3" "a" 0 "p" 0 .allow,
    .moveACE "a" 0 2, .deleteGroup "g"]

theorem aclStore_refines_sample :
    sampleOps.foldlM (fun acl op => AclOp.apply op acl) (fun _ => []) =
      some (aclAt ⟨[], [], [⟨"a", 0, "*", 0, 0, "t2"⟩, ⟨"a", 1, "p", 0, 1, "t3"⟩]⟩) :=
  (@aclStore_refines Db.empty _ rfl sampleOps (by decide +kernel)).2.1

end BakaPerms
