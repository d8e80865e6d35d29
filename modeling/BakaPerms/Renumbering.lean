import BakaPerms.Decision
import BakaPerms.VisitOrder

/-!
# Renumbering succeeds

The statements that move the `order_index` values of a node rewrite its rows one at a time and fail when two rows
share a key on the way.  They first move the rows to negative values, which no row has, and from there to the new
ones, so on a node with distinct non-negative values all their moves are free.  Each operation then comes to one and
the same database, whatever UPDATE statements it makes as long as they are `RowByRow`: `writeACL` with any list, the
positional operations at valid positions, and the deletion of a group (`AclOp.runWith_succeeds`).
-/

namespace BakaPerms

open Effect Numbering PermissionRepository

/-- An update of the rows of a node succeeds when it moves them to distinct free values. -/
theorem update_succeeds {db : Db} {node : String} {p : Int → Bool} (sel : PermissionRow → Bool) (set : Int → Int)
    (hsel : ∀ row, sel row = (row.node == node && p row.orderIndex))
    (hnd : ((entriesAt db node).map Prod.fst).Nodup)
    (hfresh : ∀ x ∈ entriesAt db node, p x.1 → ∀ y ∈ entriesAt db node, set x.1 ≠ y.1)
    (hinj : ∀ i j, p i → p j → set i = set j → i = j) :
    ∃ db', (∀ update, RowByRow update → update sel set db = .ok (db.permissions.countP sel) db') ∧
      entriesAt db' = Function.update (entriesAt db) node
        ((entriesAt db node).map fun x => (if p x.1 then set x.1 else x.1, x.2)) ∧
      ((entriesAt db' node).map Prod.fst).Nodup := by
  have hfree := freeMoves_of_entries hsel hnd hfresh hinj
  have hentries := entriesAt_updateOrderIndex hsel (rowByRow_updateOrderIndex sel set db hfree)
  refine ⟨_, fun update hupdate => hupdate sel set db hfree, hentries, ?_⟩
  rw [hentries, Function.update_self, List.map_map, List.Nodup, List.pairwise_map]
  refine (List.pairwise_map.1 hnd).imp_of_mem fun {x y} hx hy hne heq => ?_
  simp only [Function.comp_apply] at heq
  by_cases hpx : p x.1 = true <;> by_cases hpy : p y.1 = true
  · simp only [hpx, hpy, ↓reduceIte] at heq
    exact hne (hinj _ _ hpx hpy heq)
  · simp only [hpx, hpy, ↓reduceIte] at heq
    exact hfresh x hx hpx y hy heq
  · simp only [hpx, hpy, ↓reduceIte] at heq
    exact hfresh y hy hpy x hx heq.symm
  · simp only [hpx, hpy] at heq
    exact hne heq

/-! ### `writeACL` -/

/-- The loop puts its rows on positions from `i` on, which are free. -/
theorem writeACLFromWith_succeeds {node : String} {i : Int} {db : Db} (hnd : ((entriesAt db node).map Prod.fst).Nodup)
    (hlt : ∀ x ∈ entriesAt db node, x.1 < i) (acl : List ACE) :
    ∃ db', ∀ update : Nat → Update, (∀ k, RowByRow (update k)) →
      writeACLFromWith update node i acl db = .ok () db' := by
  induction acl generalizing i db with
  | nil => exact ⟨db, fun _ _ => rfl⟩
  | cons ace acl ih =>
    obtain ⟨db₁, h₁, he, hnd₁⟩ := update_succeeds (p := fun j => j == -(ace.orderIndex + 1))
      (fun row => row.node == node && row.orderIndex == -(ace.orderIndex + 1)) (fun _ => i) (fun _ => rfl) hnd
      (fun x _ _ y hy => (hlt y hy).ne') fun j k hj hk _ => (beq_iff_eq.1 hj).trans (beq_iff_eq.1 hk).symm
    have hlt₁ : ∀ x ∈ entriesAt db₁ node, x.1 < i + 1 := by
      intro x hx
      rw [he, Function.update_self] at hx
      obtain ⟨y, hy, rfl⟩ := List.mem_map.1 hx
      have := hlt y hy
      dsimp only
      split <;> omega
    obtain ⟨db', h'⟩ := ih hnd₁ hlt₁
    exact ⟨db', fun update hu => (bind_of_ok (h₁ _ (hu 0))).trans (h' _ fun k => hu (k + 1))⟩

/-- The first update of `writeACL` moves every row of the node below zero, where no row was. -/
theorem negate_succeeds {node : String} {db : Db} (h : Numbered (entriesAt db node)) :
    ∃ db', (∀ update, RowByRow update → update (fun row => row.node == node) (fun i => -(i + 1)) db =
        .ok (db.permissions.countP fun row => row.node == node) db') ∧
      entriesAt db' = Function.update (entriesAt db) node ((entriesAt db node).map fun x => (-(x.1 + 1), x.2)) ∧
      ((entriesAt db' node).map Prod.fst).Nodup := by
  have hneg : ∀ x ∈ entriesAt db node, (fun _ : Int => true) x.1 → ∀ y ∈ entriesAt db node, -(x.1 + 1) ≠ y.1 := by
    intro x hx _ y hy
    have hx₀ := h.nonneg x hx
    have hy₀ := h.nonneg y hy
    omega
  exact update_succeeds (p := fun _ => true) (fun row => row.node == node) (fun i => -(i + 1))
    (fun _ => (Bool.and_true _).symm) h.nodup hneg fun i j _ _ h => by omega

theorem writeACLWith_succeeds {node : String} {db : Db} (h : Numbered (entriesAt db node)) (acl : List ACE) :
    ∃ db', ∀ update : Nat → Update, (∀ k, RowByRow (update k)) → writeACLWith update node acl db = .ok () db' := by
  obtain ⟨db₁, h₁, he, hnd₁⟩ := negate_succeeds h
  have hlt : ∀ x ∈ entriesAt db₁ node, x.1 < 0 := by
    intro x hx
    rw [he, Function.update_self] at hx
    obtain ⟨y, hy, rfl⟩ := List.mem_map.1 hx
    have := h.nonneg y hy
    dsimp only
    omega
  obtain ⟨db', h'⟩ := writeACLFromWith_succeeds hnd₁ hlt acl
  exact ⟨db', fun update hu => (bind_of_ok (h₁ _ (hu 0))).trans (h' _ fun k => hu (k + 1))⟩

theorem writeACL_succeeds {node : String} {db : Db} (h : Numbered (entriesAt db node)) (acl : List ACE) :
    ∃ db', writeACL node acl db = .ok () db' := by
  obtain ⟨db', h'⟩ := writeACLWith_succeeds h acl
  exact ⟨db', writeACLWith_updateOrderIndex node acl ▸ h' _ fun _ => rowByRow_updateOrderIndex⟩

/-! ### The deletion of a group -/

theorem reindexACLWith_succeeds {node : String} {db : Db} (hm : db.ValidMasks) (h : Numbered (entriesAt db node)) :
    ∃ db', ∀ update : Nat → Update, (∀ k, RowByRow (update k)) → reindexACLWith update node db = .ok () db' := by
  obtain ⟨db', h'⟩ := writeACLWith_succeeds h ((sortedRows db node).map PermissionRow.ace)
  exact ⟨db', fun update hu => (bind_of_ok (query_eq_ok.2 ⟨getNodeACL_eq hm node, rfl⟩)).trans (h' update hu)⟩

theorem forM_reindexACLWith_succeeds {nodes : List String} (hnd : nodes.Nodup) {db : Db} (hm : db.ValidMasks)
    (h : ∀ node ∈ nodes, Numbered (entriesAt db node)) :
    ∃ db', ∀ update : String → Nat → Update, (∀ node k, RowByRow (update node k)) →
      nodes.forM (fun node => reindexACLWith (update node) node) db = .ok () db' := by
  induction nodes generalizing db with
  | nil => exact ⟨db, fun _ _ => rfl⟩
  | cons node nodes ih =>
    obtain ⟨hnode, hnd⟩ := List.nodup_cons.1 hnd
    obtain ⟨db₁, h₁⟩ := reindexACLWith_succeeds hm (h node (List.mem_cons_self ..))
    have hstd : reindexACL node db = .ok () db₁ :=
      reindexACLWith_updateOrderIndex node ▸ h₁ _ fun _ => rowByRow_updateOrderIndex
    have hm₁ := within_reindexACL aclMoves_validMasks node db hm
    rw [final_of_ok hstd] at hm₁
    obtain ⟨acl, db₀, hq, hw⟩ := bind_eq_ok.1 hstd
    obtain ⟨-, rfl⟩ := query_eq_ok.1 hq
    obtain ⟨db', h'⟩ := ih hnd hm₁ fun k hk => by
      have hne : k ≠ node := fun h => hnode (h ▸ hk)
      rw [entriesAt_writeACL hw, Function.update_of_ne hne]
      exact h k (List.mem_cons_of_mem _ hk)
    exact ⟨db', fun update hu => (bind_of_ok (h₁ _ (hu node))).trans (h' update hu)⟩

private theorem deleteGroupRow_succeeds (uuid : String) (db : Db) :
    ∃ db', deleteGroupRow uuid db = .ok () db' ∧ db'.permissions = db.permissions := by
  by_cases h : uuid ∈ db.groupUuids
  · exact ⟨_, deleteGroupRow_of_mem h, rfl⟩
  · exact ⟨_, deleteGroupRow_of_notMem h, rfl⟩

theorem deleteGroupWith_succeeds {db : Db} (hm : db.ValidMasks) (h : ∀ node, Numbered (entriesAt db node))
    (uuid : String) :
    ∃ db', ∀ update : String → Nat → Update, (∀ node k, RowByRow (update node k)) →
      deleteGroupWith update uuid db = .ok () db' := by
  obtain ⟨n, db₁, h₁⟩ : ∃ n db₁, deletePermissions (fun row => row.subjectUuid == uuid) db = .ok n db₁ :=
    ⟨_, _, rfl⟩
  have hm₁ := aclMoves_validMasks.delete (fun row => row.subjectUuid == uuid) db hm
  rw [final_of_ok h₁] at hm₁
  obtain ⟨db₂, h₂, hperm⟩ := deleteGroupRow_succeeds uuid db₁
  have hm₂ : db₂.ValidMasks := fun row hrow => hm₁ row (hperm ▸ hrow)
  obtain ⟨-, rfl⟩ := deletePermissions_ok h₁
  have hnumbered : ∀ node, Numbered (entriesAt db₂ node) := by
    intro node
    rw [entriesAt_deleteSubject hperm]
    exact (h node).sublist List.filter_sublist
  obtain ⟨db₃, h₃⟩ := forM_reindexACLWith_succeeds
    (List.nodup_dedup ((db.permissions.filter fun row => row.subjectUuid == uuid).map PermissionRow.node)) hm₂
    fun node _ => hnumbered node
  refine ⟨db₃, fun update hu => withTransaction_eq_ok.2 (bind_eq_ok.2 ⟨_, db, query_eq_ok.2 ⟨rfl, rfl⟩, ?_⟩)⟩
  exact bind_eq_ok.2 ⟨n, _, h₁, bind_eq_ok.2 ⟨(), db₂, h₂, h₃ update hu⟩⟩

theorem deleteGroup_succeeds {db : Db} (hm : db.ValidMasks) (h : ∀ node, Numbered (entriesAt db node))
    (uuid : String) : ∃ db', deleteGroup uuid db = .ok () db' := by
  obtain ⟨db', h'⟩ := deleteGroupWith_succeeds hm h uuid
  have hrun := AclOp.runWith_updateOrderIndex (.deleteGroup uuid)
  exact ⟨db', (congrFun hrun db).symm.trans (h' _ fun _ _ => rowByRow_updateOrderIndex)⟩

/-! ### The positional operations -/

/-- A value that no row of the node has is free. -/
theorem key_notMem {db : Db} {node : String} {i : Int} (h : ∀ x ∈ entriesAt db node, x.1 ≠ i) :
    (node, i) ∉ db.permissions.map PermissionRow.key := by
  intro hmem
  obtain ⟨row, hrow, hkey⟩ := List.mem_map.1 hmem
  obtain ⟨hnode, hindex⟩ := Prod.mk.inj hkey
  exact h row.entry (entry_mem_entriesAt hrow hnode) hindex

/-- The position behind the last row of a node is free. -/
theorem appendACE_succeeds {db : Db} {acl : String → List Payload} (hacl : Represents db acl)
    (now node subjectUuid : String) (subjectType : Int) (mask : AccessMask) :
    ∃ db', appendACE now node subjectUuid subjectType mask db = .ok () db' := by
  have hnext : nextOrderIndex db node = (acl node).length := by
    rw [← (hacl node).max_succ, entriesAt, List.map_map]
    rfl
  have hfree : (node, nextOrderIndex db node) ∉ db.permissions.map PermissionRow.key := by
    refine key_notMem fun x hx => ?_
    have := ((hacl node).bounds hx).2
    omega
  have hinsert : insertPermission ⟨node, nextOrderIndex db node, subjectUuid, subjectType, mask.toInt, now⟩ db =
      .ok () _ := insertPermission_eq_ok.2 ⟨hfree, rfl⟩
  exact ⟨_, withTransaction_eq_ok.2 (bind_eq_ok.2 ⟨_, db, query_eq_ok.2 ⟨rfl, rfl⟩, hinsert⟩)⟩

/-- The rows of a node that `p` selects take the detour: `out` moves them below zero, where no row is, and `back`
moves all rows from there to values that are free. -/
theorem detour_succeeds {db : Db} {node : String} (h : Numbered (entriesAt db node)) {p : Int → Bool}
    (sel : PermissionRow → Bool) (out back : Int → Int)
    (hsel : ∀ row, sel row = (row.node == node && p row.orderIndex))
    (hout : ∀ i j, out i = out j → i = j) (hback : ∀ i j, back i = back j → i = j)
    (hneg : ∀ x ∈ entriesAt db node, p x.1 → out x.1 < 0 ∧ 0 ≤ back (out x.1))
    (hfree : ∀ x ∈ entriesAt db node, p x.1 → ∀ y ∈ entriesAt db node, ¬ p y.1 → back (out x.1) ≠ y.1) :
    ∃ db₁ db₂, (∀ update : Nat → Update, (∀ k, RowByRow (update k)) →
        update 0 sel out db = .ok (db.permissions.countP sel) db₁ ∧
        update 1 (fun row => row.node == node && decide (row.orderIndex < 0)) back db₁ =
          .ok (db₁.permissions.countP fun row => row.node == node && decide (row.orderIndex < 0)) db₂) ∧
      entriesAt db₂ node = (entriesAt db node).map fun x => (if p x.1 then back (out x.1) else x.1, x.2) := by
  obtain ⟨db₁, h₁, he₁, hnd₁⟩ := update_succeeds sel out hsel h.nodup
    (fun x hx hp y hy => by
      have := (hneg x hx hp).1
      have := h.nonneg y hy
      omega)
    fun i j _ _ => hout i j
  have hentries : entriesAt db₁ node =
      (entriesAt db node).map fun x => (if p x.1 then out x.1 else x.1, x.2) := by
    rw [he₁, Function.update_self]
  have hsplit : ∀ y ∈ entriesAt db₁ node, (∃ x ∈ entriesAt db node, p x.1 ∧ y.1 = out x.1) ∨
      ∃ x ∈ entriesAt db node, ¬ p x.1 ∧ y.1 = x.1 := by
    intro y hy
    rw [hentries] at hy
    obtain ⟨x, hx, rfl⟩ := List.mem_map.1 hy
    by_cases hp : p x.1
    · exact .inl ⟨x, hx, hp, if_pos hp⟩
    · exact .inr ⟨x, hx, hp, if_neg hp⟩
  obtain ⟨db₂, h₂, he₂, -⟩ := update_succeeds (p := fun i => decide (i < 0))
    (fun row => row.node == node && decide (row.orderIndex < 0)) back (fun _ => rfl) hnd₁
    (fun y hy hlt z hz => by
      simp only [decide_eq_true_eq] at hlt
      rcases hsplit y hy with ⟨x, hx, hp, heq⟩ | ⟨x, hx, -, heq⟩
      · rcases hsplit z hz with ⟨x', hx', hp', heq'⟩ | ⟨x', hx', hp', heq'⟩
        · have := (hneg x hx hp).2
          have := (hneg x' hx' hp').1
          rw [heq, heq']
          omega
        · rw [heq, heq']
          exact hfree x hx hp x' hx' hp'
      · have := h.nonneg x hx
        omega)
    fun i j _ _ => hback i j
  refine ⟨db₁, db₂, fun update hu => ⟨h₁ _ (hu 0), h₂ _ (hu 1)⟩, ?_⟩
  rw [he₂, Function.update_self, hentries, List.map_map]
  refine List.map_congr_left fun x hx => ?_
  by_cases hp : p x.1
  · simp [hp, (hneg x hx hp).1]
  · have hnot : ¬ x.1 < 0 := not_lt.2 (h.nonneg x hx)
    simp [hp, hnot]

theorem insertACEWith_succeeds {db : Db} {node : String} (h : Numbered (entriesAt db node)) {position : Int}
    (hpos : 0 ≤ position ∧ position ≤ (nodeRows db node).length) (now subjectUuid : String) (subjectType : Int)
    (mask : AccessMask) :
    ∃ db', ∀ update : Nat → Update, (∀ k, RowByRow (update k)) →
      insertACEWith update now node position subjectUuid subjectType mask db = .ok () db' := by
  obtain ⟨db₁, db₂, h₁₂, he⟩ := detour_succeeds h (p := fun i => decide (i ≥ position))
    (fun row => row.node == node && decide (row.orderIndex ≥ position)) (fun i => -(i + 1)) (fun i => -i)
    (fun _ => rfl) (fun i j _ => by omega) (fun i j _ => by omega)
    (fun x hx hp => by
      have := h.nonneg x hx
      omega)
    fun x hx hp y hy hpy => by
      simp only [decide_eq_true_eq] at hp hpy
      omega
  have hfree : (node, position) ∉ db₂.permissions.map PermissionRow.key := by
    refine key_notMem fun y hy => ?_
    rw [he] at hy
    obtain ⟨x, hx, rfl⟩ := List.mem_map.1 hy
    simp only [decide_eq_true_eq]
    split <;> omega
  obtain ⟨db', hinsert⟩ : ∃ db', insertPermission ⟨node, position, subjectUuid, subjectType, mask.toInt, now⟩ db₂ =
      .ok () db' := ⟨_, insertPermission_eq_ok.2 ⟨hfree, rfl⟩⟩
  refine ⟨db', fun update hu => withTransaction_eq_ok.2 (bind_eq_ok.2 ⟨_, db, query_eq_ok.2 ⟨rfl, rfl⟩, ?_⟩)⟩
  rw [if_neg (by omega)]
  obtain ⟨h₁, h₂⟩ := h₁₂ update hu
  exact bind_eq_ok.2 ⟨_, db₁, h₁, bind_eq_ok.2 ⟨_, db₂, h₂, hinsert⟩⟩

theorem removeACEWith_succeeds {db : Db} {node : String} (h : Numbered (entriesAt db node)) {position : Int}
    (hpos : ∃ row ∈ nodeRows db node, row.orderIndex = position) :
    ∃ db', ∀ update : Nat → Update, (∀ k, RowByRow (update k)) →
      removeACEWith update node position db = .ok () db' := by
  obtain ⟨row, hrow, hindex⟩ := hpos
  have h₀ : 0 ≤ position := hindex ▸ h.nonneg row.entry (List.mem_map_of_mem hrow)
  obtain ⟨n, db₁, hdel⟩ : ∃ n db₁,
      deletePermissions (fun row => row.node == node && row.orderIndex == position) db = .ok n db₁ := ⟨_, _, rfl⟩
  have hn : n ≠ 0 := by
    rw [(deletePermissions_ok hdel).1]
    refine (List.countP_pos_iff.2 ⟨row, (List.mem_filter.1 hrow).1, ?_⟩).ne'
    rw [Bool.and_eq_true, beq_iff_eq, beq_iff_eq]
    exact ⟨by simpa using (List.mem_filter.1 hrow).2, hindex⟩
  have hentries₁ := entriesAt_deletePermission hdel
  have hnumbered : Numbered (entriesAt db₁ node) := by
    rw [hentries₁, Function.update_self]
    exact h.sublist List.filter_sublist
  have hne : ∀ x ∈ entriesAt db₁ node, x.1 ≠ position := by
    intro x hx
    rw [hentries₁, Function.update_self] at hx
    simpa using (List.mem_filter.1 hx).2
  obtain ⟨db₂, db₃, h₂₃, -⟩ := detour_succeeds hnumbered (p := fun i => decide (i > position))
    (fun row => row.node == node && decide (row.orderIndex > position)) (fun i => -i) (fun i => -i - 1)
    (fun _ => rfl) (fun i j _ => by omega) (fun i j _ => by omega)
    (fun x hx hp => by
      simp only [decide_eq_true_eq] at hp
      omega)
    fun x hx hp y hy hpy => by
      -- the deleted row has left its position free
      have := hne y hy
      simp only [decide_eq_true_eq] at hp hpy
      omega
  refine ⟨db₃, fun update hu => withTransaction_eq_ok.2 (bind_eq_ok.2 ⟨n, db₁, hdel, ?_⟩)⟩
  rw [if_neg hn]
  obtain ⟨h₂, h₃⟩ := h₂₃ update hu
  exact bind_eq_ok.2 ⟨_, db₂, h₂, bind_eq_ok.2 ⟨_, db₃, h₃, rfl⟩⟩

theorem moveACEWith_succeeds {db : Db} (hm : db.ValidMasks) {node : String} (h : Numbered (entriesAt db node))
    {fromIndex toIndex : Int} (hfrom : 0 ≤ fromIndex ∧ fromIndex < (nodeRows db node).length)
    (hto : 0 ≤ toIndex ∧ toIndex < (nodeRows db node).length) :
    ∃ db', ∀ update : Nat → Update, (∀ k, RowByRow (update k)) →
      moveACEWith update node fromIndex toIndex db = .ok () db' := by
  by_cases heq : fromIndex = toIndex
  · exact ⟨db, fun update _ => by rw [moveACEWith, if_pos heq]; rfl⟩
  · have hlen : ((sortedRows db node).map PermissionRow.ace).length = (nodeRows db node).length := by
      rw [List.length_map, sortedRows, List.length_insertionSort]
    have hrange : ¬ (fromIndex < 0 ∨ fromIndex ≥ ((sortedRows db node).map PermissionRow.ace).length ∨
        toIndex < 0 ∨ toIndex ≥ ((sortedRows db node).map PermissionRow.ace).length) := by omega
    obtain ⟨db', h'⟩ := writeACLWith_succeeds h
      ((((sortedRows db node).map PermissionRow.ace).eraseIdx fromIndex.toNat).insertIdx toIndex.toNat
        (((sortedRows db node).map PermissionRow.ace).get ⟨fromIndex.toNat, by omega⟩))
    refine ⟨db', fun update hu => ?_⟩
    rw [moveACEWith, if_neg heq]
    refine withTransaction_eq_ok.2 (bind_eq_ok.2 ⟨_, db, query_eq_ok.2 ⟨getNodeACL_eq hm node, rfl⟩, ?_⟩)
    rw [dif_neg hrange]
    exact h' update hu

/-! ### Positions out of range -/

theorem insertACEWith_throws {db : Db} {node : String} {position : Int}
    (hpos : ¬ (0 ≤ position ∧ position ≤ (nodeRows db node).length)) (update : Nat → Update) (now subjectUuid : String)
    (subjectType : Int) (mask : AccessMask) :
    insertACEWith update now node position subjectUuid subjectType mask db =
      .error (.outOfRange s!"ACE position {position} is out of range [0, {(nodeRows db node).length}]") db := by
  have hcount : query (fun db : Db => .ok (nodeRows db node).length) db = .ok (nodeRows db node).length db := rfl
  exact withTransaction_bind_throw hcount (if_pos (by omega))

theorem removeACEWith_throws {db : Db} {node : String} {position : Int}
    (hpos : ∀ row ∈ nodeRows db node, row.orderIndex ≠ position) (update : Nat → Update) :
    removeACEWith update node position db =
      .error (.outOfRange s!"No ACE found at position {position} on node '{node}'") db := by
  have hcount : db.permissions.countP (fun row => row.node == node && row.orderIndex == position) = 0 := by
    refine List.countP_eq_zero.2 fun row hrow hsel => ?_
    rw [Bool.and_eq_true, beq_iff_eq, beq_iff_eq] at hsel
    exact hpos row (List.mem_filter.2 ⟨hrow, beq_iff_eq.2 hsel.1⟩) hsel.2
  have hdelete : deletePermissions (fun row => row.node == node && row.orderIndex == position) db =
      .ok (db.permissions.countP fun row => row.node == node && row.orderIndex == position) _ := rfl
  exact withTransaction_bind_throw hdelete (if_pos hcount)

theorem moveACEWith_throws {db : Db} (hm : db.ValidMasks) {node : String} {fromIndex toIndex : Int}
    (hne : fromIndex ≠ toIndex)
    (hpos : ¬ ((0 ≤ fromIndex ∧ fromIndex < (nodeRows db node).length) ∧
      (0 ≤ toIndex ∧ toIndex < (nodeRows db node).length))) (update : Nat → Update) :
    moveACEWith update node fromIndex toIndex db =
      .error (.outOfRange
        s!"ACE move position out of range: from={fromIndex}, to={toIndex}, size={(nodeRows db node).length}") db := by
  have hlen : ((sortedRows db node).map PermissionRow.ace).length = (nodeRows db node).length := by
    rw [List.length_map, sortedRows, List.length_insertionSort]
  rw [moveACEWith, if_neg hne, ← hlen]
  have hacl : query (fun db => getNodeACL db node) db = .ok ((sortedRows db node).map PermissionRow.ace) db :=
    query_eq_ok.2 ⟨getNodeACL_eq hm node, rfl⟩
  exact withTransaction_bind_throw hacl (dif_pos (by omega))

/-! ### All operations -/

/-- The positions of a positional operation are in the range that it is for. -/
def AclOp.InRange (db : Db) : AclOp → Prop
  | insertACE _ node position _ _ _ => 0 ≤ position ∧ position ≤ (nodeRows db node).length
  | removeACE node position => 0 ≤ position ∧ position < (nodeRows db node).length
  | moveACE node fromIndex toIndex =>
    (0 ≤ fromIndex ∧ fromIndex < (nodeRows db node).length) ∧ (0 ≤ toIndex ∧ toIndex < (nodeRows db node).length)
  | appendACE .. | clearNodeACL _ | deleteGroup _ => True

instance (db : Db) (op : AclOp) : Decidable (op.InRange db) := by
  cases op <;> unfold AclOp.InRange <;> infer_instance

/-- The tables that the operations work on. -/
structure Db.WellNumbered (db : Db) : Prop where
  masks : db.ValidMasks
  stores : ∃ acl, Represents db acl

/-- An operation in range succeeds, and its result does not depend on how its UPDATE statements visit the rows. -/
theorem AclOp.runWith_succeeds {db : Db} (hdb : db.WellNumbered) {op : AclOp} (hop : op.InRange db) :
    ∃ db', ∀ update : String → Nat → Update, (∀ node k, RowByRow (update node k)) →
      op.runWith update db = .ok () db' := by
  obtain ⟨acl, hacl⟩ := hdb.stores
  cases op with
  | appendACE now node subjectUuid subjectType mask =>
    obtain ⟨db', h'⟩ := appendACE_succeeds hacl now node subjectUuid subjectType mask
    exact ⟨db', fun _ _ => h'⟩
  | insertACE now node position subjectUuid subjectType mask =>
    obtain ⟨db', h'⟩ := insertACEWith_succeeds (hacl node).numbered hop now subjectUuid subjectType mask
    exact ⟨db', fun update hu => h' _ (hu node)⟩
  | removeACE node position =>
    obtain ⟨db', h'⟩ := removeACEWith_succeeds (hacl node).numbered ((hacl.contiguous node position).2 hop)
    exact ⟨db', fun update hu => h' _ (hu node)⟩
  | moveACE node fromIndex toIndex =>
    obtain ⟨db', h'⟩ := moveACEWith_succeeds hdb.masks (hacl node).numbered hop.1 hop.2
    exact ⟨db', fun update hu => h' _ (hu node)⟩
  | clearNodeACL node => exact ⟨_, fun _ _ => rfl⟩
  | deleteGroup uuid => exact deleteGroupWith_succeeds hdb.masks (fun node => (hacl node).numbered) uuid

/-- Out of range an operation throws before it has changed anything, except that a move of a position to itself
returns without looking at the ACL. -/
theorem AclOp.runWith_of_not_inRange {db : Db} (hdb : db.WellNumbered) {op : AclOp} (hop : ¬ op.InRange db) :
    (∃ e, ∀ update, op.runWith update db = .error e db) ∨ ∃ node i, op = .moveACE node i i := by
  obtain ⟨acl, hacl⟩ := hdb.stores
  cases op with
  | insertACE now node position subjectUuid subjectType mask =>
    exact .inl ⟨_, fun update => insertACEWith_throws hop (update node) now subjectUuid subjectType mask⟩
  | removeACE node position =>
    have hpos : ∀ row ∈ nodeRows db node, row.orderIndex ≠ position :=
      fun row hrow hindex => hop ((hacl.contiguous node position).1 ⟨row, hrow, hindex⟩)
    exact .inl ⟨_, fun update => removeACEWith_throws hpos (update node)⟩
  | moveACE node fromIndex toIndex =>
    by_cases heq : fromIndex = toIndex
    · exact .inr ⟨node, toIndex, by rw [heq]⟩
    · exact .inl ⟨_, fun update => moveACEWith_throws hdb.masks heq hop (update node)⟩
  | appendACE | clearNodeACL | deleteGroup => exact absurd trivial hop

/-- Row by row, the operations do what they do in the model. -/
theorem AclOp.runWith_eq_run {db : Db} (hdb : db.WellNumbered) (op : AclOp) {update : String → Nat → Update}
    (hu : ∀ node k, RowByRow (update node k)) : op.runWith update db = op.run db := by
  rw [← op.runWith_updateOrderIndex]
  by_cases hop : op.InRange db
  · obtain ⟨db', h'⟩ := AclOp.runWith_succeeds hdb hop
    rw [h' update hu, h' _ fun _ _ => rowByRow_updateOrderIndex]
  · rcases AclOp.runWith_of_not_inRange hdb hop with ⟨e, he⟩ | ⟨node, i, rfl⟩
    · rw [he, he]
    · simp only [runWith, moveACEWith, ↓reduceIte]

end BakaPerms
