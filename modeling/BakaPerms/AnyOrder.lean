import BakaPerms.Renumbering
import BakaPerms.Sequential

/-!
# Any order of the rows

SQLite may visit the rows of an UPDATE in any order and checks the primary key after each of them.  On a table that
operations have reached, whatever the orders were on the way, an operation with valid positions does not fail in any
order, and it ends with the same table, without negative positions (`runIn_any_order`).
-/

namespace BakaPerms

open Effect Numbering PermissionRepository

/-- The operation with the rows visited in the given orders, one for each UPDATE that it makes on a node. -/
def AclOp.runIn (orders : String → Nat → RowOrder) (op : AclOp) : DbM Unit :=
  op.runWith fun node k => updateOrderIndexIn (orders node k)

/-- The order of the table itself. -/
def tableOrder : RowOrder := ⟨fun rows => List.range rows.length, fun _ => .refl _⟩

/-- The databases whose permissions come out of an empty table by operations, each with any orders, and by steps that
leave the permissions alone. -/
inductive Reached : Db → Prop
  | start {db : Db} (h : db.permissions = []) : Reached db
  | run {db db' : Db} (h : Reached db) (op : AclOp) (orders : String → Nat → RowOrder)
      (hrun : op.runIn orders db = .ok () db') : Reached db'
  | other {db db' : Db} (h : Reached db) (hp : db'.permissions = db.permissions) : Reached db'

theorem AclOp.runIn_eq_run {db : Db} (hdb : db.WellNumbered) (op : AclOp) (orders : String → Nat → RowOrder) :
    op.runIn orders db = op.run db :=
  AclOp.runWith_eq_run hdb op fun _ _ => rowByRow_updateOrderIndexIn _

theorem Db.WellNumbered.congr {db db' : Db} (h : db.WellNumbered) (hp : db'.permissions = db.permissions) :
    db'.WellNumbered := by
  obtain ⟨acl, hacl⟩ := h.stores
  constructor
  · intro row hrow
    rw [hp] at hrow
    exact h.masks row hrow
  · refine ⟨acl, fun node => ?_⟩
    unfold entriesAt nodeRows
    rw [hp]
    exact hacl node

theorem Db.WellNumbered.run {db db' : Db} (h : db.WellNumbered) {op : AclOp} (hrun : op.run db = .ok () db') :
    db'.WellNumbered := by
  obtain ⟨acl, hacl⟩ := h.stores
  obtain ⟨acl', -, hacl'⟩ := AclOp.run_represents hacl hrun
  exact ⟨AclOp.validMasks_run h.masks hrun, acl', hacl'⟩

theorem Reached.wellNumbered {db : Db} (h : Reached db) : db.WellNumbered := by
  induction h with
  | start h =>
    refine ⟨fun row hrow => ?_, _, represents_of_permissions_nil h⟩
    rw [h] at hrow
    cases hrow
  | run _ op orders hrun ih =>
    rw [AclOp.runIn_eq_run ih] at hrun
    exact ih.run hrun
  | other _ hp ih => exact ih.congr hp

/-- What calls of the manager reach. -/
theorem reached_runCalls (calls : List Call) : Reached (runCalls (.init Db.empty) calls).db := by
  refine Run.run_invariant (P := fun m : PermissionManager => Reached m.db) Call.apply (fun m call h => ?_)
    (Reached.start rfl) calls
  rw [Call.apply_db]
  rcases call.acl_effect m.db with hp | ⟨op, hrun⟩
  · exact h.other hp
  · refine h.run op (fun _ _ => tableOrder) ?_
    rw [AclOp.runIn_eq_run h.wellNumbered]
    exact hrun

theorem Db.WellNumbered.orderIndex_nonneg {db : Db} (h : db.WellNumbered) {row : PermissionRow}
    (hrow : row ∈ db.permissions) : 0 ≤ row.orderIndex := by
  obtain ⟨acl, hacl⟩ := h.stores
  exact (hacl row.node).numbered.nonneg _ (entry_mem_entriesAt hrow rfl)

/-- With valid positions no operation fails in any order of the rows, so every insertion finds its key free; all
orders lead to the same database, that of the model, and no position in it is negative. -/
theorem runIn_any_order {db : Db} (hdb : Reached db) {op : AclOp} (hop : op.InRange db) :
    ∃ db', (∀ orders : String → Nat → RowOrder, op.runIn orders db = .ok () db') ∧ op.run db = .ok () db' ∧
      ∀ row ∈ db'.permissions, 0 ≤ row.orderIndex := by
  have hwell := hdb.wellNumbered
  obtain ⟨db', h'⟩ := AclOp.runWith_succeeds hwell hop
  have hrun : op.run db = .ok () db' := by
    rw [← op.runWith_updateOrderIndex]
    exact h' _ fun _ _ => rowByRow_updateOrderIndex
  exact ⟨db', fun orders => h' _ fun _ _ => rowByRow_updateOrderIndexIn _, hrun,
    fun row hrow => (hwell.run hrun).orderIndex_nonneg hrow⟩

/-- An ACE in front of two others, which both have to move. -/
theorem runIn_any_order_sample :
    ∃ db', ∀ orders : String → Nat → RowOrder,
      (AclOp.insertACE "t3" "a" 0 "q" 0 .deny).runIn orders (runCalls (.init Db.empty)
        [.appendACE "t1" "a" "p" 0 .allow, .appendACE "t2" "a" "*" 0 .deny]).db = .ok () db' := by
  have hdb := reached_runCalls [.appendACE "t1" "a" "p" 0 .allow, .appendACE "t2" "a" "*" 0 .deny]
  have hop : (AclOp.insertACE "t3" "a" 0 "q" 0 .deny).InRange (runCalls (.init Db.empty)
      [.appendACE "t1" "a" "p" 0 .allow, .appendACE "t2" "a" "*" 0 .deny]).db := by decide +kernel
  obtain ⟨db', h', -⟩ := runIn_any_order hdb hop
  exact ⟨db', h'⟩

/-- Without the way through the negative numbers the order does matter: moving two rows up by one fails from the
first row on and succeeds from the last row on. -/
example :
    let db : Db := ⟨[], [], [⟨"a", 0, "p", 0, 1, "t"⟩, ⟨"a", 1, "q", 0, 1, "t"⟩]⟩
    let backwards : RowOrder := ⟨fun rows => (List.range rows.length).reverse, fun _ => List.reverse_perm _⟩
    final (updateOrderIndexIn tableOrder (fun _ => true) (· + 1)) db = db ∧
      (final (updateOrderIndexIn backwards (fun _ => true) (· + 1)) db).permissions.map PermissionRow.orderIndex =
        [1, 2] := by decide

end BakaPerms
