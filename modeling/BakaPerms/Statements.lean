import BakaPerms.Lib.Locked
import BakaPerms.TornReads
import BakaPerms.VisitOrder

/-!
# The statements of the operations

`Database/SQLite/SQLiteDatabase.cpp`: every call of the database locks a recursive mutex, `withTransaction` holds it
from `BEGIN` to `COMMIT` or `ROLLBACK`, and the calls inside lock it once more.  Here each operation of the repository
is the list of its database calls (`Op`), and the parties take turns between any two of them.  The atomic steps of
`Concurrent` are what these operations amount to (`Thread.step_eq_atomicStep`): every schedule of statements is a
schedule of atomic steps (`statements_simulate`), and under a fair schedule every call comes to its end
(`calls_finish`).
-/

namespace BakaPerms

open Effect Locked PermissionManager

abbrev DbOp := Op Exn Db

abbrev DbScript := Script Exn Db

/-- The last statement of a script. -/
def lastStatement {α : Type} (x : DbM α) : DbScript α := .exec x .done

theorem run_lastStatement {α : Type} (x : DbM α) : (lastStatement x).run = x := bind_pure x

/-- The scripts are what `withTransaction` runs. -/
theorem run_transaction {α : Type} {body : DbScript α} {fn : DbM α} (h : body.run = fn) :
    (Op.transaction body).run = withTransaction fn := by
  subst h
  funext db
  unfold withTransaction
  cases hrun : body.run db with
  | ok a db' => exact Op.run_transaction_of_ok hrun
  | error e db' => exact Op.run_transaction_of_error hrun

namespace PermissionRepository.Statements

def appendACE (now node subjectUuid : String) (subjectType : Int) (mask : AccessMask) : DbOp Unit :=
  .transaction (.exec (query fun db => .ok (nextOrderIndex db node)) fun nextIndex =>
    lastStatement (insertPermission ⟨node, nextIndex, subjectUuid, subjectType, mask.toInt, now⟩))

def insertACE (now node : String) (position : Int) (subjectUuid : String) (subjectType : Int) (mask : AccessMask) :
    DbOp Unit :=
  .transaction (.exec (query fun db => .ok (nodeRows db node).length) fun count =>
    if position < 0 ∨ position > count then
      .throw (.outOfRange s!"ACE position {position} is out of range [0, {count}]")
    else
      .exec (updateOrderIndex (fun row => row.node == node && decide (row.orderIndex ≥ position)) fun i => -(i + 1))
        fun _ => .exec (updateOrderIndex (fun row => row.node == node && decide (row.orderIndex < 0)) fun i => -i)
          fun _ => lastStatement (insertPermission ⟨node, position, subjectUuid, subjectType, mask.toInt, now⟩))

def removeACE (node : String) (orderIndex : Int) : DbOp Unit :=
  .transaction (.exec (deletePermissions fun row => row.node == node && row.orderIndex == orderIndex) fun affected =>
    if affected = 0 then .throw (.outOfRange s!"No ACE found at position {orderIndex} on node '{node}'")
    else
      .exec (updateOrderIndex (fun row => row.node == node && decide (row.orderIndex > orderIndex)) fun i => -i)
        fun _ => .exec (updateOrderIndex (fun row => row.node == node && decide (row.orderIndex < 0)) fun i => -i - 1)
          fun _ => .done ())

def writeACLFrom (node : String) (i : Int) : List ACE → DbScript Unit
  | [] => .done ()
  | ace :: acl =>
    .exec (updateOrderIndex (fun row => row.node == node && row.orderIndex == -(ace.orderIndex + 1)) fun _ => i)
      fun _ => writeACLFrom node (i + 1) acl

def writeACL (node : String) (acl : List ACE) : DbScript Unit :=
  .exec (updateOrderIndex (fun row => row.node == node) fun i => -(i + 1)) fun _ => writeACLFrom node 0 acl

def reindexACL (node : String) : DbScript Unit :=
  .exec (query fun db => getNodeACL db node) fun acl => writeACL node acl

/-- `moveACE` behind its early return. -/
def moveACE (node : String) (fromIndex toIndex : Int) : DbOp Unit :=
  .transaction (.exec (query fun db => getNodeACL db node) fun acl =>
    if h : fromIndex < 0 ∨ fromIndex ≥ acl.length ∨ toIndex < 0 ∨ toIndex ≥ acl.length then
      .throw (.outOfRange s!"ACE move position out of range: from={fromIndex}, to={toIndex}, size={acl.length}")
    else
      let ace := acl.get ⟨fromIndex.toNat, fromIndex_lt h⟩
      writeACL node ((acl.eraseIdx fromIndex.toNat).insertIdx toIndex.toNat ace))

/-- The loop at the end of `deleteGroup`. -/
def reindexAll : List String → DbScript Unit
  | [] => .done ()
  | node :: affectedRows => (reindexACL node).bind fun _ => reindexAll affectedRows

def deleteGroup (uuid : String) : DbOp Unit :=
  .transaction (.exec (query fun db =>
      .ok ((db.permissions.filter fun row => row.subjectUuid == uuid).map PermissionRow.node).dedup) fun affectedRows =>
    .exec (deletePermissions fun row => row.subjectUuid == uuid) fun _ =>
      .exec (deleteGroupRow uuid) fun _ => reindexAll affectedRows)

theorem run_appendACE (now node subjectUuid : String) (subjectType : Int) (mask : AccessMask) :
    (appendACE now node subjectUuid subjectType mask).run =
      PermissionRepository.appendACE now node subjectUuid subjectType mask :=
  run_transaction (congrArg _ (funext fun _ => run_lastStatement _))

theorem run_insertACE (now node : String) (position : Int) (subjectUuid : String) (subjectType : Int)
    (mask : AccessMask) : (insertACE now node position subjectUuid subjectType mask).run =
      PermissionRepository.insertACE now node position subjectUuid subjectType mask := by
  refine run_transaction (congrArg _ (funext fun count => ?_))
  dsimp only
  by_cases h : position < 0 ∨ position > count
  · rw [if_pos h, if_pos h]
    rfl
  · rw [if_neg h, if_neg h]
    exact congrArg _ (funext fun _ => congrArg _ (funext fun _ => run_lastStatement _))

theorem run_removeACE (node : String) (orderIndex : Int) :
    (removeACE node orderIndex).run = PermissionRepository.removeACE node orderIndex := by
  refine run_transaction (congrArg _ (funext fun affected => ?_))
  dsimp only
  by_cases h : affected = 0
  · rw [if_pos h, if_pos h]
    rfl
  · rw [if_neg h, if_neg h]
    rfl

theorem run_writeACLFrom (node : String) (i : Int) (acl : List ACE) :
    (writeACLFrom node i acl).run = PermissionRepository.writeACLFrom node i acl := by
  induction acl generalizing i with
  | nil => rfl
  | cons ace acl ih => exact congrArg _ (funext fun _ => ih (i + 1))

theorem run_writeACL (node : String) (acl : List ACE) :
    (writeACL node acl).run = PermissionRepository.writeACL node acl :=
  congrArg _ (funext fun _ => run_writeACLFrom node 0 acl)

theorem run_reindexACL (node : String) : (reindexACL node).run = PermissionRepository.reindexACL node :=
  congrArg _ (funext fun acl => run_writeACL node acl)

theorem run_moveACE {fromIndex toIndex : Int} (hne : fromIndex ≠ toIndex) (node : String) :
    (moveACE node fromIndex toIndex).run = PermissionRepository.moveACE node fromIndex toIndex := by
  unfold PermissionRepository.moveACE
  rw [if_neg hne]
  refine run_transaction (congrArg _ (funext fun acl => ?_))
  dsimp only
  by_cases h : fromIndex < 0 ∨ fromIndex ≥ acl.length ∨ toIndex < 0 ∨ toIndex ≥ acl.length
  · rw [dif_pos h, dif_pos h]
    rfl
  · rw [dif_neg h, dif_neg h]
    exact run_writeACL node _

theorem run_reindexAll (affectedRows : List String) :
    (reindexAll affectedRows).run = affectedRows.forM PermissionRepository.reindexACL := by
  induction affectedRows with
  | nil => rfl
  | cons node affectedRows ih =>
    unfold reindexAll
    rw [Script.run_bind, run_reindexACL, ih]
    rfl

theorem run_deleteGroup (uuid : String) : (deleteGroup uuid).run = PermissionRepository.deleteGroup uuid :=
  run_transaction (congrArg _ (funext fun affectedRows =>
    congrArg _ (funext fun _ => congrArg _ (funext fun _ => run_reindexAll affectedRows))))

end PermissionRepository.Statements

/-! ### The calls -/

/-- What the lock of the cache guards: the generation and the entries. -/
abbrev CacheState := Nat × (String → String → Option AccessMask)

def CacheState.invalidate (c : CacheState) (target : Option String) : CacheState := (c.1 + 1, eraseCache c.2 target)

def CacheState.storeResult (c : CacheState) (playerUuid node : String) (gen : Nat) (result : AccessMask) :
    CacheState :=
  if c.1 = gen then (c.1, Function.update c.2 playerUuid (Function.update (c.2 playerUuid) node (some result))) else c

/-- A call of the database whose exception is not caught. -/
def access {α : Type} (op : DbOp α) (next : α → Thread) : Action Exn Db CacheState Thread :=
  .operation op fun
    | .ok a => next a
    | .error e => .failed e

open PermissionRepository in
/-- The first action of a call. -/
def Call.action : Call → Action Exn Db CacheState Thread
  | checkPermission playerUuid node => .outside fun c =>
    match c.2 playerUuid node with
    | some mask => (c, .returned (some mask))
    | none => (c, .check playerUuid node c.1 .readGroups)
  | appendACE now node subjectUuid subjectType mask =>
    access (Statements.appendACE now node subjectUuid subjectType mask) fun _ => .invalidate none
  | insertACE now node position subjectUuid subjectType mask =>
    access (Statements.insertACE now node position subjectUuid subjectType mask) fun _ => .invalidate none
  | removeACE node position => access (Statements.removeACE node position) fun _ => .invalidate none
  | moveACE node fromIndex toIndex =>
    if fromIndex = toIndex then .outside fun c => (c, .invalidate none)
    else access (Statements.moveACE node fromIndex toIndex) fun _ => .invalidate none
  | clearNodeACL node => access (.statement (PermissionRepository.clearNodeACL node)) fun _ => .invalidate none
  | createGroup uuid name parentUuid =>
    access (.statement (query fun db => .ok (getGroupByName db name))) fun found =>
      if found.isSome then .failed (.operationFailed "bakaperms.exception.detail.group_exists" [name])
      else .insertGroup uuid name parentUuid
  | deleteGroup groupUuid => access (Statements.deleteGroup groupUuid) fun _ => .invalidate none
  | setGroupParent groupUuid none =>
    access (.statement (PermissionRepository.setGroupParent groupUuid none)) fun _ => .invalidate none
  | setGroupParent groupUuid (some parentUuid) =>
    access (.statement (query fun db => .ok (getGroupAncestry db parentUuid))) fun ancestry =>
      if ancestry.any fun ancestor => ancestor.uuid == groupUuid then
        .failed (.operationFailed "bakaperms.exception.detail.group_cycle" [])
      else .updateParent groupUuid parentUuid
  | addPlayerToGroup playerUuid groupUuid =>
    access (.statement (PermissionRepository.addPlayerToGroup playerUuid groupUuid)) fun changed =>
      if changed then .invalidate (some playerUuid) else .returned none
  | removePlayerFromGroup playerUuid groupUuid =>
    access (.statement (PermissionRepository.removePlayerFromGroup playerUuid groupUuid)) fun changed =>
      if changed then .invalidate (some playerUuid) else .returned none
  | invalidate target => .outside fun c => (c.invalidate target, .returned none)

open PermissionRepository in
/-- The next action of a party. -/
def Thread.action : Thread → Action Exn Db CacheState Thread
  | start call => call.action
  | check playerUuid node gen .readGroups =>
    access (.statement (query fun db => .ok (getPlayerGroups db playerUuid))) fun groups =>
      .check playerUuid node gen
        (.reading (addDirectGroups (AccessToken.empty.add playerUuid .subject) groups) groups)
  | check playerUuid node gen (.reading token (group :: todo)) =>
    access (.statement (query fun db => .ok (getGroupAncestry db group.uuid))) fun ancestry =>
      .check playerUuid node gen (.reading (addAncestry token ancestry) todo)
  | check playerUuid node gen (.reading token []) =>
    match PermissionResolver.buildNodePath node with
    | .error e => .outside fun c => (c, .failed e)
    | .ok nodePath =>
      access (.statement (query fun db => getNodeACLBatch db nodePath)) fun aclMap =>
        match PermissionResolver.resolve node token (batchProvider aclMap) with
        | .ok result => .check playerUuid node gen (.store result)
        | .error e => .failed e
  | check playerUuid node gen (.store result) =>
    .outside fun c => (c.storeResult playerUuid node gen result, .returned (some result))
  | insertGroup uuid name parentUuid =>
    access (.statement (PermissionRepository.createGroup uuid name parentUuid)) fun _ => .returned none
  | updateParent groupUuid parentUuid =>
    access (.statement (PermissionRepository.setGroupParent groupUuid (some parentUuid))) fun _ => .invalidate none
  | invalidate target => .outside fun c => (c.invalidate target, .returned none)
  | returned result => .outside fun c => (c, .returned result)
  | failed e => .outside fun c => (c, .failed e)

/-! ### Atomic steps -/

/-- The manager made of the tables and the cache. -/
def managerOf (db : Db) (c : CacheState) : PermissionManager := ⟨db, c.1, c.2⟩

/-- An action in one step, as a step of the manager. -/
def atomicStep (m : PermissionManager) (a : Action Exn Db CacheState Thread) : PermissionManager × Thread :=
  let r := a.perform m.db (m.cacheGeneration, m.cache)
  (managerOf r.1 r.2.1, r.2.2)

theorem atomicStep_access {α : Type} (m : PermissionManager) {op : DbOp α} {x : DbM α} (h : op.run = x)
    (next : α → Thread) : atomicStep m (access op next) = commit m x next := by
  subst h
  unfold atomicStep access commit
  cases hrun : op.run m.db <;> simp only [Action.perform, hrun] <;> rfl

theorem atomicStep_statement {α : Type} (m : PermissionManager) (x : DbM α) (next : α → Thread) :
    atomicStep m (access (.statement x) next) = commit m x next := atomicStep_access m rfl next

/-- A query whose rows are decoded by code that may throw. -/
theorem atomicStep_query {α : Type} (m : PermissionManager) (select : Db → Except Exn α) (next : α → Thread) :
    atomicStep m (access (.statement (query select)) next) =
      match select m.db with
      | .ok a => (m, next a)
      | .error e => (m, .failed e) := by
  rw [atomicStep_statement]
  cases h : select m.db <;> simp only [commit, query, h]

private theorem Call.step_eq_atomicStep (m : PermissionManager) (call : Call) :
    call.step m = atomicStep m call.action := by
  cases call with
  | checkPermission playerUuid node =>
    unfold Call.action atomicStep Action.perform
    dsimp only
    cases hc : m.cache playerUuid node <;> simp only [Call.step, hc] <;> rfl
  | moveACE node fromIndex toIndex =>
    unfold Call.action
    by_cases h : fromIndex = toIndex
    · have hmove : PermissionRepository.moveACE node fromIndex toIndex m.db = .ok () m.db := by
        unfold PermissionRepository.moveACE
        rw [if_pos h]
        rfl
      simp only [Call.step, commit, hmove, if_pos h]
      rfl
    · dsimp only
      rw [if_neg h]
      exact (atomicStep_access m (PermissionRepository.Statements.run_moveACE h node) _).symm
  | createGroup uuid name parentUuid =>
    simp only [Call.action, atomicStep_query, Call.step, apply_ite (Prod.mk m)]
  | setGroupParent groupUuid parentUuid =>
    cases parentUuid with
    | none => simp only [Call.action, atomicStep_statement, Call.step]
    | some parentUuid =>
      have hany : ((PermissionRepository.getGroupAncestry m.db parentUuid).any fun a => a.uuid == groupUuid) =
          wouldCreateCycle m.db groupUuid parentUuid := rfl
      simp only [Call.action, atomicStep_query, Call.step, hany, apply_ite (Prod.mk m)]
  | appendACE => exact (atomicStep_access m (PermissionRepository.Statements.run_appendACE ..) _).symm
  | insertACE => exact (atomicStep_access m (PermissionRepository.Statements.run_insertACE ..) _).symm
  | removeACE => exact (atomicStep_access m (PermissionRepository.Statements.run_removeACE ..) _).symm
  | deleteGroup => exact (atomicStep_access m (PermissionRepository.Statements.run_deleteGroup _) _).symm
  | clearNodeACL | addPlayerToGroup | removePlayerFromGroup =>
    simp only [Call.action, atomicStep_statement, Call.step]
  | invalidate target => rfl

/-- The atomic step of a party is its next action in one step. -/
theorem Thread.step_eq_atomicStep (m : PermissionManager) (t : Thread) : t.step m = atomicStep m t.action := by
  cases t with
  | start call => exact call.step_eq_atomicStep m
  | check playerUuid node gen state =>
    rcases state with _ | ⟨token, todo⟩ | result
    · simp only [Thread.action, atomicStep_query, Thread.step]
    · cases todo with
      | cons group todo => simp only [Thread.action, atomicStep_query, Thread.step]
      | nil =>
        simp only [Thread.action, Thread.step, decideACL]
        cases hpath : PermissionResolver.buildNodePath node with
        | error e => rfl
        | ok nodePath =>
          simp only [atomicStep_query]
          cases hacl : PermissionRepository.getNodeACLBatch m.db nodePath with
          | error e => simp only [hacl, bind, Except.bind]
          | ok aclMap =>
            simp only [hacl, bind, Except.bind]
            cases PermissionResolver.resolve node token (batchProvider aclMap) <;> rfl
    · unfold Thread.action atomicStep Action.perform
      simp only [Thread.step, PermissionManager.storeResult, CacheState.storeResult]
      split <;> rfl
  | insertGroup | updateParent => simp only [Thread.action, atomicStep_statement, Thread.step]
  | invalidate | returned | failed => rfl

/-! ### The system of statements -/

/-- The parties with the database, its mutex and its open transaction. -/
abbrev StatementSystem := Fine Exn Db CacheState Thread

namespace StatementSystem

/-- The system before the first step of any call, with an empty cache. -/
def init (db : Db) (calls : List Call) : StatementSystem := Fine.init db (0, fun _ _ => none) (calls.map .start)

/-- The system after a schedule of the small steps. -/
abbrev run (s : StatementSystem) (sched : List Nat) : StatementSystem := Fine.run Thread.action s sched

/-- The system with what has been committed, where every party is at an atomic step. -/
def committed (s : StatementSystem) : System :=
  ⟨managerOf s.memory.committed s.memory.rest, s.parties.map Party.coarse⟩

theorem guarded_init (db : Db) (calls : List Call) : (init db calls).Guarded Thread.action := Fine.guarded_init ..

end StatementSystem

/-- A step of the coarse system is a step of the parties on the manager. -/
theorem system_step (s : Coarse Db CacheState Thread) (i : Nat) :
    (⟨managerOf (s.step Thread.action i).shared (s.step Thread.action i).rest, (s.step Thread.action i).parties⟩ :
      System) = (⟨managerOf s.shared s.rest, s.parties⟩ : System).step i := by
  unfold Coarse.step System.step
  cases s.parties[i]? with
  | none => rfl
  | some t =>
    simp only [Thread.step_eq_atomicStep]
    rfl

theorem system_run (s : Coarse Db CacheState Thread) (turns : List Nat) :
    (⟨managerOf (Run.run (Coarse.step Thread.action) s turns).shared (Run.run (Coarse.step Thread.action) s turns).rest,
      (Run.run (Coarse.step Thread.action) s turns).parties⟩ : System) =
      (⟨managerOf s.shared s.rest, s.parties⟩ : System).run turns := by
  induction turns generalizing s with
  | nil => rfl
  | cons i turns ih =>
    refine (ih (s.step Thread.action i)).trans ?_
    rw [system_step]
    rfl

theorem StatementSystem.committed_init (db : Db) (calls : List Call) :
    (StatementSystem.init db calls).committed = System.init db calls := by
  have hcoarse := Fine.coarse_init (ε := Exn) db ((0, fun _ _ => none) : CacheState) (calls.map Thread.start)
  exact congrArg (fun s : Coarse Db CacheState Thread => (⟨managerOf s.shared s.rest, s.parties⟩ : System)) hcoarse

/-- A run of the coarse system is a run of atomic steps on the manager. -/
theorem StatementSystem.committed_eq {db : Db} {calls : List Call} {sched turns : List Nat}
    (hrun : ((StatementSystem.init db calls).run sched).coarse =
      Run.run (Coarse.step Thread.action) (StatementSystem.init db calls).coarse turns) :
    ((StatementSystem.init db calls).run sched).committed = (System.init db calls).run turns := by
  have hcommitted (s : StatementSystem) :
      s.committed = ⟨managerOf s.coarse.shared s.coarse.rest, s.coarse.parties⟩ := rfl
  rw [hcommitted, hrun, system_run, ← StatementSystem.committed_init]
  rfl

/-- What the parties have committed after any schedule of their database calls is what they do in a schedule of atomic
steps: nobody sees a transaction that is not complete, and a transaction that throws has done nothing. -/
theorem statements_simulate (db : Db) (calls : List Call) (sched : List Nat) :
    ∃ turns, turns.Sublist sched ∧
      ((StatementSystem.init db calls).run sched).committed = (System.init db calls).run turns := by
  obtain ⟨turns, hsub, hrun⟩ :=
    Fine.run_simulates Thread.action (StatementSystem.guarded_init db calls) sched
  exact ⟨turns, hsub, StatementSystem.committed_eq hrun⟩

/-! ### Every call comes to its end -/

/-- The party has returned or thrown. -/
def Thread.Finished (t : Thread) : Prop := (∃ result, t = .returned result) ∨ ∃ e, t = .failed e

theorem Thread.action_of_finished {t : Thread} (h : t.Finished) : t.action = .outside fun c => (c, t) := by
  rcases h with ⟨result, rfl⟩ | ⟨e, rfl⟩ <;> rfl

/-- How many stages a party has before it, and in the stage of the ancestry queries how many of these. -/
def Thread.rank : Thread → Nat ×ₗ Nat
  | start _ => toLex (4, 0)
  | check _ _ _ .readGroups | insertGroup .. | updateParent .. => toLex (3, 0)
  | check _ _ _ (.reading _ todo) => toLex (2, todo.length)
  | check _ _ _ (.store _) | invalidate _ => toLex (1, 0)
  | returned _ | failed _ => toLex (0, 0)

private theorem stage_lt {m n : Nat} (h : m < n) (i j : Nat) : toLex (m, i) < toLex (n, j) :=
  Prod.Lex.toLex_lt_toLex.2 (.inl h)

/-- What follows an access of the database. -/
theorem follows_access {α : Type} {t t' : Thread} {op : DbOp α} {next : α → Thread}
    (h : t.action = access op next) (hf : Follows Thread.action Thread.Finished t' t) :
    (∃ a, t' = next a) ∨ ∃ e, t' = .failed e := by
  obtain ⟨-, ⟨f, c, hout, -⟩ | ⟨α', op', next', r, hop, rfl⟩⟩ := hf
  · rw [h] at hout
    cases hout
  · rw [h] at hop
    cases hop
    cases r with
    | ok a => exact .inl ⟨a, rfl⟩
    | error e => exact .inr ⟨e, rfl⟩

/-- What follows a critical section of the cache. -/
theorem follows_outside {t t' : Thread} {f : CacheState → CacheState × Thread} (h : t.action = .outside f)
    (hf : Follows Thread.action Thread.Finished t' t) : ∃ c, t' = (f c).2 := by
  obtain ⟨-, ⟨f', c, hout, rfl⟩ | ⟨α', op', next', r, hop, rfl⟩⟩ := hf
  · rw [h] at hout
    cases hout
    exact ⟨c, rfl⟩
  · rw [h] at hop
    cases hop

/-- An access after which the party fails or is of a lower rank. -/
private theorem rank_lt_of_access {α : Type} {t t' : Thread} {op : DbOp α} {next : α → Thread}
    (h : t.action = access op next) (hnext : ∀ a, (next a).rank < t.rank) (hpos : toLex (0, 0) < t.rank)
    (hf : Follows Thread.action Thread.Finished t' t) : t'.rank < t.rank := by
  rcases follows_access h hf with ⟨a, rfl⟩ | ⟨e, rfl⟩
  · exact hnext a
  · exact hpos

private theorem rank_lt_of_outside {t t' : Thread} {f : CacheState → CacheState × Thread} (h : t.action = .outside f)
    (hnext : ∀ c, (f c).2.rank < t.rank) (hf : Follows Thread.action Thread.Finished t' t) : t'.rank < t.rank := by
  obtain ⟨c, rfl⟩ := follows_outside h hf
  exact hnext c

private theorem rank_lt_of_start {call : Call} {t' : Thread}
    (hf : Follows Thread.action Thread.Finished t' (.start call)) : t'.rank < (Thread.start call).rank := by
  have hwriter {op : DbOp Unit} (h : call.action = access op fun _ => .invalidate none) :
      t'.rank < (Thread.start call).rank :=
    rank_lt_of_access h (fun _ => stage_lt (by decide) 0 0) (stage_lt (by decide) 0 0) hf
  cases call with
  | appendACE | insertACE | removeACE | clearNodeACL | deleteGroup => exact hwriter rfl
  | checkPermission playerUuid node =>
    refine rank_lt_of_outside rfl (fun c => ?_) hf
    cases hc : c.2 playerUuid node with
    | some mask => exact stage_lt (by decide) 0 0
    | none => exact stage_lt (by decide) 0 0
  | moveACE node fromIndex toIndex =>
    by_cases h : fromIndex = toIndex
    · exact rank_lt_of_outside (if_pos h) (fun _ => stage_lt (by decide) 0 0) hf
    · exact hwriter (if_neg h)
  | createGroup uuid name parentUuid =>
    refine rank_lt_of_access rfl (fun found => ?_) (stage_lt (by decide) 0 0) hf
    split
    · exact stage_lt (by decide) 0 0
    · exact stage_lt (by decide) 0 0
  | setGroupParent groupUuid parentUuid =>
    cases parentUuid with
    | none => exact hwriter rfl
    | some parentUuid =>
      refine rank_lt_of_access rfl (fun ancestry => ?_) (stage_lt (by decide) 0 0) hf
      split
      · exact stage_lt (by decide) 0 0
      · exact stage_lt (by decide) 0 0
  | addPlayerToGroup | removePlayerFromGroup =>
    refine rank_lt_of_access rfl (fun changed => ?_) (stage_lt (by decide) 0 0) hf
    split
    · exact stage_lt (by decide) 0 0
    · exact stage_lt (by decide) 0 0
  | invalidate target => exact rank_lt_of_outside rfl (fun _ => stage_lt (by decide) 0 0) hf

/-- What follows a party in the system of atomic steps is of a lower rank. -/
theorem rank_lt_of_follows {t t' : Thread} (hf : Follows Thread.action Thread.Finished t' t) : t'.rank < t.rank := by
  cases t with
  | start call => exact rank_lt_of_start hf
  | check playerUuid node gen state =>
    rcases state with _ | ⟨token, todo⟩ | result
    · exact rank_lt_of_access rfl (fun _ => stage_lt (by decide) _ 0) (stage_lt (by decide) 0 0) hf
    · cases todo with
      | cons group todo =>
        refine rank_lt_of_access rfl (fun _ => ?_) (stage_lt (by decide) 0 _) hf
        exact Prod.Lex.toLex_lt_toLex.2 (.inr ⟨rfl, Nat.lt_succ_self _⟩)
      | nil =>
        cases hpath : PermissionResolver.buildNodePath node with
        | error e =>
          have haction : (Thread.check playerUuid node gen (.reading token [])).action =
              .outside fun c => (c, .failed e) := by
            simp only [Thread.action, hpath]
          exact rank_lt_of_outside haction (fun _ => stage_lt (by decide) 0 0) hf
        | ok nodePath =>
          have haction : (Thread.check playerUuid node gen (.reading token [])).action =
              access (.statement (query fun db => PermissionRepository.getNodeACLBatch db nodePath)) fun aclMap =>
                match PermissionResolver.resolve node token (batchProvider aclMap) with
                | .ok result => .check playerUuid node gen (.store result)
                | .error e => .failed e := by
            simp only [Thread.action, hpath]
          refine rank_lt_of_access haction (fun aclMap => ?_) (stage_lt (by decide) 0 0) hf
          split
          · exact stage_lt (by decide) 0 0
          · exact stage_lt (by decide) 0 0
    · exact rank_lt_of_outside rfl (fun _ => stage_lt (by decide) 0 0) hf
  | insertGroup | updateParent =>
    exact rank_lt_of_access rfl (fun _ => stage_lt (by decide) 0 0) (stage_lt (by decide) 0 0) hf
  | invalidate target => exact rank_lt_of_outside rfl (fun _ => stage_lt (by decide) 0 0) hf
  | returned result => exact absurd (.inl ⟨result, rfl⟩) hf.1
  | failed e => exact absurd (.inr ⟨e, rfl⟩) hf.1

theorem live_init (db : Db) (calls : List Call) :
    (StatementSystem.init db calls).Live Thread.action Thread.Finished calls.length where
  guarded := StatementSystem.guarded_init db calls
  acc := by
    intro p hp
    obtain ⟨t, -, rfl⟩ := List.mem_map.1 hp
    have hwf : WellFounded (InvImage (· < ·) Thread.rank) := InvImage.wf Thread.rank wellFounded_lt
    exact acc_ready (Subrelation.accessible rank_lt_of_follows (hwf.apply t))
  length := (List.length_map ..).trans (List.length_map ..)

/-- Under every fair schedule of the database calls all calls end, with a result or an exception, and then the mutex is
free, no transaction is open, and the tables are those of a schedule of atomic steps in which the same calls have ended
alike.  The mutex need not be fair. -/
theorem calls_finish (db : Db) (calls : List Call) {sched : ℕ → ℕ} (hfair : Run.Fair (· < calls.length) sched) :
    ∃ n turns, (turns.Sublist (Run.upTo sched n)) ∧
      (∀ t ∈ ((System.init db calls).run turns).threads, t.Finished) ∧
      ((StatementSystem.init db calls).run (Run.upTo sched n)).memory.mutex = .free ∧
      ((StatementSystem.init db calls).run (Run.upTo sched n)).memory.saved = none ∧
      ((StatementSystem.init db calls).run (Run.upTo sched n)).committed = (System.init db calls).run turns ∧
      ((StatementSystem.init db calls).run (Run.upTo sched n)).memory.shared =
        ((System.init db calls).run turns).manager.db := by
  obtain ⟨n, hn⟩ := Fine.finishes (fun _ => Thread.action_of_finished) (live_init db calls) hfair
  obtain ⟨turns, hsub, hcoarse⟩ :=
    Fine.run_simulates Thread.action (StatementSystem.guarded_init db calls) (Run.upTo sched n)
  have hrun := StatementSystem.committed_eq hcoarse
  obtain ⟨hfree, hnone⟩ := (Fine.guarded_run Thread.action (StatementSystem.guarded_init db calls)
    (Run.upTo sched n)).free_of_atEnd hn
  have hthreads : ((System.init db calls).run turns).threads =
      ((StatementSystem.init db calls).run (Run.upTo sched n)).parties.map Party.coarse := by
    rw [← hrun]
    rfl
  refine ⟨n, turns, hsub, fun t ht => ?_, hfree, hnone, hrun, ?_⟩
  · rw [hthreads] at ht
    obtain ⟨p, hp, rfl⟩ := List.mem_map.1 ht
    obtain ⟨t, rfl, hfinished⟩ := hn p hp
    exact hfinished
  · rw [← hrun]
    show _ = Memory.committed _
    unfold Memory.committed
    rw [hnone]
    rfl

/-- The parties take turns. -/
theorem fair_alternating {n : ℕ} (hn : 0 < n) : Run.Fair (· < n) fun k => k % n := by
  intro i hi k
  refine ⟨n * k + i, ?_, ?_⟩
  · exact (Nat.le_mul_of_pos_left k hn).trans (Nat.le_add_right _ i)
  · show (n * k + i) % n = i
    rw [Nat.mul_add_mod, Nat.mod_eq_of_lt hi]

theorem calls_finish_torn :
    ∃ n turns, (turns.Sublist (Run.upTo (· % 2) n)) ∧
      (∀ t ∈ ((System.init tornDb tornCalls).run turns).threads, t.Finished) ∧
      ((StatementSystem.init tornDb tornCalls).run (Run.upTo (· % 2) n)).memory.mutex = .free ∧
      ((StatementSystem.init tornDb tornCalls).run (Run.upTo (· % 2) n)).memory.saved = none ∧
      ((StatementSystem.init tornDb tornCalls).run (Run.upTo (· % 2) n)).committed =
        (System.init tornDb tornCalls).run turns ∧
      ((StatementSystem.init tornDb tornCalls).run (Run.upTo (· % 2) n)).memory.shared =
        ((System.init tornDb tornCalls).run turns).manager.db :=
  calls_finish tornDb tornCalls (fair_alternating two_pos)

end BakaPerms
