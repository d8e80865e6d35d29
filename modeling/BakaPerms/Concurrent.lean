import BakaPerms.Lib.Run
import BakaPerms.Token

/-!
# Concurrent calls

The calls of the manager as parties that take atomic steps on one shared manager.  An atomic step is one call of the
repository or one critical section of the cache lock; a transaction commits in one step.  A check reads the cache
with the generation, then the player's groups, the ancestry of each group, the ACLs, and finally stores its result;
a writer commits and then invalidates.  A system is a manager with any number of parties, and a schedule lists which
of them takes the next step.  A call that nobody interrupts does what the function of the manager does
(`iterate_step_eq_run`).
-/

namespace BakaPerms

open PermissionResolver (buildNodePath resolve)
open Effect PermissionManager

/-- The calls of the manager that use the cache or change the database.  `invalidate` is a reload (`none`) or the
disconnect of a player. -/
inductive Call
  | checkPermission (playerUuid node : String)
  | appendACE (now node subjectUuid : String) (subjectType : Int) (mask : AccessMask)
  | insertACE (now node : String) (position : Int) (subjectUuid : String) (subjectType : Int) (mask : AccessMask)
  | removeACE (node : String) (position : Int)
  | moveACE (node : String) (fromIndex toIndex : Int)
  | clearNodeACL (node : String)
  | createGroup (uuid name : String) (parentUuid : Option String)
  | deleteGroup (groupUuid : String)
  | setGroupParent (groupUuid : String) (parentUuid : Option String)
  | addPlayerToGroup (playerUuid groupUuid : String)
  | removePlayerFromGroup (playerUuid groupUuid : String)
  | invalidate (target : Option String)
  deriving DecidableEq

/-- The call as a function of the manager; only a check has a result. -/
def Call.run : Call → ManagerM (Option AccessMask)
  | checkPermission playerUuid node => some <$> PermissionManager.checkPermission playerUuid node
  | appendACE now node subjectUuid subjectType mask =>
    (fun _ => none) <$> PermissionManager.appendACE now node subjectUuid subjectType mask
  | insertACE now node position subjectUuid subjectType mask =>
    (fun _ => none) <$> PermissionManager.insertACE now node position subjectUuid subjectType mask
  | removeACE node position => (fun _ => none) <$> PermissionManager.removeACE node position
  | moveACE node fromIndex toIndex => (fun _ => none) <$> PermissionManager.moveACE node fromIndex toIndex
  | clearNodeACL node => (fun _ => none) <$> PermissionManager.clearNodeACL node
  | createGroup uuid name parentUuid => (fun _ => none) <$> PermissionManager.createGroup uuid name parentUuid
  | deleteGroup groupUuid => (fun _ => none) <$> PermissionManager.deleteGroup groupUuid
  | setGroupParent groupUuid parentUuid =>
    (fun _ => none) <$> PermissionManager.setGroupParent groupUuid parentUuid
  | addPlayerToGroup playerUuid groupUuid =>
    (fun _ => none) <$> PermissionManager.addPlayerToGroup playerUuid groupUuid
  | removePlayerFromGroup playerUuid groupUuid =>
    (fun _ => none) <$> PermissionManager.removePlayerFromGroup playerUuid groupUuid
  | invalidate target => (fun _ => none) <$> (modify (PermissionManager.invalidate · target) : ManagerM Unit)

/-- How far a check that missed the cache has come: before the query of the player's groups, before the ancestry
queries of the groups in `todo` and the ACL query, or before the second critical section. -/
inductive CheckState
  | readGroups
  | reading (token : AccessToken) (todo : List GroupInfo)
  | store (result : AccessMask)

/-- A party: a call that has not started, is on its way, has returned or has thrown. -/
inductive Thread
  | start (call : Call)
  | check (playerUuid node : String) (gen : Nat) (state : CheckState)
  | insertGroup (uuid name : String) (parentUuid : Option String)
  | updateParent (groupUuid parentUuid : String)
  | invalidate (target : Option String)
  | returned (result : Option AccessMask)
  | failed (e : Exn)

/-- A repository call as one atomic step. -/
def commit {α : Type} (m : PermissionManager) (x : DbM α) (next : α → Thread) : PermissionManager × Thread :=
  match x m.db with
  | .ok a db => ({ m with db := db }, next a)
  | .error e db => ({ m with db := db }, .failed e)

/-- The end of `resolvePermission`: the ACL query and the resolver. -/
def decideACL (db : Db) (node : String) (token : AccessToken) : Except Exn AccessMask := do
  let nodePath ← buildNodePath node
  let aclMap ← PermissionRepository.getNodeACLBatch db nodePath
  resolve node token (batchProvider aclMap)

/-- The first step of a call. -/
def Call.step (m : PermissionManager) : Call → PermissionManager × Thread
  | checkPermission playerUuid node =>
    match m.cache playerUuid node with
    | some mask => (m, .returned (some mask))
    | none => (m, .check playerUuid node m.cacheGeneration .readGroups)
  | appendACE now node subjectUuid subjectType mask =>
    commit m (PermissionRepository.appendACE now node subjectUuid subjectType mask) fun _ => .invalidate none
  | insertACE now node position subjectUuid subjectType mask =>
    commit m (PermissionRepository.insertACE now node position subjectUuid subjectType mask) fun _ => .invalidate none
  | removeACE node position => commit m (PermissionRepository.removeACE node position) fun _ => .invalidate none
  | moveACE node fromIndex toIndex =>
    commit m (PermissionRepository.moveACE node fromIndex toIndex) fun _ => .invalidate none
  | clearNodeACL node => commit m (PermissionRepository.clearNodeACL node) fun _ => .invalidate none
  | createGroup uuid name parentUuid =>
    if (PermissionRepository.getGroupByName m.db name).isSome then
      (m, .failed (.operationFailed "bakaperms.exception.detail.group_exists" [name]))
    else (m, .insertGroup uuid name parentUuid)
  | deleteGroup groupUuid => commit m (PermissionRepository.deleteGroup groupUuid) fun _ => .invalidate none
  | setGroupParent groupUuid none =>
    commit m (PermissionRepository.setGroupParent groupUuid none) fun _ => .invalidate none
  | setGroupParent groupUuid (some parentUuid) =>
    -- the check and the update are two steps: a commit of another party can come between them
    if wouldCreateCycle m.db groupUuid parentUuid then
      (m, .failed (.operationFailed "bakaperms.exception.detail.group_cycle" []))
    else (m, .updateParent groupUuid parentUuid)
  | addPlayerToGroup playerUuid groupUuid =>
    commit m (PermissionRepository.addPlayerToGroup playerUuid groupUuid) fun changed =>
      if changed then .invalidate (some playerUuid) else .returned none
  | removePlayerFromGroup playerUuid groupUuid =>
    commit m (PermissionRepository.removePlayerFromGroup playerUuid groupUuid) fun changed =>
      if changed then .invalidate (some playerUuid) else .returned none
  | invalidate target => (m.invalidate target, .returned none)

/-- The next step of a party. -/
def Thread.step (m : PermissionManager) : Thread → PermissionManager × Thread
  | start call => call.step m
  | check playerUuid node gen .readGroups =>
    let groups := PermissionRepository.getPlayerGroups m.db playerUuid
    (m, .check playerUuid node gen
      (.reading (addDirectGroups (AccessToken.empty.add playerUuid .subject) groups) groups))
  | check playerUuid node gen (.reading token (group :: todo)) =>
    let ancestry := PermissionRepository.getGroupAncestry m.db group.uuid
    (m, .check playerUuid node gen (.reading (addAncestry token ancestry) todo))
  | check playerUuid node gen (.reading token []) =>
    match decideACL m.db node token with
    | .ok result => (m, .check playerUuid node gen (.store result))
    | .error e => (m, .failed e)
  | check playerUuid node gen (.store result) =>
    (m.storeResult playerUuid node gen result, .returned (some result))
  | insertGroup uuid name parentUuid =>
    commit m (PermissionRepository.createGroup uuid name parentUuid) fun _ => .returned none
  | updateParent groupUuid parentUuid =>
    commit m (PermissionRepository.setGroupParent groupUuid (some parentUuid)) fun _ => .invalidate none
  | invalidate target => (m.invalidate target, .returned none)
  | returned result => (m, .returned result)
  | failed e => (m, .failed e)

/-- A manager that is used by any number of parties. -/
structure System where
  manager : PermissionManager
  threads : List Thread

/-- The party with the index takes a step. -/
def System.step (s : System) (i : Nat) : System :=
  match s.threads[i]? with
  | some t => ⟨(t.step s.manager).1, s.threads.set i (t.step s.manager).2⟩
  | none => s

/-- The system before the first step of any call, with an empty cache. -/
def System.init (db : Db) (calls : List Call) : System := ⟨.init db, calls.map .start⟩

/-- The system after a schedule. -/
abbrev System.run (s : System) (sched : List Nat) : System := Run.run System.step s sched

theorem System.step_cases (s : System) (i : Nat) :
    (s.threads[i]? = none ∧ s.step i = s) ∨
      ∃ t, s.threads[i]? = some t ∧ (s.step i).manager = (t.step s.manager).1 ∧
        (s.step i).threads = s.threads.set i (t.step s.manager).2 := by
  unfold System.step
  cases h : s.threads[i]? with
  | none => exact .inl ⟨rfl, rfl⟩
  | some t => exact .inr ⟨t, rfl, rfl, rfl⟩

/-- A step of the system moves one party. -/
theorem System.getElem?_step {s : System} {i : Nat} {t : Thread} (ht : s.threads[i]? = some t) (j : Nat) :
    (s.step j).threads[i]? = some (if j = i then (t.step s.manager).2 else t) := by
  rcases s.step_cases j with ⟨hnone, heq⟩ | ⟨u, hu, -, hthreads⟩
  · have hji : j ≠ i := by
      rintro rfl
      rw [ht] at hnone
      cases hnone
    rw [heq, if_neg hji, ht]
  · rw [hthreads]
    by_cases hji : j = i
    · subst hji
      rw [ht, Option.some.injEq] at hu
      subst hu
      obtain ⟨hlt, -⟩ := List.getElem?_eq_some_iff.1 ht
      rw [List.getElem?_set_self hlt, if_pos rfl]
    · rw [List.getElem?_set_ne hji, if_neg hji, ht]

/-- Where a party comes from. -/
theorem System.exists_of_getElem?_step {s : System} {j k : Nat} {t' : Thread}
    (h : (s.step j).threads[k]? = some t') :
    ∃ t, s.threads[k]? = some t ∧ (j = k → (s.step j).manager = (t.step s.manager).1) ∧
      t' = if j = k then (t.step s.manager).2 else t := by
  have hlength : (s.step j).threads.length = s.threads.length := by
    rcases s.step_cases j with ⟨-, heq⟩ | ⟨u, -, -, hthreads⟩
    · rw [heq]
    · rw [hthreads, List.length_set]
  obtain ⟨hk, -⟩ := List.getElem?_eq_some_iff.1 h
  have ht : s.threads[k]? = some s.threads[k] := List.getElem?_eq_getElem (hlength ▸ hk)
  refine ⟨_, ht, fun hjk => ?_, ?_⟩
  · subst hjk
    rcases s.step_cases j with ⟨hnone, -⟩ | ⟨u, hu, hm, -⟩
    · rw [hnone] at ht
      cases ht
    · rw [hu, Option.some.injEq] at ht
      rw [hm, ht]
  · rw [System.getElem?_step ht j, Option.some.injEq] at h
    exact h.symm

theorem mem_set_of_ne {l : List Thread} {i : Nat} {t t' u : Thread} (ht : l[i]? = some t) (hu : u ∈ l)
    (hne : u ≠ t) : u ∈ l.set i t' := by
  obtain ⟨j, hj⟩ := List.mem_iff_getElem?.1 hu
  have hij : i ≠ j := by
    rintro rfl
    rw [ht] at hj
    exact hne (Option.some.inj hj).symm
  exact List.mem_iff_getElem?.2 ⟨j, by rwa [List.getElem?_set_ne hij]⟩

theorem mem_set_self_of_getElem? {l : List Thread} {i : Nat} {t t' : Thread} (ht : l[i]? = some t) :
    t' ∈ l.set i t' := by
  obtain ⟨hlt, -⟩ := List.getElem?_eq_some_iff.1 ht
  exact List.mem_set hlt t'

/-! ### The steps of a check -/

/-- A query of a check on its way. -/
inductive CheckStep (db : Db) (p node : String) : CheckState → CheckState → Prop
  | groups : CheckStep db p node .readGroups
      (.reading (addDirectGroups (AccessToken.empty.add p .subject) (PermissionRepository.getPlayerGroups db p))
        (PermissionRepository.getPlayerGroups db p))
  | ancestry (token : AccessToken) (group : GroupInfo) (todo : List GroupInfo) :
    CheckStep db p node (.reading token (group :: todo))
      (.reading (addAncestry token (PermissionRepository.getGroupAncestry db group.uuid)) todo)
  | decide (token : AccessToken) (result : AccessMask) (h : decideACL db node token = .ok result) :
    CheckStep db p node (.reading token []) (.store result)

/-- A check on its way makes a query, returns what it stores, or throws. -/
theorem Thread.check_step (m : PermissionManager) (p node : String) (gen : Nat) (state : CheckState) :
    (∃ state', ((Thread.check p node gen state).step m).2 = .check p node gen state' ∧
      CheckStep m.db p node state state') ∨
    (∃ result, state = .store result ∧ ((Thread.check p node gen state).step m).2 = .returned (some result)) ∨
    ∃ e, ((Thread.check p node gen state).step m).2 = .failed e := by
  rcases state with _ | ⟨token, todo⟩ | result
  · exact .inl ⟨_, rfl, .groups⟩
  · cases todo with
    | cons group todo => exact .inl ⟨_, rfl, .ancestry token group todo⟩
    | nil =>
      simp only [Thread.step]
      cases hd : decideACL m.db node token with
      | ok result => exact .inl ⟨_, rfl, .decide token result hd⟩
      | error e => exact .inr (.inr ⟨e, rfl⟩)
  · exact .inr (.inl ⟨result, rfl, rfl⟩)

theorem storeResult_db (m : PermissionManager) (playerUuid node : String) (gen : Nat) (result : AccessMask) :
    (m.storeResult playerUuid node gen result).db = m.db := by
  unfold storeResult
  split <;> rfl

/-- A check does not change the database. -/
theorem Thread.check_step_db (m : PermissionManager) (p node : String) (gen : Nat) (state : CheckState) :
    ((Thread.check p node gen state).step m).1.db = m.db := by
  rcases state with _ | ⟨token, todo⟩ | result
  · rfl
  · cases todo with
    | cons group todo => rfl
    | nil =>
      simp only [Thread.step]
      split <;> rfl
  · exact storeResult_db ..

theorem Call.check_step_db (m : PermissionManager) (p node : String) :
    ((Call.checkPermission p node).step m).1.db = m.db := by
  simp only [Call.step]
  split <;> rfl

private theorem commit_snd_ne_check {α : Type} {m : PermissionManager} {x : DbM α} {next : α → Thread}
    {p node : String} {gen : Nat} {state : CheckState} (hn : ∀ a, next a ≠ .check p node gen state) :
    (commit m x next).2 ≠ .check p node gen state := by
  unfold commit
  cases x m.db with
  | ok a db => exact hn a
  | error e db => simp

private theorem call_step_check {m : PermissionManager} {call : Call} {p node : String} {gen : Nat}
    {state : CheckState} (h : (call.step m).2 = .check p node gen state) :
    call = .checkPermission p node ∧ m.cache p node = none ∧ gen = m.cacheGeneration ∧ state = .readGroups := by
  cases call with
  | checkPermission playerUuid node' =>
    simp only [Call.step] at h
    cases hc : m.cache playerUuid node' with
    | some mask => simp [hc] at h
    | none =>
      simp only [hc, Thread.check.injEq] at h
      obtain ⟨rfl, rfl, rfl, rfl⟩ := h
      exact ⟨rfl, hc, rfl, rfl⟩
  | createGroup uuid name parentUuid =>
    simp only [Call.step] at h
    split at h <;> cases h
  | setGroupParent groupUuid parentUuid =>
    cases parentUuid with
    | none => exact absurd h (commit_snd_ne_check (by simp))
    | some parent =>
      simp only [Call.step] at h
      split at h <;> cases h
  | addPlayerToGroup playerUuid groupUuid => exact absurd h (commit_snd_ne_check fun a => by split <;> simp)
  | removePlayerFromGroup playerUuid groupUuid => exact absurd h (commit_snd_ne_check fun a => by split <;> simp)
  | invalidate target => cases h
  | appendACE | insertACE | removeACE | moveACE | clearNodeACL | deleteGroup =>
    exact absurd h (commit_snd_ne_check (by simp))

/-- A party that is a check after a step has just missed the cache, or was the same check and made a query. -/
theorem Thread.step_check {m : PermissionManager} {t : Thread} {p node : String} {gen : Nat} {state : CheckState}
    (h : (t.step m).2 = .check p node gen state) :
    (t = .start (.checkPermission p node) ∧ m.cache p node = none ∧ gen = m.cacheGeneration ∧ state = .readGroups) ∨
      ∃ state₀, t = .check p node gen state₀ ∧ CheckStep m.db p node state₀ state := by
  cases t with
  | start call =>
    obtain ⟨rfl, hc, hgen, hstate⟩ := call_step_check h
    exact .inl ⟨rfl, hc, hgen, hstate⟩
  | check p' node' gen' state₀ =>
    rcases Thread.check_step m p' node' gen' state₀ with ⟨state', hnext, hstep⟩ | ⟨result, -, hnext⟩ | ⟨e, hnext⟩
    · rw [hnext, Thread.check.injEq] at h
      obtain ⟨rfl, rfl, rfl, rfl⟩ := h
      exact .inr ⟨state₀, rfl, hstep⟩
    · rw [hnext] at h
      cases h
    · rw [hnext] at h
      cases h
  | insertGroup => exact absurd h (commit_snd_ne_check (by simp))
  | updateParent => exact absurd h (commit_snd_ne_check (by simp))
  | invalidate => cases h
  | returned => cases h
  | failed => cases h

/-! ### Calls without interruption -/

/-- A party alone on the manager. -/
def stepAlone (c : PermissionManager × Thread) : PermissionManager × Thread := c.2.step c.1

/-- The end of a call that does what the function does. -/
def outcome : EStateM.Result Exn PermissionManager (Option AccessMask) → PermissionManager × Thread
  | .ok result m => (m, .returned result)
  | .error e m => (m, .failed e)

theorem resolvePermission_eq_decideACL (db : Db) (playerUuid node : String) :
    resolvePermission db playerUuid node = decideACL db node (buildToken db .player playerUuid) := rfl

/-- The token after the ancestry queries of the groups in `todo`. -/
def finishToken (db : Db) (token : AccessToken) (todo : List GroupInfo) : AccessToken :=
  todo.foldl (fun token group => addAncestry token (PermissionRepository.getGroupAncestry db group.uuid)) token

theorem iterate_reading (m : PermissionManager) (playerUuid node : String) (gen : Nat) (token : AccessToken)
    (todo : List GroupInfo) :
    stepAlone^[todo.length] (m, .check playerUuid node gen (.reading token todo)) =
      (m, .check playerUuid node gen (.reading (finishToken m.db token todo) [])) := by
  induction todo generalizing token with
  | nil => rfl
  | cons group todo ih =>
    rw [List.length_cons, Function.iterate_succ_apply]
    exact ih _

/-- A writer that commits in its first step and then invalidates. -/
private theorem iterate_writer {m : PermissionManager} {c : Thread} {x : DbM Unit}
    (h : c.step m = commit m x fun _ => .invalidate none) :
    ∃ n, stepAlone^[n] (m, c) =
      outcome (((fun _ => none) <$> (do repo x; invalidateAll) : ManagerM (Option AccessMask)) m) := by
  cases hx : x m.db with
  | ok a db =>
    have hfirst : stepAlone (m, c) = ({ m with db := db }, .invalidate none) := by
      simp only [stepAlone, h, commit, hx]
    refine ⟨2, ?_⟩
    rw [Function.iterate_succ_apply, hfirst, map_of_ok (writer_of_ok hx)]
    rfl
  | error e db =>
    refine ⟨1, ?_⟩
    rw [map_of_error (writer_of_error hx)]
    simp only [Function.iterate_one, stepAlone, h, commit, hx, outcome]

/-- A change of a membership, which invalidates only when it changed a row. -/
private theorem iterate_membership {m : PermissionManager} {c : Thread} {x : DbM Bool} {playerUuid : String}
    (h : c.step m = commit m x fun changed => if changed then .invalidate (some playerUuid) else .returned none) :
    ∃ n, stepAlone^[n] (m, c) =
      outcome (((fun _ => none) <$> (do
        if ← repo x then
          invalidatePlayer playerUuid
          return true
        else return false) : ManagerM (Option AccessMask)) m) := by
  cases hx : x m.db with
  | ok changed db =>
    rw [map_of_ok (membership_of_ok hx playerUuid)]
    cases changed with
    | true =>
      have hfirst : stepAlone (m, c) = ({ m with db := db }, .invalidate (some playerUuid)) := by
        simp only [stepAlone, h, commit, hx, ↓reduceIte]
      refine ⟨2, ?_⟩
      rw [Function.iterate_succ_apply, hfirst]
      rfl
    | false =>
      refine ⟨1, ?_⟩
      simp only [Function.iterate_one, stepAlone, h, commit, hx, outcome, Bool.false_eq_true, ↓reduceIte]
  | error e db =>
    refine ⟨1, ?_⟩
    rw [map_of_error (membership_of_error hx playerUuid)]
    simp only [Function.iterate_one, stepAlone, h, commit, hx, outcome]

/-- A check that misses the cache reads the token of the player. -/
theorem iterate_missed {m : PermissionManager} {playerUuid node : String} (hc : m.cache playerUuid node = none) :
    stepAlone^[(PermissionRepository.getPlayerGroups m.db playerUuid).length + 2]
        (m, .start (.checkPermission playerUuid node)) =
      (m, .check playerUuid node m.cacheGeneration (.reading (buildToken m.db .player playerUuid) [])) := by
  have hfirst : stepAlone (m, .start (.checkPermission playerUuid node)) =
      (m, .check playerUuid node m.cacheGeneration .readGroups) := by
    simp only [stepAlone, Thread.step, Call.step, hc]
  have hgroups := iterate_reading m playerUuid node m.cacheGeneration
    (addDirectGroups (AccessToken.empty.add playerUuid .subject)
      (PermissionRepository.getPlayerGroups m.db playerUuid)) (PermissionRepository.getPlayerGroups m.db playerUuid)
  rw [Function.iterate_add_apply, Function.iterate_succ_apply, hfirst, Function.iterate_one]
  exact hgroups

private theorem iterate_check (m : PermissionManager) (playerUuid node : String) :
    ∃ n, stepAlone^[n] (m, .start (.checkPermission playerUuid node)) =
      outcome ((Call.checkPermission playerUuid node).run m) := by
  have hrun : (Call.checkPermission playerUuid node).run m =
      (some <$> PermissionManager.checkPermission playerUuid node) m := rfl
  rw [hrun]
  cases hc : m.cache playerUuid node with
  | some mask =>
    refine ⟨1, ?_⟩
    rw [map_of_ok (checkPermission_of_cached hc)]
    simp only [Function.iterate_one, stepAlone, Thread.step, Call.step, hc, outcome]
  | none =>
    have hread := iterate_missed hc
    have hcheck := checkPermission_of_missed hc
    rw [resolvePermission_eq_decideACL] at hcheck
    cases hd : decideACL m.db node (buildToken m.db .player playerUuid) with
    | ok result =>
      rw [hd] at hcheck
      refine ⟨2 + ((PermissionRepository.getPlayerGroups m.db playerUuid).length + 2), ?_⟩
      rw [Function.iterate_add_apply, hread, Function.iterate_succ_apply, Function.iterate_one, map_of_ok hcheck]
      simp only [stepAlone, Thread.step, hd, outcome]
    | error e =>
      rw [hd] at hcheck
      refine ⟨1 + ((PermissionRepository.getPlayerGroups m.db playerUuid).length + 2), ?_⟩
      rw [Function.iterate_add_apply, hread, Function.iterate_one, map_of_error hcheck]
      simp only [stepAlone, Thread.step, hd, outcome]

private theorem iterate_createGroup (m : PermissionManager) (uuid name : String) (parentUuid : Option String) :
    ∃ n, stepAlone^[n] (m, .start (.createGroup uuid name parentUuid)) =
      outcome ((Call.createGroup uuid name parentUuid).run m) := by
  have hrun : (Call.createGroup uuid name parentUuid).run m =
      ((fun _ => none) <$> PermissionManager.createGroup uuid name parentUuid) m := rfl
  rw [hrun]
  by_cases hn : (PermissionRepository.getGroupByName m.db name).isSome
  · refine ⟨1, ?_⟩
    rw [map_of_error (createGroup_of_exists hn uuid parentUuid)]
    simp only [Function.iterate_one, stepAlone, Thread.step, Call.step, hn, ↓reduceIte, outcome]
  · have hfirst : stepAlone (m, .start (.createGroup uuid name parentUuid)) =
        (m, .insertGroup uuid name parentUuid) := by
      simp only [stepAlone, Thread.step, Call.step, hn, ↓reduceIte, Bool.false_eq_true]
    refine ⟨2, ?_⟩
    rw [Function.iterate_succ_apply, hfirst, Function.iterate_one]
    cases hx : PermissionRepository.createGroup uuid name parentUuid m.db with
    | ok a db =>
      have hcall := (createGroup_of_new hn uuid parentUuid).trans (map_of_ok (repo_of_ok hx) _)
      rw [map_of_ok hcall]
      simp only [stepAlone, Thread.step, commit, hx, outcome]
    | error e db =>
      have hcall := (createGroup_of_new hn uuid parentUuid).trans (map_of_error (repo_of_error hx) _)
      rw [map_of_error hcall]
      simp only [stepAlone, Thread.step, commit, hx, outcome]

private theorem iterate_setGroupParent (m : PermissionManager) (groupUuid : String) (parentUuid : Option String) :
    ∃ n, stepAlone^[n] (m, .start (.setGroupParent groupUuid parentUuid)) =
      outcome ((Call.setGroupParent groupUuid parentUuid).run m) := by
  cases parentUuid with
  | none => exact iterate_writer rfl
  | some parent =>
    have hrun : (Call.setGroupParent groupUuid (some parent)).run m =
        ((fun _ => none) <$> PermissionManager.setGroupParent groupUuid (some parent)) m := rfl
    rw [hrun]
    by_cases hcycle : (some parent).any (wouldCreateCycle m.db groupUuid)
    · refine ⟨1, ?_⟩
      rw [map_of_error (setGroupParent_of_cycle hcycle)]
      rw [Option.any_some] at hcycle
      simp only [Function.iterate_one, stepAlone, Thread.step, Call.step, hcycle, ↓reduceIte, outcome]
    · have hfirst : stepAlone (m, .start (.setGroupParent groupUuid (some parent))) =
          (m, .updateParent groupUuid parent) := by
        rw [Option.any_some] at hcycle
        simp only [stepAlone, Thread.step, Call.step, hcycle, ↓reduceIte, Bool.false_eq_true]
      obtain ⟨n, hn⟩ := iterate_writer (m := m) (c := .updateParent groupUuid parent) rfl
      refine ⟨n + 1, ?_⟩
      rw [Function.iterate_succ_apply, hfirst, hn, map_congr (setGroupParent_of_noCycle hcycle)]

/-- A call that nobody interrupts ends as the function of the manager does, with the same manager. -/
theorem iterate_step_eq_run (m : PermissionManager) (call : Call) :
    ∃ n, stepAlone^[n] (m, .start call) = outcome (call.run m) := by
  cases call with
  | checkPermission playerUuid node => exact iterate_check m playerUuid node
  | createGroup uuid name parentUuid => exact iterate_createGroup m uuid name parentUuid
  | setGroupParent groupUuid parentUuid => exact iterate_setGroupParent m groupUuid parentUuid
  | addPlayerToGroup playerUuid groupUuid => exact iterate_membership rfl
  | removePlayerFromGroup playerUuid groupUuid => exact iterate_membership rfl
  | invalidate target => exact ⟨1, rfl⟩
  | appendACE now node subjectUuid subjectType mask => exact iterate_writer rfl
  | insertACE now node position subjectUuid subjectType mask => exact iterate_writer rfl
  | removeACE node position => exact iterate_writer rfl
  | moveACE node fromIndex toIndex => exact iterate_writer rfl
  | clearNodeACL node => exact iterate_writer rfl
  | deleteGroup groupUuid => exact iterate_writer rfl

end BakaPerms
