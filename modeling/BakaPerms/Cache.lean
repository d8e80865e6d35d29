import BakaPerms.Concurrent

/-!
# The cache under concurrency

Every cached decision is the decision on the current database, or a party that has committed is about to erase it
(`Coherent`).  What a step can do is said once (`Thread.step_agrees`): for each player, either the queries of a
check of that player return the same on the database after the step (`Agrees`), or the step leaves behind a party
that will erase the player's entries (`Erases`).  Checks on their way are covered as well: what they have read is
still good (`Consistent`), or the generation they remember is old, or such a party is pending.
-/

namespace BakaPerms

open Effect PermissionRepository PermissionManager

/-- The party is between its commit and an invalidation that erases the player's entries. -/
def Erases (p : String) (t : Thread) : Prop := t = .invalidate none ∨ t = .invalidate (some p)

def Pending (p : String) (s : System) : Prop := ∃ t ∈ s.threads, Erases p t

/-- The queries of a check of the player return the same on both databases. -/
structure Agrees (p : String) (db db' : Db) : Prop where
  groups : db.groupUuids ⊆ db'.groupUuids
  playerGroups : getPlayerGroups db' p = getPlayerGroups db p
  ancestry : ∀ g ∈ db.groupUuids, getGroupAncestry db' g = getGroupAncestry db g
  permissions : db'.permissions = db.permissions

theorem Agrees.refl (p : String) (db : Db) : Agrees p db db := ⟨fun _ h => h, rfl, fun _ _ => rfl, rfl⟩

theorem decideACL_congr {db db' : Db} (h : db'.permissions = db.permissions) (node : String) (token : AccessToken) :
    decideACL db' node token = decideACL db node token := by
  unfold decideACL getNodeACLBatch
  rw [h]

theorem Agrees.finishToken_eq {p : String} {db db' : Db} (h : Agrees p db db') {todo : List GroupInfo}
    (ht : ∀ group ∈ todo, group.uuid ∈ db.groupUuids) (token : AccessToken) :
    finishToken db' token todo = finishToken db token todo := by
  induction todo generalizing token with
  | nil => rfl
  | cons group todo ih =>
    have hgroup := h.ancestry group.uuid (ht group (List.mem_cons_self ..))
    show finishToken db' (addAncestry token (getGroupAncestry db' group.uuid)) todo = _
    rw [hgroup]
    exact ih (fun g hg => ht g (List.mem_cons_of_mem _ hg)) _

theorem uuid_mem_of_mem_getPlayerGroups {db : Db} {p : String} {group : GroupInfo}
    (h : group ∈ getPlayerGroups db p) : group.uuid ∈ db.groupUuids :=
  (mem_getPlayerGroups.1 (List.mem_map_of_mem h)).2

theorem buildToken_eq_finishToken (db : Db) (p : String) :
    buildToken db .player p =
      finishToken db (addDirectGroups (AccessToken.empty.add p .subject) (getPlayerGroups db p))
        (getPlayerGroups db p) := rfl

theorem Agrees.buildToken_eq {p : String} {db db' : Db} (h : Agrees p db db') :
    buildToken db' .player p = buildToken db .player p := by
  rw [buildToken_eq_finishToken, buildToken_eq_finishToken, h.playerGroups]
  exact h.finishToken_eq (fun _ => uuid_mem_of_mem_getPlayerGroups) _

theorem Agrees.resolvePermission_eq {p : String} {db db' : Db} (h : Agrees p db db') (node : String) :
    resolvePermission db' p node = resolvePermission db p node := by
  rw [resolvePermission_eq_decideACL, resolvePermission_eq_decideACL, h.buildToken_eq,
    decideACL_congr h.permissions]

/-! ### Changes that a player does not see -/

private theorem filter_uuid_append {groups : List GroupRow} {row : GroupRow} {g : String} (hg : row.uuid ≠ g) :
    (groups ++ [row]).filter (fun r => r.uuid == g) = groups.filter fun r => r.uuid == g := by
  rw [List.filter_append, List.filter_cons_of_neg (by simpa using hg)]
  simp

private theorem parentRows_append {groups level : List GroupRow} {row : GroupRow}
    (h : ∀ a ∈ level, a.parentUuid ≠ some row.uuid) : parentRows (groups ++ [row]) level = parentRows groups level := by
  unfold parentRows
  refine List.flatMap_congr fun a ha => ?_
  rw [List.filter_append, List.filter_cons_of_neg (by simpa using Ne.symm (h a ha))]
  simp

private theorem ancestryRows_append {groups level : List GroupRow} {row : GroupRow}
    (h : ∀ a ∈ groups, a.parentUuid ≠ some row.uuid) (hl : level ⊆ groups) (bound depth : Nat) :
    ancestryRows (groups ++ [row]) bound depth level = ancestryRows groups bound depth level := by
  induction bound generalizing depth level with
  | zero => rfl
  | succ bound ih =>
    have hsub : parentRows groups level ⊆ groups := by
      intro a ha
      obtain ⟨b, -, hab⟩ := List.mem_flatMap.1 ha
      exact List.mem_of_mem_filter hab
    unfold ancestryRows
    rw [parentRows_append fun a ha => h a (hl ha), ih hsub]

/-- A new group is nobody's parent and has no members. -/
theorem agrees_insertGroup {db : Db} (hdb : db.Schema) {row : GroupRow} (hnew : row.uuid ∉ db.groupUuids)
    (p : String) : Agrees p db { db with groups := db.groups ++ [row] } where
  groups := by
    intro u hu
    unfold Db.groupUuids at hu ⊢
    rw [List.map_append]
    exact List.mem_append_left _ hu
  playerGroups := by
    unfold getPlayerGroups playerGroupRows
    congr 2
    refine List.flatMap_congr fun pg hpg => ?_
    have hmem := hdb.membership_exists pg (List.mem_of_mem_filter hpg)
    have hne : pg.groupUuid ≠ row.uuid := fun h => hnew (h ▸ hmem)
    rw [List.filter_append, List.filter_cons_of_neg (by simpa using hne)]
    simp
  ancestry := by
    intro g hg
    have hne : row.uuid ≠ g := fun h => hnew (h ▸ hg)
    have hparent : ∀ a ∈ db.groups, a.parentUuid ≠ some row.uuid :=
      fun a ha hp => hnew (hdb.parent_exists a ha row.uuid hp)
    unfold getGroupAncestry
    simp only [filter_uuid_append hne]
    rw [ancestryRows_append hparent (List.filter_subset_self _)]
  permissions := rfl

/-- A change of the memberships of one player is not seen by another. -/
theorem agrees_of_playerGroups {db : Db} {p : String} {rows : List PlayerGroupRow}
    (h : rows.filter (fun pg => pg.playerUuid == p) = db.playerGroups.filter fun pg => pg.playerUuid == p) :
    Agrees p db { db with playerGroups := rows } where
  groups := fun _ h => h
  playerGroups := by
    unfold getPlayerGroups playerGroupRows
    rw [h]
  ancestry := fun _ _ => rfl
  permissions := rfl

/-! ### What a step does to the database -/

theorem commit_fst {α : Type} (m : PermissionManager) (x : DbM α) (next : α → Thread) :
    (commit m x next).1 = { m with db := final x m.db } := by
  unfold commit final
  cases x m.db <;> rfl

/-- Every player agrees on the step, or the step leaves a party that will erase the player's entries. -/
structure Announced (m : PermissionManager) (r : PermissionManager × Thread) : Prop where
  schema : r.1.db.Schema
  agrees : ∀ p, Erases p r.2 ∨ Agrees p m.db r.1.db

theorem announced_of_db_eq {m : PermissionManager} (hm : m.db.Schema) {r : PermissionManager × Thread}
    (h : r.1.db = m.db) : Announced m r := by
  constructor
  · rw [h]
    exact hm
  · intro p
    rw [h]
    exact .inr (Agrees.refl p m.db)

theorem announced_commit_of_error {α : Type} {m : PermissionManager} (hm : m.db.Schema) {x : DbM α} (ha : Atomic x)
    {next : α → Thread} {e : Exn} {db : Db} (h : x m.db = .error e db) : Announced m (commit m x next) := by
  refine announced_of_db_eq hm ?_
  rw [commit_fst, final_of_error h]
  exact ha h

/-- A writer that invalidates everything after its commit. -/
theorem announced_writer {m : PermissionManager} (hm : m.db.Schema) {x : DbM Unit}
    (hx : Within (Keeps Db.Schema) x) (ha : Atomic x) :
    Announced m (commit m x fun _ => .invalidate none) := by
  cases h : x m.db with
  | ok a db =>
    constructor
    · rw [commit_fst]
      exact hx m.db hm
    · intro p
      unfold commit
      rw [h]
      exact .inl (.inl rfl)
  | error e db => exact announced_commit_of_error hm ha h

theorem announced_createGroup {m : PermissionManager} (hm : m.db.Schema) (uuid name : String)
    (parentUuid : Option String) :
    Announced m (commit m (createGroup uuid name parentUuid) fun _ => .returned none) := by
  cases h : createGroup uuid name parentUuid m.db with
  | ok a db =>
    obtain ⟨⟨hnew, -⟩, hdb⟩ := insertGroup_eq_ok.1 h
    constructor
    · rw [commit_fst]
      exact within_insertGroup _ m.db hm
    · intro p
      rw [commit_fst, final_of_ok h, hdb]
      exact .inr (agrees_insertGroup hm hnew p)
  | error e db => exact announced_commit_of_error hm (atomic_createGroup ..) h

private theorem countP_eq_zero_delete {rows : List PlayerGroupRow} {row : PlayerGroupRow}
    (h : rows.countP (· == row) = 0) : Table.delete (· == row) rows = rows := by
  refine List.filter_eq_self.2 fun r hr => ?_
  have := List.countP_eq_zero.1 h r hr
  simpa using this

/-- A change of a membership, which invalidates its player when it changed a row. -/
theorem announced_addPlayerToGroup {m : PermissionManager} (hm : m.db.Schema) (playerUuid groupUuid : String) :
    Announced m (commit m (addPlayerToGroup playerUuid groupUuid) fun changed =>
      if changed then .invalidate (some playerUuid) else .returned none) := by
  have hschema := within_addPlayerToGroup (within_insertPlayerGroup ⟨playerUuid, groupUuid⟩) m.db hm
  cases h : addPlayerToGroup playerUuid groupUuid m.db with
  | error e db => exact announced_commit_of_error hm (atomic_addPlayerToGroup ..) h
  | ok changed db =>
    obtain ⟨n, db₁, hins, hpure⟩ := bind_eq_ok.1 h
    obtain ⟨rfl, rfl⟩ := pure_eq_ok.1 hpure
    rcases insertPlayerGroup_ok hins with ⟨rfl, rfl⟩ | ⟨rfl, -, -, hdb⟩
    · refine announced_of_db_eq hm ?_
      rw [commit_fst, final_of_ok h]
    · constructor
      · rw [commit_fst]
        exact hschema
      · intro p
        by_cases hp : playerUuid = p
        · subst hp
          unfold commit
          rw [h]
          exact .inl (.inr rfl)
        · rw [commit_fst, final_of_ok h, hdb]
          refine .inr (agrees_of_playerGroups ?_)
          rw [List.filter_append, List.filter_cons_of_neg (by simpa using hp)]
          simp

theorem announced_removePlayerFromGroup {m : PermissionManager} (hm : m.db.Schema) (playerUuid groupUuid : String) :
    Announced m (commit m (removePlayerFromGroup playerUuid groupUuid) fun changed =>
      if changed then .invalidate (some playerUuid) else .returned none) := by
  have hschema := within_removePlayerFromGroup (within_deletePlayerGroup ⟨playerUuid, groupUuid⟩) m.db hm
  have h : removePlayerFromGroup playerUuid groupUuid m.db =
      .ok (decide (0 < m.db.playerGroups.countP (· == ⟨playerUuid, groupUuid⟩)))
        { m.db with playerGroups := Table.delete (· == ⟨playerUuid, groupUuid⟩) m.db.playerGroups } := rfl
  by_cases hzero : m.db.playerGroups.countP (· == ⟨playerUuid, groupUuid⟩) = 0
  · refine announced_of_db_eq hm ?_
    rw [commit_fst, final_of_ok h, countP_eq_zero_delete hzero]
  · constructor
    · rw [commit_fst]
      exact hschema
    · intro p
      by_cases hp : playerUuid = p
      · subst hp
        unfold commit
        rw [h]
        simp only [Nat.pos_of_ne_zero hzero, decide_true, ↓reduceIte]
        exact .inl (.inr rfl)
      · rw [commit_fst, final_of_ok h]
        refine .inr (agrees_of_playerGroups ?_)
        unfold Table.delete
        rw [List.filter_filter]
        refine List.filter_congr fun pg _ => ?_
        by_cases hpg : pg.playerUuid = p
        · have hne : pg ≠ ⟨playerUuid, groupUuid⟩ := by
            rintro rfl
            exact hp hpg
          simp [hpg, hne]
        · simp [hpg]

private theorem announced_call {m : PermissionManager} (hm : m.db.Schema) (call : Call) :
    Announced m (call.step m) := by
  cases call with
  | checkPermission playerUuid node => exact announced_of_db_eq hm (Call.check_step_db ..)
  | appendACE now node subjectUuid subjectType mask =>
    exact announced_writer hm (within_appendACE aclMoves_schema _ _ _ _ _ fun _ => trivial) (atomic_appendACE ..)
  | insertACE now node position subjectUuid subjectType mask =>
    exact announced_writer hm (within_insertACE aclMoves_schema _ _ _ _ _ _ fun _ => trivial) (atomic_insertACE ..)
  | removeACE node position =>
    exact announced_writer hm (within_removeACE aclMoves_schema _ _) (atomic_removeACE ..)
  | moveACE node fromIndex toIndex =>
    exact announced_writer hm (within_moveACE aclMoves_schema _ _ _) (atomic_moveACE ..)
  | clearNodeACL node => exact announced_writer hm (within_clearNodeACL aclMoves_schema _) (atomic_clearNodeACL _)
  | createGroup uuid name parentUuid =>
    refine announced_of_db_eq hm ?_
    simp only [Call.step]
    split <;> rfl
  | deleteGroup groupUuid =>
    exact announced_writer hm (within_deleteGroup aclMoves_schema _ (within_deleteGroupRow _)) (atomic_deleteGroup _)
  | setGroupParent groupUuid parentUuid =>
    cases parentUuid with
    | none => exact announced_writer hm (within_updateGroupParent _ _) (atomic_setGroupParent ..)
    | some parent =>
      refine announced_of_db_eq hm ?_
      simp only [Call.step]
      split <;> rfl
  | addPlayerToGroup playerUuid groupUuid => exact announced_addPlayerToGroup hm playerUuid groupUuid
  | removePlayerFromGroup playerUuid groupUuid => exact announced_removePlayerFromGroup hm playerUuid groupUuid
  | invalidate target => exact announced_of_db_eq hm rfl

/-- Every step keeps the constraints of the schema, and what it changes for a player is announced. -/
theorem Thread.step_agrees {m : PermissionManager} (hm : m.db.Schema) (t : Thread) : Announced m (t.step m) := by
  cases t with
  | start call => exact announced_call hm call
  | check playerUuid node gen state => exact announced_of_db_eq hm (Thread.check_step_db ..)
  | insertGroup uuid name parentUuid => exact announced_createGroup hm uuid name parentUuid
  | updateParent groupUuid parentUuid =>
    exact announced_writer hm (within_updateGroupParent _ _) (atomic_setGroupParent ..)
  | invalidate target => exact announced_of_db_eq hm rfl
  | returned result => exact announced_of_db_eq hm rfl
  | failed e => exact announced_of_db_eq hm rfl

/-! ### Checks on their way -/

/-- What a check has read is what it would read now. -/
def Consistent (db : Db) (p node : String) : CheckState → Prop
  | .readGroups => True
  | .reading token todo =>
    (∀ group ∈ todo, group.uuid ∈ db.groupUuids) ∧ finishToken db token todo = buildToken db .player p
  | .store result => resolvePermission db p node = .ok result

theorem Agrees.consistent {p node : String} {db db' : Db} (h : Agrees p db db') {state : CheckState}
    (hs : Consistent db p node state) : Consistent db' p node state := by
  cases state with
  | readGroups => trivial
  | reading token todo =>
    refine ⟨fun group hg => h.groups (hs.1 group hg), ?_⟩
    rw [h.finishToken_eq hs.1, h.buildToken_eq]
    exact hs.2
  | store result => exact (h.resolvePermission_eq node).trans hs

theorem CheckStep.consistent {db : Db} {p node : String} {state state' : CheckState}
    (h : CheckStep db p node state state') (hc : Consistent db p node state) : Consistent db p node state' := by
  cases h with
  | groups => exact ⟨fun group => uuid_mem_of_mem_getPlayerGroups, rfl⟩
  | ancestry token group todo => exact ⟨fun g hg => hc.1 g (List.mem_cons_of_mem _ hg), hc.2⟩
  | decide token result hd =>
    have htoken : token = buildToken db .player p := hc.2
    show resolvePermission db p node = .ok result
    rw [resolvePermission_eq_decideACL, ← htoken, hd]

/-- The steps that do not touch the cache. -/
theorem Thread.step_cache (m : PermissionManager) (t : Thread) :
    ((t.step m).1.cache = m.cache ∧ (t.step m).1.cacheGeneration = m.cacheGeneration ∧ ∀ p, ¬ Erases p t) ∨
      (∃ target, (t = .invalidate target ∨ t = .start (.invalidate target)) ∧
        t.step m = (m.invalidate target, .returned none)) ∨
      ∃ p node gen result, t = .check p node gen (.store result) ∧
        t.step m = (m.storeResult p node gen result, .returned (some result)) := by
  have hcommit : ∀ {α : Type} (x : DbM α) (next : α → Thread), (commit m x next).1.cache = m.cache ∧
      (commit m x next).1.cacheGeneration = m.cacheGeneration := by
    intro α x next
    rw [commit_fst]
    exact ⟨rfl, rfl⟩
  cases t with
  | start call =>
    cases call with
    | invalidate target => exact .inr (.inl ⟨target, .inr rfl, rfl⟩)
    | checkPermission playerUuid node =>
      left
      simp only [Thread.step, Call.step, Erases]
      cases m.cache playerUuid node <;> simp
    | createGroup uuid name parentUuid =>
      left
      simp only [Thread.step, Call.step, Erases]
      split <;> simp
    | setGroupParent groupUuid parentUuid =>
      left
      cases parentUuid with
      | none => exact ⟨(hcommit ..).1, (hcommit ..).2, by simp [Erases]⟩
      | some parent =>
        simp only [Thread.step, Call.step, Erases]
        split <;> simp
    | appendACE | insertACE | removeACE | moveACE | clearNodeACL | deleteGroup | addPlayerToGroup
    | removePlayerFromGroup => exact .inl ⟨(hcommit ..).1, (hcommit ..).2, by simp [Erases]⟩
  | check playerUuid node gen state =>
    rcases state with _ | ⟨token, todo⟩ | result
    · exact .inl ⟨rfl, rfl, by simp [Erases]⟩
    · left
      cases todo with
      | cons group todo => exact ⟨rfl, rfl, by simp [Erases]⟩
      | nil =>
        simp only [Thread.step, Erases]
        cases decideACL m.db node token <;> simp
    · exact .inr (.inr ⟨_, _, _, _, rfl, rfl⟩)
  | insertGroup => exact .inl ⟨(hcommit ..).1, (hcommit ..).2, by simp [Erases]⟩
  | updateParent => exact .inl ⟨(hcommit ..).1, (hcommit ..).2, by simp [Erases]⟩
  | invalidate target => exact .inr (.inl ⟨target, .inl rfl, rfl⟩)
  | returned => exact .inl ⟨rfl, rfl, by simp [Erases]⟩
  | failed => exact .inl ⟨rfl, rfl, by simp [Erases]⟩

/-! ### The invariant -/

/-- Cached decisions and checks with the current generation are up to date, or the player's entries are about to be
erased. -/
structure Coherent (s : System) : Prop where
  schema : s.manager.db.Schema
  cached : ∀ p node mask, s.manager.cache p node = some mask →
    resolvePermission s.manager.db p node = .ok mask ∨ Pending p s
  generation : ∀ p node gen state, .check p node gen state ∈ s.threads → gen ≤ s.manager.cacheGeneration
  inFlight : ∀ p node state, .check p node s.manager.cacheGeneration state ∈ s.threads →
    Consistent s.manager.db p node state ∨ Pending p s

theorem coherent_init {db : Db} (hdb : db.Schema) (calls : List Call) : Coherent (System.init db calls) where
  schema := hdb
  cached := by
    intro p node mask h
    cases h
  generation := by
    intro p node gen state h
    obtain ⟨call, -, hcall⟩ := List.mem_map.1 h
    cases hcall
  inFlight := by
    intro p node state h
    obtain ⟨call, -, hcall⟩ := List.mem_map.1 h
    cases hcall

theorem storeResult_generation (m : PermissionManager) (playerUuid node : String) (gen : Nat) (result : AccessMask) :
    (m.storeResult playerUuid node gen result).cacheGeneration = m.cacheGeneration := by
  unfold storeResult
  split <;> rfl

theorem storeResult_cache {m : PermissionManager} {playerUuid node p k : String} {gen : Nat}
    {result mask : AccessMask} (h : (m.storeResult playerUuid node gen result).cache p k = some mask) :
    (m.cacheGeneration = gen ∧ p = playerUuid ∧ k = node ∧ mask = result) ∨ m.cache p k = some mask := by
  unfold storeResult at h
  split at h
  · rename_i hgen
    by_cases hp : p = playerUuid
    · subst hp
      by_cases hk : k = node
      · subst hk
        simp only [Function.update_self, Option.some.injEq] at h
        exact .inl ⟨hgen, rfl, rfl, h.symm⟩
      · simp only [Function.update_self, Function.update_of_ne hk] at h
        exact .inr h
    · simp only [Function.update_of_ne hp] at h
      exact .inr h
  · exact .inr h

theorem eraseCache_eq_some {cache : String → String → Option AccessMask} {target : Option String} {p k : String}
    {mask : AccessMask} (h : eraseCache cache target p k = some mask) :
    target ≠ none ∧ target ≠ some p ∧ cache p k = some mask := by
  cases target with
  | none => cases h
  | some q =>
    by_cases hp : p = q
    · subst hp
      simp [eraseCache] at h
    · refine ⟨by simp, by simpa using Ne.symm hp, ?_⟩
      simpa [eraseCache, Function.update_of_ne hp] using h

/-- The step of one party: the other parties stay where they are. -/
structure Moved (s s' : System) (t : Thread) : Prop where
  mem : t ∈ s.threads
  manager : s'.manager = (t.step s.manager).1
  threads : ∀ u ∈ s'.threads, u = (t.step s.manager).2 ∨ u ∈ s.threads
  pending : ∀ p, ¬ Erases p t → Pending p s → Pending p s'
  agrees : ∀ p, Pending p s' ∨ Agrees p s.manager.db s'.manager.db
  schema : s'.manager.db.Schema

theorem moved_step {s : System} (hs : s.manager.db.Schema) {i : Nat} {t : Thread} (ht : s.threads[i]? = some t)
    (hm : (s.step i).manager = (t.step s.manager).1)
    (hthreads : (s.step i).threads = s.threads.set i (t.step s.manager).2) : Moved s (s.step i) t := by
  have hann := Thread.step_agrees hs t
  constructor
  case mem => exact List.mem_of_getElem? ht
  case manager => exact hm
  case threads =>
    intro u hu
    rw [hthreads] at hu
    exact (List.mem_or_eq_of_mem_set hu).symm
  case pending =>
    rintro p hp ⟨u, hu, he⟩
    have hne : u ≠ t := fun h => hp (h ▸ he)
    refine ⟨u, ?_, he⟩
    rw [hthreads]
    exact mem_set_of_ne ht hu hne
  case agrees =>
    intro p
    rw [hm]
    rcases hann.agrees p with he | ha
    · refine .inl ⟨_, ?_, he⟩
      rw [hthreads]
      exact mem_set_self_of_getElem? ht
    · exact .inr ha
  case schema =>
    rw [hm]
    exact hann.schema

/-- When the party has not moved to a check, every check was there before. -/
theorem Moved.check_mem {s s' : System} {t : Thread} (h : Moved s s' t) {next : Thread}
    (hnext : (t.step s.manager).2 = next) (hno : ∀ p node gen state, next ≠ .check p node gen state)
    {p node : String} {gen : Nat} {state : CheckState} (hc : .check p node gen state ∈ s'.threads) :
    .check p node gen state ∈ s.threads := by
  rcases h.threads _ hc with hc | hc
  · rw [hnext] at hc
    exact absurd hc.symm (hno p node gen state)
  · exact hc

/-- A step that leaves the cache alone, of a party that is not about to erase anything. -/
theorem Coherent.of_cache_eq {s s' : System} (hs : Coherent s) {t : Thread} (h : Moved s s' t)
    (hcache : s'.manager.cache = s.manager.cache) (hgen : s'.manager.cacheGeneration = s.manager.cacheGeneration)
    (hno : ∀ p, ¬ Erases p t) : Coherent s' := by
  constructor
  case schema => exact h.schema
  case cached =>
    intro p node mask hmask
    rw [hcache] at hmask
    rcases hs.cached p node mask hmask with hok | hp
    · rcases h.agrees p with hp | ha
      · exact .inr hp
      · exact .inl ((ha.resolvePermission_eq node).trans hok)
    · exact .inr (h.pending p (hno p) hp)
  case generation =>
    intro p node gen state hc
    rw [hgen]
    rcases h.threads _ hc with hc | hc
    · rcases Thread.step_check hc.symm with ⟨-, -, rfl, -⟩ | ⟨state₀, rfl, -⟩
      · exact Nat.le_refl _
      · exact hs.generation p node gen state₀ h.mem
    · exact hs.generation p node gen state hc
  case inFlight =>
    intro p node state hc
    rw [hgen] at hc
    have hcons : Consistent s.manager.db p node state ∨ Pending p s := by
      rcases h.threads _ hc with hc | hc
      · rcases Thread.step_check hc.symm with ⟨-, -, -, rfl⟩ | ⟨state₀, rfl, hstep⟩
        · exact .inl trivial
        · exact (hs.inFlight p node state₀ h.mem).imp_left hstep.consistent
      · exact hs.inFlight p node state hc
    rcases hcons with hcons | hp
    · rcases h.agrees p with hp | ha
      · exact .inr hp
      · exact .inl (ha.consistent hcons)
    · exact .inr (h.pending p (hno p) hp)

/-- An invalidation: no check remembers the new generation. -/
theorem Coherent.of_invalidate {s s' : System} (hs : Coherent s) {t : Thread} (h : Moved s s' t)
    {target : Option String} (ht : t = .invalidate target ∨ t = .start (.invalidate target))
    (hstep : t.step s.manager = (s.manager.invalidate target, .returned none)) : Coherent s' := by
  have hm : s'.manager = s.manager.invalidate target := by rw [h.manager, hstep]
  have hmem {p node : String} {gen : Nat} {state : CheckState} (hc : .check p node gen state ∈ s'.threads) :
      .check p node gen state ∈ s.threads :=
    h.check_mem (congrArg Prod.snd hstep) (by simp) hc
  constructor
  case schema => exact h.schema
  case cached =>
    intro p node mask hmask
    rw [hm] at hmask ⊢
    obtain ⟨hnone, hsome, hmask⟩ := eraseCache_eq_some hmask
    -- the entry survived, so the invalidation is not the one that was to erase it
    have hp : ¬ Erases p t := by
      rcases ht with rfl | rfl
      · simpa [Erases] using ⟨hnone, hsome⟩
      · simp [Erases]
    exact (hs.cached p node mask hmask).imp_right (h.pending p hp)
  case generation =>
    intro p node gen state hc
    rw [hm]
    exact Nat.le_succ_of_le (hs.generation p node gen state (hmem hc))
  case inFlight =>
    intro p node state hc
    rw [hm] at hc
    have hle := hs.generation p node _ state (hmem hc)
    exact absurd hle (Nat.not_succ_le_self _)

/-- A result is stored only by a check with the current generation. -/
theorem Coherent.of_store {s s' : System} (hs : Coherent s) {p₀ node₀ : String} {gen₀ : Nat} {result : AccessMask}
    (h : Moved s s' (.check p₀ node₀ gen₀ (.store result)))
    (hstep : (Thread.check p₀ node₀ gen₀ (.store result)).step s.manager =
      (s.manager.storeResult p₀ node₀ gen₀ result, .returned (some result))) : Coherent s' := by
  have hno : ∀ p, ¬ Erases p (.check p₀ node₀ gen₀ (.store result)) := by simp [Erases]
  have hm : s'.manager = s.manager.storeResult p₀ node₀ gen₀ result := by rw [h.manager, hstep]
  have hdb : s'.manager.db = s.manager.db := by rw [hm, storeResult_db]
  have hmem {p node : String} {gen : Nat} {state : CheckState} (hc : .check p node gen state ∈ s'.threads) :
      .check p node gen state ∈ s.threads :=
    h.check_mem (congrArg Prod.snd hstep) (by simp) hc
  constructor
  case schema => exact h.schema
  case cached =>
    intro p node mask hmask
    rw [hdb]
    rw [hm] at hmask
    have hcached : resolvePermission s.manager.db p node = .ok mask ∨ Pending p s := by
      rcases storeResult_cache hmask with ⟨rfl, rfl, rfl, rfl⟩ | hmask
      · exact hs.inFlight _ _ _ h.mem
      · exact hs.cached p node mask hmask
    exact hcached.imp_right (h.pending p (hno p))
  case generation =>
    intro p node gen state hc
    rw [hm, storeResult_generation]
    exact hs.generation p node gen state (hmem hc)
  case inFlight =>
    intro p node state hc
    rw [hm, storeResult_generation] at hc
    rw [hdb]
    exact (hs.inFlight p node state (hmem hc)).imp_right (h.pending p (hno p))

/-- One step keeps the invariant. -/
theorem Coherent.step {s : System} (hs : Coherent s) (i : Nat) : Coherent (s.step i) := by
  rcases s.step_cases i with ⟨-, heq⟩ | ⟨t, ht, hm, hthreads⟩
  · rwa [heq]
  have hmoved := moved_step hs.schema ht hm hthreads
  rcases Thread.step_cache s.manager t with ⟨hcache, hgen, hno⟩ | ⟨target, htarget, hstep⟩ |
    ⟨p, node, gen, result, rfl, hstep⟩
  · exact hs.of_cache_eq hmoved (hm ▸ hcache) (hm ▸ hgen) hno
  · exact hs.of_invalidate hmoved htarget hstep
  · exact hs.of_store hmoved hstep

/-- The invariant holds after every schedule. -/
theorem coherent_run {db : Db} (hdb : db.Schema) (calls : List Call) (sched : List Nat) :
    Coherent ((System.init db calls).run sched) :=
  Run.run_invariant (P := Coherent) System.step (fun _ i hs => hs.step i) (coherent_init hdb calls) sched

/-! ### Checks that no writer overlaps -/

/-- How far a check can be while no writer has interfered with it: it has not started, is consistent, has returned
the current decision, or has thrown. -/
def UpToDate (db : Db) (p node : String) (t : Thread) : Prop :=
  t = .start (.checkPermission p node) ∨ (∃ gen state, t = .check p node gen state ∧ Consistent db p node state) ∨
    (∃ mask, t = .returned (some mask) ∧ resolvePermission db p node = .ok mask) ∨ ∃ e, t = .failed e

theorem Agrees.upToDate {p node : String} {db db' : Db} (h : Agrees p db db') {t : Thread}
    (ht : UpToDate db p node t) : UpToDate db' p node t := by
  rcases ht with ht | ⟨gen, state, ht, hc⟩ | ⟨mask, ht, hok⟩ | ht
  · exact .inl ht
  · exact .inr (.inl ⟨gen, state, ht, h.consistent hc⟩)
  · exact .inr (.inr (.inl ⟨mask, ht, (h.resolvePermission_eq node).trans hok⟩))
  · exact .inr (.inr (.inr ht))

/-- The check's own step. -/
theorem UpToDate.own_step {s : System} (hs : Coherent s) {p node : String} (hno : ¬ Pending p s) {t : Thread}
    (ht : UpToDate s.manager.db p node t) : UpToDate s.manager.db p node (t.step s.manager).2 := by
  rcases ht with rfl | ⟨gen, state, rfl, hc⟩ | ⟨mask, rfl, hok⟩ | ⟨e, rfl⟩
  · simp only [Thread.step, Call.step]
    cases hcache : s.manager.cache p node with
    | none => exact .inr (.inl ⟨_, _, rfl, trivial⟩)
    | some mask =>
      rcases hs.cached p node mask hcache with hok | hp
      · exact .inr (.inr (.inl ⟨mask, rfl, hok⟩))
      · exact absurd hp hno
  · rcases Thread.check_step s.manager p node gen state with ⟨state', hnext, hstep⟩ | ⟨result, rfl, hnext⟩ | ⟨e, hnext⟩
    · rw [hnext]
      exact .inr (.inl ⟨gen, state', rfl, hstep.consistent hc⟩)
    · rw [hnext]
      exact .inr (.inr (.inl ⟨result, rfl, hc⟩))
    · rw [hnext]
      exact .inr (.inr (.inr ⟨e, rfl⟩))
  · exact .inr (.inr (.inl ⟨mask, rfl, hok⟩))
  · exact .inr (.inr (.inr ⟨e, rfl⟩))

/-- A step of the system during which no writer interferes with the player. -/
theorem UpToDate.system_step {s : System} (hs : Coherent s) {p node : String} {i j : Nat} {t : Thread}
    (hno : ¬ Pending p s) (hno' : ¬ Pending p (s.step j)) (ht : s.threads[i]? = some t)
    (hup : UpToDate s.manager.db p node t) :
    ∃ t', (s.step j).threads[i]? = some t' ∧ UpToDate (s.step j).manager.db p node t' := by
  have hagree : Agrees p s.manager.db (s.step j).manager.db := by
    rcases s.step_cases j with ⟨-, heq⟩ | ⟨u, hu, hm, hthreads⟩
    · rw [heq]
      exact Agrees.refl p s.manager.db
    · exact ((moved_step hs.schema hu hm hthreads).agrees p).resolve_left hno'
  refine ⟨_, System.getElem?_step ht j, hagree.upToDate ?_⟩
  split
  · exact hup.own_step hs hno
  · exact hup

/-- After every schedule every cached decision is the decision on the current database, or a writer is between its
commit and an invalidation that erases it.  And a check that starts when no such writer is there for its player, and
during which none appears, returns the decision on the current database. -/
theorem cache_coherent {db : Db} (hdb : db.Schema) (calls : List Call) (sched : List Nat) :
    (∀ p node mask, ((System.init db calls).run sched).manager.cache p node = some mask →
      resolvePermission ((System.init db calls).run sched).manager.db p node = .ok mask ∨
        Pending p ((System.init db calls).run sched)) ∧
      ∀ (p node : String) (before during : List Nat) (i : Nat) (mask : AccessMask), sched = before ++ during →
        ((System.init db calls).run before).threads[i]? = some (Thread.start (.checkPermission p node)) →
        (∀ part, part <+: during → ¬ Pending p ((System.init db calls).run (before ++ part))) →
        ((System.init db calls).run sched).threads[i]? = some (Thread.returned (some mask)) →
        resolvePermission ((System.init db calls).run sched).manager.db p node = .ok mask := by
  refine ⟨(coherent_run hdb calls sched).cached, ?_⟩
  rintro p node before during i mask rfl hstart hquiet hret
  have hrun : ∀ part, part <+: during → ∃ t, ((System.init db calls).run (before ++ part)).threads[i]? = some t ∧
      UpToDate ((System.init db calls).run (before ++ part)).manager.db p node t := by
    intro part hpart
    refine Run.prefix_induction (P := fun part =>
      ∃ t, ((System.init db calls).run (before ++ part)).threads[i]? = some t ∧
        UpToDate ((System.init db calls).run (before ++ part)).manager.db p node t) ?_ ?_ hpart
    · rw [List.append_nil]
      exact ⟨_, hstart, .inl rfl⟩
    · rintro part j hpj ⟨t, ht, hup⟩
      have hno := hquiet part ((List.prefix_append part [j]).trans hpj)
      have hno' := hquiet (part ++ [j]) hpj
      rw [← List.append_assoc, System.run, Run.run_concat] at hno' ⊢
      exact hup.system_step (coherent_run hdb calls (before ++ part)) hno hno' ht
  obtain ⟨t, ht, hup⟩ := hrun during (List.prefix_refl _)
  rw [hret, Option.some.injEq] at ht
  subst ht
  rcases hup with h | ⟨gen, state, h, -⟩ | ⟨mask', h, hok⟩ | ⟨e, h⟩
  · cases h
  · cases h
  · cases h
    exact hok
  · cases h

/-- A check fills the cache, the player's group gets a new parent, and a second check runs after the invalidation. -/
def sampleCalls : List Call :=
  [.checkPermission "p" "a", .setGroupParent "g" none, .checkPermission "p" "a"]

def sampleSchema : Db where
  groups := [⟨"h", "default", none⟩, ⟨"g", "staff", some "h"⟩]
  playerGroups := [⟨"p", "g"⟩]
  permissions := [⟨"a", 0, "h", 1, 1, "t"⟩]

theorem sampleSchema_schema : sampleSchema.Schema where
  groups_key := by decide
  groups_name := by decide
  playerGroups_key := by decide
  permissions_key := by decide
  parent_exists := by decide
  membership_exists := by decide

theorem cache_coherent_sample :
    resolvePermission ((System.init sampleSchema sampleCalls).run [0, 0, 0, 0, 0, 1]).manager.db "p" "a" = .ok .allow ∨
      Pending "p" ((System.init sampleSchema sampleCalls).run [0, 0, 0, 0, 0, 1]) :=
  (cache_coherent sampleSchema_schema sampleCalls [0, 0, 0, 0, 0, 1]).1 "p" "a" .allow (by decide +kernel)

end BakaPerms
