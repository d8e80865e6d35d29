import BakaPerms.Repository
import BakaPerms.Resolver

/-!
# The permission manager

`Core/PermissionManager.cpp`.  The manager holds the database, the cache of decisions and the cache generation.  A
`ManagerM` computation is one call; `now` and `uuid` are what `datetime('now')` and `mce::UUID::random()` give to
that call.  The generation is a `Nat`; `Generations` compares it with the `uint64_t` of the source.
-/

namespace BakaPerms

open PermissionResolver (buildNodePath resolve resolveWithTrace)

structure PermissionManager where
  db : Db
  cacheGeneration : Nat
  cache : String → String → Option AccessMask

abbrev ManagerM := EStateM Exn PermissionManager

namespace PermissionManager

def init (db : Db) : PermissionManager := ⟨db, 0, fun _ _ => none⟩

/-- A call of the repository. -/
def repo {α : Type} (x : DbM α) : ManagerM α := fun m =>
  match x m.db with
  | .ok a db => .ok a { m with db := db }
  | .error e db => .error e { m with db := db }

theorem final_repo {α : Type} (x : DbM α) (m : PermissionManager) :
    Effect.final (repo x) m = { m with db := Effect.final x m.db } := by
  unfold Effect.final repo
  cases x m.db <;> rfl

theorem repo_of_ok {α : Type} {x : DbM α} {m : PermissionManager} {a : α} {db : Db} (h : x m.db = .ok a db) :
    repo x m = .ok a { m with db := db } := by
  unfold repo
  rw [h]

theorem repo_of_error {α : Type} {x : DbM α} {m : PermissionManager} {e : Exn} {db : Db}
    (h : x m.db = .error e db) : repo x m = .error e { m with db := db } := by
  unfold repo
  rw [h]

/-- A read of the repository, whose decoding may throw. -/
def read {α : Type} (select : Db → Except Exn α) : ManagerM α := repo (query select)

theorem read_of_ok {α : Type} {select : Db → Except Exn α} {m : PermissionManager} {a : α}
    (h : select m.db = .ok a) : read select m = .ok a m :=
  repo_of_ok (query_eq_ok.2 ⟨h, rfl⟩)

theorem read_of_error {α : Type} {select : Db → Except Exn α} {m : PermissionManager} {e : Exn}
    (h : select m.db = .error e) : read select m = .error e m := by
  have hquery : query select m.db = .error e m.db := by
    simp only [query, h]
  exact repo_of_error hquery

/-! ### Tokens and decisions -/

/-- The first pass of `buildToken`. -/
def addDirectGroups (token : AccessToken) (groups : List GroupInfo) : AccessToken :=
  groups.foldl (fun token group => token.add group.uuid .directGroup) token

/-- One round of the second pass of `buildToken`: the ancestry of a direct group without the group itself. -/
def addAncestry (token : AccessToken) (ancestry : List GroupInfo) : AccessToken :=
  (ancestry.drop 1).foldl (fun token group => token.add group.uuid .inheritedGroup) token

def buildToken (db : Db) (kind : SubjectKind) (uuid : String) : AccessToken :=
  match kind with
  | .player =>
    let groups := PermissionRepository.getPlayerGroups db uuid
    groups.foldl (fun token group => addAncestry token (PermissionRepository.getGroupAncestry db group.uuid))
      (addDirectGroups (AccessToken.empty.add uuid .subject) groups)
  | .group =>
    (PermissionRepository.getGroupAncestry db uuid).zipIdx.foldl
      (fun token (group, i) => token.add group.uuid (if i = 0 then .subject else .inheritedGroup)) .empty

/-- The lambda that `resolvePermission` and `tracePermission` pass as ACL provider. -/
def batchProvider (aclMap : PermissionRepository.AclMap) : PermissionResolver.ACLProvider :=
  fun node => (aclMap node).getD []

def resolvePermission (db : Db) (playerUuid node : String) : Except Exn AccessMask := do
  let token := buildToken db .player playerUuid
  let nodePath ← buildNodePath node
  let aclMap ← PermissionRepository.getNodeACLBatch db nodePath
  resolve node token (batchProvider aclMap)

def tracePermission (db : Db) (kind : SubjectKind) (uuid node : String) : Except Exn PermissionTrace := do
  let token := buildToken db kind uuid
  let nodePath ← buildNodePath node
  let aclMap ← PermissionRepository.getNodeACLBatch db nodePath
  let trace ← resolveWithTrace node token (batchProvider aclMap)
  return { trace with subjectKind := kind, subjectUuid := uuid }

def wouldCreateCycle (db : Db) (groupUuid parentUuid : String) : Bool :=
  (PermissionRepository.getGroupAncestry db parentUuid).any fun ancestor => ancestor.uuid == groupUuid

/-! ### The cache -/

/-- The map after `cache_.erase(uuid)`, or after `cache_.clear()` for `none`. -/
def eraseCache (cache : String → String → Option AccessMask) (target : Option String) :
    String → String → Option AccessMask :=
  match target with
  | none => fun _ _ => none
  | some uuid => Function.update cache uuid fun _ => none

/-- `invalidatePlayer(uuid)` for `some uuid`, `invalidateAll()` for `none`. -/
def invalidate (m : PermissionManager) (target : Option String) : PermissionManager :=
  { m with cacheGeneration := m.cacheGeneration + 1, cache := eraseCache m.cache target }

def invalidatePlayer (uuid : String) : ManagerM Unit := modify (invalidate · (some uuid))

def invalidateAll : ManagerM Unit := modify (invalidate · none)

/-- The second critical section of `checkPermission`. -/
def storeResult (m : PermissionManager) (playerUuid node : String) (gen : Nat) (result : AccessMask) :
    PermissionManager :=
  if m.cacheGeneration = gen then
    { m with cache := Function.update m.cache playerUuid (Function.update (m.cache playerUuid) node (some result)) }
  else m

def checkPermission (playerUuid node : String) : ManagerM AccessMask := do
  let m ← get
  let gen := m.cacheGeneration
  match m.cache playerUuid node with
  | some mask => return mask
  | none =>
    -- the lock is free during the queries; `gen` tells whether there was an invalidation meanwhile
    let result ← read fun db => resolvePermission db playerUuid node
    modify (storeResult · playerUuid node gen result)
    return result

/-! ### ACL management -/

def appendACE (now node subjectUuid : String) (subjectType : Int) (mask : AccessMask) : ManagerM Unit := do
  repo (PermissionRepository.appendACE now node subjectUuid subjectType mask)
  invalidateAll

def insertACE (now node : String) (position : Int) (subjectUuid : String) (subjectType : Int)
    (mask : AccessMask) : ManagerM Unit := do
  repo (PermissionRepository.insertACE now node position subjectUuid subjectType mask)
  invalidateAll

def removeACE (node : String) (position : Int) : ManagerM Unit := do
  repo (PermissionRepository.removeACE node position)
  invalidateAll

def moveACE (node : String) (fromIndex toIndex : Int) : ManagerM Unit := do
  repo (PermissionRepository.moveACE node fromIndex toIndex)
  invalidateAll

def clearNodeACL (node : String) : ManagerM Unit := do
  repo (PermissionRepository.clearNodeACL node)
  invalidateAll

/-! ### Groups and membership -/

def createGroup (uuid name : String) (parentUuid : Option String) : ManagerM String := do
  if (PermissionRepository.getGroupByName (← get).db name).isSome then
    throw (.operationFailed "bakaperms.exception.detail.group_exists" [name])
  else
    repo (PermissionRepository.createGroup uuid name parentUuid)
    return uuid

def deleteGroup (groupUuid : String) : ManagerM Unit := do
  repo (PermissionRepository.deleteGroup groupUuid)
  invalidateAll

def setGroupParent (groupUuid : String) (parentUuid : Option String) : ManagerM Unit := do
  let db := (← get).db
  if parentUuid.any (wouldCreateCycle db groupUuid) then
    throw (.operationFailed "bakaperms.exception.detail.group_cycle" [])
  else
    repo (PermissionRepository.setGroupParent groupUuid parentUuid)
    invalidateAll

def addPlayerToGroup (playerUuid groupUuid : String) : ManagerM Bool := do
  if ← repo (PermissionRepository.addPlayerToGroup playerUuid groupUuid) then
    invalidatePlayer playerUuid
    return true
  else return false

def removePlayerFromGroup (playerUuid groupUuid : String) : ManagerM Bool := do
  if ← repo (PermissionRepository.removePlayerFromGroup playerUuid groupUuid) then
    invalidatePlayer playerUuid
    return true
  else return false

/-! ### Results -/

section Results

variable {m : PermissionManager} {db : Db} {e : Exn}

theorem writer_of_ok {x : DbM Unit} (h : x m.db = .ok () db) :
    (do repo x; invalidateAll) m = .ok () (invalidate { m with db := db } none) :=
  Effect.bind_of_ok (repo_of_ok h)

theorem writer_of_error {x : DbM Unit} (h : x m.db = .error e db) :
    (do repo x; invalidateAll) m = .error e { m with db := db } :=
  Effect.bind_of_error (repo_of_error h)

theorem membership_of_ok {x : DbM Bool} {changed : Bool} (h : x m.db = .ok changed db) (playerUuid : String) :
    (do
      if ← repo x then
        invalidatePlayer playerUuid
        return true
      else return false) m =
      .ok changed (if changed then invalidate { m with db := db } (some playerUuid) else { m with db := db }) := by
  rw [Effect.bind_of_ok (repo_of_ok h)]
  cases changed <;> rfl

theorem membership_of_error {x : DbM Bool} (h : x m.db = .error e db) (playerUuid : String) :
    (do
      if ← repo x then
        invalidatePlayer playerUuid
        return true
      else return false) m = .error e { m with db := db } :=
  Effect.bind_of_error (repo_of_error h)

theorem createGroup_of_exists {name : String} (h : (PermissionRepository.getGroupByName m.db name).isSome)
    (uuid : String) (parentUuid : Option String) : createGroup uuid name parentUuid m =
      .error (.operationFailed "bakaperms.exception.detail.group_exists" [name]) m := by
  unfold createGroup
  rw [Effect.get_bind, if_pos h]
  rfl

theorem createGroup_of_new {name : String} (h : ¬ (PermissionRepository.getGroupByName m.db name).isSome)
    (uuid : String) (parentUuid : Option String) : createGroup uuid name parentUuid m =
      ((fun _ => uuid) <$> repo (PermissionRepository.createGroup uuid name parentUuid)) m := by
  unfold createGroup
  rw [Effect.get_bind, if_neg h]
  rfl

theorem setGroupParent_of_cycle {groupUuid : String} {parentUuid : Option String}
    (h : parentUuid.any (wouldCreateCycle m.db groupUuid)) : setGroupParent groupUuid parentUuid m =
      .error (.operationFailed "bakaperms.exception.detail.group_cycle" []) m := by
  unfold setGroupParent
  rw [Effect.get_bind, if_pos h]
  rfl

theorem setGroupParent_of_noCycle {groupUuid : String} {parentUuid : Option String}
    (h : ¬ parentUuid.any (wouldCreateCycle m.db groupUuid)) : setGroupParent groupUuid parentUuid m =
      (do repo (PermissionRepository.setGroupParent groupUuid parentUuid); invalidateAll) m := by
  unfold setGroupParent
  rw [Effect.get_bind, if_neg h]

theorem checkPermission_of_cached {playerUuid node : String} {mask : AccessMask}
    (h : m.cache playerUuid node = some mask) : checkPermission playerUuid node m = .ok mask m := by
  unfold checkPermission
  rw [Effect.get_bind]
  simp only [h]
  rfl

theorem checkPermission_of_missed {playerUuid node : String} (h : m.cache playerUuid node = none) :
    checkPermission playerUuid node m =
      match resolvePermission m.db playerUuid node with
      | .ok result => .ok result (m.storeResult playerUuid node m.cacheGeneration result)
      | .error e => .error e m := by
  unfold checkPermission
  rw [Effect.get_bind]
  simp only [h]
  cases hr : resolvePermission m.db playerUuid node with
  | ok result => exact Effect.bind_of_ok (read_of_ok hr)
  | error e => exact Effect.bind_of_error (read_of_error hr)

end Results

end PermissionManager

end BakaPerms
