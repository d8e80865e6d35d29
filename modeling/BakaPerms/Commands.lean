import BakaPerms.Format
import BakaPerms.Lib.Run
import BakaPerms.Manager

/-!
# The commands

The handlers that `registerCommands` of `Commands/PermsCommand.cpp` registers, one definition for each overload of
`/perms`.  A handler works on the shared manager and on the lines of its own `CommandOutput`; an exception that it
does not catch is the error of its `CommandM`.  The services of the server, the time and the random uuid are what an
`Invocation` brings along.
-/

namespace BakaPerms

open PermissionManager

/-- A line of `CommandOutput`. -/
inductive OutputLine
  | success (message : String)
  | error (message : String)
  deriving DecidableEq, Repr

/-- What a handler works on. -/
structure Session where
  manager : PermissionManager
  output : List OutputLine

abbrev CommandM := EStateM Exn Session

namespace PermsCommand

/-- A call of the manager. -/
def call {α : Type} (x : ManagerM α) : CommandM α := fun s =>
  match x s.manager with
  | .ok a m => .ok a { s with manager := m }
  | .error e m => .error e { s with manager := m }

def getDb : CommandM Db := return (← get).manager.db

/-- `output.success`. -/
def success (message : String) : CommandM Unit := modify fun s => { s with output := s.output ++ [.success message] }

/-- `output.error`. -/
def error (message : String) : CommandM Unit := modify fun s => { s with output := s.output ++ [.error message] }

section Handlers

variable (svc : Services)

/-! ### Helpers -/

/-- The empty string stands for a player that is not found. -/
def resolvePlayerUuid (playerName : String) : CommandM String :=
  match svc.fromName playerName with
  | none => do
    error (svc.tr "bakaperms.error.player_not_found" [playerName])
    return ""
  | some uuid => return uuid

def resolveSubjectUuid (subjectName : String) (subjectType : SubjectKind) : CommandM String := do
  -- the wildcard comes before the groups, even if one of them has this name
  if subjectName = "*" then return "*"
  else
    match subjectType with
    | .group =>
      match PermissionRepository.getGroupByName (← getDb) subjectName with
      | none =>
        error (svc.tr "bakaperms.error.group_not_found" [subjectName])
        return ""
      | some group => return group.uuid
    | .player => resolvePlayerUuid svc subjectName

/-- The `subject_type` of a new ACE. -/
def subjectTypeInt : SubjectKind → Int
  | .player => 0
  | .group => 1

/-- A `try` block whose `catch` reports the exception under a key. -/
def reporting (key : String) (body : CommandM Unit) : CommandM Unit :=
  tryCatch body fun e => error (svc.tr key [e.what svc])

/-! ### Groups -/

def reload : CommandM Unit := do
  call invalidateAll
  success (svc.tr "bakaperms.reload.success" [])

def groupCreate (newUuid name : String) : CommandM Unit :=
  reporting svc "bakaperms.error.create_group_failed" do
    let uuid ← call (createGroup newUuid name none)
    success (svc.tr "bakaperms.group.created" [name, uuid])

def groupDelete (name : String) : CommandM Unit := do
  match PermissionRepository.getGroupByName (← getDb) name with
  | none => error (svc.tr "bakaperms.error.group_not_found" [name])
  | some group =>
    -- no `try` around this call, unlike the other commands that change a group
    call (deleteGroup group.uuid)
    success (svc.tr "bakaperms.group.deleted" [name])

def groupSetParent (name parentName : String) : CommandM Unit := do
  match PermissionRepository.getGroupByName (← getDb) name with
  | none => error (svc.tr "bakaperms.error.group_not_found" [name])
  | some group =>
    reporting svc "bakaperms.error.operation_failed" do
      -- the keyword comes before the groups, even if one of them has this name
      if parentName = "none" then
        call (setGroupParent group.uuid none)
        success (svc.tr "bakaperms.group.parent_cleared" [name])
      else
        match PermissionRepository.getGroupByName (← getDb) parentName with
        | none => error (svc.tr "bakaperms.error.parent_group_not_found" [parentName])
        | some parent =>
          call (setGroupParent group.uuid (some parent.uuid))
          success (svc.tr "bakaperms.group.parent_set" [name, parentName])

/-- The text of `group list`. -/
def groupListText (groups : List GroupInfo) : String :=
  let groupNames : String → Option String :=
    groups.foldl (fun names g => Function.update names g.uuid (some g.name)) fun _ => none
  groups.foldl (fun msg g =>
    let msg := msg ++ "\n  " ++ svc.tr "bakaperms.group.list_entry" [g.name, g.uuid]
    match g.parentUuid.bind groupNames with
    | some parentName => msg ++ " -> " ++ svc.tr "bakaperms.group.info_parent" [parentName]
    | none => msg) (svc.tr "bakaperms.group.list_header" [toString groups.length])

def groupList : CommandM Unit := do
  let groups := PermissionRepository.getAllGroups (← getDb)
  if groups = [] then success (svc.tr "bakaperms.group.list_empty" [])
  else success (groupListText svc groups)

/-- The lines about the ACEs of a subject. -/
def subjectACEsText (aces : List NodeACE) : String :=
  aces.foldl (fun msg ace =>
    msg ++ s!"\n  [{ace.node}] #{ace.ace.orderIndex} {accessMaskToString svc ace.ace.mask}") ""

def groupInfo (name : String) : CommandM Unit := do
  let db ← getDb
  match PermissionRepository.getGroupByName db name with
  | none => error (svc.tr "bakaperms.error.group_not_found" [name])
  | some group =>
    let header := svc.tr "bakaperms.group.info_header" [group.name, group.uuid]
    let parentText := match group.parentUuid.bind (PermissionRepository.getGroup db) with
      | some parent => "\n" ++ svc.tr "bakaperms.group.info_parent" [parent.name]
      | none => ""
    let aces ← call (read fun db => PermissionRepository.getSubjectACEs db group.uuid)
    let acesText := if aces = [] then ""
      else "\n" ++ svc.tr "bakaperms.group.info_aces" [] ++ subjectACEsText svc aces
    let members := PermissionRepository.getGroupMembers db group.uuid
    let membersText := if members = [] then ""
      else members.foldl (fun msg m => msg ++ s!"\n  {(svc.fromUuid m).getD m}")
        ("\n" ++ svc.tr "bakaperms.group.info_members" [toString members.length])
    success (header ++ parentText ++ acesText ++ membersText)

def checkResultText (label node name : String) (mask : AccessMask) : String :=
  svc.tr "bakaperms.check.result" [node, svc.tr label [], name, accessMaskToString svc mask]

def groupCheck (name node : String) (trace : Option Bool) : CommandM Unit := do
  let db ← getDb
  match PermissionRepository.getGroupByName db name with
  | none => error (svc.tr "bakaperms.error.group_not_found" [name])
  | some group =>
    let result ← call (read fun db => tracePermission db .group group.uuid node)
    if trace = some true then success (formatTrace svc db result)
    else success (checkResultText svc "bakaperms.label.group" node name result.finalResult)

/-! ### Users -/

def userAddGroup (playerName groupName : String) : CommandM Unit := do
  let playerUuid ← resolvePlayerUuid svc playerName
  if playerUuid = "" then return
  else
    match PermissionRepository.getGroupByName (← getDb) groupName with
    | none => error (svc.tr "bakaperms.error.group_not_found" [groupName])
    | some group =>
      if ← call (addPlayerToGroup playerUuid group.uuid) then
        success (svc.tr "bakaperms.user.added_to_group" [playerName, groupName])
      else error (svc.tr "bakaperms.user.already_in_group" [playerName, groupName])

def userRemoveGroup (playerName groupName : String) : CommandM Unit := do
  let playerUuid ← resolvePlayerUuid svc playerName
  if playerUuid = "" then return
  else
    match PermissionRepository.getGroupByName (← getDb) groupName with
    | none => error (svc.tr "bakaperms.error.group_not_found" [groupName])
    | some group =>
      if ← call (removePlayerFromGroup playerUuid group.uuid) then
        success (svc.tr "bakaperms.user.removed_from_group" [playerName, groupName])
      else error (svc.tr "bakaperms.user.not_in_group" [playerName, groupName])

def userCheck (playerName node : String) (trace : Option Bool) : CommandM Unit := do
  let playerUuid ← resolvePlayerUuid svc playerName
  if playerUuid = "" then return
  else if trace = some true then
    let result ← call (read fun db => tracePermission db .player playerUuid node)
    success (formatTrace svc (← getDb) result)
  else
    let result ← call (checkPermission playerUuid node)
    success (checkResultText svc "bakaperms.label.player" node playerName result)

def userInfo (playerName : String) : CommandM Unit := do
  let playerUuid ← resolvePlayerUuid svc playerName
  if playerUuid = "" then return
  else
    let header := svc.tr "bakaperms.user.info_header" [playerName, playerUuid]
    let groups := PermissionRepository.getPlayerGroups (← getDb) playerUuid
    let groupsText := if groups = [] then "\n" ++ svc.tr "bakaperms.user.info_no_groups" []
      else groups.foldl (fun msg g => msg ++ "\n  " ++ svc.tr "bakaperms.user.info_group_entry" [g.name])
        ("\n" ++ svc.tr "bakaperms.user.info_groups" [toString groups.length])
    let aces ← call (read fun db => PermissionRepository.getSubjectACEs db playerUuid)
    let acesText := if aces = [] then "\n" ++ svc.tr "bakaperms.user.info_no_aces" []
      else "\n" ++ svc.tr "bakaperms.user.info_aces" [] ++ subjectACEsText svc aces
    success (header ++ groupsText ++ acesText)

/-! ### ACLs -/

def aclAdd (now node subjectName : String) (subjectType : SubjectKind) (access : AccessMask) : CommandM Unit :=
  reporting svc "bakaperms.error.operation_failed" do
    let subjectUuid ← resolveSubjectUuid svc subjectName subjectType
    if subjectUuid = "" then return
    else
      call (appendACE now node subjectUuid (subjectTypeInt subjectType) access)
      success (svc.tr "bakaperms.acl.appended"
        [node, subjectKindToString svc subjectType, subjectName, accessMaskToString svc access])

def aclInsert (now node : String) (position : Int) (subjectName : String) (subjectType : SubjectKind)
    (access : AccessMask) : CommandM Unit :=
  reporting svc "bakaperms.error.operation_failed" do
    let subjectUuid ← resolveSubjectUuid svc subjectName subjectType
    if subjectUuid = "" then return
    else
      call (insertACE now node position subjectUuid (subjectTypeInt subjectType) access)
      success (svc.tr "bakaperms.acl.inserted"
        [toString position, node, subjectKindToString svc subjectType, subjectName, accessMaskToString svc access])

def aclRemove (node : String) (position : Int) : CommandM Unit :=
  reporting svc "bakaperms.error.operation_failed" do
    call (removeACE node position)
    success (svc.tr "bakaperms.acl.removed" [toString position, node])

def aclMove (node : String) (fromIndex toIndex : Int) : CommandM Unit :=
  reporting svc "bakaperms.error.operation_failed" do
    call (moveACE node fromIndex toIndex)
    success (svc.tr "bakaperms.acl.moved" [toString fromIndex, toString toIndex, node])

/-- The subject of an ACE in `acl info`. -/
def aceSubjectLabel (db : Db) (ace : ACE) : String :=
  if ace.subjectUuid = "*" then svc.tr "bakaperms.label.everyone" []
  else if ace.subjectType = 1 then
    let name := ((PermissionRepository.getGroup db ace.subjectUuid).map GroupInfo.name).getD ace.subjectUuid
    svc.tr "bakaperms.label.group" [] ++ ":" ++ name
  else svc.tr "bakaperms.label.player" [] ++ ":" ++ (svc.fromUuid ace.subjectUuid).getD ace.subjectUuid

def aclInfo (node : String) : CommandM Unit := do
  let db ← getDb
  let acl ← call (read fun db => PermissionRepository.getNodeACL db node)
  if acl = [] then success (svc.tr "bakaperms.acl.empty" [node])
  else
    success (acl.foldl (fun msg ace =>
      msg ++ s!"\n  #{ace.orderIndex} {aceSubjectLabel svc db ace} {accessMaskToString svc ace.mask}")
      (svc.tr "bakaperms.acl.info_header" [node, toString acl.length]))

def aclClear (node : String) : CommandM Unit := do
  call (clearNodeACL node)
  success (svc.tr "bakaperms.acl.cleared" [node])

end Handlers

end PermsCommand

/-! ### Invocations -/

/-- The overloads of `/perms` with their parameters. -/
inductive Command
  | reload
  | groupCreate (name : String)
  | groupDelete (name : String)
  | groupSetParent (name parentName : String)
  | groupList
  | groupInfo (name : String)
  | groupCheck (name node : String) (trace : Option Bool)
  | userAddGroup (playerName groupName : String)
  | userRemoveGroup (playerName groupName : String)
  | userCheck (playerName node : String) (trace : Option Bool)
  | userInfo (playerName : String)
  | aclAdd (node subjectName : String) (subjectType : SubjectKind) (access : AccessMask)
  | aclInsert (node : String) (position : Int) (subjectName : String) (subjectType : SubjectKind)
    (access : AccessMask)
  | aclRemove (node : String) (position : Int)
  | aclMove (node : String) (fromIndex toIndex : Int)
  | aclInfo (node : String)
  | aclClear (node : String)

/-- A command with what the server gives to it: its services, `datetime('now')` and `mce::UUID::random()`. -/
structure Invocation where
  svc : Services
  now : String
  newUuid : String
  command : Command

def Invocation.handler (inv : Invocation) : CommandM Unit :=
  match inv.command with
  | .reload => PermsCommand.reload inv.svc
  | .groupCreate name => PermsCommand.groupCreate inv.svc inv.newUuid name
  | .groupDelete name => PermsCommand.groupDelete inv.svc name
  | .groupSetParent name parentName => PermsCommand.groupSetParent inv.svc name parentName
  | .groupList => PermsCommand.groupList inv.svc
  | .groupInfo name => PermsCommand.groupInfo inv.svc name
  | .groupCheck name node trace => PermsCommand.groupCheck inv.svc name node trace
  | .userAddGroup playerName groupName => PermsCommand.userAddGroup inv.svc playerName groupName
  | .userRemoveGroup playerName groupName => PermsCommand.userRemoveGroup inv.svc playerName groupName
  | .userCheck playerName node trace => PermsCommand.userCheck inv.svc playerName node trace
  | .userInfo playerName => PermsCommand.userInfo inv.svc playerName
  | .aclAdd node subjectName subjectType access =>
    PermsCommand.aclAdd inv.svc inv.now node subjectName subjectType access
  | .aclInsert node position subjectName subjectType access =>
    PermsCommand.aclInsert inv.svc inv.now node position subjectName subjectType access
  | .aclRemove node position => PermsCommand.aclRemove inv.svc node position
  | .aclMove node fromIndex toIndex => PermsCommand.aclMove inv.svc node fromIndex toIndex
  | .aclInfo node => PermsCommand.aclInfo inv.svc node
  | .aclClear node => PermsCommand.aclClear inv.svc node

/-- The command on a manager, with an empty output. -/
def Invocation.run (inv : Invocation) (m : PermissionManager) : EStateM.Result Exn Session Unit := inv.handler ⟨m, []⟩

/-- The manager after the command, whether its handler returned or threw. -/
def Invocation.apply (m : PermissionManager) (inv : Invocation) : PermissionManager :=
  (Effect.final inv.handler ⟨m, []⟩).manager

/-- The manager after commands executed one after another. -/
abbrev runCommands (m : PermissionManager) (invs : List Invocation) : PermissionManager :=
  Run.run Invocation.apply m invs

end BakaPerms
