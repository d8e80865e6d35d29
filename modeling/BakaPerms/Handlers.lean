import BakaPerms.Locality
import BakaPerms.References

/-!
# Handlers and exceptions

Eleven of the seventeen handlers have no `try`.  The calls of nine of them cannot throw in the states that commands
reach: the masks that are read decode, the rows are numbered so that they can be renumbered, and a group that has
just been looked up satisfies the foreign key of a membership.  The other two, `group check` and `user check`, let
the exception about the path of the empty node through (`reports_iff`); no cached decision hides it (`NoEmptyNode`).
-/

namespace BakaPerms

open Effect PermissionManager PermsCommand PermissionResolver

/-! ### Calls that do not throw -/

section Calls

variable {db : Db}

theorem tracePermission_ok (hk : db.Keys) (hm : db.ValidMasks) (kind : SubjectKind) (uuid : String) {node : String}
    (hnode : node ≠ "") : ∃ trace, tracePermission db kind uuid node = .ok trace := by
  obtain ⟨path, hpath, -⟩ := buildNodePath_eq_ok hnode
  have h := tracedDecision_eq hk hm kind uuid hpath
  unfold tracedDecision at h
  cases ht : tracePermission db kind uuid node with
  | ok trace => exact ⟨trace, rfl⟩
  | error e =>
    rw [ht] at h
    cases h

theorem tracePermission_empty (db : Db) (kind : SubjectKind) (uuid : String) :
    tracePermission db kind uuid "" = .error (.invalidArgument "Permission node must not be empty") := by
  unfold tracePermission
  rw [buildNodePath_empty]
  rfl

theorem resolvePermission_empty (db : Db) (playerUuid : String) :
    resolvePermission db playerUuid "" = .error (.invalidArgument "Permission node must not be empty") := by
  unfold resolvePermission
  rw [buildNodePath_empty]
  rfl

theorem getSubjectACEs_ok (hm : db.ValidMasks) (subjectUuid : String) :
    ∃ aces, PermissionRepository.getSubjectACEs db subjectUuid = .ok aces := by
  unfold PermissionRepository.getSubjectACEs
  refine exists_mapM_eq_ok fun row hrow => ⟨⟨row.node, row.ace⟩, ?_⟩
  have hmask := hm row (List.mem_of_mem_filter ((List.mem_insertionSort _).1 hrow))
  rw [rowToACE_eq_ok hmask]
  rfl

theorem addPlayerToGroup_ok {groupUuid : String} (hg : groupUuid ∈ db.groupUuids) (playerUuid : String) :
    ∃ added db', PermissionRepository.addPlayerToGroup playerUuid groupUuid db = .ok added db' := by
  unfold PermissionRepository.addPlayerToGroup
  by_cases h : (⟨playerUuid, groupUuid⟩ : PlayerGroupRow) ∈ db.playerGroups
  · exact ⟨_, _, bind_of_ok (a := 0) (if_pos h)⟩
  · exact ⟨_, _, bind_of_ok ((if_neg h).trans (if_pos hg))⟩

end Calls

/-! ### The cache -/

/-- The cache has no decision about the empty node. -/
def NoEmptyNode (m : PermissionManager) : Prop := ∀ playerUuid, m.cache playerUuid "" = none

theorem within_repo_noEmptyNode {α : Type} (x : DbM α) : Within (Keeps NoEmptyNode) (repo x) := by
  intro m hm
  rw [final_repo]
  exact hm

theorem within_invalidate_noEmptyNode (target : Option String) :
    Within (Keeps NoEmptyNode) (modify (invalidate · target) : ManagerM Unit) := by
  intro m hm p
  refine Option.eq_none_iff_forall_ne_some.2 fun mask h => ?_
  have hcached := (eraseCache_eq_some h).2.2
  rw [hm p] at hcached
  cases hcached

/-- A decision that is stored was made, and the empty node has none. -/
theorem within_checkPermission_noEmptyNode (playerUuid node : String) :
    Within (Keeps NoEmptyNode) (PermissionManager.checkPermission playerUuid node) := by
  intro m hm
  cases hc : m.cache playerUuid node with
  | some mask => rwa [final_of_ok (checkPermission_of_cached hc)]
  | none =>
    have hcheck := checkPermission_of_missed hc
    cases hr : resolvePermission m.db playerUuid node with
    | error e =>
      rw [hr] at hcheck
      rwa [final_of_error hcheck]
    | ok result =>
      rw [hr] at hcheck
      rw [final_of_ok hcheck]
      intro p
      refine Option.eq_none_iff_forall_ne_some.2 fun mask h => ?_
      rcases storeResult_cache h with ⟨-, -, rfl, -⟩ | hcached
      · rw [resolvePermission_empty] at hr
        cases hr
      · rw [hm p] at hcached
        cases hcached

theorem Call.noEmptyNode_apply {m : PermissionManager} (hm : NoEmptyNode m) (call : Call) :
    NoEmptyNode (call.apply m) := by
  have hwriter : ∀ x : DbM Unit, Within (Keeps NoEmptyNode) (do repo x; invalidateAll) :=
    fun x => (within_repo_noEmptyNode x).bind fun _ => within_invalidate_noEmptyNode none
  have hmembership : ∀ (x : DbM Bool) (playerUuid : String), Within (Keeps NoEmptyNode) (do
      if ← repo x then
        invalidatePlayer playerUuid
        return true
      else return false) := fun x playerUuid => (within_repo_noEmptyNode x).bind fun changed =>
    Within.ite ((within_invalidate_noEmptyNode (some playerUuid)).bind fun _ => within_pure _) (within_pure _)
  have hrun : Within (Keeps NoEmptyNode) call.run := by
    cases call with
    | checkPermission playerUuid node => exact (within_checkPermission_noEmptyNode playerUuid node).map _
    | createGroup uuid name parentUuid =>
      refine Within.map (within_get.bind fun m => Within.ite (within_throw _) ?_) _
      exact (within_repo_noEmptyNode _).bind fun _ => within_pure _
    | setGroupParent groupUuid parentUuid =>
      exact Within.map (within_get.bind fun m => Within.ite (within_throw _) (hwriter _)) _
    | addPlayerToGroup playerUuid groupUuid => exact (hmembership _ playerUuid).map _
    | removePlayerFromGroup playerUuid groupUuid => exact (hmembership _ playerUuid).map _
    | invalidate target => exact (within_invalidate_noEmptyNode target).map _
    | appendACE | insertACE | removeACE | moveACE | clearNodeACL | deleteGroup => exact (hwriter _).map _
  exact hrun m hm

theorem noEmptyNode_runCommands (db : Db) (invs : List Invocation) : NoEmptyNode (runCommands (.init db) invs) := by
  obtain ⟨calls, h⟩ := exists_runCalls (.init db) invs
  have hinit : NoEmptyNode (.init db) := fun _ => rfl
  rw [h]
  exact Run.run_invariant (P := NoEmptyNode) Call.apply (fun _ call hm => Call.noEmptyNode_apply hm call) hinit calls

/-! ### Reports -/

/-- One line has been printed since. -/
def Printed (output : List OutputLine) (s : Session) : Prop := ∃ line, s.output = output ++ [line]

/-- The handler prints a line, unless it throws before. -/
def Prints (handler : CommandM Unit) (s : Session) : Prop :=
  Ensures handler s (fun _ => Printed s.output) fun _ s' => s'.output = s.output

/-- The handler prints a line and returns. -/
def Reports (handler : CommandM Unit) (s : Session) : Prop :=
  Ensures handler s (fun _ => Printed s.output) fun _ _ => False

section Rules

variable {svc : Services} {s : Session} {E : Exn → Session → Prop}

theorem ensures_success (message : String) (s : Session) : Ensures (success message) s (fun _ => Printed s.output) E :=
  ensures_of_ok rfl ⟨_, rfl⟩

theorem ensures_error (message : String) (s : Session) : Ensures (error message) s (fun _ => Printed s.output) E :=
  ensures_of_ok rfl ⟨_, rfl⟩

/-- A call, and a line about its result. -/
theorem prints_call {α : Type} (x : ManagerM α) (text : α → String) (s : Session) :
    Prints (call x >>= fun a => success (text a)) s := by
  refine Ensures.bind ?_
  cases h : x s.manager with
  | ok a m => exact ensures_of_ok (call_of_ok h) (ensures_success ..)
  | error e m => exact ensures_of_error (call_of_error h) rfl

theorem reports_getDb {k : Db → CommandM Unit} (hk : Reports (k s.manager.db) s) : Reports (getDb >>= k) s := hk

theorem reports_call_of_ok {α : Type} {x : ManagerM α} {k : α → CommandM Unit} {a : α} {m : PermissionManager}
    (h : x s.manager = .ok a m) (hk : Reports (k a) { s with manager := m }) : Reports (call x >>= k) s :=
  Ensures.bind (ensures_of_ok (call_of_ok h) hk)

theorem reports_read_of_ok {α : Type} {select : Db → Except Exn α} {k : α → CommandM Unit} {a : α}
    (h : select s.manager.db = .ok a) (hk : Reports (k a) s) : Reports (call (read select) >>= k) s :=
  reports_call_of_ok (read_of_ok h) hk

/-- What is thrown before anything is printed, the `catch` prints. -/
theorem reports_reporting {key : String} {body : CommandM Unit} (h : Prints body s) :
    Reports (reporting svc key body) s := by
  refine Ensures.tryCatch ?_
  unfold Prints Ensures at h
  unfold Ensures
  cases hb : body s with
  | ok a s' =>
    rw [hb] at h
    exact h
  | error e s' =>
    rw [hb] at h
    have hprinted := ensures_error (E := fun _ _ => False) (svc.tr key [e.what svc]) s'
    rwa [h] at hprinted

/-- A player that is not found is what the handler reports. -/
theorem ensures_player {playerName : String} (hdir : svc.fromName playerName ≠ some "") {k : String → CommandM Unit}
    (hk : ∀ uuid, svc.fromName playerName = some uuid → Ensures (k uuid) s (fun _ => Printed s.output) E) :
    Ensures (do
      let uuid ← resolvePlayerUuid svc playerName
      if uuid = "" then return
      else k uuid) s (fun _ => Printed s.output) E := by
  refine Ensures.bind ?_
  rcases resolvePlayerUuid_cases svc playerName s with ⟨-, h⟩ | ⟨uuid, hname, h⟩
  · exact ensures_of_ok h (ensures_of_ok rfl ⟨_, rfl⟩)
  · have hu : uuid ≠ "" := by
      rintro rfl
      exact hdir hname
    refine ensures_of_ok h ?_
    rw [if_neg hu]
    exact hk uuid hname

/-- A subject that is not found is what the handler reports. -/
theorem ensures_subject {subjectName : String} {subjectType : SubjectKind} (hdir : svc.fromName subjectName ≠ some "")
    (hgroups : "" ∉ s.manager.db.groupUuids) {k : String → CommandM Unit}
    (hk : ∀ uuid, Ensures (k uuid) s (fun _ => Printed s.output) E) :
    Ensures (do
      let uuid ← resolveSubjectUuid svc subjectName subjectType
      if uuid = "" then return
      else k uuid) s (fun _ => Printed s.output) E := by
  refine Ensures.bind ?_
  rcases resolveSubjectUuid_cases svc subjectName subjectType s with ⟨line, h⟩ | ⟨uuid, h, hsubject⟩
  · exact ensures_of_ok h (ensures_of_ok rfl ⟨_, rfl⟩)
  · have hu : uuid ≠ "" := by
      rcases hsubject with ⟨-, rfl⟩ | ⟨-, -, group, hgroup, rfl⟩ | ⟨-, -, hname⟩
      · decide
      · exact fun hu => hgroups (hu ▸ mem_groupUuids_of_getGroupByName hgroup)
      · exact fun hu => hdir (hu ▸ hname)
    refine ensures_of_ok h ?_
    rw [if_neg hu]
    exact hk uuid

end Rules

/-! ### The handlers -/

section Handlers

variable {svc : Services} {s : Session}

theorem reports_reload (svc : Services) (s : Session) : Reports (reload svc) s :=
  reports_call_of_ok rfl (ensures_success ..)

theorem reports_groupCreate (svc : Services) (newUuid name : String) (s : Session) :
    Reports (groupCreate svc newUuid name) s :=
  reports_reporting (prints_call ..)

/-- A handler that starts with the lookup of a group. -/
theorem reports_group {name : String} {k : Db → GroupInfo → CommandM Unit}
    (hk : ∀ group, PermissionRepository.getGroupByName s.manager.db name = some group →
      Reports (k s.manager.db group) s) :
    Reports (do
      let db ← getDb
      match PermissionRepository.getGroupByName db name with
      | none => error (svc.tr "bakaperms.error.group_not_found" [name])
      | some group => k db group) s := by
  refine reports_getDb ?_
  cases hgroup : PermissionRepository.getGroupByName s.manager.db name with
  | none => exact ensures_error ..
  | some group => exact hk group hgroup

theorem reports_groupDelete (hdb : s.manager.db.Sound) (name : String) : Reports (groupDelete svc name) s := by
  refine reports_group fun group _ => ?_
  obtain ⟨db', h⟩ := deleteGroup_succeeds hdb.masks hdb.numbered_entries group.uuid
  exact reports_call_of_ok (writer_of_ok h) (ensures_success ..)

theorem reports_groupSetParent (name parentName : String) : Reports (groupSetParent svc name parentName) s := by
  refine reports_group fun group _ => reports_reporting ?_
  by_cases hnone : parentName = "none"
  · rw [if_pos hnone]
    exact prints_call ..
  · rw [if_neg hnone]
    show Prints (match PermissionRepository.getGroupByName s.manager.db parentName with
      | none => error (svc.tr "bakaperms.error.parent_group_not_found" [parentName])
      | some parent => _) s
    cases PermissionRepository.getGroupByName s.manager.db parentName with
    | none => exact ensures_error ..
    | some parent => exact prints_call ..

theorem reports_groupList (svc : Services) (s : Session) : Reports (groupList svc) s := by
  refine reports_getDb ?_
  dsimp only
  split
  · exact ensures_success ..
  · exact ensures_success ..

theorem reports_groupInfo (hm : s.manager.db.ValidMasks) (name : String) : Reports (groupInfo svc name) s := by
  refine reports_group fun group _ => ?_
  obtain ⟨aces, h⟩ := getSubjectACEs_ok hm group.uuid
  exact reports_read_of_ok h (ensures_success ..)

theorem reports_groupCheck (hdb : s.manager.db.Sound) {name node : String}
    (hnode : (PermissionRepository.getGroupByName s.manager.db name).isSome → node ≠ "") (trace : Option Bool) :
    Reports (groupCheck svc name node trace) s := by
  refine reports_group fun group hgroup => ?_
  have hne : node ≠ "" := hnode (Option.isSome_of_eq_some hgroup)
  obtain ⟨result, h⟩ := tracePermission_ok hdb.toKeys hdb.masks .group group.uuid hne
  refine reports_read_of_ok h ?_
  split
  · exact ensures_success ..
  · exact ensures_success ..

theorem reports_userAddGroup {playerName : String} (hdir : svc.fromName playerName ≠ some "") (groupName : String) :
    Reports (userAddGroup svc playerName groupName) s := by
  refine ensures_player hdir fun uuid _ => reports_group fun group hgroup => ?_
  obtain ⟨added, db', h⟩ := addPlayerToGroup_ok (mem_groupUuids_of_getGroupByName hgroup) uuid
  refine reports_call_of_ok (membership_of_ok h uuid) ?_
  cases added
  · exact ensures_error ..
  · exact ensures_success ..

theorem reports_userRemoveGroup {playerName : String} (hdir : svc.fromName playerName ≠ some "")
    (groupName : String) : Reports (userRemoveGroup svc playerName groupName) s := by
  refine ensures_player hdir fun uuid _ => reports_group fun group _ => ?_
  have h : PermissionRepository.removePlayerFromGroup uuid group.uuid s.manager.db = .ok _ _ := bind_of_ok rfl
  refine reports_call_of_ok (membership_of_ok h uuid) ?_
  split
  · exact ensures_success ..
  · exact ensures_error ..

theorem reports_userCheck (hdb : s.manager.db.Sound) {playerName : String} (hdir : svc.fromName playerName ≠ some "")
    {node : String} (hnode : (svc.fromName playerName).isSome → node ≠ "") (trace : Option Bool) :
    Reports (userCheck svc playerName node trace) s := by
  refine ensures_player hdir fun uuid hname => ?_
  have hne : node ≠ "" := hnode (Option.isSome_of_eq_some hname)
  by_cases ht : trace = some true
  · rw [if_pos ht]
    obtain ⟨result, h⟩ := tracePermission_ok hdb.toKeys hdb.masks .player uuid hne
    exact reports_read_of_ok h (reports_getDb (ensures_success ..))
  · rw [if_neg ht]
    cases hc : s.manager.cache uuid node with
    | some mask => exact reports_call_of_ok (checkPermission_of_cached hc) (ensures_success ..)
    | none =>
      obtain ⟨path, hpath, -⟩ := buildNodePath_eq_ok hne
      have h := checkPermission_of_missed hc
      rw [resolvePermission_eq hdb.toKeys hdb.masks hpath] at h
      exact reports_call_of_ok h (ensures_success ..)

theorem reports_userInfo (hm : s.manager.db.ValidMasks) {playerName : String}
    (hdir : svc.fromName playerName ≠ some "") : Reports (userInfo svc playerName) s := by
  refine ensures_player hdir fun uuid _ => ?_
  obtain ⟨aces, h⟩ := getSubjectACEs_ok hm uuid
  exact reports_getDb (reports_read_of_ok h (ensures_success ..))

theorem reports_aclAdd (now node : String) {subjectName : String} (hdir : svc.fromName subjectName ≠ some "")
    (hgroups : "" ∉ s.manager.db.groupUuids) (subjectType : SubjectKind) (access : AccessMask) :
    Reports (aclAdd svc now node subjectName subjectType access) s :=
  reports_reporting (ensures_subject hdir hgroups fun _ => prints_call ..)

theorem reports_aclInsert (now node : String) (position : Int) {subjectName : String}
    (hdir : svc.fromName subjectName ≠ some "") (hgroups : "" ∉ s.manager.db.groupUuids) (subjectType : SubjectKind)
    (access : AccessMask) : Reports (aclInsert svc now node position subjectName subjectType access) s :=
  reports_reporting (ensures_subject hdir hgroups fun _ => prints_call ..)

theorem reports_aclRemove (node : String) (position : Int) : Reports (aclRemove svc node position) s :=
  reports_reporting (prints_call ..)

theorem reports_aclMove (node : String) (fromIndex toIndex : Int) :
    Reports (aclMove svc node fromIndex toIndex) s :=
  reports_reporting (prints_call ..)

theorem reports_aclInfo (hm : s.manager.db.ValidMasks) (node : String) : Reports (aclInfo svc node) s := by
  refine reports_getDb (reports_read_of_ok (getNodeACL_eq hm node) ?_)
  split
  · exact ensures_success ..
  · exact ensures_success ..

theorem reports_aclClear (svc : Services) (node : String) (s : Session) : Reports (aclClear svc node) s :=
  reports_call_of_ok rfl (ensures_success ..)

end Handlers

/-! ### All commands -/

/-- The command returns, and has printed one line. -/
def Invocation.Reports (inv : Invocation) (m : PermissionManager) : Prop :=
  ∃ line m', inv.run m = .ok () ⟨m', [line]⟩

/-- The command checks the empty node for a group that exists or for a player that the directory knows. -/
def Invocation.ChecksEmptyNode (inv : Invocation) (db : Db) : Prop :=
  (∃ name trace, inv.command = .groupCheck name "" trace ∧ (PermissionRepository.getGroupByName db name).isSome) ∨
    ∃ playerName trace, inv.command = .userCheck playerName "" trace ∧ (inv.svc.fromName playerName).isSome

theorem Invocation.reports_iff_handler {inv : Invocation} {m : PermissionManager} :
    inv.Reports m ↔ BakaPerms.Reports inv.handler ⟨m, []⟩ := by
  unfold Invocation.Reports BakaPerms.Reports
  rw [ensures_false]
  constructor
  · rintro ⟨line, m', h⟩
    exact ⟨(), _, h, line, rfl⟩
  · rintro ⟨_, ⟨m', output⟩, h, line, rfl⟩
    exact ⟨line, m', h⟩

/-- The exception about the empty node leaves the handler before anything is printed. -/
theorem throws_of_checksEmptyNode {inv : Invocation} {m : PermissionManager} (hm : NoEmptyNode m)
    (hdir : ∀ name, inv.svc.fromName name ≠ some "") (h : inv.ChecksEmptyNode m.db) :
    inv.run m = .error (.invalidArgument "Permission node must not be empty") ⟨m, []⟩ := by
  obtain ⟨svc, now, newUuid, command⟩ := inv
  rcases h with ⟨name, trace, rfl, hgroup⟩ | ⟨playerName, trace, rfl, hname⟩
  · obtain ⟨group, hgroup⟩ := Option.isSome_iff_exists.1 hgroup
    show groupCheck svc name "" trace ⟨m, []⟩ = _
    unfold groupCheck
    rw [getDb_bind, hgroup]
    exact bind_of_error (call_of_error (read_of_error (tracePermission_empty ..)))
  · obtain ⟨uuid, hname⟩ := Option.isSome_iff_exists.1 hname
    have hne : uuid ≠ "" := by
      rintro rfl
      exact hdir playerName hname
    have hfound : resolvePlayerUuid svc playerName ⟨m, []⟩ = .ok uuid ⟨m, []⟩ := by
      unfold resolvePlayerUuid
      rw [show svc.fromName playerName = some uuid from hname]
      rfl
    show userCheck svc playerName "" trace ⟨m, []⟩ = _
    unfold userCheck
    rw [bind_of_ok hfound, if_neg hne]
    by_cases ht : trace = some true
    · rw [if_pos ht]
      exact bind_of_error (call_of_error (read_of_error (tracePermission_empty ..)))
    · rw [if_neg ht]
      have h := checkPermission_of_missed (hm uuid)
      rw [resolvePermission_empty] at h
      exact bind_of_error (call_of_error h)

/-- After every run of commands a command ends with a report unless it checks the empty node.  The uuids that the
server makes, and those that its directory knows, are not empty. -/
theorem reports_iff {invs : List Invocation} (hnew : ∀ inv ∈ invs, inv.newUuid ≠ "") {inv : Invocation}
    (hdir : ∀ name, inv.svc.fromName name ≠ some "") {m : PermissionManager}
    (hm : runCommands (.init Db.empty) invs = m) : inv.Reports m ↔ ¬ inv.ChecksEmptyNode m.db := by
  have hdb : m.db.Sound := hm ▸ sound_runCommands Db.sound_empty invs
  have hempty : NoEmptyNode m := hm ▸ noEmptyNode_runCommands Db.empty invs
  have hgroups : "" ∉ m.db.groupUuids := by
    intro hmem
    have hmade : "" ∈ invs.map Invocation.newUuid := mem_newUuids (hm ▸ hmem)
    obtain ⟨inv₀, hinv₀, heq⟩ := List.mem_map.1 hmade
    exact hnew inv₀ hinv₀ heq
  constructor
  · rintro ⟨line, m', h⟩ hcheck
    rw [throws_of_checksEmptyNode hempty hdir hcheck] at h
    cases h
  · intro hno
    rw [Invocation.reports_iff_handler]
    obtain ⟨svc, now, newUuid, command⟩ := inv
    cases command with
    | reload => exact reports_reload ..
    | groupCreate name => exact reports_groupCreate ..
    | groupDelete name => exact reports_groupDelete hdb name
    | groupSetParent name parentName => exact reports_groupSetParent ..
    | groupList => exact reports_groupList ..
    | groupInfo name => exact reports_groupInfo hdb.masks name
    | groupCheck name node trace =>
      exact reports_groupCheck hdb (fun hgroup hnode => hno (.inl ⟨name, trace, by rw [hnode], hgroup⟩)) trace
    | userAddGroup playerName groupName => exact reports_userAddGroup (hdir _) groupName
    | userRemoveGroup playerName groupName => exact reports_userRemoveGroup (hdir _) groupName
    | userCheck playerName node trace =>
      exact reports_userCheck hdb (hdir _)
        (fun hname hnode => hno (.inr ⟨playerName, trace, by rw [hnode], hname⟩)) trace
    | userInfo playerName => exact reports_userInfo hdb.masks (hdir _)
    | aclAdd node subjectName subjectType access => exact reports_aclAdd now node (hdir _) hgroups ..
    | aclInsert node position subjectName subjectType access =>
      exact reports_aclInsert now node position (hdir _) hgroups ..
    | aclRemove node position => exact reports_aclRemove ..
    | aclMove node fromIndex toIndex => exact reports_aclMove ..
    | aclInfo node => exact reports_aclInfo hdb.masks node
    | aclClear node => exact reports_aclClear ..

/-- A group that has just been created. -/
def staffInvs : List Invocation := [⟨sampleServices, "t", "g1", .groupCreate "staff"⟩]

theorem sampleServices_fromName (name : String) : sampleServices.fromName name ≠ some "" := by
  show (if name = "Alice" then some "p" else none) ≠ some ""
  split <;> simp

/-- `group check staff ""` and `user check Alice ""` print nothing and throw. -/
theorem emptyNode_escapes :
    (¬ Invocation.Reports ⟨sampleServices, "t", "g2", .groupCheck "staff" "" none⟩
        (runCommands (.init Db.empty) staffInvs)) ∧
      ¬ Invocation.Reports ⟨sampleServices, "t", "g2", .userCheck "Alice" "" none⟩
        (runCommands (.init Db.empty) staffInvs) := by
  have hempty := noEmptyNode_runCommands Db.empty staffInvs
  constructor
  · rintro ⟨line, m', h⟩
    rw [throws_of_checksEmptyNode hempty sampleServices_fromName (.inl ⟨"staff", none, rfl, by decide +kernel⟩)] at h
    cases h
  · rintro ⟨line, m', h⟩
    rw [throws_of_checksEmptyNode hempty sampleServices_fromName (.inr ⟨"Alice", none, rfl, by decide⟩)] at h
    cases h

theorem reports_iff_sample :
    Invocation.Reports ⟨sampleServices, "t", "g2", .userCheck "Alice" "a" none⟩
      (runCommands (.init Db.empty) staffInvs) := by
  refine (@reports_iff staffInvs (by simp [staffInvs]) ⟨sampleServices, "t", "g2", .userCheck "Alice" "a" none⟩
    sampleServices_fromName _ rfl).2 ?_
  rintro (⟨_, _, h, -⟩ | ⟨_, _, h, -⟩)
  · cases h
  · exact absurd (Command.userCheck.inj h).2.1 (by decide)

end BakaPerms
