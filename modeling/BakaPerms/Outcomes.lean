import BakaPerms.CommandCalls
import BakaPerms.Reports

/-!
# What the report of a command means

Once the names that it is given are found, a command is for one call of the manager, or for a text about what the tables
hold or decide (`Invocation.request`).  Whatever the state, a success is reported exactly when that call has returned,
in the words for its result, and everything is as the call leaves it; a text that is shown is the one about the tables,
with the decision of the trace if it is about one.  A name that is not found, an exception that is reported, and one that
escapes, leave the tables, the cache and the generation as they were (`verdict_run`).
-/

namespace BakaPerms

open Effect PermissionManager PermsCommand

/-- What a command is for. -/
inductive Request
  /-- A call of the manager. -/
  | call (call : Call)
  /-- A text about the tables, or the exception that is thrown instead. -/
  | text (shown : Except Exn String)

/-- The call in a request. -/
def Request.called : Except (Option String) Request → Option Call
  | .ok (.call call') => some call'
  | _ => none

namespace Invocation

variable (inv : Invocation) (db : Db)

/-- The player of a name, or what is printed instead; about an empty uuid it is nothing. -/
def findPlayer (playerName : String) : Except (Option String) String :=
  match inv.svc.fromName playerName with
  | none => .error (some (inv.svc.tr "bakaperms.error.player_not_found" [playerName]))
  | some uuid => if uuid = "" then .error none else .ok uuid

/-- The group of a name, or what is printed instead. -/
def findGroup (name : String) : Except (Option String) GroupInfo :=
  match PermissionRepository.getGroupByName db name with
  | none => .error (some (inv.svc.tr "bakaperms.error.group_not_found" [name]))
  | some group => .ok group

/-- The subject of a name, or what is printed instead. -/
def findSubject (subjectName : String) (subjectType : SubjectKind) : Except (Option String) String :=
  if subjectName = "*" then .ok "*"
  else
    match subjectType with
    | .group => do
      let group ← inv.findGroup db subjectName
      if group.uuid = "" then .error none else .ok group.uuid
    | .player => inv.findPlayer subjectName

/-- What the command is for, or what is printed instead. -/
def request : Except (Option String) Request :=
  match inv.command with
  | .reload => .ok (.call (.invalidate none))
  | .groupCreate name => .ok (.call (.createGroup inv.newUuid name none))
  | .groupDelete name => do
    let group ← inv.findGroup db name
    .ok (.call (.deleteGroup group.uuid))
  | .groupSetParent name parentName => do
    let group ← inv.findGroup db name
    if parentName = "none" then .ok (.call (.setGroupParent group.uuid none))
    else
      match PermissionRepository.getGroupByName db parentName with
      | none => .error (some (inv.svc.tr "bakaperms.error.parent_group_not_found" [parentName]))
      | some parent => .ok (.call (.setGroupParent group.uuid (some parent.uuid)))
  | .groupList =>
    let groups := PermissionRepository.getAllGroups db
    .ok (.text (.ok (inv.svc.groupsReport groups fun group => group.parentUuid.bind (nameAmong groups))))
  | .groupInfo name => do
    let group ← inv.findGroup db name
    .ok (.text ((PermissionRepository.getSubjectACEs db group.uuid).map fun aces =>
      inv.svc.groupReport group (group.parentUuid.bind (groupName db)) aces
        (PermissionRepository.getGroupMembers db group.uuid)))
  | .groupCheck name node trace => do
    let group ← inv.findGroup db name
    .ok (.text ((tracePermission db .group group.uuid node).map fun result =>
      if trace = some true then inv.svc.traceReport db result
      else inv.svc.checkReport "bakaperms.label.group" node name result.finalResult))
  | .userAddGroup playerName groupName => do
    let playerUuid ← inv.findPlayer playerName
    let group ← inv.findGroup db groupName
    if ⟨playerUuid, group.uuid⟩ ∉ db.playerGroups then .ok (.call (.addPlayerToGroup playerUuid group.uuid))
    else .error (some (inv.svc.tr "bakaperms.user.already_in_group" [playerName, groupName]))
  | .userRemoveGroup playerName groupName => do
    let playerUuid ← inv.findPlayer playerName
    let group ← inv.findGroup db groupName
    if ⟨playerUuid, group.uuid⟩ ∈ db.playerGroups then .ok (.call (.removePlayerFromGroup playerUuid group.uuid))
    else .error (some (inv.svc.tr "bakaperms.user.not_in_group" [playerName, groupName]))
  | .userCheck playerName node trace => do
    let playerUuid ← inv.findPlayer playerName
    if trace = some true then
      .ok (.text ((tracePermission db .player playerUuid node).map (inv.svc.traceReport db)))
    else .ok (.call (.checkPermission playerUuid node))
  | .userInfo playerName => do
    let playerUuid ← inv.findPlayer playerName
    .ok (.text ((PermissionRepository.getSubjectACEs db playerUuid).map
      (inv.svc.playerReport playerName playerUuid (PermissionRepository.getPlayerGroups db playerUuid))))
  | .aclAdd node subjectName subjectType access => do
    let subjectUuid ← inv.findSubject db subjectName subjectType
    .ok (.call (.appendACE inv.now node subjectUuid (subjectTypeInt subjectType) access))
  | .aclInsert node position subjectName subjectType access => do
    let subjectUuid ← inv.findSubject db subjectName subjectType
    .ok (.call (.insertACE inv.now node position subjectUuid (subjectTypeInt subjectType) access))
  | .aclRemove node position => .ok (.call (.removeACE node position))
  | .aclMove node fromIndex toIndex => .ok (.call (.moveACE node fromIndex toIndex))
  | .aclInfo node =>
    .ok (.text ((PermissionRepository.getNodeACL db node).map fun acl => inv.svc.aclReport node acl (groupName db)))
  | .aclClear node => .ok (.call (.clearNodeACL node))

/-- The line about the success of the call, given its result. -/
def report (result : Option AccessMask) : String :=
  let tr := inv.svc.tr
  match inv.command with
  | .reload => tr "bakaperms.reload.success" []
  | .groupCreate name => tr "bakaperms.group.created" [name, inv.newUuid]
  | .groupDelete name => tr "bakaperms.group.deleted" [name]
  | .groupSetParent name parentName =>
    if parentName = "none" then tr "bakaperms.group.parent_cleared" [name]
    else tr "bakaperms.group.parent_set" [name, parentName]
  | .userAddGroup playerName groupName => tr "bakaperms.user.added_to_group" [playerName, groupName]
  | .userRemoveGroup playerName groupName => tr "bakaperms.user.removed_from_group" [playerName, groupName]
  | .userCheck playerName node _ => result.elim "" (inv.svc.checkReport "bakaperms.label.player" node playerName)
  | .aclAdd node subjectName subjectType access =>
    tr "bakaperms.acl.appended" [node, tr subjectType.labelKey [], subjectName, tr access.labelKey []]
  | .aclInsert node position subjectName subjectType access =>
    tr "bakaperms.acl.inserted"
      [toString position, node, tr subjectType.labelKey [], subjectName, tr access.labelKey []]
  | .aclRemove node position => tr "bakaperms.acl.removed" [toString position, node]
  | .aclMove node fromIndex toIndex => tr "bakaperms.acl.moved" [toString fromIndex, toString toIndex, node]
  | .aclClear node => tr "bakaperms.acl.cleared" [node]
  | .groupList | .groupInfo _ | .groupCheck .. | .userInfo _ | .aclInfo _ => ""

/-- The key under which exceptions of the call are reported, `none` where they escape. -/
def failureKey : Option String :=
  match inv.command with
  | .groupCreate _ => some "bakaperms.error.create_group_failed"
  | .groupSetParent .. | .aclAdd .. | .aclInsert .. | .aclRemove .. | .aclMove .. =>
    some "bakaperms.error.operation_failed"
  | _ => none

end Invocation

/-- How a handler can end that was started in `s`. -/
inductive Verdict (svc : Services) (request : Except (Option String) Request) (report : Option AccessMask → String)
    (failureKey : Option String) (s : Session) : EStateM.Result Exn Session Unit → Prop
  | done {call : Call} {result : Option AccessMask} {m : PermissionManager} (hrequest : request = .ok (.call call))
    (hrun : call.run s.manager = .ok result m) :
    Verdict svc request report failureKey s (.ok () ⟨m, s.output ++ [.success (report result)]⟩)
  | refused {call : Call} {e : Exn} {m : PermissionManager} {key : String} (hrequest : request = .ok (.call call))
    (hkey : failureKey = some key) (hrun : call.run s.manager = .error e m) :
    Verdict svc request report failureKey s (.ok () ⟨s.manager, s.output ++ [.error (svc.tr key [e.what svc])]⟩)
  | escaped {call : Call} {e : Exn} {m : PermissionManager} (hrequest : request = .ok (.call call))
    (hkey : failureKey = none) (hrun : call.run s.manager = .error e m) :
    Verdict svc request report failureKey s (.error e s)
  | shown {message : String} (hrequest : request = .ok (.text (.ok message))) :
    Verdict svc request report failureKey s (.ok () ⟨s.manager, s.output ++ [.success message]⟩)
  | notShown {e : Exn} (hrequest : request = .ok (.text (.error e))) :
    Verdict svc request report failureKey s (.error e s)
  | notFound {message : String} (hrequest : request = .error (some message)) :
    Verdict svc request report failureKey s (.ok () ⟨s.manager, s.output ++ [.error message]⟩)
  | silent (hrequest : request = .error none) : Verdict svc request report failureKey s (.ok () s)

/-! ### Parts of the handlers -/

section Parts

variable {request : Except (Option String) Request} {report : Option AccessMask → String} {failureKey : Option String}
  {s : Session} {svc : Services}

/-- The call of the command, and the line about its result. -/
theorem verdict_call {α : Type} (call' : Call) {x : ManagerM α} {f : α → Option AccessMask}
    (hcall : call'.run = f <$> x) {text : α → String}
    (htext : ∀ a m, x s.manager = .ok a m → text a = report (f a)) :
    Verdict svc (.ok (.call call')) report none s ((call x >>= fun a => success (text a)) s) := by
  cases hx : x s.manager with
  | ok a m =>
    rw [bind_of_ok (call_of_ok hx), htext a m hx]
    exact .done rfl (by rw [hcall, map_of_ok hx])
  | error e m =>
    have hrun : call'.run s.manager = .error e m := by rw [hcall, map_of_error hx]
    obtain rfl := Call.run_error hrun
    rw [bind_of_error (call_of_error hx)]
    exact .escaped rfl rfl hrun

/-- A `try` around what may throw. -/
theorem verdict_reporting {key : String} {body : CommandM Unit} (hcall : ∀ shown, request ≠ .ok (.text shown))
    (h : Verdict svc request report none s (body s)) :
    Verdict svc request report (some key) s (reporting svc key body s) := by
  unfold reporting
  cases hb : body s with
  | ok a s' =>
    rw [tryCatch_of_ok hb]
    rw [hb] at h
    cases h with
    | done hrequest hrun => exact .done hrequest hrun
    | refused _ hkey => cases hkey
    | shown hrequest => exact absurd hrequest (hcall _)
    | notFound hrequest => exact .notFound hrequest
    | silent hrequest => exact .silent hrequest
  | error e s' =>
    rw [tryCatch_of_error hb]
    rw [hb] at h
    cases h with
    | escaped hrequest _ hrun => exact .refused hrequest rfl hrun
    | notShown hrequest => exact absurd hrequest (hcall _)

theorem bind_ne_text {α : Type} {found : Except (Option String) α} {f : α → Except (Option String) Request}
    (hf : ∀ a shown, f a ≠ .ok (.text shown)) (shown : Except Exn String) : (found >>= f) ≠ .ok (.text shown) := by
  intro h
  obtain ⟨a, -, ha⟩ := exceptBind_eq_ok.1 h
  exact hf a shown ha

/-- A read, and the text about it. -/
theorem verdict_read {α : Type} {select : Db → Except Exn α} {text : α → String} {k : α → CommandM Unit}
    (hrequest : request = .ok (.text ((select s.manager.db).map text))) (hk : ∀ a, k a s = success (text a) s) :
    Verdict svc request report failureKey s ((call (read select) >>= k) s) := by
  cases hs : select s.manager.db with
  | ok a =>
    rw [hs] at hrequest
    rw [bind_of_ok (call_of_ok (read_of_ok hs)), hk]
    exact .shown hrequest
  | error e =>
    rw [hs] at hrequest
    rw [bind_of_error (call_of_error (read_of_error hs))]
    exact .notShown hrequest

/-- The end of a lookup that was started in `s`, where `found` is to be found; the empty uuid is for nothing. -/
def Finds (s : Session) (found : Except (Option String) String) (result : EStateM.Result Exn Session String) : Prop :=
  match found with
  | .ok uuid => uuid ≠ "" ∧ result = .ok uuid s
  | .error (some message) => result = .ok "" ⟨s.manager, s.output ++ [.error message]⟩
  | .error none => result = .ok "" s

theorem finds_uuid (s : Session) (uuid : String) :
    Finds s (if uuid = "" then .error none else .ok uuid) (.ok uuid s) := by
  by_cases hu : uuid = ""
  · rw [if_pos hu, hu]
    rfl
  · rw [if_neg hu]
    exact ⟨hu, rfl⟩

theorem finds_player (inv : Invocation) (playerName : String) (s : Session) :
    Finds s (inv.findPlayer playerName) (resolvePlayerUuid inv.svc playerName s) := by
  unfold Invocation.findPlayer
  rcases resolvePlayerUuid_cases inv.svc playerName s with ⟨hname, h⟩ | ⟨uuid, hname, h⟩
  · rw [hname]
    exact h
  · rw [hname, h]
    exact finds_uuid s uuid

theorem finds_subject (inv : Invocation) (subjectName : String) (subjectType : SubjectKind) (s : Session) :
    Finds s (inv.findSubject s.manager.db subjectName subjectType)
      (resolveSubjectUuid inv.svc subjectName subjectType s) := by
  unfold resolveSubjectUuid Invocation.findSubject
  by_cases hstar : subjectName = "*"
  · rw [if_pos hstar, if_pos hstar]
    exact ⟨by decide, rfl⟩
  rw [if_neg hstar, if_neg hstar]
  cases subjectType with
  | player => exact finds_player inv subjectName s
  | group =>
    dsimp only
    unfold Invocation.findGroup
    rw [getDb_bind]
    cases PermissionRepository.getGroupByName s.manager.db subjectName with
    | none => rfl
    | some group => exact finds_uuid s group.uuid

/-- The handler goes on when the uuid is found. -/
theorem verdict_uuid {lookup : CommandM String} {found : Except (Option String) String} {k : String → CommandM Unit}
    {f : String → Except (Option String) Request} (h : Finds s found (lookup s))
    (hk : ∀ uuid, Verdict svc (f uuid) report failureKey s (k uuid s)) :
    Verdict svc (found >>= f) report failureKey s ((do
      let uuid ← lookup
      if uuid = "" then return
      else k uuid : CommandM Unit) s) := by
  match found, h with
  | .ok uuid, ⟨hu, h⟩ =>
    rw [bind_of_ok h, if_neg hu]
    exact hk uuid
  | .error (some message), h =>
    rw [bind_of_ok h]
    exact .notFound rfl
  | .error none, h =>
    rw [bind_of_ok h]
    exact .silent rfl

/-- The handler goes on when the group is found. -/
theorem verdict_group (inv : Invocation) {name : String} {k : Db → GroupInfo → CommandM Unit}
    {f : GroupInfo → Except (Option String) Request}
    (hk : ∀ group, Verdict svc (f group) report failureKey s (k s.manager.db group s)) :
    Verdict svc (inv.findGroup s.manager.db name >>= f) report failureKey s ((do
      let db ← getDb
      match PermissionRepository.getGroupByName db name with
      | none => error (inv.svc.tr "bakaperms.error.group_not_found" [name])
      | some group => k db group : CommandM Unit) s) := by
  rw [getDb_bind]
  unfold Invocation.findGroup
  cases PermissionRepository.getGroupByName s.manager.db name with
  | none => exact .notFound rfl
  | some group => exact hk group

/-! ### Calls with a result -/

/-- The uuid that is reported for a new group is the one given. -/
theorem createGroup_uuid {m m' : PermissionManager} {uuid name uuid' : String} {parentUuid : Option String}
    (h : PermissionManager.createGroup uuid name parentUuid m = .ok uuid' m') : uuid' = uuid := by
  by_cases hexists : (PermissionRepository.getGroupByName m.db name).isSome
  · rw [createGroup_of_exists hexists] at h
    cases h
  · rw [createGroup_of_new hexists] at h
    obtain ⟨_, -, rfl⟩ := map_eq_ok.1 h
    rfl

/-- Adding a player who is a member already. -/
theorem addPlayerToGroup_of_mem {m : PermissionManager} {playerUuid groupUuid : String}
    (h : (⟨playerUuid, groupUuid⟩ : PlayerGroupRow) ∈ m.db.playerGroups) :
    PermissionManager.addPlayerToGroup playerUuid groupUuid m = .ok false m := by
  have hrepo : PermissionRepository.addPlayerToGroup playerUuid groupUuid m.db = .ok false m.db :=
    bind_of_ok (a := 0) (if_pos h)
  exact membership_of_ok hrepo playerUuid

theorem addPlayerToGroup_of_notMem {m : PermissionManager} {playerUuid groupUuid : String}
    (h : (⟨playerUuid, groupUuid⟩ : PlayerGroupRow) ∉ m.db.playerGroups) {added : Bool} {m' : PermissionManager}
    (hadd : PermissionManager.addPlayerToGroup playerUuid groupUuid m = .ok added m') : added = true := by
  cases hrepo : PermissionRepository.addPlayerToGroup playerUuid groupUuid m.db with
  | error e db =>
    have hthrows := membership_of_error hrepo playerUuid
    cases hadd.symm.trans hthrows
  | ok changed db =>
    have hreturns := membership_of_ok hrepo playerUuid
    obtain ⟨n, db₁, hinsert, hpure⟩ := bind_eq_ok.1 hrepo
    obtain ⟨rfl, -⟩ := pure_eq_ok.1 hpure
    have hadded := (EStateM.Result.ok.inj (hadd.symm.trans hreturns)).1
    have hone : n = 1 := by
      unfold insertPlayerGroup at hinsert
      rw [if_neg h] at hinsert
      split at hinsert
      · cases hinsert
        rfl
      · cases hinsert
    rw [hadded, hone]
    rfl

private theorem removePlayerFromGroup_eq (db : Db) (playerUuid groupUuid : String) :
    PermissionRepository.removePlayerFromGroup playerUuid groupUuid db =
      .ok (decide (0 < db.playerGroups.countP (· == ⟨playerUuid, groupUuid⟩)))
        { db with playerGroups := Table.delete (· == ⟨playerUuid, groupUuid⟩) db.playerGroups } := rfl

theorem removePlayerFromGroup_of_notMem {m : PermissionManager} {playerUuid groupUuid : String}
    (h : (⟨playerUuid, groupUuid⟩ : PlayerGroupRow) ∉ m.db.playerGroups) :
    PermissionManager.removePlayerFromGroup playerUuid groupUuid m = .ok false m := by
  have hcount : m.db.playerGroups.countP (· == (⟨playerUuid, groupUuid⟩ : PlayerGroupRow)) = 0 := by
    refine List.countP_eq_zero.2 fun row hrow heq => h ?_
    rwa [← beq_iff_eq.1 heq]
  have hkept : Table.delete (· == (⟨playerUuid, groupUuid⟩ : PlayerGroupRow)) m.db.playerGroups =
      m.db.playerGroups := by
    refine List.filter_eq_self.2 fun row hrow => ?_
    have hne : row ≠ ⟨playerUuid, groupUuid⟩ := fun heq => h (heq ▸ hrow)
    simpa using hne
  have hrepo : PermissionRepository.removePlayerFromGroup playerUuid groupUuid m.db = .ok false m.db := by
    rw [removePlayerFromGroup_eq, hcount, hkept]
    rfl
  exact membership_of_ok hrepo playerUuid

theorem removePlayerFromGroup_of_mem {m : PermissionManager} {playerUuid groupUuid : String}
    (h : (⟨playerUuid, groupUuid⟩ : PlayerGroupRow) ∈ m.db.playerGroups) {removed : Bool} {m' : PermissionManager}
    (hremove : PermissionManager.removePlayerFromGroup playerUuid groupUuid m = .ok removed m') : removed = true := by
  have hpos : 0 < m.db.playerGroups.countP (· == (⟨playerUuid, groupUuid⟩ : PlayerGroupRow)) :=
    List.countP_pos_iff.2 ⟨_, h, beq_self_eq_true _⟩
  have hreturns := membership_of_ok (removePlayerFromGroup_eq m.db playerUuid groupUuid) playerUuid
  rw [(EStateM.Result.ok.inj (hremove.symm.trans hreturns)).1, decide_eq_true hpos]

/-- A call that tells whether it has changed a membership. -/
theorem verdict_membership (call' : Call) (changes : Prop) [Decidable changes] {x : ManagerM Bool} {no : String}
    (hcall : call'.run = (fun _ => none) <$> x) (hno : ¬ changes → x s.manager = .ok false s.manager)
    (hyes : changes → ∀ b m, x s.manager = .ok b m → b = true) :
    Verdict svc (if changes then .ok (.call call') else .error (some no)) report none s ((do
      if ← call x then success (report none)
      else error no : CommandM Unit) s) := by
  by_cases h : changes
  · rw [if_pos h]
    cases hx : x s.manager with
    | ok b m =>
      have hb := hyes h b m hx
      subst hb
      rw [bind_of_ok (call_of_ok hx)]
      exact .done rfl (by rw [hcall, map_of_ok hx])
    | error e m =>
      have hrun : call'.run s.manager = .error e m := by rw [hcall, map_of_error hx]
      obtain rfl := Call.run_error hrun
      rw [bind_of_error (call_of_error hx)]
      exact .escaped rfl rfl hrun
  · rw [if_neg h, bind_of_ok (call_of_ok (hno h))]
    exact .notFound rfl

end Parts

/-! ### The handlers -/

theorem groupList_eq (svc : Services) (s : Session) : groupList svc s =
    .ok () ⟨s.manager, s.output ++ [.success (svc.groupsReport (PermissionRepository.getAllGroups s.manager.db)
      fun group => group.parentUuid.bind (nameAmong (PermissionRepository.getAllGroups s.manager.db)))]⟩ := by
  unfold groupList Services.groupsReport
  rw [getDb_bind]
  dsimp only
  split
  · rfl
  · rw [groupListText_eq]
    rfl

/-- How the handler of a command ends. -/
theorem Invocation.verdict_handler (inv : Invocation) (s : Session) :
    Verdict inv.svc (inv.request s.manager.db) inv.report inv.failureKey s (inv.handler s) := by
  obtain ⟨svc, now, newUuid, command⟩ := inv
  obtain ⟨m, output⟩ := s
  cases command with
  | reload => exact verdict_call (.invalidate none) rfl fun _ _ _ => rfl
  | groupCreate name =>
    refine verdict_reporting (fun shown h => by cases h) ?_
    exact verdict_call (.createGroup newUuid name none) rfl fun uuid m' h => by rw [createGroup_uuid h]; rfl
  | groupDelete name =>
    exact verdict_group ⟨svc, now, newUuid, .groupDelete name⟩ fun group =>
      verdict_call (.deleteGroup group.uuid) rfl fun _ _ _ => rfl
  | groupSetParent name parentName =>
    refine verdict_group ⟨svc, now, newUuid, .groupSetParent name parentName⟩ fun group => ?_
    by_cases hnone : parentName = "none"
    · rw [if_pos hnone, if_pos hnone]
      refine verdict_reporting (fun shown h => by cases h) (verdict_call (.setGroupParent group.uuid none) rfl ?_)
      exact fun _ _ _ => (if_pos hnone).symm
    · rw [if_neg hnone, if_neg hnone]
      refine verdict_reporting (fun shown h => ?_) ?_
      · split at h <;> cases h
      · rw [getDb_bind]
        dsimp only
        cases PermissionRepository.getGroupByName m.db parentName with
        | none => exact .notFound rfl
        | some parent =>
          refine verdict_call (.setGroupParent group.uuid (some parent.uuid)) rfl ?_
          exact fun _ _ _ => (if_neg hnone).symm
  | groupList =>
    show Verdict _ _ _ _ _ (groupList svc ⟨m, output⟩)
    rw [groupList_eq]
    exact .shown rfl
  | groupInfo name =>
    refine verdict_group ⟨svc, now, newUuid, .groupInfo name⟩ fun group => verdict_read rfl fun aces => ?_
    have hparent := congrArg (svc.tr "bakaperms.group.info_header" [group.name, group.uuid] ++ ·)
      (parentText_eq svc m.db group)
    have haces := acesText_eq svc (svc.tr "bakaperms.group.info_aces" []) "" aces
    refine congrArg (fun text => success text _) (congrArg₂ (· ++ ·) (congrArg₂ (· ++ ·) hparent haces) ?_)
    rw [membersText_eq]
  | groupCheck name node trace =>
    refine verdict_group ⟨svc, now, newUuid, .groupCheck name node trace⟩ fun group => verdict_read rfl fun result => ?_
    by_cases ht : trace = some true
    · rw [if_pos ht, if_pos ht, formatTrace_eq]
    · rw [if_neg ht, if_neg ht, checkResultText_eq]
  | userAddGroup playerName groupName =>
    exact verdict_uuid (finds_player ⟨svc, now, newUuid, .userAddGroup playerName groupName⟩ ..) fun uuid =>
      verdict_group ⟨svc, now, newUuid, .userAddGroup playerName groupName⟩ fun group =>
        verdict_membership (.addPlayerToGroup uuid group.uuid) (⟨uuid, group.uuid⟩ ∉ m.db.playerGroups) rfl
          (fun h => addPlayerToGroup_of_mem (not_not.1 h)) fun h b m' hadd => addPlayerToGroup_of_notMem h hadd
  | userRemoveGroup playerName groupName =>
    exact verdict_uuid (finds_player ⟨svc, now, newUuid, .userRemoveGroup playerName groupName⟩ ..) fun uuid =>
      verdict_group ⟨svc, now, newUuid, .userRemoveGroup playerName groupName⟩ fun group =>
        verdict_membership (.removePlayerFromGroup uuid group.uuid) (⟨uuid, group.uuid⟩ ∈ m.db.playerGroups) rfl
          (fun h => removePlayerFromGroup_of_notMem h) fun h b m' hremove => removePlayerFromGroup_of_mem h hremove
  | userCheck playerName node trace =>
    refine verdict_uuid (finds_player ⟨svc, now, newUuid, .userCheck playerName node trace⟩ ..) fun uuid => ?_
    by_cases ht : trace = some true
    · rw [if_pos ht, if_pos ht]
      refine verdict_read rfl fun result => ?_
      rw [getDb_bind, formatTrace_eq]
    · rw [if_neg ht, if_neg ht]
      exact verdict_call (.checkPermission uuid node) rfl fun mask _ _ => checkResultText_eq ..
  | userInfo playerName =>
    refine verdict_uuid (finds_player ⟨svc, now, newUuid, .userInfo playerName⟩ ..) fun uuid => ?_
    dsimp only
    rw [getDb_bind]
    refine verdict_read rfl fun aces => ?_
    dsimp only
    rw [playerGroupsText_eq, acesText_eq]
    rfl
  | aclAdd node subjectName subjectType access =>
    refine verdict_reporting ?_ (verdict_uuid
      (finds_subject ⟨svc, now, newUuid, .aclAdd node subjectName subjectType access⟩ ..) fun uuid =>
        verdict_call (.appendACE now node uuid (subjectTypeInt subjectType) access) rfl fun _ _ _ => ?_)
    · exact bind_ne_text fun uuid shown h => by cases h
    · show svc.tr _ [_, subjectKindToString svc subjectType, _, accessMaskToString svc access] = _
      rw [subjectKindToString_eq, accessMaskToString_eq]
      rfl
  | aclInsert node position subjectName subjectType access =>
    refine verdict_reporting ?_ (verdict_uuid
      (finds_subject ⟨svc, now, newUuid, .aclInsert node position subjectName subjectType access⟩ ..) fun uuid =>
        verdict_call (.insertACE now node position uuid (subjectTypeInt subjectType) access) rfl fun _ _ _ => ?_)
    · exact bind_ne_text fun uuid shown h => by cases h
    · show svc.tr _ [_, _, subjectKindToString svc subjectType, _, accessMaskToString svc access] = _
      rw [subjectKindToString_eq, accessMaskToString_eq]
      rfl
  | aclRemove node position =>
    exact verdict_reporting (fun shown h => by cases h) (verdict_call (.removeACE node position) rfl fun _ _ _ => rfl)
  | aclMove node fromIndex toIndex =>
    exact verdict_reporting (fun shown h => by cases h)
      (verdict_call (.moveACE node fromIndex toIndex) rfl fun _ _ _ => rfl)
  | aclInfo node =>
    show Verdict _ _ _ _ _ (PermsCommand.aclInfo svc node ⟨m, output⟩)
    unfold aclInfo
    rw [getDb_bind]
    refine verdict_read rfl fun acl => ?_
    unfold Services.aclReport
    split
    · rfl
    · rw [foldl_eq_itemized (aclItem_eq svc m.db)]
  | aclClear node => exact verdict_call (.clearNodeACL node) rfl fun _ _ _ => rfl

/-- Whatever the state, the report of a command is that of what it is for, and the manager is as the call leaves it. -/
theorem verdict_run (inv : Invocation) (m : PermissionManager) :
    Verdict inv.svc (inv.request m.db) inv.report inv.failureKey ⟨m, []⟩ (inv.run m) := inv.verdict_handler ⟨m, []⟩

end BakaPerms
