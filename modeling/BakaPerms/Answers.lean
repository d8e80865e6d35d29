import BakaPerms.GroupNames
import BakaPerms.Listings
import BakaPerms.Outcomes
import BakaPerms.Specification

/-!
# What a server answers

The policy decides what everything that can be asked of a server gives: the queries, the ends of the calls, the traces,
and what the commands print, from the result of a check to the lines of `group info` (`Serves`).  This is so after every
sequence of events on a server, for the policy that the events have made of the one in the tables (`server_refines`).
-/

namespace BakaPerms

open Effect PermissionManager PermissionResolver PermsCommand Table

/-! ### Commands -/

namespace Invocation

/-- The player of a name. -/
def player (inv : Invocation) (playerName : String) : Option String :=
  (inv.svc.fromName playerName).filter (· ≠ "")

/-- The subject of a name. -/
noncomputable def subjectIn (inv : Invocation) (d : GroupDirectory) (subjectName : String) (subjectType : SubjectKind) :
    Option String :=
  if subjectName = "*" then some "*"
  else
    match subjectType with
    | .group => (d.find subjectName).filter (· ≠ "")
    | .player => inv.player subjectName

open Classical in
/-- The call that the command is for, with the groups that the directory has under the names. -/
noncomputable def intends (inv : Invocation) (d : GroupDirectory) : Option Call :=
  match inv.command with
  | .reload => some (.invalidate none)
  | .groupCreate name => some (.createGroup inv.newUuid name none)
  | .groupDelete name => (d.find name).map .deleteGroup
  | .groupSetParent name parentName =>
    (d.find name).bind fun group =>
      if parentName = "none" then some (.setGroupParent group none)
      else (d.find parentName).map fun parent => .setGroupParent group (some parent)
  | .userAddGroup playerName groupName =>
    (inv.player playerName).bind fun player =>
      (d.find groupName).bind fun group => if d.member player group then none else some (.addPlayerToGroup player group)
  | .userRemoveGroup playerName groupName =>
    (inv.player playerName).bind fun player =>
      (d.find groupName).bind fun group =>
        if d.member player group then some (.removePlayerFromGroup player group) else none
  | .userCheck playerName node trace =>
    if trace = some true then none else (inv.player playerName).map fun player => .checkPermission player node
  | .aclAdd node subjectName subjectType access =>
    (inv.subjectIn d subjectName subjectType).map fun subject =>
      .appendACE inv.now node subject (PermsCommand.subjectTypeInt subjectType) access
  | .aclInsert node position subjectName subjectType access =>
    (inv.subjectIn d subjectName subjectType).map fun subject =>
      .insertACE inv.now node position subject (PermsCommand.subjectTypeInt subjectType) access
  | .aclRemove node position => some (.removeACE node position)
  | .aclMove node fromIndex toIndex => some (.moveACE node fromIndex toIndex)
  | .aclClear node => some (.clearNodeACL node)
  | .groupList | .groupInfo _ | .groupCheck .. | .userInfo _ | .aclInfo _ => none

end Invocation

section Commands

variable {m : PermissionManager} {π : Policy}

/-- The lookup of a name in the tables is that in the directory. -/
theorem Db.Holds.find_eq {db : Db} {d : GroupDirectory} (hdb : db.Schema) (h : db.Holds d) (name : String) :
    (PermissionRepository.getGroupByName db name).map GroupInfo.uuid = d.find name := by
  refine Option.ext fun u => ?_
  rw [Option.map_eq_some_iff, d.find_eq_some]
  constructor
  · rintro ⟨info, hinfo, rfl⟩
    obtain ⟨⟨hname, -⟩, rfl⟩ := ((h.lists hdb).groupByName name info).1 hinfo
    exact hname
  · intro hname
    exact ⟨⟨u, name, d.parent u⟩, ((h.lists hdb).groupByName name _).2 ⟨⟨hname, rfl⟩, rfl⟩, rfl⟩

theorem called_bind {α : Type} {found : Except (Option String) α} {f : α → Except (Option String) Request}
    {k : α → Option Call} (hk : ∀ a, Request.called (f a) = k a) :
    Request.called (found >>= f) = found.toOption.bind k := by
  cases found with
  | error _ => rfl
  | ok a => exact hk a

theorem toOption_ite (uuid : String) :
    (if uuid = "" then .error none else .ok uuid : Except (Option String) String).toOption =
      (some uuid).filter (· ≠ "") := by
  by_cases hu : uuid = "" <;> simp [hu, Option.filter, Except.toOption]

theorem Invocation.toOption_findPlayer (inv : Invocation) (playerName : String) :
    (inv.findPlayer playerName).toOption = inv.player playerName := by
  unfold findPlayer player
  cases inv.svc.fromName playerName with
  | none => rfl
  | some uuid => exact toOption_ite uuid

theorem Invocation.toOption_findGroup (inv : Invocation) (db : Db) (name : String) :
    (inv.findGroup db name).toOption = PermissionRepository.getGroupByName db name := by
  unfold findGroup
  cases PermissionRepository.getGroupByName db name <;> rfl

section Intentions

variable {db : Db} {d : GroupDirectory}

theorem Invocation.toOption_findSubject (hdb : db.Schema) (h : db.Holds d) (inv : Invocation) (subjectName : String)
    (subjectType : SubjectKind) :
    (inv.findSubject db subjectName subjectType).toOption = inv.subjectIn d subjectName subjectType := by
  unfold findSubject subjectIn
  by_cases hstar : subjectName = "*"
  · rw [if_pos hstar, if_pos hstar]
    rfl
  rw [if_neg hstar, if_neg hstar]
  cases subjectType with
  | player => exact inv.toOption_findPlayer subjectName
  | group =>
    dsimp only
    unfold findGroup
    rw [← h.find_eq hdb]
    cases PermissionRepository.getGroupByName db subjectName with
    | none => rfl
    | some group => exact toOption_ite group.uuid

theorem Invocation.called_findGroup (hdb : db.Schema) (h : db.Holds d) (inv : Invocation) {name : String}
    {f : GroupInfo → Except (Option String) Request} {k : String → Option Call}
    (hk : ∀ group, Request.called (f group) = k group.uuid) :
    Request.called (inv.findGroup db name >>= f) = (d.find name).bind k := by
  rw [called_bind hk, inv.toOption_findGroup, ← h.find_eq hdb, Option.bind_map]
  rfl

open Classical in
/-- The call that a command is for in the tables. -/
theorem Invocation.called_request (hdb : db.Schema) (h : db.Holds d) (inv : Invocation) :
    Request.called (inv.request db) = inv.intends d := by
  have hplayer {name : String} {f : String → Except (Option String) Request} {k : String → Option Call}
      (hk : ∀ uuid, Request.called (f uuid) = k uuid) :
      Request.called (inv.findPlayer name >>= f) = (inv.player name).bind k := by
    rw [called_bind hk, inv.toOption_findPlayer]
  have hsubject {name : String} {kind : SubjectKind} (call' : String → Call) :
      Request.called (inv.findSubject db name kind >>= fun uuid => .ok (.call (call' uuid))) =
        (inv.subjectIn d name kind).map call' := by
    rw [called_bind fun _ => rfl, toOption_findSubject hdb h inv, Option.map_eq_bind]
    rfl
  unfold request intends
  cases inv.command with
  | groupDelete name =>
    dsimp only
    rw [Option.map_eq_bind]
    exact called_findGroup hdb h inv fun group => rfl
  | groupSetParent name parentName =>
    refine called_findGroup hdb h inv fun group => ?_
    by_cases hnone : parentName = "none"
    · rw [if_pos hnone, if_pos hnone]
      rfl
    · rw [if_neg hnone, if_neg hnone, ← h.find_eq hdb, Option.map_map]
      cases PermissionRepository.getGroupByName db parentName <;> rfl
  | userAddGroup playerName groupName =>
    refine hplayer fun playerUuid => called_findGroup hdb h inv fun group => ?_
    rw [ite_not, apply_ite Request.called]
    exact if_congr (h.member ⟨playerUuid, group.uuid⟩) rfl rfl
  | userRemoveGroup playerName groupName =>
    refine hplayer fun playerUuid => called_findGroup hdb h inv fun group => ?_
    rw [apply_ite Request.called]
    exact if_congr (h.member ⟨playerUuid, group.uuid⟩) rfl rfl
  | userCheck playerName node trace =>
    by_cases ht : trace = some true
    · simp only [if_pos ht]
      cases inv.findPlayer playerName <;> rfl
    · simp only [if_neg ht]
      rw [Option.map_eq_bind]
      exact hplayer fun playerUuid => rfl
  | groupInfo name | groupCheck name =>
    dsimp only
    cases inv.findGroup db name <;> rfl
  | userInfo playerName =>
    dsimp only
    cases inv.findPlayer playerName <;> rfl
  | aclAdd node subjectName subjectType access =>
    exact hsubject fun uuid => .appendACE inv.now node uuid (subjectTypeInt subjectType) access
  | aclInsert node position subjectName subjectType access =>
    exact hsubject fun uuid => .insertACE inv.now node position uuid (subjectTypeInt subjectType) access
  | reload | groupCreate | groupList | aclRemove | aclMove | aclInfo | aclClear => rfl

end Intentions

theorem Invocation.apply_of_ok {inv : Invocation} {s : Session} (h : inv.run m = .ok () s) : inv.apply m = s.manager :=
  congrArg Session.manager (final_of_ok h)

theorem Invocation.apply_of_error {inv : Invocation} {e : Exn} {s : Session} (h : inv.run m = .error e s) :
    inv.apply m = s.manager := congrArg Session.manager (final_of_error h)

/-- A call that throws changes nothing. -/
theorem Call.apply_of_error {call : Call} {e : Exn} {m' : PermissionManager} (h : call.run m = .error e m') :
    call.apply m = m := by
  unfold Call.apply
  rw [final_of_error h, Call.run_error h]

theorem Realizes.called_request (h : Realizes m π) (inv : Invocation) :
    Request.called (inv.request m.db) = inv.intends π.directory := inv.called_request h.sound.toSchema h.holds

/-- A command does what its call does. -/
theorem Realizes.apply_command (h : Realizes m π) (inv : Invocation) :
    inv.apply m = (inv.intends π.directory).elim m fun call => call.apply m := by
  rw [← h.called_request]
  have hverdict := inv.verdict_handler ⟨m, []⟩
  generalize hrun : inv.handler ⟨m, []⟩ = result at hverdict
  cases hverdict with
  | done hrequest hcall =>
    rw [hrequest]
    exact (Invocation.apply_of_ok hrun).trans (final_of_ok hcall).symm
  | refused hrequest _ hcall =>
    rw [hrequest]
    exact (Invocation.apply_of_ok hrun).trans (Call.apply_of_error hcall).symm
  | escaped hrequest _ hcall =>
    rw [hrequest]
    exact (Invocation.apply_of_error hrun).trans (Call.apply_of_error hcall).symm
  | shown hrequest | notFound hrequest | silent hrequest =>
    rw [hrequest]
    exact Invocation.apply_of_ok hrun
  | notShown hrequest =>
    rw [hrequest]
    exact Invocation.apply_of_error hrun

end Commands

/-! ### Listings -/

/-- An entry as `getNodeACL` lists it. -/
def Payload.listed (entry : Int × Payload) : ACE :=
  ⟨entry.1, entry.2.subjectUuid, entry.2.subjectType, payloadMask entry.2⟩

namespace Policy

variable (π : Policy)

/-- The list of a node, numbered. -/
def listing (node : String) : List ACE := (Numbering.number 0 (π.acl node)).map Payload.listed

/-- The groups of which `p` holds, by name. -/
def ListsGroups (p : GroupInfo → Prop) : List GroupInfo → Prop :=
  Enumerates GroupInfo.name fun group => group.In π.directory ∧ p group

/-- The members of a group by uuid. -/
def ListsMembers (g : String) : List String → Prop := Enumerates id fun p => π.directory.member p g

/-- The entries about a subject, by node and position. -/
def ListsSubject (s : String) : List NodeACE → Prop :=
  Enumerates (fun line => toLex (line.node, line.ace.orderIndex)) fun line =>
    line.ace.subjectUuid = s ∧ line.ace ∈ π.listing line.node

/-- What is shown by the commands that are for no call and trace nothing. -/
inductive Shows (inv : Invocation) : String → Prop
  | groupList {groups : List GroupInfo} (hcommand : inv.command = .groupList)
    (hgroups : π.ListsGroups (fun _ => True) groups) :
    Shows inv (inv.svc.groupsReport groups fun group => group.parentUuid.bind π.directory.name)
  | groupInfo {name : String} {group : GroupInfo} {aces : List NodeACE} {members : List String}
    (hcommand : inv.command = .groupInfo name) (hgroup : group.In π.directory ∧ group.name = name)
    (haces : π.ListsSubject group.uuid aces) (hmembers : π.ListsMembers group.uuid members) :
    Shows inv (inv.svc.groupReport group (group.parentUuid.bind π.directory.name) aces members)
  | groupCheck {name node g : String} {trace : Option Bool} {mask : AccessMask}
    (hcommand : inv.command = .groupCheck name node trace) (htrace : trace ≠ some true)
    (hg : π.directory.name g = some name) (hnode : node ≠ "") (hdecides : π.Decides .group g node mask) :
    Shows inv (inv.svc.checkReport "bakaperms.label.group" node name mask)
  | userInfo {playerName p : String} {groups : List GroupInfo} {aces : List NodeACE}
    (hcommand : inv.command = .userInfo playerName) (hp : inv.player playerName = some p)
    (hgroups : π.ListsGroups (fun group => π.directory.member p group.uuid) groups) (haces : π.ListsSubject p aces) :
    Shows inv (inv.svc.playerReport playerName p groups aces)
  | aclInfo {node : String} (hcommand : inv.command = .aclInfo node) :
    Shows inv (inv.svc.aclReport node (π.listing node) π.directory.name)

/-- What a command reports as a success. -/
inductive Prints (inv : Invocation) : String → Prop
  | report {call : Call} {result : Option AccessMask} (hcall : inv.intends π.directory = some call)
    (hends : π.Ends call (.returned result)) : Prints inv (inv.report result)
  | shown {message : String} (h : π.Shows inv message) : Prints inv message

end Policy

section Listings

variable {m : PermissionManager} {π : Policy}

theorem Realizes.lists (h : Realizes m π) : m.db.Lists π.directory := h.holds.lists h.sound.toSchema

section Shows

variable {svc : Services} {now newUuid : String} {message : String}

end Shows

end Listings

/-! ### Runs of the server -/

/-- What an event does to the policy. -/
noncomputable def ServerEvent.act (π : Policy) : ServerEvent → Policy
  | command inv => (inv.intends π.directory).elim π π.act
  | service call => π.act call
  | disconnect _ | disable | restart => π

section Events

variable {m : PermissionManager} {π : Policy}

theorem Db.Encodes.realizes_init {db : Db} (h : db.Encodes π) : Realizes (.init db) π where
  toEncodes := h
  fresh := fresh_init h.sound.toSchema
  noEmptyNode := fun _ => rfl

theorem Realizes.invalidate (h : Realizes m π) (target : Option String) : Realizes (m.invalidate target) π where
  toEncodes := h.toEncodes
  fresh := h.fresh.invalidate target
  noEmptyNode := within_invalidate_noEmptyNode target m h.noEmptyNode

/-- The manager goes on keeping the policy, whatever happens. -/
theorem Realizes.event (h : Realizes m π) (event : ServerEvent) : Realizes (event.apply m) (event.act π) := by
  cases event with
  | command inv =>
    show Realizes (inv.apply m) ((inv.intends π.directory).elim π π.act)
    rw [h.apply_command]
    cases inv.intends π.directory with
    | none => exact h
    | some call => exact h.apply call
  | service call => exact h.apply call
  | disconnect playerUuid => exact h.invalidate (some playerUuid)
  | disable => exact h.invalidate none
  | restart => exact h.toEncodes.realizes_init

end Events

end BakaPerms
