import BakaPerms.Commands
import BakaPerms.Sequential

/-!
# What commands ask of the manager

A command changes the manager by one call at most (`Invocation.apply_cases`), whose arguments it has looked up:
groups that exist, players that the directory knows, and subjects that are one of these or the wildcard (`Issues`).
A run of commands is therefore a run of calls (`exists_runCalls`), and what holds after every run of calls holds
after every run of commands.
-/

namespace BakaPerms

open Effect PermissionManager PermsCommand

/-- The subject and type that `resolveSubjectUuid` can give to an ACE. -/
def IsSubject (inv : Invocation) (db : Db) (subjectUuid : String) (subjectType : Int) : Prop :=
  subjectUuid = "*" ∨ (subjectType = 1 ∧ subjectUuid ∈ db.groupUuids) ∨
    (subjectType = 0 ∧ ∃ name, inv.svc.fromName name = some subjectUuid)

/-- The calls that a command can make. -/
inductive Issues (inv : Invocation) (db : Db) : Call → Prop
  | reload : Issues inv db (.invalidate none)
  | checkPermission (playerUuid node : String) : Issues inv db (.checkPermission playerUuid node)
  | createGroup (name : String) : Issues inv db (.createGroup inv.newUuid name none)
  | deleteGroup {g : String} (hg : g ∈ db.groupUuids) : Issues inv db (.deleteGroup g)
  | clearParent {g : String} (hg : g ∈ db.groupUuids) : Issues inv db (.setGroupParent g none)
  | setGroupParent {g p : String} (hg : g ∈ db.groupUuids) (hp : p ∈ db.groupUuids) :
    Issues inv db (.setGroupParent g (some p))
  | addPlayerToGroup {playerName p g : String} (hp : inv.svc.fromName playerName = some p)
    (hg : g ∈ db.groupUuids) : Issues inv db (.addPlayerToGroup p g)
  | removePlayerFromGroup {playerName p g : String} (hp : inv.svc.fromName playerName = some p)
    (hg : g ∈ db.groupUuids) : Issues inv db (.removePlayerFromGroup p g)
  | appendACE (node : String) {subjectUuid : String} {subjectType : Int} (mask : AccessMask)
    (hs : IsSubject inv db subjectUuid subjectType) :
    Issues inv db (.appendACE inv.now node subjectUuid subjectType mask)
  | insertACE (node : String) (position : Int) {subjectUuid : String} {subjectType : Int} (mask : AccessMask)
    (hs : IsSubject inv db subjectUuid subjectType) :
    Issues inv db (.insertACE inv.now node position subjectUuid subjectType mask)
  | removeACE (node : String) (position : Int) : Issues inv db (.removeACE node position)
  | moveACE (node : String) (fromIndex toIndex : Int) : Issues inv db (.moveACE node fromIndex toIndex)
  | clearNodeACL (node : String) : Issues inv db (.clearNodeACL node)

/-! ### The manager after the parts of a handler -/

theorem call_of_ok {α : Type} {x : ManagerM α} {s : Session} {a : α} {m : PermissionManager}
    (h : x s.manager = .ok a m) : call x s = .ok a { s with manager := m } := by
  unfold call
  rw [h]

theorem call_of_error {α : Type} {x : ManagerM α} {s : Session} {e : Exn} {m : PermissionManager}
    (h : x s.manager = .error e m) : call x s = .error e { s with manager := m } := by
  unfold call
  rw [h]

/-- A handler that calls the manager and then only prints. -/
theorem manager_call_bind {α : Type} (x : ManagerM α) {k : α → CommandM Unit}
    (hk : ∀ a s, (final (k a) s).manager = s.manager) (s : Session) :
    (final (call x >>= k) s).manager = final x s.manager := by
  cases h : x s.manager with
  | ok a m => rw [final_bind_of_ok (call_of_ok h), hk, final_of_ok h]
  | error e m => rw [final_bind_of_error (call_of_error h), final_of_error h]

theorem final_read {α : Type} (select : Db → Except Exn α) (m : PermissionManager) : final (read select) m = m := by
  unfold PermissionManager.read
  rw [final_repo]
  unfold final query
  cases select m.db <;> rfl

/-- A handler that reads from the manager and then only prints. -/
theorem manager_read_bind {α : Type} (select : Db → Except Exn α) {k : α → CommandM Unit}
    (hk : ∀ a s, (final (k a) s).manager = s.manager) (s : Session) :
    (final (call (read select) >>= k) s).manager = s.manager := by
  rw [manager_call_bind _ hk, final_read]

theorem getDb_bind {α : Type} (k : Db → CommandM α) (s : Session) : (getDb >>= k) s = k s.manager.db s := rfl

theorem final_getDb_bind {α : Type} (k : Db → CommandM α) (s : Session) :
    final (getDb >>= k) s = final (k s.manager.db) s := rfl

/-- The report of an exception only prints. -/
theorem manager_reporting (svc : Services) (key : String) (body : CommandM Unit) (s : Session) :
    (final (reporting svc key body) s).manager = (final body s).manager := by
  unfold reporting
  cases h : body s with
  | ok a s' => rw [final_of_ok (tryCatch_of_ok h), final_of_ok h]
  | error e s' =>
    rw [final_of_error h]
    unfold final
    rw [tryCatch_of_error h]
    rfl

theorem mem_groupUuids_of_getGroupByName {db : Db} {name : String} {group : GroupInfo}
    (h : PermissionRepository.getGroupByName db name = some group) : group.uuid ∈ db.groupUuids := by
  obtain ⟨row, hrow, rfl⟩ := Option.map_eq_some_iff.1 h
  exact List.mem_map_of_mem (List.mem_of_find?_eq_some hrow)

/-- A player that is not found is reported. -/
theorem resolvePlayerUuid_cases (svc : Services) (playerName : String) (s : Session) :
    (svc.fromName playerName = none ∧ resolvePlayerUuid svc playerName s = .ok "" { s with
        output := s.output ++ [.error (svc.tr "bakaperms.error.player_not_found" [playerName])] }) ∨
      ∃ uuid, svc.fromName playerName = some uuid ∧ resolvePlayerUuid svc playerName s = .ok uuid s := by
  unfold resolvePlayerUuid
  cases svc.fromName playerName with
  | none => exact .inl ⟨rfl, rfl⟩
  | some uuid => exact .inr ⟨uuid, rfl, rfl⟩

/-- What `resolveSubjectUuid` gives for the three kinds of subjects; a subject that is not found is reported. -/
theorem resolveSubjectUuid_cases (svc : Services) (subjectName : String) (subjectType : SubjectKind) (s : Session) :
    (∃ line, resolveSubjectUuid svc subjectName subjectType s =
        .ok "" { s with output := s.output ++ [.error line] }) ∨
      ∃ uuid, resolveSubjectUuid svc subjectName subjectType s = .ok uuid s ∧
        ((subjectName = "*" ∧ uuid = "*") ∨
          (subjectName ≠ "*" ∧ subjectType = .group ∧ ∃ group,
            PermissionRepository.getGroupByName s.manager.db subjectName = some group ∧ uuid = group.uuid) ∨
          (subjectName ≠ "*" ∧ subjectType = .player ∧ svc.fromName subjectName = some uuid)) := by
  unfold resolveSubjectUuid
  by_cases hstar : subjectName = "*"
  · rw [if_pos hstar]
    exact .inr ⟨"*", rfl, .inl ⟨hstar, rfl⟩⟩
  rw [if_neg hstar]
  cases subjectType with
  | group =>
    dsimp only
    rw [getDb_bind]
    cases hgroup : PermissionRepository.getGroupByName s.manager.db subjectName with
    | none => exact .inl ⟨_, rfl⟩
    | some group => exact .inr ⟨group.uuid, rfl, .inr (.inl ⟨hstar, rfl, group, rfl, rfl⟩)⟩
  | player =>
    rcases resolvePlayerUuid_cases svc subjectName s with ⟨-, h⟩ | ⟨uuid, hname, h⟩
    · exact .inl ⟨_, h⟩
    · exact .inr ⟨uuid, h, .inr (.inr ⟨hstar, rfl, hname⟩)⟩

/-! ### The handlers -/

/-- The handler leaves the manager alone or makes one of the calls of the command. -/
def Issuing (inv : Invocation) (handler : CommandM Unit) : Prop :=
  ∀ s, (final handler s).manager = s.manager ∨
    ∃ call, Issues inv s.manager.db call ∧ (final handler s).manager = Call.apply s.manager call

section Handlers

variable {inv : Invocation}

theorem issuing_reporting {key : String} {body : CommandM Unit} (h : Issuing inv body) :
    Issuing inv (reporting inv.svc key body) := by
  intro s
  rw [manager_reporting]
  exact h s

/-- A handler that makes one call and then only prints. -/
private theorem issuing_call {α : Type} {x : ManagerM α} {call' : Call} {k : α → CommandM Unit} {s : Session}
    (hi : Issues inv s.manager.db call') (happly : Call.apply s.manager call' = final x s.manager)
    (hk : ∀ a s, (final (k a) s).manager = s.manager) :
    (final (call x >>= k) s).manager = s.manager ∨
      ∃ call', Issues inv s.manager.db call' ∧ (final (call x >>= k) s).manager = Call.apply s.manager call' :=
  .inr ⟨call', hi, (manager_call_bind x hk s).trans happly.symm⟩

theorem issuing_reload : Issuing inv (reload inv.svc) := fun _ =>
  issuing_call .reload (final_map ..) fun _ _ => rfl

theorem issuing_groupCreate (name : String) : Issuing inv (groupCreate inv.svc inv.newUuid name) :=
  issuing_reporting fun _ => issuing_call (.createGroup name) (final_map ..) fun _ _ => rfl

theorem issuing_groupDelete (name : String) : Issuing inv (groupDelete inv.svc name) := by
  intro s
  unfold groupDelete
  rw [final_getDb_bind]
  cases hgroup : PermissionRepository.getGroupByName s.manager.db name with
  | none => exact .inl rfl
  | some group =>
    exact issuing_call (.deleteGroup (mem_groupUuids_of_getGroupByName hgroup)) (final_map ..) fun _ _ => rfl

theorem issuing_groupSetParent (name parentName : String) :
    Issuing inv (groupSetParent inv.svc name parentName) := by
  intro s
  unfold groupSetParent
  rw [final_getDb_bind]
  cases hgroup : PermissionRepository.getGroupByName s.manager.db name with
  | none => exact .inl rfl
  | some group =>
    have hg := mem_groupUuids_of_getGroupByName hgroup
    dsimp only
    rw [manager_reporting]
    by_cases hnone : parentName = "none"
    · rw [if_pos hnone]
      exact issuing_call (.clearParent hg) (final_map ..) fun _ _ => rfl
    · rw [if_neg hnone, final_getDb_bind]
      cases hparent : PermissionRepository.getGroupByName s.manager.db parentName with
      | none => exact .inl rfl
      | some parent =>
        exact issuing_call (.setGroupParent hg (mem_groupUuids_of_getGroupByName hparent)) (final_map ..) fun _ _ => rfl

theorem issuing_groupList : Issuing inv (groupList inv.svc) := by
  intro s
  unfold groupList
  rw [final_getDb_bind]
  dsimp only
  split <;> exact .inl rfl

theorem issuing_groupInfo (name : String) : Issuing inv (groupInfo inv.svc name) := by
  intro s
  unfold groupInfo
  rw [final_getDb_bind]
  cases PermissionRepository.getGroupByName s.manager.db name with
  | none => exact .inl rfl
  | some group => exact .inl (manager_read_bind _ (fun _ _ => rfl) s)

theorem issuing_groupCheck (name node : String) (trace : Option Bool) :
    Issuing inv (groupCheck inv.svc name node trace) := by
  intro s
  unfold groupCheck
  rw [final_getDb_bind]
  cases PermissionRepository.getGroupByName s.manager.db name with
  | none => exact .inl rfl
  | some group => exact .inl (manager_read_bind _ (fun _ _ => by split <;> rfl) s)

/-- A handler that starts with the lookup of a player. -/
private theorem issuing_player {playerName : String} {k : String → CommandM Unit} (s : Session)
    (hempty : ∀ s, (final (k "") s).manager = s.manager)
    (hk : ∀ uuid, uuid ≠ "" → inv.svc.fromName playerName = some uuid →
      ((final (k uuid) s).manager = s.manager ∨
        ∃ call, Issues inv s.manager.db call ∧ (final (k uuid) s).manager = Call.apply s.manager call)) :
    (final (resolvePlayerUuid inv.svc playerName >>= k) s).manager = s.manager ∨ ∃ call, Issues inv s.manager.db call ∧
      (final (resolvePlayerUuid inv.svc playerName >>= k) s).manager = Call.apply s.manager call := by
  rcases resolvePlayerUuid_cases inv.svc playerName s with ⟨-, h⟩ | ⟨uuid, hname, h⟩
  · rw [final_bind_of_ok h]
    exact .inl (hempty _)
  · rw [final_bind_of_ok h]
    by_cases hu : uuid = ""
    · rw [hu]
      exact .inl (hempty _)
    · exact hk uuid hu hname

theorem issuing_userAddGroup (playerName groupName : String) :
    Issuing inv (userAddGroup inv.svc playerName groupName) := by
  intro s
  unfold userAddGroup
  refine issuing_player s (fun _ => rfl) fun uuid hu hname => ?_
  rw [if_neg hu, final_getDb_bind]
  cases hgroup : PermissionRepository.getGroupByName s.manager.db groupName with
  | none => exact .inl rfl
  | some group =>
    exact issuing_call (.addPlayerToGroup hname (mem_groupUuids_of_getGroupByName hgroup)) (final_map ..)
      fun added _ => by cases added <;> rfl

theorem issuing_userRemoveGroup (playerName groupName : String) :
    Issuing inv (userRemoveGroup inv.svc playerName groupName) := by
  intro s
  unfold userRemoveGroup
  refine issuing_player s (fun _ => rfl) fun uuid hu hname => ?_
  rw [if_neg hu, final_getDb_bind]
  cases hgroup : PermissionRepository.getGroupByName s.manager.db groupName with
  | none => exact .inl rfl
  | some group =>
    exact issuing_call (.removePlayerFromGroup hname (mem_groupUuids_of_getGroupByName hgroup)) (final_map ..)
      fun removed _ => by cases removed <;> rfl

theorem issuing_userCheck (playerName node : String) (trace : Option Bool) :
    Issuing inv (userCheck inv.svc playerName node trace) := by
  intro s
  unfold userCheck
  refine issuing_player s (fun _ => rfl) fun uuid hu hname => ?_
  rw [if_neg hu]
  by_cases ht : trace = some true
  · rw [if_pos ht]
    exact .inl (manager_read_bind _ (fun _ _ => rfl) s)
  · rw [if_neg ht]
    exact issuing_call (.checkPermission uuid node) (final_map ..) fun _ _ => rfl

theorem issuing_userInfo (playerName : String) : Issuing inv (userInfo inv.svc playerName) := by
  intro s
  unfold userInfo
  refine issuing_player s (fun _ => rfl) fun uuid hu hname => ?_
  rw [if_neg hu, final_getDb_bind]
  exact .inl (manager_read_bind _ (fun _ _ => rfl) s)

/-- A handler that starts with the lookup of a subject. -/
private theorem issuing_subject {subjectName : String} {subjectType : SubjectKind} {k : String → CommandM Unit}
    (s : Session) (hempty : ∀ s, (final (k "") s).manager = s.manager)
    (hk : ∀ uuid, uuid ≠ "" → IsSubject inv s.manager.db uuid (subjectTypeInt subjectType) →
      ((final (k uuid) s).manager = s.manager ∨
        ∃ call, Issues inv s.manager.db call ∧ (final (k uuid) s).manager = Call.apply s.manager call)) :
    (final (resolveSubjectUuid inv.svc subjectName subjectType >>= k) s).manager = s.manager ∨
      ∃ call, Issues inv s.manager.db call ∧
        (final (resolveSubjectUuid inv.svc subjectName subjectType >>= k) s).manager = Call.apply s.manager call := by
  rcases resolveSubjectUuid_cases inv.svc subjectName subjectType s with ⟨line, h⟩ | ⟨uuid, h, hsubject⟩
  · rw [final_bind_of_ok h]
    exact .inl (hempty _)
  · rw [final_bind_of_ok h]
    by_cases hu : uuid = ""
    · rw [hu]
      exact .inl (hempty _)
    refine hk uuid hu ?_
    rcases hsubject with ⟨-, rfl⟩ | ⟨-, rfl, group, hgroup, rfl⟩ | ⟨-, rfl, hname⟩
    · exact .inl rfl
    · exact .inr (.inl ⟨rfl, mem_groupUuids_of_getGroupByName hgroup⟩)
    · exact .inr (.inr ⟨rfl, _, hname⟩)

theorem issuing_aclAdd (node subjectName : String) (subjectType : SubjectKind) (access : AccessMask) :
    Issuing inv (aclAdd inv.svc inv.now node subjectName subjectType access) := by
  refine issuing_reporting fun s => issuing_subject s (fun _ => rfl) fun uuid hu hsubject => ?_
  rw [if_neg hu]
  exact issuing_call (.appendACE node access hsubject) (final_map ..) fun _ _ => rfl

theorem issuing_aclInsert (node : String) (position : Int) (subjectName : String) (subjectType : SubjectKind)
    (access : AccessMask) :
    Issuing inv (aclInsert inv.svc inv.now node position subjectName subjectType access) := by
  refine issuing_reporting fun s => issuing_subject s (fun _ => rfl) fun uuid hu hsubject => ?_
  rw [if_neg hu]
  exact issuing_call (.insertACE node position access hsubject) (final_map ..) fun _ _ => rfl

theorem issuing_aclRemove (node : String) (position : Int) : Issuing inv (aclRemove inv.svc node position) :=
  issuing_reporting fun _ => issuing_call (.removeACE node position) (final_map ..) fun _ _ => rfl

theorem issuing_aclMove (node : String) (fromIndex toIndex : Int) :
    Issuing inv (aclMove inv.svc node fromIndex toIndex) :=
  issuing_reporting fun _ => issuing_call (.moveACE node fromIndex toIndex) (final_map ..) fun _ _ => rfl

theorem issuing_aclInfo (node : String) : Issuing inv (aclInfo inv.svc node) := by
  intro s
  unfold aclInfo
  rw [final_getDb_bind]
  exact .inl (manager_read_bind _ (fun _ _ => by split <;> rfl) s)

theorem issuing_aclClear (node : String) : Issuing inv (aclClear inv.svc node) := fun _ =>
  issuing_call (.clearNodeACL node) (final_map ..) fun _ _ => rfl

end Handlers

/-- A command leaves the manager alone or makes one call. -/
theorem Invocation.apply_cases (inv : Invocation) (m : PermissionManager) :
    inv.apply m = m ∨ ∃ call, Issues inv m.db call ∧ inv.apply m = call.apply m := by
  have h : Issuing inv inv.handler := by
    unfold Invocation.handler
    cases inv.command with
    | reload => exact issuing_reload
    | groupCreate name => exact issuing_groupCreate name
    | groupDelete name => exact issuing_groupDelete name
    | groupSetParent name parentName => exact issuing_groupSetParent name parentName
    | groupList => exact issuing_groupList
    | groupInfo name => exact issuing_groupInfo name
    | groupCheck name node trace => exact issuing_groupCheck name node trace
    | userAddGroup playerName groupName => exact issuing_userAddGroup playerName groupName
    | userRemoveGroup playerName groupName => exact issuing_userRemoveGroup playerName groupName
    | userCheck playerName node trace => exact issuing_userCheck playerName node trace
    | userInfo playerName => exact issuing_userInfo playerName
    | aclAdd node subjectName subjectType access => exact issuing_aclAdd node subjectName subjectType access
    | aclInsert node position subjectName subjectType access =>
      exact issuing_aclInsert node position subjectName subjectType access
    | aclRemove node position => exact issuing_aclRemove node position
    | aclMove node fromIndex toIndex => exact issuing_aclMove node fromIndex toIndex
    | aclInfo node => exact issuing_aclInfo node
    | aclClear node => exact issuing_aclClear node
  exact h ⟨m, []⟩

/-- A run of commands is a run of calls. -/
theorem exists_runCalls (m : PermissionManager) (invs : List Invocation) :
    ∃ calls, runCommands m invs = runCalls m calls := by
  induction invs generalizing m with
  | nil => exact ⟨[], rfl⟩
  | cons inv invs ih =>
    obtain ⟨calls, h⟩ := ih (inv.apply m)
    rcases inv.apply_cases m with hsame | ⟨call, -, hcall⟩
    · refine ⟨calls, ?_⟩
      show runCommands (inv.apply m) invs = _
      rw [h, hsame]
    · refine ⟨call :: calls, ?_⟩
      show runCommands (inv.apply m) invs = runCalls (call.apply m) calls
      rw [h, hcall]

theorem sound_runCommands {db : Db} (hdb : db.Sound) (invs : List Invocation) :
    (runCommands (.init db) invs).db.Sound := by
  obtain ⟨calls, h⟩ := exists_runCalls (.init db) invs
  rw [h]
  exact sound_runCalls hdb calls

end BakaPerms
