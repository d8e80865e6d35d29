import BakaPerms.CommandCalls
import BakaPerms.Cache
import BakaPerms.Lib.Related

/-!
# The server around the manager

What happens to the manager while the plugin is loaded: commands, calls of other plugins through the service, the
disconnects of players (`BakaPerms::enable` listens to them), `BakaPerms::disable`, and restarts, which load the same
database file into a new manager.  Nobody can see the cache, the generation or the events that only touch these: the
lines that are printed, the results and the exceptions are those of a server that has no cache at all
(`cache_transparent`).
-/

namespace BakaPerms

open Effect PermissionManager PermsCommand

/-- The cached masks are what the tables decide. -/
structure Fresh (m : PermissionManager) : Prop where
  schema : m.db.Schema
  cached : ∀ p node mask, m.cache p node = some mask → resolvePermission m.db p node = .ok mask

/-- The managers have the same tables; their caches can differ. -/
structure SameTables (m m' : PermissionManager) : Prop where
  db : m.db = m'.db
  left : Fresh m
  right : Fresh m'

theorem fresh_init {db : Db} (hdb : db.Schema) : Fresh (.init db) where
  schema := hdb
  cached := by
    intro p node mask h
    cases h

/-- Entries are kept only for players who agree on the change. -/
theorem Fresh.of_agrees {m m' : PermissionManager} (hm : Fresh m) (hschema : m'.db.Schema)
    (hkept : ∀ p node mask, m'.cache p node = some mask → m.cache p node = some mask ∧ Agrees p m.db m'.db) :
    Fresh m' where
  schema := hschema
  cached := by
    intro p node mask h
    obtain ⟨hcache, hagrees⟩ := hkept p node mask h
    rw [hagrees.resolvePermission_eq]
    exact hm.cached p node mask hcache

/-! ### The functions of the manager -/

section Functions

variable {m : PermissionManager}

theorem Fresh.invalidate (hm : Fresh m) (target : Option String) : Fresh (m.invalidate target) :=
  hm.of_agrees hm.schema fun p _ _ h => ⟨(eraseCache_eq_some h).2.2, .refl p m.db⟩

/-- After a change of the tables everything is erased. -/
theorem fresh_invalidateAll {db : Db} (hdb : db.Schema) (m : PermissionManager) :
    Fresh (PermissionManager.invalidate { m with db := db } none) where
  schema := hdb
  cached := by
    intro p node mask h
    cases h

theorem alike_writer {x : DbM Unit} (hx : Within (Keeps Db.Schema) x) (ha : Atomic x) :
    Alike SameTables (do repo x; invalidateAll) (do repo x; invalidateAll) := by
  intro m m' h
  have hschema := hx m.db h.left.schema
  cases hdb : x m.db with
  | ok a db =>
    rw [final_of_ok hdb] at hschema
    rw [writer_of_ok hdb, writer_of_ok (h.db ▸ hdb)]
    exact .ok () ⟨rfl, fresh_invalidateAll hschema m, fresh_invalidateAll hschema m'⟩
  | error e db =>
    obtain rfl := ha hdb
    rw [writer_of_error hdb, writer_of_error (h.db ▸ hdb)]
    exact .error e h

/-- The six operations on the ACLs. -/
theorem alike_aclOp (op : AclOp) :
    Alike SameTables (do repo op.run; invalidateAll) (do repo op.run; invalidateAll) := by
  refine alike_writer ?_ op.atomic_run
  cases op with
  | appendACE => exact PermissionRepository.within_appendACE aclMoves_schema _ _ _ _ _ fun _ => trivial
  | insertACE => exact PermissionRepository.within_insertACE aclMoves_schema _ _ _ _ _ _ fun _ => trivial
  | removeACE => exact PermissionRepository.within_removeACE aclMoves_schema _ _
  | moveACE => exact PermissionRepository.within_moveACE aclMoves_schema _ _ _
  | clearNodeACL => exact PermissionRepository.within_clearNodeACL aclMoves_schema _
  | deleteGroup => exact PermissionRepository.within_deleteGroup aclMoves_schema _ (within_deleteGroupRow _)

/-- The erased player is the only one who may not agree. -/
theorem Fresh.membership {x : DbM Bool} {p : String} {changed : Bool} {db : Db} (hm : Fresh m)
    (hann : Announced m (commit m x fun changed => if changed then .invalidate (some p) else .returned none))
    (hx : x m.db = .ok changed db) :
    Fresh (if changed then PermissionManager.invalidate { m with db := db } (some p) else { m with db := db }) := by
  unfold commit at hann
  rw [hx] at hann
  have hagrees := hann.agrees
  cases changed with
  | true =>
    refine hm.of_agrees hann.schema fun q node mask h => ?_
    have herased : eraseCache m.cache (some p) q node = some mask := h
    obtain ⟨-, hne, hcached⟩ := eraseCache_eq_some herased
    refine ⟨hcached, (hagrees q).resolve_left ?_⟩
    rintro (h | h)
    · cases h
    · cases h
      exact hne rfl
  | false =>
    refine hm.of_agrees hann.schema fun q node mask h => ⟨h, (hagrees q).resolve_left ?_⟩
    rintro (h | h) <;> cases h

theorem alike_membership {x : DbM Bool} {p : String} (ha : Atomic x)
    (hann : ∀ m : PermissionManager, m.db.Schema →
      Announced m (commit m x fun changed => if changed then .invalidate (some p) else .returned none)) :
    Alike SameTables
      (do
        if ← repo x then
          invalidatePlayer p
          return true
        else return false)
      (do
        if ← repo x then
          invalidatePlayer p
          return true
        else return false) := by
  intro m m' h
  cases hdb : x m.db with
  | ok changed db =>
    have hdb' : x m'.db = .ok changed db := h.db ▸ hdb
    have hleft := h.left.membership (hann m h.left.schema) hdb
    have hright := h.right.membership (hann m' h.right.schema) hdb'
    rw [membership_of_ok hdb, membership_of_ok hdb']
    refine .ok changed ⟨?_, hleft, hright⟩
    cases changed <;> rfl
  | error e db =>
    obtain rfl := ha hdb
    rw [membership_of_error hdb, membership_of_error (h.db ▸ hdb)]
    exact .error e h

/-- Nothing is erased for a new group, and nobody sees it. -/
theorem Fresh.insertGroup {uuid name : String} {parentUuid : Option String} {a : Unit} {db : Db} (hm : Fresh m)
    (hdb : PermissionRepository.createGroup uuid name parentUuid m.db = .ok a db) : Fresh { m with db := db } := by
  have hann := announced_createGroup hm.schema uuid name parentUuid
  unfold commit at hann
  rw [hdb] at hann
  refine hm.of_agrees hann.schema fun q node mask h => ⟨h, (hann.agrees q).resolve_left ?_⟩
  rintro (h | h) <;> cases h

theorem alike_createGroup (uuid name : String) (parentUuid : Option String) :
    Alike SameTables (createGroup uuid name parentUuid) (createGroup uuid name parentUuid) := by
  intro m m' h
  by_cases hn : (PermissionRepository.getGroupByName m.db name).isSome
  · rw [createGroup_of_exists hn, createGroup_of_exists (h.db ▸ hn)]
    exact .error _ h
  rw [createGroup_of_new hn, createGroup_of_new (h.db ▸ hn)]
  cases hdb : PermissionRepository.createGroup uuid name parentUuid m.db with
  | ok a db =>
    have hdb' : PermissionRepository.createGroup uuid name parentUuid m'.db = .ok a db := h.db ▸ hdb
    rw [map_of_ok (repo_of_ok hdb), map_of_ok (repo_of_ok hdb')]
    exact .ok uuid ⟨rfl, h.left.insertGroup hdb, h.right.insertGroup hdb'⟩
  | error e db =>
    obtain rfl := PermissionRepository.atomic_createGroup uuid name parentUuid hdb
    rw [map_of_error (repo_of_error hdb), map_of_error (repo_of_error (h.db ▸ hdb))]
    exact .error e h

theorem alike_setGroupParent (groupUuid : String) (parentUuid : Option String) :
    Alike SameTables (setGroupParent groupUuid parentUuid) (setGroupParent groupUuid parentUuid) := by
  refine alike_get_bind fun m m' h => ?_
  rw [h.db]
  split
  · exact .error _ h
  · exact alike_writer (within_updateGroupParent _ _) (PermissionRepository.atomic_setGroupParent ..) m m' h

/-- A check of a fresh manager returns what the tables decide. -/
theorem Fresh.checkPermission (hm : Fresh m) (playerUuid node : String) :
    ∃ m', m'.db = m.db ∧ Fresh m' ∧ PermissionManager.checkPermission playerUuid node m =
      match resolvePermission m.db playerUuid node with
      | .ok result => .ok result m'
      | .error e => .error e m' := by
  cases hc : m.cache playerUuid node with
  | some mask =>
    refine ⟨m, rfl, hm, ?_⟩
    rw [checkPermission_of_cached hc, hm.cached playerUuid node mask hc]
  | none =>
    rw [checkPermission_of_missed hc]
    cases hr : resolvePermission m.db playerUuid node with
    | error e => exact ⟨m, rfl, hm, rfl⟩
    | ok result =>
      have hdb := storeResult_db m playerUuid node m.cacheGeneration result
      refine ⟨_, hdb, ⟨hdb ▸ hm.schema, fun p k mask h => ?_⟩, rfl⟩
      rw [hdb]
      rcases storeResult_cache h with ⟨-, rfl, rfl, rfl⟩ | h
      · exact hr
      · exact hm.cached p k mask h

theorem alike_checkPermission (playerUuid node : String) :
    Alike SameTables (PermissionManager.checkPermission playerUuid node)
      (PermissionManager.checkPermission playerUuid node) := by
  intro m m' h
  obtain ⟨m₁, hdb₁, hfresh₁, hcheck₁⟩ := h.left.checkPermission playerUuid node
  obtain ⟨m₂, hdb₂, hfresh₂, hcheck₂⟩ := h.right.checkPermission playerUuid node
  have hsame : SameTables m₁ m₂ := ⟨by rw [hdb₁, hdb₂, h.db], hfresh₁, hfresh₂⟩
  rw [hcheck₁, hcheck₂, h.db]
  cases resolvePermission m'.db playerUuid node with
  | ok result => exact .ok result hsame
  | error e => exact .error e hsame

theorem alike_read {α : Type} (select : Db → Except Exn α) : Alike SameTables (read select) (read select) := by
  intro m m' h
  cases hs : select m.db with
  | ok a =>
    rw [read_of_ok hs, read_of_ok (h.db ▸ hs)]
    exact .ok a h
  | error e =>
    rw [read_of_error hs, read_of_error (h.db ▸ hs)]
    exact .error e h

theorem alike_invalidate (target : Option String) :
    Alike SameTables (modify (invalidate · target) : ManagerM Unit) (modify (invalidate · target)) :=
  fun _ _ h => .ok () ⟨h.db, h.left.invalidate target, h.right.invalidate target⟩

end Functions

/-! ### The handlers -/

/-- The same lines have been printed. -/
structure SameShown (s t : Session) : Prop where
  output : s.output = t.output
  manager : SameTables s.manager t.manager

/-- The handler does not show what is cached. -/
abbrev Blind {α : Type} (x : CommandM α) : Prop := Alike SameShown x x

section Handlers

variable (svc : Services)

theorem blind_call {α : Type} {x : ManagerM α} (hx : Alike SameTables x x) : Blind (call x) := by
  intro s t h
  have hends := hx s.manager t.manager h.manager
  unfold PermsCommand.call
  generalize x s.manager = rs at hends
  generalize x t.manager = rt at hends
  cases hends with
  | ok a hm => exact .ok a ⟨h.output, hm⟩
  | error e hm => exact .error e ⟨h.output, hm⟩

theorem blind_getDb : Blind getDb := by
  intro s t h
  show Ends SameShown (.ok s.manager.db s) (.ok t.manager.db t)
  rw [h.manager.db]
  exact .ok _ h

theorem blind_success (message : String) : Blind (success message) :=
  fun _ _ h => .ok () ⟨congrArg (· ++ _) h.output, h.manager⟩

theorem blind_error (message : String) : Blind (error message) :=
  fun _ _ h => .ok () ⟨congrArg (· ++ _) h.output, h.manager⟩

theorem blind_reporting (key : String) {body : CommandM Unit} (h : Blind body) : Blind (reporting svc key body) :=
  h.tryCatch fun _ => blind_error _

/-- A call of the manager and a line about its result. -/
theorem blind_call_success {α : Type} {x : ManagerM α} (hx : Alike SameTables x x) (text : α → String) :
    Blind (call x >>= fun a => success (text a)) := (blind_call hx).bind fun _ => blind_success _

theorem blind_player {playerName : String} {k : String → CommandM Unit} (hk : ∀ uuid, Blind (k uuid)) :
    Blind (do
      let uuid ← resolvePlayerUuid svc playerName
      if uuid = "" then return
      else k uuid) := by
  have hresolve : Blind (resolvePlayerUuid svc playerName) := by
    unfold resolvePlayerUuid
    split
    · exact (blind_error _).bind fun _ => alike_pure _
    · exact alike_pure _
  refine hresolve.bind fun uuid => ?_
  split
  · exact alike_pure _
  · exact hk uuid

theorem blind_subject {subjectName : String} {subjectType : SubjectKind} {k : String → CommandM Unit}
    (hk : ∀ uuid, Blind (k uuid)) :
    Blind (do
      let uuid ← resolveSubjectUuid svc subjectName subjectType
      if uuid = "" then return
      else k uuid) := by
  have hresolve : Blind (resolveSubjectUuid svc subjectName subjectType) := by
    unfold resolveSubjectUuid
    split
    · exact alike_pure _
    · cases subjectType with
      | group =>
        refine blind_getDb.bind fun db => ?_
        split
        · exact (blind_error _).bind fun _ => alike_pure _
        · exact alike_pure _
      | player =>
        unfold resolvePlayerUuid
        dsimp only
        split
        · exact (blind_error _).bind fun _ => alike_pure _
        · exact alike_pure _
  refine hresolve.bind fun uuid => ?_
  split
  · exact alike_pure _
  · exact hk uuid

/-- The group of a name, in the tables. -/
theorem blind_group {name : String} {k : GroupInfo → CommandM Unit} (hk : ∀ group, Blind (k group)) :
    Blind (do
      match PermissionRepository.getGroupByName (← getDb) name with
      | none => error (svc.tr "bakaperms.error.group_not_found" [name])
      | some group => k group) := by
  refine blind_getDb.bind fun db => ?_
  split
  · exact blind_error _
  · exact hk _

end Handlers

theorem Invocation.blind (inv : Invocation) : Blind inv.handler := by
  obtain ⟨svc, now, newUuid, command⟩ := inv
  cases command with
  | reload => exact blind_call_success (alike_invalidate none) _
  | groupCreate name =>
    exact blind_reporting svc _ (blind_call_success (alike_createGroup newUuid name none) _)
  | groupDelete name =>
    refine blind_group svc fun group => blind_call_success ?_ _
    exact alike_aclOp (.deleteGroup group.uuid)
  | groupSetParent name parentName =>
    refine blind_group svc fun group => blind_reporting svc _ ?_
    split
    · exact blind_call_success (alike_setGroupParent group.uuid none) _
    · refine blind_getDb.bind fun db => ?_
      split
      · exact blind_error _
      · exact blind_call_success (alike_setGroupParent group.uuid _) _
  | groupList =>
    refine blind_getDb.bind fun db => ?_
    dsimp only
    split
    · exact blind_success _
    · exact blind_success _
  | groupInfo name =>
    refine blind_getDb.bind fun db => ?_
    split
    · exact blind_error _
    · exact blind_call_success (alike_read _) _
  | groupCheck name node trace =>
    refine blind_getDb.bind fun db => ?_
    split
    · exact blind_error _
    · refine (blind_call (alike_read _)).bind fun result => ?_
      split
      · exact blind_success _
      · exact blind_success _
  | userAddGroup playerName groupName =>
    refine blind_player svc fun uuid => blind_group svc fun group => (blind_call ?_).bind fun added => ?_
    · exact alike_membership (PermissionRepository.atomic_addPlayerToGroup ..)
        fun m hm => announced_addPlayerToGroup hm uuid group.uuid
    · split
      · exact blind_success _
      · exact blind_error _
  | userRemoveGroup playerName groupName =>
    refine blind_player svc fun uuid => blind_group svc fun group => (blind_call ?_).bind fun removed => ?_
    · exact alike_membership (PermissionRepository.atomic_removePlayerFromGroup ..)
        fun m hm => announced_removePlayerFromGroup hm uuid group.uuid
    · split
      · exact blind_success _
      · exact blind_error _
  | userCheck playerName node trace =>
    refine blind_player svc fun uuid => ?_
    split
    · exact (blind_call (alike_read _)).bind fun result => blind_getDb.bind fun db => blind_success _
    · exact blind_call_success (alike_checkPermission uuid node) _
  | userInfo playerName =>
    refine blind_player svc fun uuid => ?_
    exact blind_getDb.bind fun db => blind_call_success (alike_read _) _
  | aclAdd node subjectName subjectType access =>
    refine blind_reporting svc _ (blind_subject svc fun uuid => blind_call_success ?_ _)
    exact alike_aclOp (.appendACE now node uuid (subjectTypeInt subjectType) access)
  | aclInsert node position subjectName subjectType access =>
    refine blind_reporting svc _ (blind_subject svc fun uuid => blind_call_success ?_ _)
    exact alike_aclOp (.insertACE now node position uuid (subjectTypeInt subjectType) access)
  | aclRemove node position =>
    exact blind_reporting svc _ (blind_call_success (alike_aclOp (.removeACE node position)) _)
  | aclMove node fromIndex toIndex =>
    refine blind_reporting svc _ (blind_call_success ?_ _)
    exact alike_aclOp (.moveACE node fromIndex toIndex)
  | aclInfo node =>
    refine blind_getDb.bind fun db => (blind_call (alike_read _)).bind fun acl => ?_
    split
    · exact blind_success _
    · exact blind_success _
  | aclClear node =>
    exact blind_call_success (alike_aclOp (.clearNodeACL node)) _

/-- The calls of other plugins. -/
theorem Call.alike_run (call : Call) : Alike SameTables call.run call.run := by
  cases call with
  | checkPermission playerUuid node => exact (alike_checkPermission playerUuid node).map _
  | createGroup uuid name parentUuid => exact (alike_createGroup uuid name parentUuid).map _
  | setGroupParent groupUuid parentUuid => exact (alike_setGroupParent groupUuid parentUuid).map _
  | invalidate target => exact (alike_invalidate target).map _
  | addPlayerToGroup playerUuid groupUuid =>
    exact (alike_membership (PermissionRepository.atomic_addPlayerToGroup ..)
      fun m hm => announced_addPlayerToGroup hm playerUuid groupUuid).map _
  | removePlayerFromGroup playerUuid groupUuid =>
    exact (alike_membership (PermissionRepository.atomic_removePlayerFromGroup ..)
      fun m hm => announced_removePlayerFromGroup hm playerUuid groupUuid).map _
  | appendACE now node subjectUuid subjectType mask =>
    exact (alike_aclOp (.appendACE now node subjectUuid subjectType mask)).map _
  | insertACE now node position subjectUuid subjectType mask =>
    exact (alike_aclOp (.insertACE now node position subjectUuid subjectType mask)).map _
  | removeACE node position => exact (alike_aclOp (.removeACE node position)).map _
  | moveACE node fromIndex toIndex => exact (alike_aclOp (.moveACE node fromIndex toIndex)).map _
  | clearNodeACL node => exact (alike_aclOp (.clearNodeACL node)).map _
  | deleteGroup groupUuid => exact (alike_aclOp (.deleteGroup groupUuid)).map _

/-! ### The events of the server -/

/-- What happens to the plugin. -/
inductive ServerEvent
  | command (inv : Invocation)
  /-- A call through the service, by another plugin. -/
  | service (call : Call)
  /-- The listener of `PlayerDisconnectEvent`. -/
  | disconnect (playerUuid : String)
  /-- `BakaPerms::disable`, the manager stays for the next `enable`. -/
  | disable
  /-- `BakaPerms::unload` and `BakaPerms::load`: a new manager on the file, whose tables exist. -/
  | restart

/-- What can be seen of an event. -/
inductive Answer
  | output (lines : List OutputLine) (escaped : Option Exn)
  | result (result : Option AccessMask)
  | thrown (e : Exn)
  deriving DecidableEq

namespace ServerEvent

def apply (m : PermissionManager) : ServerEvent → PermissionManager
  | command inv => inv.apply m
  | service call => call.apply m
  | disconnect playerUuid => m.invalidate (some playerUuid)
  | disable => m.invalidate none
  | restart => .init m.db

def answers (m : PermissionManager) : ServerEvent → List Answer
  | command inv =>
    match inv.run m with
    | .ok _ s => [.output s.output none]
    | .error e s => [.output s.output (some e)]
  | service call =>
    match call.run m with
    | .ok result _ => [.result result]
    | .error e _ => [.thrown e]
  | disconnect _ | disable | restart => []

/-- The event on a server that keeps nothing but the tables. -/
def plainApply (db : Db) (event : ServerEvent) : Db := (event.apply (.init db)).db

def plainAnswers (db : Db) (event : ServerEvent) : List Answer := event.answers (.init db)

theorem sameTables_apply {m m' : PermissionManager} (h : SameTables m m') (event : ServerEvent) :
    SameTables (event.apply m) (event.apply m') ∧ event.answers m = event.answers m' := by
  cases event with
  | command inv =>
    have hends := inv.blind ⟨m, []⟩ ⟨m', []⟩ ⟨rfl, h⟩
    refine ⟨hends.final.manager, ?_⟩
    dsimp only [answers, Invocation.run]
    generalize inv.handler ⟨m, []⟩ = rs at hends
    generalize inv.handler ⟨m', []⟩ = rt at hends
    cases hends with
    | ok a hs => exact congrArg (fun lines => [Answer.output lines none]) hs.output
    | error e hs => exact congrArg (fun lines => [Answer.output lines (some e)]) hs.output
  | service call =>
    have hends := call.alike_run m m' h
    refine ⟨hends.final, ?_⟩
    dsimp only [answers]
    generalize call.run m = rs at hends
    generalize call.run m' = rt at hends
    cases hends with
    | ok a hs => rfl
    | error e hs => rfl
  | disconnect playerUuid => exact ⟨⟨h.db, h.left.invalidate _, h.right.invalidate _⟩, rfl⟩
  | disable => exact ⟨⟨h.db, h.left.invalidate none, h.right.invalidate none⟩, rfl⟩
  | restart => exact ⟨⟨h.db, fresh_init h.left.schema, fresh_init h.right.schema⟩, rfl⟩

end ServerEvent

/-- A fresh manager cannot be told from a new one on its tables. -/
theorem Fresh.sameTables_init {m : PermissionManager} (hm : Fresh m) : SameTables m (.init m.db) :=
  ⟨rfl, hm, fresh_init hm.schema⟩

/-- All that can be seen of a run of the server, and its tables, are those of a server without a cache, on which
disconnects, `disable` and restarts do nothing. -/
theorem cache_transparent {db : Db} (hdb : db.Schema) (events : List ServerEvent) :
    Run.log ServerEvent.apply ServerEvent.answers (.init db) events =
        Run.log ServerEvent.plainApply ServerEvent.plainAnswers db events ∧
      (Run.run ServerEvent.apply (.init db) events).db = Run.run ServerEvent.plainApply db events := by
  have hinit : Fresh (.init db) := fresh_init hdb
  have hgen : ∀ m : PermissionManager, Fresh m →
      Run.log ServerEvent.apply ServerEvent.answers m events =
          Run.log ServerEvent.plainApply ServerEvent.plainAnswers m.db events ∧
        (Run.run ServerEvent.apply m events).db = Run.run ServerEvent.plainApply m.db events := by
    clear hinit hdb
    induction events with
    | nil => exact fun m _ => ⟨rfl, rfl⟩
    | cons event events ih =>
      intro m hm
      obtain ⟨hsame, hanswers⟩ := ServerEvent.sameTables_apply hm.sameTables_init event
      obtain ⟨hlog, hrun⟩ := ih (event.apply m) hsame.left
      have hdb : (event.apply m).db = event.plainApply m.db := hsame.db
      constructor
      · show event.answers m ++ _ = event.answers (.init m.db) ++ _
        rw [hanswers, hlog, hdb]
      · show (Run.run ServerEvent.apply (event.apply m) events).db = _
        rw [hrun, hdb]
        rfl
  exact hgen (.init db) hinit

/-- A player is allowed a node and then denied it, with a check after each event. -/
def sampleEvents : List ServerEvent :=
  [.service (.appendACE "t1" "a" "p" 0 .allow), .service (.checkPermission "p" "a"), .restart,
    .service (.checkPermission "p" "a"), .service (.insertACE "t2" "a" 0 "*" 0 .deny), .disconnect "p",
    .service (.checkPermission "p" "a"), .service (.removeACE "a" 7)]

theorem cache_transparent_sample :
    Run.log ServerEvent.apply ServerEvent.answers (.init Db.empty) sampleEvents =
      Run.log ServerEvent.plainApply ServerEvent.plainAnswers Db.empty sampleEvents :=
  (cache_transparent Db.schema_empty sampleEvents).1

example : (Run.log ServerEvent.plainApply ServerEvent.plainAnswers Db.empty sampleEvents).take 5 =
    [.result none, .result (some .allow), .result (some .allow), .result none, .result (some .deny)] := by
  decide +kernel

end BakaPerms
