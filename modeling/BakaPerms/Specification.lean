import BakaPerms.Access
import BakaPerms.Cache
import BakaPerms.GroupStore
import BakaPerms.Handlers
import BakaPerms.Lib.Search
import BakaPerms.Locality
import BakaPerms.Server

/-!
# What the plugin is for

The plugin in its own terms: a directory of groups, and a list of entries for every node (`Policy`).  A decision is the
mask of the first entry about the subject in the list that governs the node, and a call of the manager changes the policy
or is refused.  There is no table here, no query, no token, no path and no cache.  A manager whose tables and cache agree
with the policy ends every call as the policy says and keeps what it then is (`Realizes.ending_eq`, `Realizes.apply`).
Concurrent calls change the policy one after another (`schedule_refines`).
-/

namespace BakaPerms

open Chain Effect PermissionManager PermissionResolver PermsCommand Rules

/-- Who is in which group, and the entries of the nodes. -/
structure Policy where
  directory : GroupDirectory
  acl : String → List Payload

/-- How a call can end. -/
inductive Ending
  | returned (result : Option AccessMask)
  | refused
  deriving DecidableEq

namespace Policy

variable (π : Policy)

/-- Up to 32 parent links lead from the group to `u`. -/
def Above (g u : String) : Prop := ∃ n ≤ 32, ascend π.directory.parent n g = some u

/-- A player, and what is above the groups of the player; for a group that there is, what is above it. -/
def Identity : SubjectKind → String → String → Prop
  | .player, p, u => u = p ∨ ∃ g, π.directory.member p g ∧ π.Above g u
  | .group, g, u => π.directory.Has g ∧ π.Above g u

/-- The entry is about the subject. -/
def Concerns (kind : SubjectKind) (uuid : String) (x : Payload) : Prop :=
  x.subjectUuid = "*" ∨ π.Identity kind uuid x.subjectUuid

/-- Among the nodes that cover `m`, `k` is the most specific one with entries. -/
def Governs (k m : String) : Prop :=
  Covers k m ∧ π.acl k ≠ [] ∧ ∀ k', Covers k' m → π.acl k' ≠ [] → k' ≠ k → MoreSpecific k k'

/-- The mask of the first entry about the subject, and `deny` where there is none. -/
inductive Decides (kind : SubjectKind) (uuid m : String) : AccessMask → Prop
  | entry {k : String} {before after : List Payload} {x : Payload} (hk : π.Governs k m)
    (hacl : π.acl k = before ++ x :: after) (hbefore : ∀ y ∈ before, ¬ π.Concerns kind uuid y)
    (hx : π.Concerns kind uuid x) : Decides kind uuid m (payloadMask x)
  | silent {k : String} (hk : π.Governs k m) (hnone : ∀ x ∈ π.acl k, ¬ π.Concerns kind uuid x) :
    Decides kind uuid m .deny
  | ungoverned (hnone : ∀ k, ¬ π.Governs k m) : Decides kind uuid m .deny

/-- The directory allows the call, and the operation on the list of its node, if it is one, is not refused. -/
def Permits (call : Call) : Prop :=
  call.Permitted π.directory ∧ ∀ op, call.aclOp = some op → op.apply π.acl ≠ none

/-- The ends of a call; only a check has a result. -/
inductive Ends : Call → Ending → Prop
  | decided {p m : String} {mask : AccessMask} (hm : m ≠ "") (h : π.Decides .player p m mask) :
    Ends (.checkPermission p m) (.returned (some mask))
  | nameless (p : String) : Ends (.checkPermission p "") .refused
  | done {call : Call} (hcall : ∀ p m, call ≠ .checkPermission p m) (h : π.Permits call) : Ends call (.returned none)
  | refused {call : Call} (hcall : ∀ p m, call ≠ .checkPermission p m) (h : ¬ π.Permits call) : Ends call .refused

/-- The policy after a call. -/
noncomputable def act (call : Call) : Policy := ⟨call.act π.directory, call.editACL π.acl⟩

end Policy

/-! ### The manager that keeps a policy -/

/-- The tables say what the policy says. -/
structure Db.Encodes (db : Db) (π : Policy) : Prop where
  sound : db.Sound
  holds : db.Holds π.directory
  acl : aclAt db = π.acl

/-- The cache agrees with the tables. -/
structure Realizes (m : PermissionManager) (π : Policy) : Prop extends m.db.Encodes π where
  fresh : Fresh m
  noEmptyNode : NoEmptyNode m

/-- The policy in the tables. -/
def Db.Sound.policy {db : Db} (h : db.Sound) : Policy := ⟨h.directory, aclAt db⟩

theorem Db.Sound.encodes_policy {db : Db} (h : db.Sound) : db.Encodes h.policy := ⟨h, h.holds_directory, rfl⟩

section Decisions

variable {π : Policy}

theorem Db.Holds.has_of_above {db : Db} (h : db.Holds π.directory) {g u : String} (hg : π.directory.Has g)
    (hu : π.Above g u) : u ∈ db.groupUuids := by
  obtain ⟨n, -, hasc⟩ := hu
  exact h.has.1 (π.directory.has_of_ascend hg hasc)

/-- The identities of the policy are those in the token. -/
theorem contains_iff_identity {db : Db} (hdb : db.Schema) (h : db.Holds π.directory) {kind : SubjectKind}
    {uuid u : String} : (buildToken db kind uuid).contains u ↔ π.Identity kind uuid u := by
  have habove {g : String} (hg : π.directory.Has g) :
      (u ∈ db.groupUuids ∧ ∃ n ≤ 32, ascend db.parentOf n g = some u) ↔ π.Above g u := by
    rw [← h.parent_eq hdb.groups_key]
    exact and_iff_right_of_imp (h.has_of_above hg)
  cases kind with
  | player =>
    rw [contains_buildToken_player hdb.groups_key]
    refine or_congr_right (exists_congr fun g => ?_)
    rw [h.member ⟨uuid, g⟩]
    exact and_congr_right fun hg => habove (π.directory.member_exists hg)
  | group =>
    rw [contains_buildToken_group hdb.groups_key, ← h.has]
    exact and_congr_right habove

theorem matches_iff_concerns {db : Db} (hdb : db.Schema) (h : db.Holds π.directory) {kind : SubjectKind}
    {uuid : String} {x : Payload} :
    (buildToken db kind uuid).matches x.subjectUuid = true ↔ π.Concerns kind uuid x := by
  unfold AccessToken.matches Policy.Concerns
  rw [Bool.or_eq_true, decide_eq_true_eq, contains_iff_identity hdb h]

/-- The layers of the path, and what the policy decides. -/
theorem Policy.decides_iff_verdict {m : String} {path : List String} (hmem : ∀ k, k ∈ path ↔ Covers k m)
    (hpath : path.Pairwise MoreSpecific) {kind : SubjectKind} {uuid : String} {applies : Payload → Bool}
    (happlies : ∀ x, applies x = true ↔ π.Concerns kind uuid x) {mask : AccessMask} :
    π.Decides kind uuid m mask ↔ verdict applies payloadMask .deny π.acl path = mask := by
  have hfind (k : String) : (path.find? fun k => !(π.acl k).isEmpty) = some k ↔ π.Governs k m := by
    rw [Search.find?_eq_some_iff hpath fun _ _ => MoreSpecific.asymm]
    simp [Policy.Governs, hmem]
  have hnot {x : Payload} : ¬ applies x = true ↔ ¬ π.Concerns kind uuid x := not_congr (happlies x)
  rw [verdict_eq_find]
  constructor
  · intro h
    cases h with
    | entry hk hacl hbefore hx =>
      rw [(hfind _).2 hk, Option.bind_some, hacl,
        first_eq_some_of_split (fun y hy => hnot.2 (hbefore y hy)) ((happlies _).2 hx), Option.getD_some]
    | silent hk hnone =>
      rw [(hfind _).2 hk, Option.bind_some, first_eq_none.2 fun x hx => hnot.2 (hnone x hx), Option.getD_none]
    | ungoverned hnone =>
      have hno : (path.find? fun k => !(π.acl k).isEmpty) = none :=
        Option.eq_none_iff_forall_ne_some.2 fun k hk => hnone k ((hfind k).1 hk)
      rw [hno, Option.bind_none, Option.getD_none]
  · rintro rfl
    cases hgov : path.find? fun k => !(π.acl k).isEmpty with
    | none =>
      refine .ungoverned fun k hk => ?_
      rw [(hfind k).2 hk] at hgov
      cases hgov
    | some k =>
      have hk := (hfind k).1 hgov
      rw [Option.bind_some]
      cases hfirst : first applies payloadMask (π.acl k) with
      | none => exact .silent hk fun x hx => hnot.1 (first_eq_none.1 hfirst x hx)
      | some b =>
        obtain ⟨before, x, after, hacl, hbefore, hx, rfl⟩ := split_of_first hfirst
        exact .entry hk hacl (fun y hy => hnot.1 (hbefore y hy)) ((happlies x).1 hx)

/-- The decision of the tables is that of the policy. -/
theorem Db.Encodes.resolvePath_eq {db : Db} (h : db.Encodes π) {m : String} {path : List String}
    (hpath : buildNodePath m = .ok path) (hm : m ≠ "") {kind : SubjectKind} {uuid : String} {mask : AccessMask} :
    resolvePath (buildToken db kind uuid) (aclOf db) path = mask ↔ π.Decides kind uuid m mask := by
  obtain ⟨path', hpath', hmem, hpairwise, -⟩ := buildNodePath_eq_ok hm
  cases hpath.symm.trans hpath'
  rw [resolvePath_eq_verdict, h.acl]
  exact (Policy.decides_iff_verdict hmem hpairwise fun x => matches_iff_concerns h.sound.toSchema h.holds).symm

end Decisions

/-! ### Calls -/

section Calls

variable {m : PermissionManager} {π : Policy}

theorem Db.Encodes.throws_iff (h : m.db.Encodes π) {call : Call} (hcall : ∀ p node, call ≠ .checkPermission p node) :
    call.Throws m ↔ ¬ π.Permits call := by
  have hgroups (hedits : call.EditsGroups) (hop : ∀ op, call.aclOp = some op → op.apply π.acl ≠ none) :
      call.Throws m ↔ ¬ π.Permits call := by
    rw [Call.throws_iff_not_permitted h.sound h.holds hedits]
    exact not_congr (and_iff_left hop).symm
  have hacl {op : AclOp} (hop : call.aclOp = some op) (hpermitted : call.Permitted π.directory) :
      call.Throws m ↔ ¬ π.Permits call := by
    rw [Call.throws_iff h.sound hop, h.acl]
    constructor
    · exact fun hnone hpermits => hpermits.2 op hop hnone
    · intro hnot
      by_contra hne
      refine hnot ⟨hpermitted, fun op' hop' => ?_⟩
      cases hop.symm.trans hop'
      exact hne
  cases call with
  | checkPermission p node => exact absurd rfl (hcall p node)
  | createGroup | setGroupParent | addPlayerToGroup | removePlayerFromGroup =>
    exact hgroups trivial fun op hop => by cases hop
  | deleteGroup g =>
    refine hgroups trivial fun op hop => ?_
    cases hop
    exact Option.some_ne_none _
  | appendACE | insertACE | removeACE | moveACE | clearNodeACL => exact hacl rfl trivial
  | invalidate target =>
    refine iff_of_false ?_ (not_not_intro ⟨trivial, fun op hop => by cases hop⟩)
    rintro ⟨e, m', hrun⟩
    cases hrun

/-- The tables and the policy after a call. -/
theorem Db.Encodes.effect {db : Db} (h : db.Encodes π) (call : Call) : (call.effect db).Encodes (π.act call) where
  sound := Call.sound_effect h.sound call
  holds := Call.holds_effect h.sound h.holds call
  acl := by
    rw [Call.aclAt_effect h.sound, h.acl]
    rfl

/-- The manager goes on keeping the policy. -/
theorem Realizes.apply (h : Realizes m π) (call : Call) : Realizes (call.apply m) (π.act call) where
  toEncodes := by
    rw [Call.apply_db]
    exact h.effect call
  fresh := (call.alike_run m m ⟨rfl, h.fresh, h.fresh⟩).final.left
  noEmptyNode := Call.noEmptyNode_apply h.noEmptyNode call

end Calls

/-! ### Concurrent calls -/

/-- The policy that the calls of the order make of `π` is the one in the tables, every call that changes tables has its
place in the order when it has ended, and it has thrown if the policy did not permit it there. -/
structure SchedulePolicy (π : Policy) (calls : List Call) (order : List (Nat × Call)) (s : System) : Prop where
  tables : s.manager.db.Encodes (viewAfter Policy.act π order)
  nodup : (order.map Prod.fst).Nodup
  entry : ∀ entry ∈ order, calls[entry.1]? = some entry.2 ∧ entry.2.writes
  finished : ∀ i call t, calls[i]? = some call → call.writes → s.threads[i]? = some t → t.Finished →
    (i, call) ∈ order
  throws : ∀ before i call after, order = before ++ (i, call) :: after → ∀ t, s.threads[i]? = some t →
    ((∃ e, t = .failed e) ↔ ¬ (viewAfter Policy.act π before).Permits call)

/-- The tables and the policy after the calls of the entries. -/
theorem Db.Encodes.effects {db : Db} {π : Policy} (h : db.Encodes π) (entries : List (Nat × Call)) :
    (BakaPerms.effects db entries).Encodes (viewAfter Policy.act π entries) :=
  Run.run_simulation _ (fun _ _ (entry : Nat × Call) h => h.effect entry.2) h entries

theorem Call.ne_checkPermission_of_writes {call : Call} (h : call.writes) (p node : String) :
    call ≠ .checkPermission p node := by
  rintro rfl
  cases h

/-- Concurrent calls change the policy one after another, in every schedule in which the check of each `setGroupParent`
still holds at its `UPDATE`. -/
theorem schedule_refines {db : Db} (hdb : db.Sound) {calls : List Call} {sched : List Nat}
    (hcheck : ∀ part i g p, part ++ [i] <+: sched →
      ((System.init db calls).run part).threads[i]? = some (.updateParent g p) →
      wouldCreateCycle ((System.init db calls).run part).manager.db g p = false) :
    SchedulePolicy hdb.policy calls ((System.init db calls).commits sched) ((System.init db calls).run sched) := by
  have hplaced := placed_run db calls sched
  have haccounts := accounts_effects hcheck
  refine ⟨?_, hplaced.nodup, hplaced.entry, ?_, ?_⟩
  · have htables : ((System.init db calls).run sched).manager.db = effects db ((System.init db calls).commits sched) :=
      haccounts.tables
    rw [htables]
    exact hdb.encodes_policy.effects _
  · exact fun i call t hcall hw ht hfin => hplaced.mem_of_finished hcall hw ht hfin
  · intro before i call after horder t ht
    have hentry := hplaced.entry (i, call) (horder ▸ List.mem_append_right _ (List.mem_cons_self ..))
    have hencodes : (PermissionManager.init (effects db before)).db.Encodes (viewAfter Policy.act hdb.policy before) :=
      hdb.encodes_policy.effects before
    rw [← hencodes.throws_iff (Call.ne_checkPermission_of_writes hentry.2)]
    exact haccounts.fails before i call after horder t ht _ rfl

theorem sound_twoGroups : twoGroups.Sound where
  toSchema := twoGroups_schema
  masks := fun row hrow => by cases hrow
  numbered := ⟨_, represents_of_permissions_nil rfl⟩

/-- Two groups of one name are created, and the second call throws. -/
theorem schedule_refines_sample :
    SchedulePolicy sound_twoGroups.policy sampleWriters ((System.init twoGroups sampleWriters).commits sampleTurns)
      ((System.init twoGroups sampleWriters).run sampleTurns) :=
  schedule_refines sound_twoGroups sampleTurns_recheck

end BakaPerms
