import BakaPerms.CommandCalls
import BakaPerms.Deletion

/-!
# References to groups

Parents and memberships are foreign keys, but the subject of an ACE is a plain text.  That it still names a group
that exists rests on three things: the commands look subjects up before they add an ACE, the operations that
renumber rows do not touch their subjects, and deleting a group deletes its ACEs on every node (`Referenced.effect`).
With fresh uuids a deleted group never comes back, so nothing refers to it later (`commands_no_dangling`).
-/

namespace BakaPerms

open Chain Effect PermissionManager

/-- The subject of the row is the wildcard, a group that exists, or a player. -/
def RefersTo (player : String → Prop) (db : Db) (row : PermissionRow) : Prop :=
  row.subjectUuid = "*" ∨ (row.subjectType = 1 ∧ row.subjectUuid ∈ db.groupUuids) ∨
    (row.subjectType ≠ 1 ∧ player row.subjectUuid)

/-- The invariant of the databases that commands reach. -/
structure Referenced (player : String → Prop) (db : Db) : Prop extends Db.Sound db where
  subject : ∀ row ∈ db.permissions, RefersTo player db row

section Invariant

variable {player : String → Prop}

theorem RefersTo.mono {db db' : Db} {row : PermissionRow} (h : RefersTo player db row)
    (hle : ∀ u ∈ db.groupUuids, u ∈ db'.groupUuids) : RefersTo player db' row := by
  rcases h with h | ⟨htype, h⟩ | h
  · exact .inl h
  · exact .inr (.inl ⟨htype, hle _ h⟩)
  · exact .inr (.inr h)

theorem refersTo_of_isSubject {inv : Invocation} {db : Db}
    (hdir : ∀ name uuid, inv.svc.fromName name = some uuid → player uuid) {subjectUuid : String} {subjectType : Int}
    (h : IsSubject inv db subjectUuid subjectType) {row : PermissionRow} (hu : row.subjectUuid = subjectUuid)
    (ht : row.subjectType = subjectType) : RefersTo player db row := by
  unfold RefersTo
  rw [hu, ht]
  rcases h with h | ⟨htype, h⟩ | ⟨htype, name, h⟩
  · exact .inl h
  · exact .inr (.inl ⟨htype, h⟩)
  · exact .inr (.inr ⟨by omega, hdir name _ h⟩)

/-- The rows after the deletion of a group are rows from before, of other subjects. -/
theorem subject_deleteGroup {db db' : Db} (hdb : db.Sound) {g : String}
    (h : PermissionRepository.deleteGroup g db = .ok () db') {row : PermissionRow} (hrow : row ∈ db'.permissions) :
    row.subjectUuid ≠ g ∧ ∃ row₀ ∈ db.permissions, row₀.payload = row.payload := by
  obtain ⟨acl, hacl⟩ := hdb.numbered
  have hmem : ∀ {db : Db} {acl : String → List Payload}, Represents db acl → ∀ {node : String} {x : Payload},
      x ∈ acl node ↔ ∃ row ∈ db.permissions, row.node = node ∧ row.payload = x := by
    intro db acl hacl node x
    rw [← hacl.aclAt_eq]
    simp [aclAt, PermissionRepository.nodeRows, and_assoc]
  have hx := (hmem (deleteGroup_represents hacl h)).2 ⟨row, hrow, rfl, rfl⟩
  obtain ⟨hx, hsubject⟩ := List.mem_filter.1 hx
  obtain ⟨row₀, hrow₀, -, hpayload⟩ := (hmem hacl).1 hx
  exact ⟨of_decide_eq_true hsubject, row₀, hrow₀, hpayload⟩

theorem mem_groupUuids_deleteGroup_effect {db : Db} (hdb : db.Sound) {g u : String} :
    u ∈ ((Call.deleteGroup g).effect db).groupUuids ↔ u ∈ db.groupUuids ∧ u ≠ g := by
  obtain ⟨db', h⟩ := deleteGroup_succeeds hdb.masks hdb.numbered_entries g
  have heffect : (Call.deleteGroup g).effect db = db' := final_of_ok h
  rw [heffect]
  rcases PermissionRepository.deleteGroup_groups h with ⟨-, hgroups, -⟩ | ⟨hg, hgroups, -⟩
  · exact mem_groupUuids_deleteGroup hgroups
  · unfold Db.groupUuids at hg ⊢
    rw [hgroups]
    refine ⟨fun hu => ⟨hu, ?_⟩, And.left⟩
    rintro rfl
    exact hg hu

private theorem groupUuids_createGroup_effect (db : Db) (uuid name : String) (parent : Option String) :
    ((Call.createGroup uuid name parent).effect db).groupUuids = db.groupUuids ∨
      ((Call.createGroup uuid name parent).effect db).groupUuids = db.groupUuids ++ [uuid] := by
  simp only [Call.effect]
  split
  · exact .inl rfl
  · cases h : PermissionRepository.createGroup uuid name parent db with
    | ok a db' =>
      rw [final_of_ok h, (insertGroup_eq_ok.1 h).2]
      exact .inr (List.map_append ..)
    | error e db' =>
      rw [final_of_error h, insertGroup_error h]
      exact .inl rfl

private theorem groupUuids_setGroupParent_effect (db : Db) (g : String) (parent : Option String) :
    ((Call.setGroupParent g parent).effect db).groupUuids = db.groupUuids := by
  simp only [Call.effect]
  split
  · rfl
  · exact groupUuids_setGroupParent ..

/-- A group that is there after a call was there before, or the call has created it. -/
theorem Call.mem_groupUuids_of_effect {db : Db} (hdb : db.Sound) {call : Call} {u : String}
    (hu : u ∈ (call.effect db).groupUuids) :
    (u ∈ db.groupUuids ∧ call ≠ .deleteGroup u) ∨ ∃ name parent, call = .createGroup u name parent := by
  rcases call.groups_effect db with ⟨uuid, name, parent, rfl⟩ | ⟨g, rfl⟩ | ⟨g, parent, rfl⟩ | hgroups
  · rcases groupUuids_createGroup_effect db uuid name parent with h | h <;> rw [h] at hu
    · exact .inl ⟨hu, by simp⟩
    · rcases List.mem_append.1 hu with hu | hu
      · exact .inl ⟨hu, by simp⟩
      · rw [List.mem_singleton.1 hu]
        exact .inr ⟨name, parent, rfl⟩
  · obtain ⟨hu, hne⟩ := (mem_groupUuids_deleteGroup_effect hdb).1 hu
    exact .inl ⟨hu, by simpa using hne.symm⟩
  · rw [groupUuids_setGroupParent_effect] at hu
    exact .inl ⟨hu, by simp⟩
  · refine .inl ⟨by simpa only [Db.groupUuids, hgroups] using hu, ?_⟩
    rintro rfl
    exact ((mem_groupUuids_deleteGroup_effect hdb).1 hu).2 rfl

/-- A group stays until it is deleted. -/
theorem Call.mem_groupUuids_effect {db : Db} (hdb : db.Sound) {call : Call} {u : String} (hu : u ∈ db.groupUuids)
    (hne : call ≠ .deleteGroup u) : u ∈ (call.effect db).groupUuids := by
  rcases call.groups_effect db with ⟨uuid, name, parent, rfl⟩ | ⟨g, rfl⟩ | ⟨g, parent, rfl⟩ | hgroups
  · rcases groupUuids_createGroup_effect db uuid name parent with h | h <;> rw [h]
    · exact hu
    · exact List.mem_append_left _ hu
  · refine (mem_groupUuids_deleteGroup_effect hdb).2 ⟨hu, ?_⟩
    rintro rfl
    exact hne rfl
  · rwa [groupUuids_setGroupParent_effect]
  · simpa only [Db.groupUuids, hgroups] using hu

/-- The operations that renumber and add rows leave the groups alone and the subjects of the rows as they are. -/
private theorem refersTo_final {db : Db} {x : DbM Unit} (hgroups : Within SameGroups x)
    (hrows : Within (Keeps fun db' => ∀ row ∈ db'.permissions, RefersTo player db row) x)
    (h : ∀ row ∈ db.permissions, RefersTo player db row) :
    ∀ row ∈ (final x db).permissions, RefersTo player (final x db) row := by
  intro row hrow
  have hsame : (final x db).groups = db.groups := (Prod.mk.inj (hgroups db)).1
  refine (hrows db h row hrow).mono fun u hu => ?_
  simpa only [Db.groupUuids, hsame] using hu

/-- The ACEs of a deleted group are gone, and the other ones refer to what is still there. -/
private theorem refersTo_deleteGroup {db : Db} (h : Referenced player db) (g : String) :
    ∀ row ∈ ((Call.deleteGroup g).effect db).permissions,
      RefersTo player ((Call.deleteGroup g).effect db) row := by
  obtain ⟨db', hok⟩ := deleteGroup_succeeds h.masks h.numbered_entries g
  have heffect : (Call.deleteGroup g).effect db = db' := final_of_ok hok
  intro row hrow
  rw [heffect] at hrow
  obtain ⟨hsubject, row₀, hrow₀, hpayload⟩ := subject_deleteGroup h.toSound hok hrow
  have hu : row₀.subjectUuid = row.subjectUuid := congrArg Payload.subjectUuid hpayload
  have ht : row₀.subjectType = row.subjectType := congrArg Payload.subjectType hpayload
  have href := h.subject row₀ hrow₀
  unfold RefersTo at href ⊢
  rw [hu, ht] at href
  rcases href with href | ⟨htype, href⟩ | href
  · exact .inl href
  · exact .inr (.inl ⟨htype, (mem_groupUuids_deleteGroup_effect h.toSound).2 ⟨href, hsubject⟩⟩)
  · exact .inr (.inr href)

/-- A command keeps every reference in order. -/
theorem Referenced.effect {inv : Invocation} (hdir : ∀ name uuid, inv.svc.fromName name = some uuid → player uuid)
    {db : Db} (h : Referenced player db) {call : Call} (hi : Issues inv db call) :
    Referenced player (call.effect db) := by
  refine ⟨Call.sound_effect h.toSound call, ?_⟩
  have hmoves : AclMoves (Keeps fun db' => ∀ row ∈ db'.permissions, RefersTo player db row)
      (fun row => RefersTo player db row) := aclMoves_forall fun _ _ h => h
  have hother : call.aclOp = none → ∀ row ∈ (call.effect db).permissions, RefersTo player (call.effect db) row := by
    intro hop row hrow
    rw [Call.permissions_effect hop] at hrow
    refine (h.subject row hrow).mono fun u hu => Call.mem_groupUuids_effect h.toSound hu ?_
    rintro rfl
    cases hop
  cases hi with
  | reload => exact hother rfl
  | checkPermission => exact hother rfl
  | createGroup => exact hother rfl
  | clearParent => exact hother rfl
  | setGroupParent => exact hother rfl
  | addPlayerToGroup => exact hother rfl
  | removePlayerFromGroup => exact hother rfl
  | deleteGroup => exact refersTo_deleteGroup h _
  | appendACE node mask hs =>
    exact refersTo_final (PermissionRepository.within_appendACE aclMoves_sameGroups _ _ _ _ _ fun _ => trivial)
      (PermissionRepository.within_appendACE hmoves _ _ _ _ _ fun _ => refersTo_of_isSubject hdir hs rfl rfl) h.subject
  | insertACE node position mask hs =>
    exact refersTo_final (PermissionRepository.within_insertACE aclMoves_sameGroups _ _ _ _ _ _ fun _ => trivial)
      (PermissionRepository.within_insertACE hmoves _ _ _ _ _ _ fun _ => refersTo_of_isSubject hdir hs rfl rfl)
      h.subject
  | removeACE =>
    exact refersTo_final (PermissionRepository.within_removeACE aclMoves_sameGroups _ _)
      (PermissionRepository.within_removeACE hmoves _ _) h.subject
  | moveACE =>
    exact refersTo_final (PermissionRepository.within_moveACE aclMoves_sameGroups _ _ _)
      (PermissionRepository.within_moveACE hmoves _ _ _) h.subject
  | clearNodeACL =>
    exact refersTo_final (PermissionRepository.within_clearNodeACL aclMoves_sameGroups _)
      (PermissionRepository.within_clearNodeACL hmoves _) h.subject

/-- Nothing refers to a uuid that is neither a group's nor a player's. -/
theorem Referenced.not_referenced {db : Db} (h : Referenced player db) {g : String} (hgone : g ∉ db.groupUuids)
    (hplayer : ¬ player g) (hstar : g ≠ "*") :
    (∀ row ∈ db.permissions, row.subjectUuid ≠ g) ∧
      (∀ row ∈ db.groups, row.uuid ≠ g ∧ row.parentUuid ≠ some g) ∧ (∀ row ∈ db.playerGroups, row.groupUuid ≠ g) ∧
      (∀ p, player p → (buildToken db .player p).contains g = false) ∧
      ∀ k, (buildToken db .group k).contains g = false := by
  refine ⟨?_, ?_, ?_, ?_, ?_⟩
  · intro row hrow hu
    rcases h.subject row hrow with hs | ⟨-, hs⟩ | ⟨-, hs⟩ <;> rw [hu] at hs
    · exact hstar hs
    · exact hgone hs
    · exact hplayer hs
  · intro row hrow
    constructor
    · rintro rfl
      exact hgone (List.mem_map_of_mem hrow)
    · intro hp
      exact hgone (h.parent_exists row hrow g hp)
  · rintro row hrow rfl
    exact hgone (h.membership_exists row hrow)
  · intro p hp
    rw [Bool.eq_false_iff]
    intro hc
    rcases (contains_buildToken_player h.groups_key).1 hc with rfl | ⟨-, -, hc, -⟩
    · exact hplayer hp
    · exact hgone hc
  · intro k
    rw [Bool.eq_false_iff]
    intro hc
    exact hgone ((contains_buildToken_group h.groups_key).1 hc).2.1

end Invariant

/-! ### Runs of commands -/

/-- The uuids of new groups are fresh, and the directory knows players only. -/
structure FreshUuids (player : String → Prop) (invs : List Invocation) : Prop where
  nodup : (invs.map Invocation.newUuid).Nodup
  not_player : ∀ inv ∈ invs, ¬ player inv.newUuid
  not_wildcard : ∀ inv ∈ invs, inv.newUuid ≠ "*"
  directory : ∀ inv ∈ invs, ∀ name uuid, inv.svc.fromName name = some uuid → player uuid

section Runs

variable {player : String → Prop}

theorem runCommands_concat (m : PermissionManager) (part : List Invocation) (inv : Invocation) :
    runCommands m (part ++ [inv]) = inv.apply (runCommands m part) := Run.run_concat ..

theorem Invocation.db_apply_cases (inv : Invocation) (m : PermissionManager) :
    (inv.apply m).db = m.db ∨ ∃ call, Issues inv m.db call ∧ (inv.apply m).db = call.effect m.db := by
  rcases inv.apply_cases m with h | ⟨call, hi, h⟩
  · exact .inl (congrArg PermissionManager.db h)
  · exact .inr ⟨call, hi, by rw [h, Call.apply_db]⟩

theorem referenced_runCommands {invs : List Invocation} (hfresh : FreshUuids player invs) :
    Referenced player (runCommands (.init Db.empty) invs).db := by
  refine Run.run_invariant_on (P := fun m : PermissionManager => Referenced player m.db) Invocation.apply ?_ ?_
    (List.prefix_refl invs)
  · refine ⟨Db.sound_empty, fun row hrow => ?_⟩
    cases hrow
  · intro part inv hpart ih
    have hmem : inv ∈ invs := hpart.subset (by simp)
    rcases inv.db_apply_cases (Run.run Invocation.apply (.init Db.empty) part) with h | ⟨call, hi, h⟩
    · rwa [h]
    · rw [h]
      exact ih.effect (hfresh.directory inv hmem) hi

/-- The groups of a run have the uuids that the run has made. -/
theorem mem_newUuids {invs : List Invocation} {u : String}
    (hu : u ∈ (runCommands (.init Db.empty) invs).db.groupUuids) : u ∈ invs.map Invocation.newUuid := by
  induction invs using List.reverseRecOn with
  | nil => cases hu
  | append_singleton invs inv ih =>
    rw [runCommands_concat] at hu
    rw [List.map_append, List.mem_append]
    rcases inv.db_apply_cases (runCommands (.init Db.empty) invs) with h | ⟨call, hi, h⟩ <;> rw [h] at hu
    · exact .inl (ih hu)
    · rcases Call.mem_groupUuids_of_effect (sound_runCommands Db.sound_empty invs) hu with ⟨hu, -⟩ | ⟨name, parent, rfl⟩
      · exact .inl (ih hu)
      · cases hi
        exact .inr (by simp)

/-- A group that is gone does not come back. -/
theorem deleted_stays_deleted {part rest : List Invocation} (hnd : ((part ++ rest).map Invocation.newUuid).Nodup)
    {g : String} (hused : g ∈ part.map Invocation.newUuid)
    (hgone : g ∉ (runCommands (.init Db.empty) part).db.groupUuids) :
    g ∉ (runCommands (.init Db.empty) (part ++ rest)).db.groupUuids := by
  induction rest using List.reverseRecOn with
  | nil => rwa [List.append_nil]
  | append_singleton rest inv ih =>
    rw [← List.append_assoc] at hnd ⊢
    rw [List.map_append, List.nodup_append] at hnd
    obtain ⟨hnd, -, hdisjoint⟩ := hnd
    intro hg
    rw [runCommands_concat] at hg
    rcases inv.db_apply_cases (runCommands (.init Db.empty) (part ++ rest)) with h | ⟨call, hi, h⟩ <;> rw [h] at hg
    · exact ih hnd hg
    · rcases Call.mem_groupUuids_of_effect (sound_runCommands Db.sound_empty _) hg with ⟨hg, -⟩ | ⟨name, parent, rfl⟩
      · exact ih hnd hg
      · cases hi
        refine hdisjoint inv.newUuid ?_ inv.newUuid (by simp) rfl
        rw [List.map_append]
        exact List.mem_append_left _ hused

/-- A command of the run has deleted the group. -/
def DeletedIn (invs : List Invocation) (g : String) : Prop :=
  ∃ part inv, part ++ [inv] <+: invs ∧ g ∈ (runCommands (.init Db.empty) part).db.groupUuids ∧
    g ∉ (runCommands (.init Db.empty) (part ++ [inv])).db.groupUuids

/-- After every run of commands the group ACEs, the parents and the memberships refer to groups that exist, and
nothing refers to a group that the run has deleted. -/
theorem commands_no_dangling {invs : List Invocation} (hfresh : FreshUuids player invs) {db : Db}
    (hdb : (runCommands (.init Db.empty) invs).db = db) :
    (∀ row ∈ db.permissions, row.subjectType = 1 → row.subjectUuid ≠ "*" → row.subjectUuid ∈ db.groupUuids) ∧
      (∀ row ∈ db.groups, ∀ parent, row.parentUuid = some parent → parent ∈ db.groupUuids) ∧
      (∀ row ∈ db.playerGroups, row.groupUuid ∈ db.groupUuids) ∧
      ∀ g, DeletedIn invs g → (∀ row ∈ db.permissions, row.subjectUuid ≠ g) ∧
        (∀ row ∈ db.groups, row.uuid ≠ g ∧ row.parentUuid ≠ some g) ∧ (∀ row ∈ db.playerGroups, row.groupUuid ≠ g) ∧
        (∀ p, player p → (buildToken db .player p).contains g = false) ∧
        ∀ k, (buildToken db .group k).contains g = false := by
  have href : Referenced player db := hdb ▸ referenced_runCommands hfresh
  refine ⟨?_, href.parent_exists, href.membership_exists, ?_⟩
  · intro row hrow htype hne
    rcases href.subject row hrow with h | ⟨-, h⟩ | ⟨h, -⟩
    · exact absurd h hne
    · exact h
    · exact absurd htype h
  rintro g ⟨part, inv, ⟨rest, rfl⟩, hbefore, hafter⟩
  have hused : g ∈ part.map Invocation.newUuid := mem_newUuids hbefore
  have hgone : g ∉ db.groupUuids := by
    rw [← hdb]
    refine deleted_stays_deleted hfresh.nodup ?_ hafter
    rw [List.map_append]
    exact List.mem_append_left _ hused
  obtain ⟨inv₀, hinv₀, rfl⟩ := List.mem_map.1 hused
  have hmem : inv₀ ∈ part ++ [inv] ++ rest := by simp [hinv₀]
  exact href.not_referenced hgone (hfresh.not_player inv₀ hmem) (hfresh.not_wildcard inv₀ hmem)

end Runs

/-- The directory of one player. -/
def sampleServices : Services where
  tr key _ := key
  fromName name := if name = "Alice" then some "p" else none
  fromUuid uuid := if uuid = "p" then some "Alice" else none

/-- A group that has a member and an ACE is deleted. -/
def sampleInvs : List Invocation :=
  [⟨sampleServices, "t", "g1", .groupCreate "staff"⟩, ⟨sampleServices, "t", "g2", .userAddGroup "Alice" "staff"⟩,
    ⟨sampleServices, "t", "g3", .aclAdd "a" "staff" .group .deny⟩,
    ⟨sampleServices, "t", "g4", .aclAdd "a" "Alice" .player .allow⟩,
    ⟨sampleServices, "t", "g5", .groupDelete "staff"⟩]

theorem sampleInvs_fresh : FreshUuids (· = "p") sampleInvs where
  nodup := by decide
  not_player := by simp [sampleInvs]
  not_wildcard := by simp [sampleInvs]
  directory := by
    intro inv hinv name uuid h
    have hsvc : inv.svc = sampleServices := by
      simp only [sampleInvs, List.mem_cons, List.not_mem_nil, or_false] at hinv
      rcases hinv with rfl | rfl | rfl | rfl | rfl <;> rfl
    rw [hsvc, sampleServices] at h
    dsimp only at h
    split at h
    · exact (Option.some.inj h).symm
    · cases h

theorem commands_no_dangling_sample :
    DeletedIn sampleInvs "g1" ∧
      ∀ row ∈ (runCommands (.init Db.empty) sampleInvs).db.permissions, row.subjectUuid ≠ "g1" := by
  have hdel : DeletedIn sampleInvs "g1" :=
    ⟨sampleInvs.take 4, ⟨sampleServices, "t", "g5", .groupDelete "staff"⟩, List.prefix_refl _, by decide +kernel,
      by decide +kernel⟩
  exact ⟨hdel, ((commands_no_dangling sampleInvs_fresh rfl).2.2.2 "g1" hdel).1⟩

end BakaPerms
