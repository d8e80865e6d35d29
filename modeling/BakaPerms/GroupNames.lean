import BakaPerms.References

/-!
# Groups by their names

The commands take groups by name, and `group create` takes any name.  Two names are read as keywords before any
group is looked up: `*` as the subject of an ACE and `none` as a parent.  A group can be addressed by its name
(`Addressable`) exactly when the name is not `*`, and is not `none` unless no group could take it as parent
(`addressable_iff`).
-/

namespace BakaPerms

open Chain Effect PermissionManager PermsCommand

/-- The handler returns and reports success. -/
def Invocation.Succeeds (inv : Invocation) (m m' : PermissionManager) : Prop :=
  ∃ message, inv.run m = .ok () ⟨m', [.success message]⟩

/-! ### Handlers that succeed -/

theorem reporting_success {svc : Services} {key : String} {body : CommandM Unit} {m m' : PermissionManager}
    {message : String} :
    reporting svc key body ⟨m, []⟩ = .ok () ⟨m', [.success message]⟩ ↔
      body ⟨m, []⟩ = .ok () ⟨m', [.success message]⟩ := by
  unfold reporting
  cases hb : body ⟨m, []⟩ with
  | ok a s => rw [tryCatch_of_ok hb]
  | error e s =>
    rw [tryCatch_of_error hb]
    constructor
    · intro h
      have hs : s.output ++ [.error (svc.tr key [e.what svc])] = [.success message] :=
        congrArg Session.output (EStateM.Result.ok.inj h).2
      have hlast := congrArg List.getLast? hs
      simp at hlast
    · intro h
      cases h

theorem call_success {α : Type} {x : ManagerM α} {text : α → String} {m m' : PermissionManager} {message : String} :
    (call x >>= fun a => success (text a)) ⟨m, []⟩ = .ok () ⟨m', [.success message]⟩ ↔
      ∃ a, x m = .ok a m' ∧ text a = message := by
  cases hx : x m with
  | ok a m₁ =>
    have hcall : (call x >>= fun a => success (text a)) ⟨m, []⟩ = .ok () ⟨m₁, [.success (text a)]⟩ :=
      bind_of_ok (call_of_ok (s := ⟨m, []⟩) hx)
    rw [hcall]
    simp
  | error e m₁ =>
    rw [bind_of_error (call_of_error (s := ⟨m, []⟩) hx)]
    simp

/-- A writer of the manager that returns has done what the repository does. -/
theorem writer_eq_ok {x : DbM Unit} {m m' : PermissionManager} (h : (do repo x; invalidateAll) m = .ok () m') :
    x m.db = .ok () m'.db := by
  cases hx : x m.db with
  | ok a db =>
    rw [writer_of_ok hx] at h
    cases h
    rfl
  | error e db =>
    rw [writer_of_error hx] at h
    cases h

theorem setGroupParent_eq_ok {g : String} {parent : Option String} {m m' : PermissionManager}
    (h : PermissionManager.setGroupParent g parent m = .ok () m') :
    PermissionRepository.setGroupParent g parent m.db = .ok () m'.db := by
  by_cases hc : parent.any (wouldCreateCycle m.db g)
  · rw [setGroupParent_of_cycle hc] at h
    cases h
  · rw [setGroupParent_of_noCycle hc] at h
    exact writer_eq_ok h

theorem getGroupByName_of_mem {db : Db} (hdb : db.Schema) {row : GroupRow} (hrow : row ∈ db.groups) :
    PermissionRepository.getGroupByName db row.name = some (rowToGroupInfo row) := by
  have hfind : db.groups.find? (fun r => r.name == row.name) = some row :=
    (Table.find?_eq_some_iff hdb.groups_name).2 ⟨hrow, rfl⟩
  unfold PermissionRepository.getGroupByName
  rw [hfind]
  rfl

/-- `acl add` and `acl insert` with a group that is not the wildcard: the subject is the group's uuid. -/
theorem subject_success {svc : Services} {name : String} {x : String → ManagerM Unit} {text : String}
    {m m' : PermissionManager} {message : String} {group : GroupInfo} (hname : name ≠ "*")
    (hgroup : PermissionRepository.getGroupByName m.db name = some group)
    (h : (resolveSubjectUuid svc name .group >>= fun subjectUuid =>
      if subjectUuid = "" then return else call (x subjectUuid) >>= fun _ => success text) ⟨m, []⟩ =
        .ok () ⟨m', [.success message]⟩) : x group.uuid m = .ok () m' := by
  rcases resolveSubjectUuid_cases svc name .group ⟨m, []⟩ with ⟨line, hr⟩ | ⟨uuid, hr, hsubject⟩
  · rw [bind_of_ok hr, if_pos rfl] at h
    cases h
  · rcases hsubject with ⟨hstar, -⟩ | ⟨-, -, group', hgroup', rfl⟩ | ⟨-, hplayer, -⟩
    · exact absurd hstar hname
    · obtain rfl : group = group' := Option.some.inj (hgroup.symm.trans hgroup')
      rw [bind_of_ok hr] at h
      by_cases hu : group.uuid = ""
      · rw [if_pos hu] at h
        cases h
      · rw [if_neg hu] at h
        obtain ⟨_, hx, -⟩ := call_success.1 h
        exact hx
    · cases hplayer

theorem aclAdd_success {svc : Services} {now newUuid node : String} {mask : AccessMask}
    {m m' : PermissionManager} (hdb : m.db.Sound) {row : GroupRow} (hrow : row ∈ m.db.groups) (hname : row.name ≠ "*")
    (h : Invocation.Succeeds ⟨svc, now, newUuid, .aclAdd node row.name .group mask⟩ m m') :
    aclAt m'.db = Function.update (aclAt m.db) node (aclAt m.db node ++ [⟨row.uuid, 1, mask.toInt, now⟩]) := by
  obtain ⟨message, h⟩ := h
  have hx := subject_success (x := fun u => appendACE now node u 1 mask) hname
    (getGroupByName_of_mem hdb.toSchema hrow) (reporting_success.1 h)
  obtain ⟨acl, hacl⟩ := hdb.numbered
  rw [hacl.aclAt_eq]
  exact (appendACE_represents hacl (writer_eq_ok hx)).aclAt_eq

theorem aclInsert_success {svc : Services} {now newUuid node : String} {position : Int} {mask : AccessMask}
    {m m' : PermissionManager} (hdb : m.db.Sound) {row : GroupRow} (hrow : row ∈ m.db.groups) (hname : row.name ≠ "*")
    (h : Invocation.Succeeds ⟨svc, now, newUuid, .aclInsert node position row.name .group mask⟩ m m') :
    aclAt m'.db = Function.update (aclAt m.db) node
      ((aclAt m.db node).insertIdx position.toNat ⟨row.uuid, 1, mask.toInt, now⟩) := by
  obtain ⟨message, h⟩ := h
  have hx := subject_success (x := fun u => insertACE now node position u 1 mask) hname
    (getGroupByName_of_mem hdb.toSchema hrow) (reporting_success.1 h)
  obtain ⟨acl, hacl⟩ := hdb.numbered
  rw [hacl.aclAt_eq]
  exact (insertACE_represents hacl (writer_eq_ok hx)).2.aclAt_eq

/-- `group setparent` with a parent that is not the keyword sets the parent of that name. -/
theorem groupSetParent_success {svc : Services} {now newUuid : String} {m m' : PermissionManager} (hdb : m.db.Schema)
    {x row : GroupRow} (hx : x ∈ m.db.groups) (hrow : row ∈ m.db.groups) (hname : row.name ≠ "none")
    (h : Invocation.Succeeds ⟨svc, now, newUuid, .groupSetParent x.name row.name⟩ m m') :
    m'.db.parentOf x.uuid = some row.uuid := by
  obtain ⟨message, h⟩ := h
  have h₁ : groupSetParent svc x.name row.name ⟨m, []⟩ = .ok () ⟨m', [.success message]⟩ := h
  unfold groupSetParent at h₁
  rw [getDb_bind, getGroupByName_of_mem hdb hx] at h₁
  have h₂ := reporting_success.1 h₁
  rw [if_neg hname, getDb_bind, getGroupByName_of_mem hdb hrow] at h₂
  obtain ⟨_, hset, -⟩ := call_success.1 h₂
  obtain ⟨-, hdb'⟩ := updateGroupParent_eq_ok.1 (setGroupParent_eq_ok hset)
  rw [hdb']
  have hmem : x.uuid ∈ m.db.groupUuids := List.mem_map_of_mem hx
  exact (congrFun (parentOf_withParent hmem (some row.uuid)) x.uuid).trans (Function.update_self ..)

/-! ### Addressing a group -/

/-- The commands that take the group's name where they expect a group are about the group: successful `acl add` and
`acl insert` make ACEs of its uuid, which match the tokens that contain it and no others, and a successful
`group setparent` of another group that makes no cycle sets it as the parent. -/
structure Addressable (m : PermissionManager) (group : GroupRow) : Prop where
  add : ∀ svc now newUuid node mask m',
    Invocation.Succeeds ⟨svc, now, newUuid, .aclAdd node group.name .group mask⟩ m m' →
      aclAt m'.db = Function.update (aclAt m.db) node (aclAt m.db node ++ [⟨group.uuid, 1, mask.toInt, now⟩])
  insert : ∀ svc now newUuid node position mask m',
    Invocation.Succeeds ⟨svc, now, newUuid, .aclInsert node position group.name .group mask⟩ m m' →
      aclAt m'.db = Function.update (aclAt m.db) node
        ((aclAt m.db node).insertIdx position.toNat ⟨group.uuid, 1, mask.toInt, now⟩)
  matched : ∀ token : AccessToken, token.matches group.uuid = token.contains group.uuid
  setparent : ∀ x ∈ m.db.groups, x.uuid ≠ group.uuid → ¬ Reaches m.db.parentOf group.uuid x.uuid →
    ∀ svc now newUuid m', Invocation.Succeeds ⟨svc, now, newUuid, .groupSetParent x.name group.name⟩ m m' →
      m'.db.parentOf x.uuid = some group.uuid

/-- `acl add` with the wildcard succeeds, and the subject is the wildcard. -/
theorem aclAdd_wildcard (svc : Services) (now newUuid node : String) (mask : AccessMask) {m : PermissionManager}
    (hdb : m.db.Sound) :
    ∃ m', Invocation.Succeeds ⟨svc, now, newUuid, .aclAdd node "*" .group mask⟩ m m' ∧
      aclAt m'.db = Function.update (aclAt m.db) node (aclAt m.db node ++ [⟨"*", 1, mask.toInt, now⟩]) := by
  obtain ⟨acl, hacl⟩ := hdb.numbered
  obtain ⟨db', h⟩ := appendACE_succeeds hacl now node "*" 1 mask
  refine ⟨invalidate { m with db := db' } none, ⟨svc.tr "bakaperms.acl.appended" [node,
    subjectKindToString svc .group, "*", accessMaskToString svc mask], reporting_success.2 ?_⟩, ?_⟩
  · exact call_success.2 ⟨(), writer_of_ok h, rfl⟩
  · rw [hacl.aclAt_eq]
    exact (appendACE_represents hacl h).aclAt_eq

/-- `group setparent` with the keyword succeeds, and clears the parent. -/
theorem groupSetParent_none (svc : Services) (now newUuid : String) {m : PermissionManager} (hdb : m.db.Schema)
    {x : GroupRow} (hx : x ∈ m.db.groups) :
    ∃ m', Invocation.Succeeds ⟨svc, now, newUuid, .groupSetParent x.name "none"⟩ m m' ∧
      m'.db.parentOf x.uuid = none := by
  have h : PermissionRepository.setGroupParent x.uuid none m.db =
      .ok () { m.db with groups := withParent m.db.groups x.uuid none } :=
    updateGroupParent_eq_ok.2 ⟨fun _ parent hparent => (by cases hparent), rfl⟩
  refine ⟨invalidate { m with db := { m.db with groups := withParent m.db.groups x.uuid none } } none,
    ⟨svc.tr "bakaperms.group.parent_cleared" [x.name], ?_⟩, ?_⟩
  · show groupSetParent svc x.name "none" ⟨m, []⟩ = _
    unfold groupSetParent
    rw [getDb_bind, getGroupByName_of_mem hdb hx]
    refine reporting_success.2 ?_
    rw [if_pos rfl]
    exact call_success.2 ⟨(), writer_of_ok h, rfl⟩
  · have hmem : x.uuid ∈ m.db.groupUuids := List.mem_map_of_mem hx
    exact (congrFun (parentOf_withParent hmem none) x.uuid).trans (Function.update_self ..)

/-- A group of a state that commands reach can be addressed by its name exactly when the name is not `*`, and is not
`none` or every other group is above the group already. -/
theorem addressable_iff {invs : List Invocation} (hfresh : ∀ inv ∈ invs, inv.newUuid ≠ "*") {m : PermissionManager}
    (hm : runCommands (.init Db.empty) invs = m) {group : GroupRow} (hgroup : group ∈ m.db.groups) :
    Addressable m group ↔ group.name ≠ "*" ∧
      (group.name ≠ "none" ∨ ∀ x ∈ m.db.groups, x.uuid ≠ group.uuid → Reaches m.db.parentOf group.uuid x.uuid) := by
  have hdb : m.db.Sound := hm ▸ sound_runCommands Db.sound_empty invs
  have hstar : group.uuid ≠ "*" := by
    have hnew : group.uuid ∈ invs.map Invocation.newUuid := mem_newUuids (hm ▸ List.mem_map_of_mem hgroup)
    obtain ⟨inv, hinv, heq⟩ := List.mem_map.1 hnew
    exact heq ▸ hfresh inv hinv
  have svc : Services := ⟨fun key _ => key, fun _ => none, fun _ => none⟩
  constructor
  · intro h
    constructor
    · intro hname
      obtain ⟨m', hsuccess, hacl⟩ := aclAdd_wildcard svc "" "" "" .allow hdb
      have hacl' := h.add svc "" "" "" .allow m' (hname ▸ hsuccess)
      rw [hacl] at hacl'
      have hlast := congrFun hacl' ""
      rw [Function.update_self, Function.update_self, List.append_cancel_left_eq] at hlast
      simp only [List.cons.injEq, Payload.mk.injEq, and_true] at hlast
      exact hstar hlast.symm
    · by_contra hno
      simp only [not_or, not_not, not_forall] at hno
      obtain ⟨hname, x, hx, hne, hnocycle⟩ := hno
      obtain ⟨m', hsuccess, hparent⟩ := groupSetParent_none svc "" "" hdb.toSchema hx
      have hparent' := h.setparent x hx hne hnocycle svc "" "" m' (hname ▸ hsuccess)
      rw [hparent] at hparent'
      cases hparent'
  · rintro ⟨hname, hnone⟩
    refine ⟨?_, ?_, ?_, ?_⟩
    · exact fun svc now newUuid node mask m' h => aclAdd_success hdb hgroup hname h
    · exact fun svc now newUuid node position mask m' h => aclInsert_success hdb hgroup hname h
    · intro token
      simp [AccessToken.matches, hstar]
    · intro x hx hne hnocycle svc now newUuid m' h
      rcases hnone with hnone | hall
      · exact groupSetParent_success hdb.toSchema hx hgroup hnone h
      · exact absurd (hall x hx hne) hnocycle

/-! ### The keywords as names -/

theorem succeeds_apply {inv : Invocation} {m : PermissionManager} (message : String)
    (h : (match inv.run m with
      | .ok _ s => s.output
      | .error _ _ => []) = [.success message]) : inv.Succeeds m (inv.apply m) := by
  refine ⟨message, ?_⟩
  have happly : inv.apply m = (final inv.handler ⟨m, []⟩).manager := rfl
  cases hr : inv.run m with
  | ok a s =>
    rw [hr] at h
    rw [happly, final_of_ok hr, ← h]
  | error e s =>
    rw [hr] at h
    cases h

/-- Groups with the two keywords as names, and one with another name. -/
def keywordInvs : List Invocation :=
  [⟨sampleServices, "t", "g1", .groupCreate "*"⟩, ⟨sampleServices, "t", "g2", .groupCreate "none"⟩,
    ⟨sampleServices, "t", "g3", .groupCreate "staff"⟩]

/-- `acl add a * group allow` allows `a` to everybody, and `group setparent staff none` leaves no parent. -/
theorem keyword_names :
    (∃ m', Invocation.Succeeds ⟨sampleServices, "t", "g4", .aclAdd "a" "*" .group .allow⟩
        (runCommands (.init Db.empty) keywordInvs) m' ∧ aclAt m'.db "a" = [⟨"*", 1, 1, "t"⟩]) ∧
      (∃ m', Invocation.Succeeds ⟨sampleServices, "t", "g4", .groupSetParent "staff" "none"⟩
        (runCommands (.init Db.empty) keywordInvs) m' ∧ m'.db.parentOf "g3" = none) ∧
      ¬ Addressable (runCommands (.init Db.empty) keywordInvs) ⟨"g1", "*", none⟩ ∧
      ¬ Addressable (runCommands (.init Db.empty) keywordInvs) ⟨"g2", "none", none⟩ := by
  have hadd : Invocation.Succeeds ⟨sampleServices, "t", "g4", .aclAdd "a" "*" .group .allow⟩
      (runCommands (.init Db.empty) keywordInvs) _ :=
    succeeds_apply "bakaperms.acl.appended" (by decide +kernel)
  have hset : Invocation.Succeeds ⟨sampleServices, "t", "g4", .groupSetParent "staff" "none"⟩
      (runCommands (.init Db.empty) keywordInvs) _ :=
    succeeds_apply "bakaperms.group.parent_cleared" (by decide +kernel)
  refine ⟨⟨_, hadd, by decide +kernel⟩, ⟨_, hset, by decide +kernel⟩, ?_, ?_⟩
  · intro h
    have hacl := congrFun (h.add sampleServices "t" "g4" "a" .allow _ hadd) "a"
    revert hacl
    decide +kernel
  · intro h
    have hparent := h.setparent ⟨"g3", "staff", none⟩ (by decide +kernel) (by decide) ?_ sampleServices "t" "g4" _ hset
    · revert hparent
      decide +kernel
    · rintro ⟨n, hn⟩
      cases n with
      | zero => exact absurd (Option.some.inj hn) (by decide)
      | succ n =>
        have hroot : (runCommands (.init Db.empty) keywordInvs).db.parentOf "g2" = none := by decide +kernel
        rw [ascend_succ, hroot] at hn
        cases hn

theorem addressable_iff_sample :
    Addressable (runCommands (.init Db.empty) keywordInvs) ⟨"g3", "staff", none⟩ ↔ "staff" ≠ "*" ∧
      ("staff" ≠ "none" ∨ ∀ x ∈ (runCommands (.init Db.empty) keywordInvs).db.groups, x.uuid ≠ "g3" →
        Reaches (runCommands (.init Db.empty) keywordInvs).db.parentOf "g3" x.uuid) :=
  @addressable_iff keywordInvs (by simp [keywordInvs]) _ rfl _ (by decide +kernel)

end BakaPerms
