import BakaPerms.Trace

/-!
# Which nodes a decision depends on

Two states that differ in the ACL of one node `k` only (`AgreeOff`).  The decision on `m` is made at the node that
governs `m`, so it can only differ where `k` covers `m` and no more specific node with an ACL stands in front of it:
outside the subtree of `k`, and behind such a node (`Shielded`), the same node governs in both states and has the
same ACL (`decision_local`).
-/

namespace BakaPerms

open Chain PermissionRepository PermissionResolver PermissionManager

/-- The states have the same rows, but for the permissions of the node `k`. -/
structure AgreeOff (k : String) (db db' : Db) : Prop where
  groups : ∀ row, row ∈ db.groups ↔ row ∈ db'.groups
  playerGroups : ∀ row, row ∈ db.playerGroups ↔ row ∈ db'.playerGroups
  permissions : ∀ row, row.node ≠ k → (row ∈ db.permissions ↔ row ∈ db'.permissions)

/-- A more specific node than `k` on the path of `m` has an ACE. -/
def Shielded (db : Db) (k m : String) : Prop :=
  Covers k m ∧ ∃ k', Covers k' m ∧ MoreSpecific k' k ∧ ∃ row ∈ db.permissions, row.node = k'

namespace AgreeOff

variable {k : String} {db db' : Db}

theorem symm (h : AgreeOff k db db') : AgreeOff k db' db where
  groups row := (h.groups row).symm
  playerGroups row := (h.playerGroups row).symm
  permissions row hrow := (h.permissions row hrow).symm

theorem hasRow (h : AgreeOff k db db') {node : String} (hne : node ≠ k) :
    (∃ row ∈ db.permissions, row.node = node) ↔ ∃ row ∈ db'.permissions, row.node = node := by
  refine exists_congr fun row => and_congr_left fun hnode => h.permissions row ?_
  rwa [hnode]

theorem mem_groupUuids (h : AgreeOff k db db') {uuid : String} : uuid ∈ db.groupUuids ↔ uuid ∈ db'.groupUuids := by
  unfold Db.groupUuids
  rw [List.mem_map, List.mem_map]
  exact exists_congr fun row => and_congr_left fun _ => h.groups row

theorem parentOf_eq (h : AgreeOff k db db') (hk : db.groupUuids.Nodup) (hk' : db'.groupUuids.Nodup) :
    db.parentOf = db'.parentOf := by
  funext uuid
  refine Option.ext fun parent => ?_
  rw [Db.parentOf_eq_some hk, Db.parentOf_eq_some hk']
  exact exists_congr fun row => and_congr_left fun _ => h.groups row

/-- The subjects have the same identities in both states. -/
theorem contains_buildToken (h : AgreeOff k db db') (hk : db.groupUuids.Nodup) (hk' : db'.groupUuids.Nodup)
    (kind : SubjectKind) (s u : String) :
    (buildToken db kind s).contains u = (buildToken db' kind s).contains u := by
  rw [Bool.eq_iff_iff]
  cases kind with
  | player =>
    rw [contains_buildToken_player hk, contains_buildToken_player hk', InToken, InToken, h.parentOf_eq hk hk']
    simp only [h.playerGroups, h.mem_groupUuids]
  | group =>
    rw [contains_buildToken_group hk, contains_buildToken_group hk', h.parentOf_eq hk hk']
    simp only [h.mem_groupUuids]

theorem sortedRows_eq (h : AgreeOff k db db') (hk : (db.permissions.map PermissionRow.key).Nodup)
    (hk' : (db'.permissions.map PermissionRow.key).Nodup) {node : String} (hne : node ≠ k) :
    sortedRows db node = sortedRows db' node := by
  have hmem : ∀ row, row ∈ nodeRows db node ↔ row ∈ sortedRows db' node := by
    intro row
    rw [mem_sortedRows, nodeRows, List.mem_filter, beq_iff_eq]
    refine and_congr_left fun hnode => h.permissions row ?_
    rwa [hnode]
  have hsorted := pairwise_sortedRows hk' node
  have hperm : (nodeRows db node).Perm (sortedRows db' node) :=
    (List.perm_ext_iff_of_nodup (hk.of_map.filter _) (hsorted.imp fun hlt heq => hlt.ne (congrArg _ heq))).2 hmem
  exact Table.sort_eq_of_perm PermissionRow.orderIndex hperm hsorted

theorem governs (h : AgreeOff k db db') {m g : String} (hgov : Governs db g m) (hne : g ≠ k)
    (hlt : Covers k m → MoreSpecific g k) : Governs db' g m := by
  refine ⟨⟨hgov.1.1, (h.hasRow hne).1 hgov.1.2⟩, fun k' hcov hrow hk' => ?_⟩
  by_cases heq : k' = k
  · exact heq ▸ hlt (heq ▸ hcov)
  · exact hgov.2 k' hcov ((h.hasRow heq).2 hrow) hk'

theorem shielded (h : AgreeOff k db db') {m : String} (hs : Shielded db k m) : Shielded db' k m := by
  obtain ⟨hcov, k', hcov', hlt, hrow⟩ := hs
  exact ⟨hcov, k', hcov', hlt, (h.hasRow hlt.ne).1 hrow⟩

end AgreeOff

/-- Outside the subtree of `k` and behind a shield the governing node is not `k`, and no node behind `k`. -/
theorem Governs.before {db : Db} {k m g : String} (hgov : Governs db g m) (h : ¬ Covers k m ∨ Shielded db k m) :
    g ≠ k ∧ (Covers k m → MoreSpecific g k) := by
  rcases h with hno | ⟨hcov, k', hcov', hlt, hrow⟩
  · exact ⟨fun heq => hno (heq ▸ hgov.1.1), fun hcov => absurd hcov hno⟩
  · have hbefore : MoreSpecific g k := by
      by_cases heq : k' = g
      · exact heq ▸ hlt
      · exact (hgov.2 k' hcov' hrow heq).trans hlt
    exact ⟨hbefore.ne, fun _ => hbefore⟩

theorem AgreeOff.governs_iff {k : String} {db db' : Db} (h : AgreeOff k db db') {m : String}
    (hm : ¬ Covers k m ∨ Shielded db k m) (g : String) : Governs db g m ↔ Governs db' g m := by
  have hm' : ¬ Covers k m ∨ Shielded db' k m := hm.imp_right h.shielded
  constructor
  · intro hgov
    exact h.governs hgov (hgov.before hm).1 (hgov.before hm).2
  · intro hgov
    exact h.symm.governs hgov (hgov.before hm').1 (hgov.before hm').2

/-- The decision depends on the token and on the ACL of the node that governs. -/
theorem resolvePath_eq_of_governs {db db' : Db} {token token' : AccessToken} {m : String} {path : List String}
    (hmem : ∀ k, k ∈ path ↔ Covers k m) (hpath : path.Pairwise MoreSpecific)
    (htoken : ∀ u, token.contains u = token'.contains u) (hgov : ∀ g, Governs db g m ↔ Governs db' g m)
    (hacl : ∀ g, Governs db g m → aclOf db g = aclOf db' g) :
    resolvePath token (aclOf db) path = resolvePath token' (aclOf db') path := by
  have hfind : (path.find? fun node => !(aclOf db node).isEmpty) =
      path.find? fun node => !(aclOf db' node).isEmpty := by
    refine Option.ext fun g => ?_
    rw [find?_eq_some_iff_governs hmem hpath, find?_eq_some_iff_governs hmem hpath, hgov]
  rw [resolvePath_eq, resolvePath_eq, ← hfind]
  cases hg : path.find? fun node => !(aclOf db node).isEmpty with
  | none => rfl
  | some g =>
    rw [Option.bind_some, Option.bind_some, hacl g ((find?_eq_some_iff_governs hmem hpath).1 hg)]
    exact congrArg (Option.getD · _) (firstMatch_congr htoken rfl)

/-- The mask that `tracePermission` ends with. -/
def tracedDecision (db : Db) (kind : SubjectKind) (uuid node : String) : Except Exn AccessMask :=
  (tracePermission db kind uuid node).map PermissionTrace.finalResult

theorem tracedDecision_eq {db : Db} (hk : db.Keys) (hm : db.ValidMasks) (kind : SubjectKind) (uuid : String)
    {m : String} {path : List String} (hpath : buildNodePath m = .ok path) :
    tracedDecision db kind uuid m = .ok (resolvePath (buildToken db kind uuid) (aclOf db) path) := by
  obtain ⟨aclMap, hbatch, hresolve⟩ := resolvePath_batch hk hm (buildToken db kind uuid) path
  unfold tracedDecision tracePermission resolveWithTrace
  simp only [hpath, hbatch, bind, Except.bind, pure, Except.pure, Except.map]
  rw [finalResult_tracePath, hresolve]

/-- A change of the ACL of `k` leaves the decisions alone for every node that `k` does not cover, and for every node
that `k` covers with a more specific ACL in front of it. -/
theorem decision_local {k : String} {db db' : Db} (hk : db.Keys) (hm : db.ValidMasks) (hk' : db'.Keys)
    (hm' : db'.ValidMasks) (h : AgreeOff k db db') {m : String} (hne : m ≠ "")
    (hnode : (k ≠ "*" ∧ k ≠ m ∧ ¬ Under m k) ∨ Shielded db k m) :
    (∀ p, ∃ mask, resolvePermission db p m = .ok mask ∧ resolvePermission db' p m = .ok mask) ∧
      ∀ kind uuid, ∃ mask, tracedDecision db kind uuid m = .ok mask ∧ tracedDecision db' kind uuid m = .ok mask := by
  have hoff : ¬ Covers k m ∨ Shielded db k m := by
    refine hnode.imp_left ?_
    rintro ⟨hw, hkm, hunder⟩ (heq | hcov | heq)
    · exact hkm heq
    · exact hunder hcov
    · exact hw heq
  obtain ⟨path, hpath, hmem, hpairwise, -⟩ := buildNodePath_eq_ok hne
  have hpaths : ∀ kind uuid, resolvePath (buildToken db kind uuid) (aclOf db) path =
      resolvePath (buildToken db' kind uuid) (aclOf db') path := by
    intro kind uuid
    refine resolvePath_eq_of_governs hmem hpairwise
      (h.contains_buildToken hk.groups_key hk'.groups_key kind uuid) (h.governs_iff hoff) fun g hgov => ?_
    unfold aclOf
    rw [h.sortedRows_eq hk.permissions_key hk'.permissions_key (hgov.before hoff).1]
  constructor
  · intro p
    refine ⟨_, resolvePermission_eq hk hm hpath, ?_⟩
    rw [resolvePermission_eq hk' hm' hpath, hpaths]
  · intro kind uuid
    refine ⟨_, tracedDecision_eq hk hm kind uuid hpath, ?_⟩
    rw [tracedDecision_eq hk' hm' kind uuid hpath, hpaths]

/-- `sampleDb` without the group's ACE on `a`. -/
def changedDb : Db := { sampleDb with permissions := [⟨"a", 1, "*", 0, 0, "t"⟩, ⟨"a.b", 0, "q", 0, 1, "t"⟩] }

/-- The ACL of `a.b` stands before that of `a`, which the change is about. -/
theorem decision_local_sample :
    ∃ mask, resolvePermission sampleDb "p" "a.b.c" = .ok mask ∧
      resolvePermission changedDb "p" "a.b.c" = .ok mask := by
  have hkeys : changedDb.Keys := ⟨by decide, by decide, by decide, by decide⟩
  have hmasks : changedDb.ValidMasks := fun row hrow => sampleDb_validMasks row (by
    simp only [changedDb, sampleDb, List.mem_cons, List.not_mem_nil, or_false] at hrow ⊢
    tauto)
  have hagree : AgreeOff "a" sampleDb changedDb := by
    refine ⟨fun _ => Iff.rfl, fun _ => Iff.rfl, fun row hrow => ?_⟩
    have hne : row ≠ ⟨"a", 0, "h", 1, 1, "t"⟩ := fun heq => hrow (congrArg PermissionRow.node heq)
    simp [sampleDb, changedDb, hne]
  have hshield : Shielded sampleDb "a" "a.b.c" := by
    refine ⟨.inr (.inl ⟨"b.c", by decide⟩), "a.b", .inr (.inl ⟨"c", by decide⟩), ⟨by decide, .inr (by decide)⟩,
      ⟨"a.b", 0, "q", 0, 1, "t"⟩, by decide, rfl⟩
  exact (decision_local sampleDb_keys sampleDb_validMasks hkeys hmasks hagree (by decide) (.inr hshield)).1 "p"

example : resolvePermission sampleDb "p" "a.c" = .ok .allow ∧ resolvePermission changedDb "p" "a.c" = .ok .deny := by
  decide +kernel

end BakaPerms
