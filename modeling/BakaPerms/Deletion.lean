import BakaPerms.Hierarchy
import BakaPerms.Renumbering

/-!
# Decisions after the deletion of a group

Deleting a group takes its ACEs out of every node.  The token of a player who is not in the group stays as it was
(`inToken_deleteGroup`), so the player's decision is the one that the ACEs of the other subjects make
(`resolvePermission_deleteGroup`).  It is the old decision as long as the node that governs keeps an ACE; a node
that loses all of them does not shield the less specific nodes any more, and their ACEs may allow what was denied
(`deleteGroup_widens`).
-/

namespace BakaPerms

open Chain Effect PermissionRepository PermissionResolver PermissionManager

/-! ### Tokens -/

theorem mem_groupUuids_deleteGroup {db db' : Db} {g : String} (h : db'.groups = withoutGroup db.groups g) {u : String} :
    u ∈ db'.groupUuids ↔ u ∈ db.groupUuids ∧ u ≠ g := by
  unfold Db.groupUuids
  rw [h, map_uuid_withoutGroup]
  simp

theorem parentOf_withoutGroup_of_ne {db : Db} (hdb : db.Schema) {db' : Db} (hdb' : db'.Schema) {g : String}
    (h : db'.groups = withoutGroup db.groups g) {u : String} (hu : u ≠ g) (hp : db.parentOf u ≠ some g) :
    db'.parentOf u = db.parentOf u := by
  refine Option.ext fun v => ⟨parentOf_withoutGroup hdb hdb' h, fun hv => ?_⟩
  obtain ⟨row, hrow, rfl, hparent⟩ := (Db.parentOf_eq_some hdb.groups_key).1 hv
  have hvg : v ≠ g := fun hvg => hp (hvg ▸ hv)
  refine (Db.parentOf_eq_some hdb'.groups_key).2 ⟨row, ?_, rfl, hparent⟩
  rw [h]
  refine Table.mem_rewrite.2 ⟨row, List.mem_filter.2 ⟨hrow, by simpa using hu⟩, ?_⟩
  rw [if_neg (by simpa [hparent] using hvg)]

/-- The identities of a player outside the group are the same ones after its deletion. -/
theorem inToken_deleteGroup {db db' : Db} (hdb : db.Schema) {g p : String} (hp : ¬ InToken db p g)
    (h : PermissionRepository.deleteGroup g db = .ok () db') (u : String) : InToken db' p u ↔ InToken db p u := by
  have hdb' := within_deleteGroup aclMoves_schema g (within_deleteGroupRow g) db hdb
  rw [final_of_ok h] at hdb'
  rcases deleteGroup_groups h with ⟨hg, hgroups, hplayers⟩ | ⟨-, hgroups, hplayers⟩
  swap
  · unfold InToken Db.groupUuids
    rw [hplayers, hgroups, parentOf_congr hgroups]
  have hgp : g ≠ p := fun hgp => hp (.inl hgp)
  have hmember : ∀ k, (⟨p, k⟩ : PlayerGroupRow) ∈ db.playerGroups → k ≠ g := by
    rintro k hk rfl
    exact hp (.inr ⟨k, hk, hg, 0, Nat.zero_le _, rfl⟩)
  -- a chain from a group of the player does not come to the deleted group within the bound
  have hchain : ∀ k, (⟨p, k⟩ : PlayerGroupRow) ∈ db.playerGroups → ∀ n ≤ 32,
      ascend db'.parentOf n k = ascend db.parentOf n k := by
    intro k hk n hn
    have hnot : ∀ j ≤ 32, ascend db.parentOf j k ≠ some g := fun j hj hjg => hp (.inr ⟨k, hk, hg, j, hj, hjg⟩)
    refine ascend_congr fun j hj w hw => parentOf_withoutGroup_of_ne hdb hdb' hgroups ?_ ?_
    · rintro rfl
      exact hnot j (by omega) hw
    · intro hwg
      refine hnot (j + 1) (by omega) ?_
      rw [ascend_succ', hw]
      exact hwg
  unfold InToken
  rw [hplayers]
  simp only [mem_groupUuids_deleteGroup hgroups, Table.delete, List.mem_filter]
  refine or_congr_right ⟨?_, ?_⟩
  · rintro ⟨k, ⟨hk, -⟩, ⟨hu, -⟩, n, hn, hasc⟩
    rw [hchain k hk n hn] at hasc
    exact ⟨k, hk, hu, n, hn, hasc⟩
  · rintro ⟨k, hk, hu, n, hn, hasc⟩
    refine ⟨k, ⟨hk, by simpa using hmember k hk⟩, ⟨hu, ?_⟩, n, hn, by rwa [hchain k hk n hn]⟩
    rintro rfl
    exact hp (.inr ⟨k, hk, hu, n, hn, hasc⟩)

/-! ### ACLs -/

/-- The database without the ACEs of a subject. -/
def withoutACEs (db : Db) (subjectUuid : String) : Db :=
  { db with permissions := Table.delete (fun row => row.subjectUuid == subjectUuid) db.permissions }

theorem withoutACEs_keys {db : Db} (hk : db.Keys) (g : String) : (withoutACEs db g).Keys :=
  { hk with permissions_key := Table.nodup_delete hk.permissions_key }

theorem withoutACEs_validMasks {db : Db} (hm : db.ValidMasks) (g : String) : (withoutACEs db g).ValidMasks :=
  fun row hrow => hm row (List.mem_of_mem_filter hrow)

theorem sortedRows_withoutACEs {db : Db} (hk : db.Keys) (g node : String) :
    sortedRows (withoutACEs db g) node = (sortedRows db node).filter fun row => !(row.subjectUuid == g) := by
  have hperm : (nodeRows (withoutACEs db g) node).Perm
      ((sortedRows db node).filter fun row => !(row.subjectUuid == g)) := by
    unfold nodeRows withoutACEs Table.delete
    rw [List.filter_comm]
    exact (List.perm_insertionSort _ _).symm.filter _
  exact Table.sort_eq_of_perm PermissionRow.orderIndex hperm ((pairwise_sortedRows hk.permissions_key node).filter _)

/-- The mask of a payload whose `access_mask` is valid. -/
def payloadMask (x : Payload) : AccessMask := if x.accessMask = AccessMask.deny.toInt then .deny else .allow

theorem rules_aclOf (db : Db) (node : String) :
    (aclOf db node).map ACE.rule = (aclAt db node).map fun x => (x.subjectUuid, payloadMask x) := by
  unfold aclOf aclAt sortedRows
  rw [List.map_map, List.map_map]
  rfl

/-- After the deletion a node has the ACEs of the other subjects, in their order. -/
theorem rules_deleteGroup {db db' : Db} (hdb : db.Sound) {g : String}
    (h : PermissionRepository.deleteGroup g db = .ok () db') (node : String) :
    (aclOf db' node).map ACE.rule = (aclOf (withoutACEs db g) node).map ACE.rule := by
  obtain ⟨acl, hacl⟩ := hdb.numbered
  have hacl' := deleteGroup_represents hacl h
  rw [rules_aclOf, hacl'.aclAt_eq, ← hacl.aclAt_eq]
  unfold aclOf aclAt
  dsimp only
  rw [sortedRows_withoutACEs hdb.toKeys, List.map_map, List.filter_map, List.map_map]
  unfold sortedRows
  congr 1
  refine List.filter_congr fun row _ => ?_
  by_cases hu : row.subjectUuid = g <;> simp [hu, PermissionRow.payload]

/-- The decision of a player outside the group is the one that the ACEs of the other subjects make. -/
theorem resolvePermission_deleteGroup {db db' : Db} (hdb : db.Sound) {g p m : String} (hp : ¬ InToken db p g)
    (hm : m ≠ "") (h : PermissionRepository.deleteGroup g db = .ok () db') :
    resolvePermission db' p m = resolvePermission (withoutACEs db g) p m := by
  obtain ⟨path, hpath, -, -, -⟩ := buildNodePath_eq_ok hm
  have hdb' : db'.Sound := by
    have hs := Call.sound_effect hdb (.deleteGroup g)
    simp only [Call.effect] at hs
    rwa [final_of_ok h] at hs
  rw [resolvePermission_eq hdb'.toKeys hdb'.masks hpath,
    resolvePermission_eq (withoutACEs_keys hdb.toKeys g) (withoutACEs_validMasks hdb.masks g) hpath]
  refine congrArg _ (resolvePath_congr (fun u => ?_) fun node _ => rules_deleteGroup hdb h node)
  rw [Bool.eq_iff_iff, contains_buildToken_player hdb'.groups_key,
    contains_buildToken_player (withoutACEs_keys hdb.toKeys g).groups_key]
  exact inToken_deleteGroup hdb.toSchema hp h u

/-- As long as the governing node keeps an ACE, the ACEs of a group do not count for a player outside of it. -/
theorem resolvePermission_withoutACEs {db : Db} (hdb : db.Sound) {g p m : String} (hg : g ≠ "*")
    (hp : ¬ InToken db p g) (hm : m ≠ "")
    (hkeeps : ∀ k, Governs db k m → ∃ row ∈ db.permissions, row.node = k ∧ row.subjectUuid ≠ g) :
    resolvePermission (withoutACEs db g) p m = resolvePermission db p m := by
  obtain ⟨path, hpath, hmem, hpairwise, -⟩ := buildNodePath_eq_ok hm
  have hk := withoutACEs_keys hdb.toKeys g
  rw [resolvePermission_eq hk (withoutACEs_validMasks hdb.masks g) hpath,
    resolvePermission_eq hdb.toKeys hdb.masks hpath, resolvePath_eq, resolvePath_eq]
  have hfind : path.find? (fun node => !(aclOf (withoutACEs db g) node).isEmpty) =
      path.find? fun node => !(aclOf db node).isEmpty := by
    refine Search.find?_eq_of_imp (fun k _ hne => ?_) fun k hfirst => ?_
    · obtain ⟨row, hrow, hnode⟩ := aclOf_isEmpty.1 hne
      exact aclOf_isEmpty.2 ⟨row, List.mem_of_mem_filter hrow, hnode⟩
    · obtain ⟨row, hrow, hnode, hsubject⟩ := hkeeps k ((find?_eq_some_iff_governs hmem hpairwise).1 hfirst)
      exact aclOf_isEmpty.2 ⟨row, List.mem_filter.2 ⟨hrow, by simpa using hsubject⟩, hnode⟩
  have hmatch : ∀ k, firstMatch (buildToken db .player p) (aclOf (withoutACEs db g) k) =
      firstMatch (buildToken db .player p) (aclOf db k) := by
    intro k
    rw [firstMatch_aclOf, firstMatch_aclOf, sortedRows_withoutACEs hdb.toKeys, List.find?_filter]
    congr 2
    funext row
    by_cases hsubject : row.subjectUuid = g
    · have hno : ¬ (buildToken db .player p).matches row.subjectUuid = true := by
        rw [matches_buildToken hdb.toKeys, Matches, hsubject]
        exact fun h => h.elim hg hp
      rw [hsubject] at hno
      simp [hsubject, hno]
    · simp [hsubject]
  have htoken : buildToken (withoutACEs db g) .player p = buildToken db .player p := rfl
  rw [hfind, htoken]
  simp only [hmatch]

/-- In a reachable database the deletion of a group leaves a denied player outside of it denied, provided that the
node that governs keeps an ACE; with or without that, the decision after it is the one that the ACEs of the other
subjects make. -/
theorem deny_deleteGroup {calls : List Call} {db : Db} (hdb : (runCalls (.init Db.empty) calls).db = db)
    {g p m : String} (hg : g ≠ "*") (hp : (buildToken db .player p).contains g = false) (hm : m ≠ "") :
    (resolvePermission db p m = .ok .deny →
        (∀ k, Governs db k m → ∃ row ∈ db.permissions, row.node = k ∧ row.subjectUuid ≠ g) →
        resolvePermission ((Call.deleteGroup g).effect db) p m = .ok .deny) ∧
      ∀ mask, resolvePermission ((Call.deleteGroup g).effect db) p m = .ok mask ↔
        Decides (withoutACEs db g) p m mask := by
  have hsound : db.Sound := hdb ▸ sound_runCalls Db.sound_empty calls
  have hout : ¬ InToken db p g := by
    rw [← contains_buildToken_player hsound.groups_key, hp]
    exact Bool.false_ne_true
  obtain ⟨db', h⟩ := deleteGroup_succeeds hsound.masks hsound.numbered_entries g
  have heffect : (Call.deleteGroup g).effect db = db' := final_of_ok h
  have hafter := resolvePermission_deleteGroup hsound hout hm h
  rw [heffect, hafter]
  constructor
  · intro hdeny hkeeps
    rw [resolvePermission_withoutACEs hsound hg hout hm hkeeps, hdeny]
  · intro mask
    obtain ⟨⟨mask', hmask', hdecides⟩, -⟩ := resolvePermission_eq_decides (withoutACEs_keys hsound.toKeys g)
      (withoutACEs_validMasks hsound.masks g) p hm
    rw [hmask', hdecides, Except.ok.injEq]
    exact eq_comm

/-- A group is allowed `m`, and everybody everything that no node denies; the player is in no group. -/
def grantCalls : List Call :=
  [.createGroup "g" "staff" none, .appendACE "t" "m" "g" 1 .allow, .appendACE "t" "*" "*" 0 .allow]

/-- `m` loses its only ACE with the group, and the player who was denied `m` is allowed it by `*`. -/
theorem deleteGroup_widens :
    "g" ∈ (runCalls (.init Db.empty) grantCalls).db.groupUuids ∧
      (buildToken (runCalls (.init Db.empty) grantCalls).db .player "p").contains "g" = false ∧
      resolvePermission (runCalls (.init Db.empty) grantCalls).db "p" "m" = .ok .deny ∧
      resolvePermission ((Call.deleteGroup "g").effect (runCalls (.init Db.empty) grantCalls).db) "p" "m" =
        .ok .allow := by
  decide +kernel

theorem deny_deleteGroup_sample :
    resolvePermission ((Call.deleteGroup "g").effect (runCalls (.init Db.empty)
      (grantCalls ++ [.appendACE "t" "m" "q" 0 .allow])).db) "p" "m" = .ok .deny := by
  have hdb : (runCalls (.init Db.empty) (grantCalls ++ [.appendACE "t" "m" "q" 0 .allow])).db =
      ⟨[⟨"g", "staff", none⟩], [], [⟨"m", 0, "g", 1, 1, "t"⟩, ⟨"*", 0, "*", 0, 1, "t"⟩, ⟨"m", 1, "q", 0, 1, "t"⟩]⟩ := by
    decide +kernel
  rw [hdb]
  refine (deny_deleteGroup hdb (by decide) (by decide +kernel) (by decide)).1 (by decide +kernel) fun k hk => ?_
  obtain ⟨⟨-, row, hrow, rfl⟩, -⟩ := hk
  simp only [List.mem_cons, List.not_mem_nil, or_false] at hrow
  rcases hrow with rfl | rfl | rfl <;> simp

end BakaPerms
