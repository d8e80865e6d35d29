import BakaPerms.Trace

/-!
# The check of a group previews its members

The token of a player whose only group is `g` holds what the token of `g` holds, and the player.  The two walks read
of the tokens which of the subjects on the path they contain (`tracePath_congr`), so where no ACE on the path is about
the player they visit the same nodes, match the same ACEs and decide the same (`groupCheck_previews_member`).
-/

namespace BakaPerms

open Chain PermissionRepository PermissionResolver PermissionManager

/-- The nodes that a trace visits, each with the index of the ACE that matched. -/
def PermissionTrace.visits (trace : PermissionTrace) : List (String × Int) :=
  trace.steps.map fun step => (step.node, step.matchedAceIdx)

namespace PermissionResolver

variable {token token' : AccessToken}

/-- What the trace of an ACL reads of the token. -/
theorem traceACL_congr {acl : List ACE}
    (h : ∀ ace ∈ acl, token.matches ace.subjectUuid = token'.matches ace.subjectUuid) (step : TraceStep) (i : Nat) :
    (traceACL token step i acl).map (fun r => (r.1.node, r.1.matchedAceIdx, r.2)) =
      (traceACL token' step i acl).map fun r => (r.1.node, r.1.matchedAceIdx, r.2) := by
  induction acl generalizing i with
  | nil => rfl
  | cons ace acl ih =>
    have hrest := ih (fun ace' hace' => h ace' (List.mem_cons_of_mem _ hace')) (i + 1)
    have hhead := h ace (List.mem_cons_self ..)
    unfold traceACL
    by_cases hw : ace.subjectUuid = "*"
    · simp only [hw, ↓reduceIte]
    · have hfind : (token.find ace.subjectUuid).isSome = (token'.find ace.subjectUuid).isSome := by
        simpa [AccessToken.matches, hw, AccessToken.find_isSome] using hhead
      simp only [hw, ↓reduceIte]
      cases hf : token.find ace.subjectUuid with
      | some entry =>
        obtain ⟨entry', hf'⟩ := Option.isSome_iff_exists.1 (hfind.symm.trans (by rw [hf]; rfl))
        rw [hf']
        rfl
      | none =>
        have hf' : token'.find ace.subjectUuid = none := by
          rw [← Option.isNone_iff_eq_none, ← Option.not_isSome, ← hfind, hf]
          rfl
        rw [hf']
        exact hrest

theorem tracePath_congr {getNodeACL : ACLProvider} {path : List String}
    (h : ∀ node ∈ path, ∀ ace ∈ getNodeACL node, token.matches ace.subjectUuid = token'.matches ace.subjectUuid)
    {trace trace' : PermissionTrace} (hvisits : trace.visits = trace'.visits) :
    (tracePath token getNodeACL trace path).visits = (tracePath token' getNodeACL trace' path).visits ∧
      (tracePath token getNodeACL trace path).finalResult = (tracePath token' getNodeACL trace' path).finalResult := by
  induction path generalizing trace trace' with
  | nil => exact ⟨hvisits, rfl⟩
  | cons node path ih =>
    have hvisits' : ∀ step step' : TraceStep, step.node = step'.node → step.matchedAceIdx = step'.matchedAceIdx →
        ∀ result result', ({ trace with steps := trace.steps ++ [step], finalResult := result } :
          PermissionTrace).visits =
          ({ trace' with steps := trace'.steps ++ [step'], finalResult := result' } : PermissionTrace).visits := by
      intro step step' hnode hidx _ _
      have happend := congrArg (· ++ [(step.node, step.matchedAceIdx)]) hvisits
      simpa [PermissionTrace.visits, hnode, hidx] using happend
    unfold tracePath
    by_cases hempty : (getNodeACL node).isEmpty
    · simp only [hempty, ↓reduceIte]
      exact ih (fun k hk => h k (List.mem_cons_of_mem _ hk)) (hvisits' _ _ rfl rfl _ _)
    · simp only [hempty]
      have hacl := traceACL_congr (h node (List.mem_cons_self ..))
        { node, aclFound := true, acl := getNodeACL node } 0
      cases hr : traceACL token { node, aclFound := true, acl := getNodeACL node } 0 (getNodeACL node) with
      | none =>
        rw [hr, Option.map_none, eq_comm, Option.map_eq_none_iff] at hacl
        simp only [hacl]
        exact ⟨hvisits' _ _ rfl rfl _ _, rfl⟩
      | some r =>
        rw [hr, Option.map_some, eq_comm, Option.map_eq_some_iff] at hacl
        obtain ⟨r', hr', heq⟩ := hacl
        simp only [Prod.mk.injEq] at heq
        simp only [hr']
        exact ⟨hvisits' _ _ heq.1.symm heq.2.1.symm _ _, heq.2.2.symm⟩

end PermissionResolver

/-! ### The subjects that the batched query returns -/

private theorem subject_of_rowToACE {row : PermissionRow} {ace : ACE} (h : rowToACE row = .ok ace) :
    ace.subjectUuid = row.subjectUuid := by
  unfold rowToACE at h
  cases hm : toAccessMask row.accessMask with
  | error e =>
    rw [hm] at h
    cases h
  | ok mask =>
    rw [hm] at h
    cases h
    rfl

private theorem subject_of_foldlM_pushACE {rows : List PermissionRow} {result result' : AclMap}
    (h : rows.foldlM pushACE result = .ok result') {node : String} {ace : ACE}
    (hace : ace ∈ batchProvider result' node) :
    ace ∈ batchProvider result node ∨ ∃ row ∈ rows, row.node = node ∧ row.subjectUuid = ace.subjectUuid := by
  induction rows generalizing result with
  | nil =>
    cases h
    exact .inl hace
  | cons row rows ih =>
    rw [List.foldlM_cons, pushACE] at h
    cases hr : rowToACE row with
    | error e =>
      rw [hr] at h
      cases h
    | ok ace₁ =>
      rw [hr] at h
      rcases ih h with hmem | ⟨row', hrow', hnode, hsub⟩
      · by_cases hn : node = row.node
        · subst hn
          simp only [batchProvider, Function.update_self, Option.getD_some, List.mem_append,
            List.mem_singleton] at hmem
          refine hmem.imp_right fun heq => ⟨row, List.mem_cons_self .., rfl, ?_⟩
          rw [heq, subject_of_rowToACE hr]
        · rw [batchProvider, Function.update_of_ne hn] at hmem
          exact .inl hmem
      · exact .inr ⟨row', List.mem_cons_of_mem _ hrow', hnode, hsub⟩

/-- Every ACE of the batched query comes from a row of its node. -/
theorem subject_of_getNodeACLBatch {db : Db} {nodes : List String} {aclMap : AclMap}
    (h : getNodeACLBatch db nodes = .ok aclMap) {node : String} {ace : ACE}
    (hace : ace ∈ batchProvider aclMap node) :
    ∃ row ∈ db.permissions, row.node = node ∧ row.subjectUuid = ace.subjectUuid := by
  unfold getNodeACLBatch at h
  split at h
  · cases h
    cases hace
  · rcases subject_of_foldlM_pushACE h hace with hnil | ⟨row, hrow, hnode⟩
    · cases hnil
    · exact ⟨row, List.mem_of_mem_filter ((List.mem_insertionSort _).1 hrow), hnode⟩

/-! ### The two subjects -/

/-- The tokens of a group and of a player whose only group it is differ in the player. -/
theorem matches_buildToken_member {db : Db} (h : db.Schema) {g p : String}
    (hg : ∀ g', (⟨p, g'⟩ : PlayerGroupRow) ∈ db.playerGroups ↔ g' = g) {u : String} (hu : u ≠ p) :
    (buildToken db .group g).matches u = (buildToken db .player p).matches u := by
  have hmem : g ∈ db.groupUuids := h.membership_exists _ ((hg g).2 rfl)
  have hcontains : (buildToken db .group g).contains u = (buildToken db .player p).contains u := by
    rw [Bool.eq_iff_iff, contains_buildToken_group h.groups_key, contains_buildToken_player h.groups_key, InToken]
    simp only [hg, hmem, hu, true_and, false_or, exists_eq_left]
  unfold AccessToken.matches
  rw [hcontains]

/-- What the check of a group shows is what a member of this group alone gets, as long as no ACE on the path is about
the player: the decision, the nodes visited and the ACEs matched.  With masks that decode there is a decision. -/
theorem groupCheck_previews_member {db : Db} (h : db.Schema) {g p m : String}
    (hg : ∀ g', (⟨p, g'⟩ : PlayerGroupRow) ∈ db.playerGroups ↔ g' = g)
    (hno : ∀ path, buildNodePath m = .ok path → ∀ row ∈ db.permissions, row.node ∈ path → row.subjectUuid ≠ p) :
    (tracePermission db .group g m).map PermissionTrace.finalResult = resolvePermission db p m ∧
      (tracePermission db .player p m).map PermissionTrace.finalResult = resolvePermission db p m ∧
      (tracePermission db .group g m).map PermissionTrace.visits =
        (tracePermission db .player p m).map PermissionTrace.visits ∧
      (m ≠ "" → db.ValidMasks → ∃ mask, resolvePermission db p m = .ok mask) := by
  have hdecided : m ≠ "" → db.ValidMasks → ∃ mask, resolvePermission db p m = .ok mask := by
    intro hne hm
    obtain ⟨path, hpath, -⟩ := buildNodePath_eq_ok hne
    exact ⟨_, resolvePermission_eq h.toKeys hm hpath⟩
  rw [← and_assoc, ← and_assoc]
  refine ⟨?_, hdecided⟩
  unfold tracePermission resolvePermission resolveWithTrace resolve
  cases hpath : buildNodePath m with
  | error e => exact ⟨⟨rfl, rfl⟩, rfl⟩
  | ok path =>
    cases hbatch : getNodeACLBatch db path with
    | error e => simp only [bind, Except.bind, hbatch, Except.map, and_self]
    | ok aclMap =>
      have hmatches : ∀ node ∈ path, ∀ ace ∈ batchProvider aclMap node,
          (buildToken db .group g).matches ace.subjectUuid = (buildToken db .player p).matches ace.subjectUuid := by
        intro node hnode ace hace
        obtain ⟨row, hrow, rfl, hsub⟩ := subject_of_getNodeACLBatch hbatch hace
        exact matches_buildToken_member h hg (hsub ▸ hno path hpath row hrow hnode)
      obtain ⟨hvisits, hresult⟩ := @tracePath_congr _ _ _ _ hmatches
        { requestedNode := m, token := buildToken db .group g, nodePath := path }
        { requestedNode := m, token := buildToken db .player p, nodePath := path } rfl
      simp only [bind, Except.bind, hbatch, pure, Except.pure, Except.map]
      rw [hresult, finalResult_tracePath]
      exact ⟨⟨rfl, rfl⟩, congrArg Except.ok hvisits⟩

theorem groupCheck_previews_member_sample :
    (tracePermission sampleDb .group "g" "a.c").map PermissionTrace.finalResult =
      resolvePermission sampleDb "p" "a.c" := by
  have hschema : sampleDb.Schema := { sampleDb_keys with
    parent_exists := by simp [sampleDb, Db.groupUuids]
    membership_exists := by simp [sampleDb, Db.groupUuids] }
  refine (groupCheck_previews_member hschema (fun g' => by simp [sampleDb]) fun _ _ row hrow _ => ?_).1
  simp only [sampleDb, List.mem_cons, List.not_mem_nil, or_false] at hrow
  rcases hrow with rfl | rfl | rfl <;> decide

end BakaPerms
