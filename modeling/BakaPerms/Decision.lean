import BakaPerms.Lib.Search
import BakaPerms.NodePath
import BakaPerms.Token

/-!
# Decisions

What `resolvePermission` decides, without its queries and loops.  Of the nodes that cover the requested node, the
most specific one with a row in `permissions` governs; its row with the least `order_index` among those that speak
about the token decides, and nothing but that row does (`Decides`).  The batched ACL query returns the ACLs that
looking the nodes up one by one returns (`getNodeACLBatch_eq`), both nested loops are a search for a first hit
(`resolvePath_eq`), and so `resolvePermission` computes exactly what `Decides` says
(`resolvePermission_eq_decides`).
-/

namespace BakaPerms

open Chain PermissionRepository PermissionResolver PermissionManager

/-! ### ACLs -/

/-- The mask of a row whose `access_mask` is valid. -/
def PermissionRow.mask (row : PermissionRow) : AccessMask :=
  if row.accessMask = AccessMask.deny.toInt then .deny else .allow

/-- `rowToACE` of a row whose `access_mask` is valid. -/
def PermissionRow.ace (row : PermissionRow) : ACE := ⟨row.orderIndex, row.subjectUuid, row.subjectType, row.mask⟩

theorem PermissionRow.mask_eq_iff {row : PermissionRow} (h : ∃ mask : AccessMask, row.accessMask = mask.toInt)
    {mask : AccessMask} : row.mask = mask ↔ row.accessMask = mask.toInt := by
  obtain ⟨mask', h⟩ := h
  unfold PermissionRow.mask
  rw [h]
  cases mask' <;> cases mask <;> decide

theorem rowToACE_eq_ok {row : PermissionRow} (h : ∃ mask : AccessMask, row.accessMask = mask.toInt) :
    rowToACE row = .ok row.ace := by
  obtain ⟨mask, h⟩ := h
  have hmask : toAccessMask row.accessMask = .ok mask := by
    rw [h]
    cases mask <;> rfl
  have hrow : row.mask = mask := (PermissionRow.mask_eq_iff ⟨mask, h⟩).2 h
  unfold rowToACE PermissionRow.ace
  rw [hmask, hrow]
  rfl

theorem mapM_rowToACE {rows : List PermissionRow}
    (h : ∀ row ∈ rows, ∃ mask : AccessMask, row.accessMask = mask.toInt) :
    rows.mapM rowToACE = .ok (rows.map PermissionRow.ace) := by
  induction rows with
  | nil => rfl
  | cons row rows ih =>
    rw [List.mapM_cons, rowToACE_eq_ok (h row (List.mem_cons_self ..)),
      ih fun row' hrow' => h row' (List.mem_cons_of_mem _ hrow')]
    rfl

/-- The rows of a node by `order_index`. -/
def sortedRows (db : Db) (node : String) : List PermissionRow :=
  (nodeRows db node).insertionSort fun a b => a.orderIndex ≤ b.orderIndex

theorem mem_sortedRows {db : Db} {node : String} {row : PermissionRow} :
    row ∈ sortedRows db node ↔ row ∈ db.permissions ∧ row.node = node := by
  simp [sortedRows, nodeRows]

theorem getNodeACL_eq {db : Db} (hm : db.ValidMasks) (node : String) :
    getNodeACL db node = .ok ((sortedRows db node).map PermissionRow.ace) :=
  mapM_rowToACE fun row hrow => hm row (mem_sortedRows.1 hrow).1

theorem nodup_orderIndex {db : Db} (hk : (db.permissions.map PermissionRow.key).Nodup) (node : String) :
    ((nodeRows db node).map PermissionRow.orderIndex).Nodup := by
  have hrows : ((nodeRows db node).map PermissionRow.key).Nodup := hk.sublist (List.filter_sublist.map _)
  refine List.Nodup.of_map (fun i => (node, i)) ?_
  rw [List.map_map]
  convert hrows using 1
  refine List.map_congr_left fun row hrow => ?_
  have hnode : row.node = node := by simpa using (List.mem_filter.1 hrow).2
  simp [PermissionRow.key, hnode]

theorem pairwise_sortedRows {db : Db} (hk : (db.permissions.map PermissionRow.key).Nodup) (node : String) :
    (sortedRows db node).Pairwise fun a b => a.orderIndex < b.orderIndex :=
  Table.pairwise_sort PermissionRow.orderIndex (nodup_orderIndex hk node)

/-! ### The batched query -/

/-- The loop of `getNodeACLBatch` groups the rows by their node and keeps their order. -/
theorem foldlM_pushACE {rows : List PermissionRow}
    (h : ∀ row ∈ rows, ∃ mask : AccessMask, row.accessMask = mask.toInt) (result : AclMap) :
    ∃ result', rows.foldlM pushACE result = .ok result' ∧ ∀ node, (result' node).getD [] =
      (result node).getD [] ++ (rows.filter fun row => row.node == node).map PermissionRow.ace := by
  induction rows generalizing result with
  | nil => exact ⟨result, rfl, by simp⟩
  | cons row rows ih =>
    have hpush : pushACE result row =
        .ok (Function.update result row.node (some ((result row.node).getD [] ++ [row.ace]))) := by
      unfold pushACE
      rw [rowToACE_eq_ok (h row (List.mem_cons_self ..))]
      rfl
    obtain ⟨result', hfold, hget⟩ := ih (fun row' hrow' => h row' (List.mem_cons_of_mem _ hrow'))
      (Function.update result row.node (some ((result row.node).getD [] ++ [row.ace])))
    refine ⟨result', ?_, fun node => ?_⟩
    · rw [List.foldlM_cons, hpush]
      exact hfold
    · rw [hget node]
      by_cases hnode : row.node = node
      · subst hnode
        simp
      · rw [Function.update_of_ne (Ne.symm hnode), List.filter_cons_of_neg (by simpa using hnode)]

/-- The batched query finds the ACL of every node as `getNodeACL` does. -/
theorem getNodeACLBatch_eq {db : Db} (hk : (db.permissions.map PermissionRow.key).Nodup) (hm : db.ValidMasks)
    (nodes : List String) :
    ∃ aclMap, getNodeACLBatch db nodes = .ok aclMap ∧
      ∀ node ∈ nodes, batchProvider aclMap node = (sortedRows db node).map PermissionRow.ace := by
  unfold getNodeACLBatch
  by_cases hn : nodes = []
  · exact ⟨_, if_pos hn, by simp [hn]⟩
  rw [if_neg hn]
  have hkey : ((db.permissions.filter fun row => decide (row.node ∈ nodes)).map fun row => toLex row.key).Nodup :=
    hk.sublist (List.filter_sublist.map _)
  have hsort := Table.pairwise_sort _ hkey
  have hvalid : ∀ row ∈ (db.permissions.filter fun row => decide (row.node ∈ nodes)).insertionSort
      (fun a b => toLex a.key ≤ toLex b.key), ∃ mask : AccessMask, row.accessMask = mask.toInt :=
    fun row hrow => hm row (List.mem_of_mem_filter ((List.mem_insertionSort _).1 hrow))
  obtain ⟨aclMap, hfold, hget⟩ := foldlM_pushACE hvalid fun _ => none
  refine ⟨aclMap, hfold, fun node hnode => ?_⟩
  refine (hget node).trans ?_
  -- the rows of one node are sorted by `order_index`, as the second column of the sorting key
  have hperm : (nodeRows db node).Perm (((db.permissions.filter fun row => decide (row.node ∈ nodes)).insertionSort
      (fun a b => toLex a.key ≤ toLex b.key)).filter fun row => row.node == node) := by
    refine List.Perm.trans (List.Perm.of_eq ?_) ((List.perm_insertionSort _ _).symm.filter _)
    unfold nodeRows
    rw [List.filter_filter]
    refine List.filter_congr fun row _ => ?_
    by_cases h : row.node = node <;> simp [h, hnode]
  have hlt := (hsort.filter fun row => row.node == node).imp_of_mem fun {a b} ha hb hab => by
    have hna : a.node = node := by simpa using (List.mem_filter.1 ha).2
    have hnb : b.node = node := by simpa using (List.mem_filter.1 hb).2
    rcases Prod.Lex.toLex_lt_toLex.1 hab with h | ⟨-, h⟩
    · exact absurd h (by simp [PermissionRow.key, hna, hnb])
    · exact h
  rw [Option.getD_none, List.nil_append]
  exact congrArg _ (Table.sort_eq_of_perm PermissionRow.orderIndex hperm hlt).symm

/-! ### The search for the deciding entry -/

/-- The entry speaks about the token. -/
def AccessToken.matches (token : AccessToken) (subjectUuid : String) : Bool :=
  decide (subjectUuid = "*") || token.contains subjectUuid

theorem firstMatch_eq (token : AccessToken) (acl : List ACE) :
    firstMatch token acl = (acl.find? fun ace => token.matches ace.subjectUuid).map ACE.mask := by
  induction acl with
  | nil => rfl
  | cons ace acl ih =>
    unfold firstMatch
    by_cases h : ace.subjectUuid = "*" ∨ token.contains ace.subjectUuid
    · have hm : token.matches ace.subjectUuid = true := by simpa [AccessToken.matches] using h
      simp [h, hm]
    · have hm : ¬ token.matches ace.subjectUuid = true := by simpa [AccessToken.matches] using h
      simp [h, hm, ih]

/-- The first node with an ACL is searched for its first entry that speaks about the token. -/
theorem resolvePath_eq (token : AccessToken) (getNodeACL : ACLProvider) (path : List String) :
    resolvePath token getNodeACL path =
      ((path.find? fun node => !(getNodeACL node).isEmpty).bind fun node =>
        firstMatch token (getNodeACL node)).getD .deny := by
  induction path with
  | nil => rfl
  | cons node path ih =>
    unfold resolvePath
    by_cases h : (getNodeACL node).isEmpty
    · simp only [h, ↓reduceIte]
      rw [ih, List.find?_cons_of_neg (by simp [h])]
    · simp only [h]
      rw [List.find?_cons_of_pos (by simp [h])]
      cases hf : firstMatch token (getNodeACL node) <;> simp [hf]

/-- What the search reads of an entry. -/
def ACE.rule (ace : ACE) : String × AccessMask := (ace.subjectUuid, ace.mask)

theorem firstMatch_congr {token token' : AccessToken} {acl acl' : List ACE}
    (ht : ∀ u, token.contains u = token'.contains u) (hacl : acl.map ACE.rule = acl'.map ACE.rule) :
    firstMatch token acl = firstMatch token' acl' := by
  have hrules : ∀ (t : AccessToken) (l : List ACE), firstMatch t l =
      ((l.map ACE.rule).find? fun rule => t.matches rule.1).map Prod.snd := by
    intro t l
    rw [firstMatch_eq, List.find?_map, Option.map_map]
    rfl
  have hmatches : ∀ u, token.matches u = token'.matches u := by
    intro u
    unfold AccessToken.matches
    rw [ht]
  rw [hrules, hrules, hacl]
  simp only [hmatches]

/-- The decision depends on the members of the token and on the subjects and masks of the ACLs, in their order. -/
theorem resolvePath_congr {token token' : AccessToken} {getNodeACL getNodeACL' : ACLProvider} {path : List String}
    (ht : ∀ u, token.contains u = token'.contains u)
    (hacl : ∀ node ∈ path, (getNodeACL node).map ACE.rule = (getNodeACL' node).map ACE.rule) :
    resolvePath token getNodeACL path = resolvePath token' getNodeACL' path := by
  induction path with
  | nil => rfl
  | cons node path ih =>
    have hrest := ih fun k hk => hacl k (List.mem_cons_of_mem _ hk)
    have hhead := hacl node (List.mem_cons_self ..)
    have hempty : (getNodeACL node).isEmpty = (getNodeACL' node).isEmpty := by
      have h := congrArg List.isEmpty hhead
      rwa [List.isEmpty_map, List.isEmpty_map] at h
    simp only [resolvePath, hempty, firstMatch_congr ht hhead, hrest]

/-! ### The reference -/

/-- A row speaks about the player: its subject is the wildcard or in the token. -/
def Matches (db : Db) (p : String) (row : PermissionRow) : Prop := row.subjectUuid = "*" ∨ InToken db p row.subjectUuid

/-- `k` is the most specific of the nodes that cover `m` and have a row. -/
def Governs (db : Db) (k m : String) : Prop :=
  (Covers k m ∧ ∃ row ∈ db.permissions, row.node = k) ∧
    ∀ k', Covers k' m → (∃ row ∈ db.permissions, row.node = k') → k' ≠ k → MoreSpecific k k'

/-- `row` is the first row of `k` that speaks about the player. -/
def FirstMatch (db : Db) (p k : String) (row : PermissionRow) : Prop :=
  (row ∈ db.permissions ∧ row.node = k ∧ Matches db p row) ∧
    ∀ row' ∈ db.permissions, row'.node = k → Matches db p row' → row.orderIndex ≤ row'.orderIndex

/-- The decision of the player on `m`. -/
def Decides (db : Db) (p m : String) (mask : AccessMask) : Prop :=
  ((¬ ∃ k, Governs db k m) ∧ mask = .deny) ∨
    ∃ k, Governs db k m ∧
      ((∃ row, FirstMatch db p k row ∧ row.accessMask = mask.toInt) ∨
        ((¬ ∃ row, FirstMatch db p k row) ∧ mask = .deny))

/-- The ACLs of a table with valid masks. -/
def aclOf (db : Db) : ACLProvider := fun node => (sortedRows db node).map PermissionRow.ace

/-- The walk over the batched ACLs is the walk over the ACLs of the nodes. -/
theorem resolvePath_batch {db : Db} (hk : db.Keys) (hm : db.ValidMasks) (token : AccessToken) (path : List String) :
    ∃ aclMap, getNodeACLBatch db path = .ok aclMap ∧
      resolvePath token (batchProvider aclMap) path = resolvePath token (aclOf db) path := by
  obtain ⟨aclMap, hbatch, hget⟩ := getNodeACLBatch_eq hk.permissions_key hm path
  exact ⟨aclMap, hbatch, resolvePath_congr (fun _ => rfl) fun node hnode => congrArg _ (hget node hnode)⟩

theorem resolvePermission_eq {db : Db} (hk : db.Keys) (hm : db.ValidMasks) {p m : String} {path : List String}
    (hpath : buildNodePath m = .ok path) :
    resolvePermission db p m = .ok (resolvePath (buildToken db .player p) (aclOf db) path) := by
  obtain ⟨aclMap, hbatch, hresolve⟩ := resolvePath_batch hk hm (buildToken db .player p) path
  rw [← hresolve]
  unfold resolvePermission resolve
  simp only [hpath, hbatch, bind, Except.bind, pure, Except.pure]

theorem aclOf_isEmpty {db : Db} {k : String} :
    (!(aclOf db k).isEmpty) = true ↔ ∃ row ∈ db.permissions, row.node = k := by
  unfold aclOf
  rw [Bool.not_eq_true', List.isEmpty_eq_false_iff_exists_mem]
  constructor
  · rintro ⟨ace, hace⟩
    obtain ⟨row, hrow, -⟩ := List.mem_map.1 hace
    exact ⟨row, (mem_sortedRows.1 hrow).1, (mem_sortedRows.1 hrow).2⟩
  · rintro ⟨row, hrow, hnode⟩
    exact ⟨row.ace, List.mem_map_of_mem (mem_sortedRows.2 ⟨hrow, hnode⟩)⟩

theorem find?_eq_some_iff_governs {db : Db} {m : String} {path : List String} (hmem : ∀ k, k ∈ path ↔ Covers k m)
    (hpath : path.Pairwise MoreSpecific) {k : String} :
    path.find? (fun node => !(aclOf db node).isEmpty) = some k ↔ Governs db k m := by
  rw [Search.find?_eq_some_iff hpath fun _ _ => MoreSpecific.asymm]
  unfold Governs
  simp only [hmem, aclOf_isEmpty]
  tauto

theorem matches_buildToken {db : Db} (hk : db.Keys) {p : String} {row : PermissionRow} :
    (buildToken db .player p).matches row.subjectUuid = true ↔ Matches db p row := by
  unfold AccessToken.matches Matches
  rw [Bool.or_eq_true, decide_eq_true_eq, contains_buildToken_player hk.groups_key]

theorem find?_eq_some_iff_firstMatch {db : Db} (hk : db.Keys) {p k : String} {row : PermissionRow} :
    (sortedRows db k).find? (fun row => (buildToken db .player p).matches row.subjectUuid) = some row ↔
      FirstMatch db p k row := by
  have hsorted := pairwise_sortedRows hk.permissions_key k
  rw [Search.find?_eq_some_iff hsorted fun _ _ h h' => lt_asymm h h']
  unfold FirstMatch
  simp only [mem_sortedRows, matches_buildToken hk]
  constructor
  · rintro ⟨⟨hrow, hnode⟩, hmatch, hleast⟩
    refine ⟨⟨hrow, hnode, hmatch⟩, fun row' hrow' hnode' hmatch' => ?_⟩
    by_cases heq : row' = row
    · rw [heq]
    · exact le_of_lt (hleast row' ⟨hrow', hnode'⟩ hmatch' heq)
  · rintro ⟨⟨hrow, hnode, hmatch⟩, hleast⟩
    refine ⟨⟨hrow, hnode⟩, hmatch, fun row' hrow' hmatch' hne => ?_⟩
    refine lt_of_le_of_ne (hleast row' hrow'.1 hrow'.2 hmatch') fun hidx => hne ?_
    refine List.inj_on_of_nodup_map hk.permissions_key hrow'.1 hrow ?_
    rw [PermissionRow.key, PermissionRow.key, hnode, hrow'.2, hidx]

/-- The first entry of a node that speaks about the player, by the node's rows. -/
theorem firstMatch_aclOf (db : Db) (token : AccessToken) (k : String) :
    firstMatch token (aclOf db k) =
      ((sortedRows db k).find? fun row => token.matches row.subjectUuid).map PermissionRow.mask := by
  rw [firstMatch_eq, aclOf, List.find?_map, Option.map_map]
  rfl

/-- The search through the ACL of a node finds the mask of the row that decides there. -/
theorem firstMatch_aclOf_eq_iff {db : Db} (hk : db.Keys) (hm : db.ValidMasks) {p k : String} {mask : AccessMask} :
    (firstMatch (buildToken db .player p) (aclOf db k)).getD .deny = mask ↔
      (∃ row, FirstMatch db p k row ∧ row.accessMask = mask.toInt) ∨
        ((¬ ∃ row, FirstMatch db p k row) ∧ mask = .deny) := by
  have hfirst : ∀ row, (sortedRows db k).find? (fun row => (buildToken db .player p).matches row.subjectUuid) =
      some row ↔ FirstMatch db p k row := fun row => find?_eq_some_iff_firstMatch hk
  rw [firstMatch_aclOf]
  cases hrow : (sortedRows db k).find? fun row => (buildToken db .player p).matches row.subjectUuid with
  | none =>
    have hno : ∀ row, ¬ FirstMatch db p k row := by
      intro row h
      rw [← hfirst, hrow] at h
      cases h
    simp [hno, eq_comm]
  | some row =>
    have hfr : FirstMatch db p k row := (hfirst row).1 hrow
    have hmask : row.mask = mask ↔ row.accessMask = mask.toInt := PermissionRow.mask_eq_iff (hm row hfr.1.1)
    rw [Option.map_some, Option.getD_some, hmask]
    constructor
    · intro h
      exact .inl ⟨row, hfr, h⟩
    · rintro (⟨row', hfr', h⟩ | ⟨hno, -⟩)
      · rw [← hfirst, hrow, Option.some.injEq] at hfr'
        rwa [hfr']
      · exact absurd ⟨row, hfr⟩ hno

theorem Governs.unique {db : Db} {k k' m : String} (h : Governs db k m) (h' : Governs db k' m) : k' = k := by
  by_contra hne
  have hlt : MoreSpecific k k' := h.2 k' h'.1.1 h'.1.2 hne
  have hgt : MoreSpecific k' k := h'.2 k h.1.1 h.1.2 (Ne.symm hne)
  exact hlt.asymm hgt

/-- The decision is made at the governing node. -/
theorem decides_of_governs {db : Db} {p k m : String} {mask : AccessMask} (h : Governs db k m) :
    Decides db p m mask ↔ (∃ row, FirstMatch db p k row ∧ row.accessMask = mask.toInt) ∨
      ((¬ ∃ row, FirstMatch db p k row) ∧ mask = .deny) := by
  constructor
  · rintro (⟨hno, -⟩ | ⟨k', h', hmask⟩)
    · exact absurd ⟨k, h⟩ hno
    · rwa [h.unique h'] at hmask
  · intro hmask
    exact .inr ⟨k, h, hmask⟩

/-- For every content of the tables that satisfies the keys of the schema, `resolvePermission` returns the one
mask that the reference decides, and the batched query returns for each node of the path what `getNodeACL`
returns for it. -/
theorem resolvePermission_eq_decides {db : Db} (hk : db.Keys) (hm : db.ValidMasks) (p : String) {m : String}
    (hne : m ≠ "") :
    (∃ mask, resolvePermission db p m = .ok mask ∧ ∀ mask', Decides db p m mask' ↔ mask' = mask) ∧
      ∃ path aclMap, buildNodePath m = .ok path ∧ getNodeACLBatch db path = .ok aclMap ∧
        ∀ node ∈ path, getNodeACL db node = .ok (batchProvider aclMap node) := by
  obtain ⟨path, hpath, hmem, hpairwise, -⟩ := buildNodePath_eq_ok hne
  obtain ⟨aclMap, hbatch, hget⟩ := getNodeACLBatch_eq hk.permissions_key hm path
  refine ⟨⟨_, resolvePermission_eq hk hm hpath, fun mask' => ?_⟩, path, aclMap, hpath, hbatch, fun node hnode => ?_⟩
  · have hgov : ∀ k, path.find? (fun node => !(aclOf db node).isEmpty) = some k ↔ Governs db k m :=
      fun k => find?_eq_some_iff_governs hmem hpairwise
    rw [resolvePath_eq]
    cases hfind : path.find? fun node => !(aclOf db node).isEmpty with
    | none =>
      have hno : ∀ k, ¬ Governs db k m := by
        intro k h
        rw [← hgov, hfind] at h
        cases h
      simp [Decides, hno]
    | some k =>
      have hgk : Governs db k m := (hgov k).1 hfind
      rw [decides_of_governs hgk, ← firstMatch_aclOf_eq_iff hk hm, Option.bind_some, eq_comm]
  · rw [getNodeACL_eq hm, hget node hnode]

/-- A player in a group whose parent is allowed `a`, while `a.b` has an ACE of somebody else. -/
def sampleDb : Db where
  groups := [⟨"g", "staff", some "h"⟩, ⟨"h", "default", none⟩]
  playerGroups := [⟨"p", "g"⟩]
  permissions := [⟨"a", 1, "*", 0, 0, "t"⟩, ⟨"a", 0, "h", 1, 1, "t"⟩, ⟨"a.b", 0, "q", 0, 1, "t"⟩]

theorem sampleDb_keys : sampleDb.Keys := ⟨by decide, by decide, by decide, by decide⟩

theorem sampleDb_validMasks : sampleDb.ValidMasks := by
  intro row hrow
  simp only [sampleDb, List.mem_cons, List.not_mem_nil, or_false] at hrow
  rcases hrow with rfl | rfl | rfl
  · exact ⟨.deny, rfl⟩
  · exact ⟨.allow, rfl⟩
  · exact ⟨.allow, rfl⟩

theorem resolvePermission_eq_decides_sample :
    ∃ mask, resolvePermission sampleDb "p" "a.c" = .ok mask ∧
      ∀ mask', Decides sampleDb "p" "a.c" mask' ↔ mask' = mask :=
  (resolvePermission_eq_decides sampleDb_keys sampleDb_validMasks "p" (by decide)).1

example : resolvePermission sampleDb "p" "a.c" = .ok .allow ∧ resolvePermission sampleDb "p" "a.b.c" = .ok .deny := by
  decide +kernel

end BakaPerms
