import BakaPerms.Integrity
import BakaPerms.Manager

/-!
# Ancestry and access tokens

`getGroupAncestry` follows the parent links from a group for at most 32 steps and stops when it comes back to a
group, so it finds exactly the groups that so many parent steps reach (`mem_getGroupAncestry`).  A token holds the
player together with what the ancestries of the player's groups find (`contains_buildToken_player`), or the
ancestry of a group (`contains_buildToken_group`).
-/

namespace BakaPerms

open Chain PermissionRepository

def Db.findGroup (db : Db) (uuid : String) : Option GroupRow := db.groups.find? fun row => row.uuid == uuid

/-- The `parent_uuid` of a group. -/
def Db.parentOf (db : Db) (uuid : String) : Option String := (db.findGroup uuid).bind GroupRow.parentUuid

theorem Db.findGroup_eq_some {db : Db} (h : db.groupUuids.Nodup) {uuid : String} {row : GroupRow} :
    db.findGroup uuid = some row ↔ row ∈ db.groups ∧ row.uuid = uuid := Table.find?_eq_some_iff h

theorem Db.findGroup_isSome {db : Db} {uuid : String} : (db.findGroup uuid).isSome ↔ uuid ∈ db.groupUuids := by
  unfold Db.findGroup Db.groupUuids
  simp [List.find?_isSome]

theorem Db.mem_groupUuids_of_parentOf {db : Db} {uuid parent : String} (h : db.parentOf uuid = some parent) :
    uuid ∈ db.groupUuids := by
  obtain ⟨row, hrow, -⟩ := Option.bind_eq_some_iff.1 h
  rw [← Db.findGroup_isSome, hrow]
  rfl

theorem Db.parentOf_eq_some {db : Db} (h : db.groupUuids.Nodup) {uuid parent : String} :
    db.parentOf uuid = some parent ↔ ∃ row ∈ db.groups, row.uuid = uuid ∧ row.parentUuid = some parent := by
  unfold Db.parentOf
  rw [Option.bind_eq_some_iff]
  constructor
  · rintro ⟨row, hrow, hparent⟩
    obtain ⟨hmem, huuid⟩ := (Db.findGroup_eq_some h).1 hrow
    exact ⟨row, hmem, huuid, hparent⟩
  · rintro ⟨row, hmem, huuid, hparent⟩
    exact ⟨row, (Db.findGroup_eq_some h).2 ⟨hmem, huuid⟩, hparent⟩

/-- Parent links lead to groups that exist. -/
theorem Db.Schema.parentOf_mem {db : Db} (h : db.Schema) {uuid parent : String}
    (hp : db.parentOf uuid = some parent) : parent ∈ db.groupUuids := by
  obtain ⟨row, hrow, -, hparent⟩ := (Db.parentOf_eq_some h.groups_key).1 hp
  exact h.parent_exists row hrow parent hparent

theorem Db.Schema.ascend_mem {db : Db} (h : db.Schema) {n : Nat} {uuid v : String} (hu : uuid ∈ db.groupUuids)
    (hv : ascend db.parentOf n uuid = some v) : v ∈ db.groupUuids := by
  cases n with
  | zero =>
    rw [← Option.some.inj hv]
    exact hu
  | succ n =>
    rw [ascend_succ'] at hv
    obtain ⟨w, -, hw⟩ := Option.bind_eq_some_iff.1 hv
    exact h.parentOf_mem hw

/-- A chain of parent links with a first step starts at a group. -/
theorem Db.mem_groupUuids_of_ascend {db : Db} {n : Nat} {uuid v : String}
    (h : ascend db.parentOf (n + 1) uuid = some v) : uuid ∈ db.groupUuids := by
  rw [ascend_succ] at h
  obtain ⟨w, hw, -⟩ := Option.bind_eq_some_iff.1 h
  exact Db.mem_groupUuids_of_parentOf hw

/-! ### The recursive query -/

/-- The parent link of a group, as far as the parent exists. -/
private def joinParent (db : Db) (uuid : String) : Option String :=
  (db.parentOf uuid).bind fun parent => (db.findGroup parent).map GroupRow.uuid

theorem filter_uuid_eq {db : Db} (h : db.groupUuids.Nodup) (uuid : String) :
    db.groups.filter (fun row => row.uuid == uuid) = (db.findGroup uuid).toList := by
  unfold Db.findGroup
  have hnd : (db.groups.map GroupRow.uuid).Nodup := h
  generalize db.groups = groups at hnd ⊢
  induction groups with
  | nil => rfl
  | cons row rows ih =>
    rw [List.map_cons, List.nodup_cons] at hnd
    by_cases hrow : row.uuid = uuid
    · have hrest : rows.filter (fun row => row.uuid == uuid) = [] := by
        refine List.filter_eq_nil_iff.2 fun row' hrow' => ?_
        have hne : row'.uuid ≠ row.uuid := fun heq => hnd.1 (heq ▸ List.mem_map_of_mem hrow')
        simpa [← hrow] using hne
      simp [hrow, hrest]
    · simp [hrow, ih hnd.2]

theorem parentRows_eq {db : Db} (h : db.groupUuids.Nodup) (row : GroupRow) :
    parentRows db.groups [row] = (row.parentUuid.bind db.findGroup).toList := by
  unfold parentRows
  rw [List.flatMap_singleton]
  cases hp : row.parentUuid with
  | none => simp
  | some parent =>
    rw [Option.bind_some, ← filter_uuid_eq h]
    refine List.filter_congr fun g _ => ?_
    by_cases hg : g.uuid = parent <;> simp [hg]

theorem ancestryRows_nil (groups : List GroupRow) (bound depth : Nat) :
    ancestryRows groups bound depth [] = [] := by
  induction bound generalizing depth with
  | zero => rfl
  | succ bound ih =>
    have hlevel : parentRows groups [] = [] := rfl
    rw [ancestryRows, hlevel, ih]
    rfl

/-- The rows of the query are the walk along the parent links. -/
private theorem map_uuid_ancestryRows {db : Db} (h : db.groupUuids.Nodup) {row : GroupRow} (hrow : row ∈ db.groups)
    (bound depth : Nat) :
    (ancestryRows db.groups bound depth [row]).map (fun r => r.1.uuid) = walk (joinParent db) bound row.uuid := by
  induction bound generalizing row depth with
  | zero => rfl
  | succ bound ih =>
    have hparent : db.parentOf row.uuid = row.parentUuid := by
      unfold Db.parentOf
      rw [(Db.findGroup_eq_some h).2 ⟨hrow, rfl⟩, Option.bind_some]
    rw [ancestryRows, parentRows_eq h, walk]
    have hjoin : joinParent db row.uuid = (row.parentUuid.bind db.findGroup).map GroupRow.uuid := by
      unfold joinParent
      rw [hparent]
      cases row.parentUuid <;> rfl
    rw [hjoin]
    cases hfind : row.parentUuid.bind db.findGroup with
    | none => simp [ancestryRows_nil]
    | some parent =>
      obtain ⟨uuid, -, huuid⟩ := Option.bind_eq_some_iff.1 hfind
      have hmem := ((Db.findGroup_eq_some h).1 huuid).1
      simp only [List.map_cons, List.map_nil, List.cons_append, List.nil_append, Option.toList_some,
        Option.map_some, Option.elim_some]
      rw [ih hmem]

private theorem depth_le_of_mem_ancestryRows {groups level : List GroupRow} {bound depth : Nat}
    {r : GroupRow × Nat} (h : r ∈ ancestryRows groups bound depth level) : depth ≤ r.2 := by
  induction bound generalizing depth level with
  | zero =>
    obtain ⟨row, -, rfl⟩ := List.mem_map.1 h
    exact Nat.le_refl _
  | succ bound ih =>
    rcases List.mem_append.1 h with h | h
    · obtain ⟨row, -, rfl⟩ := List.mem_map.1 h
      exact Nat.le_refl _
    · have := ih h
      omega

theorem pairwise_ancestryRows (groups level : List GroupRow) (bound depth : Nat) :
    (ancestryRows groups bound depth level).Pairwise fun a b => a.2 ≤ b.2 := by
  have hlevel : (level.map fun row => (row, depth)).Pairwise fun a b => a.2 ≤ b.2 :=
    List.pairwise_map.2 (List.pairwise_of_forall fun _ _ => Nat.le_refl _)
  induction bound generalizing depth level with
  | zero => exact hlevel
  | succ bound ih =>
    refine List.pairwise_append.2 ⟨hlevel, ih _ _ ?_, fun a ha b hb => ?_⟩
    · exact List.pairwise_map.2 (List.pairwise_of_forall fun _ _ => Nat.le_refl _)
    · obtain ⟨row, -, rfl⟩ := List.mem_map.1 ha
      have := depth_le_of_mem_ancestryRows hb
      show depth ≤ b.2
      omega

/-- A link to a group that is not there is the end of the walk. -/
private theorem ascend_joinParent {db : Db} {g u : String} (hg : g ∈ db.groupUuids) {n : Nat} :
    ascend (joinParent db) n g = some u ↔ ascend db.parentOf n g = some u ∧ u ∈ db.groupUuids := by
  have hstep : ∀ v w, joinParent db v = some w ↔ db.parentOf v = some w ∧ w ∈ db.groupUuids := by
    intro v w
    unfold joinParent
    rw [Option.bind_eq_some_iff]
    constructor
    · rintro ⟨parent, hparent, hmap⟩
      obtain ⟨row, hrow, rfl⟩ := Option.map_eq_some_iff.1 hmap
      have huuid : row.uuid = parent := by simpa using List.find?_some hrow
      exact ⟨huuid ▸ hparent, List.mem_map_of_mem (List.mem_of_find?_eq_some hrow)⟩
    · rintro ⟨hparent, hw⟩
      obtain ⟨row, hrow⟩ := Option.isSome_iff_exists.1 (Db.findGroup_isSome.2 hw)
      have huuid : row.uuid = w := by simpa using List.find?_some hrow
      exact ⟨w, hparent, by rw [hrow, Option.map_some, huuid]⟩
  induction n generalizing u with
  | zero =>
    constructor
    · intro h
      exact ⟨h, Option.some.inj h ▸ hg⟩
    · exact fun h => h.1
  | succ n ih =>
    rw [ascend_succ', ascend_succ', Option.bind_eq_some_iff, Option.bind_eq_some_iff]
    constructor
    · rintro ⟨v, hv, hu⟩
      exact ⟨⟨v, (ih.1 hv).1, ((hstep v u).1 hu).1⟩, ((hstep v u).1 hu).2⟩
    · rintro ⟨⟨v, hv, hu⟩, hmem⟩
      exact ⟨v, ih.2 ⟨hv, Db.mem_groupUuids_of_parentOf hu⟩, (hstep v u).2 ⟨hu, hmem⟩⟩

theorem getGroupAncestry_of_notMem {db : Db} {g : String} (hg : g ∉ db.groupUuids) : getGroupAncestry db g = [] := by
  unfold getGroupAncestry
  have hstart : db.groups.filter (fun row => row.uuid == g) = [] := by
    refine List.filter_eq_nil_iff.2 fun row hrow => ?_
    have hne : row.uuid ≠ g := fun heq => hg (heq ▸ List.mem_map_of_mem hrow)
    simpa using hne
  simp only [hstart, ancestryRows_nil]
  rfl

/-- The uuids that `getGroupAncestry` finds. -/
theorem map_uuid_getGroupAncestry {db : Db} (h : db.groupUuids.Nodup) {g : String} (hg : g ∈ db.groupUuids) :
    (getGroupAncestry db g).map GroupInfo.uuid = takeDistinct id [] (walk (joinParent db) maxDepth g) := by
  obtain ⟨row, hrow⟩ := Option.isSome_iff_exists.1 (Db.findGroup_isSome.2 hg)
  obtain ⟨hmem, rfl⟩ := (Db.findGroup_eq_some h).1 hrow
  unfold getGroupAncestry
  rw [filter_uuid_eq h, hrow, takeDistinct_map, Option.toList_some,
    List.Pairwise.insertionSort_eq (pairwise_ancestryRows ..), List.map_map]
  exact congrArg (takeDistinct id []) (map_uuid_ancestryRows h hmem _ _)

theorem mem_getGroupAncestry {db : Db} (h : db.groupUuids.Nodup) {g u : String} :
    u ∈ (getGroupAncestry db g).map GroupInfo.uuid ↔
      g ∈ db.groupUuids ∧ u ∈ db.groupUuids ∧ ∃ n ≤ 32, ascend db.parentOf n g = some u := by
  by_cases hg : g ∈ db.groupUuids
  · rw [map_uuid_getGroupAncestry h hg, mem_takeDistinct_walk, mem_walk]
    constructor
    · rintro ⟨n, hn, hu⟩
      obtain ⟨hu, hmem⟩ := (ascend_joinParent hg).1 hu
      exact ⟨hg, hmem, n, hn, hu⟩
    · rintro ⟨-, hmem, n, hn, hu⟩
      exact ⟨n, hn, (ascend_joinParent hg).2 ⟨hu, hmem⟩⟩
  · simp [getGroupAncestry_of_notMem hg, hg]

/-- The first entry of an ancestry is the group itself. -/
theorem head_getGroupAncestry {db : Db} (h : db.groupUuids.Nodup) {g : String} (hg : g ∈ db.groupUuids) :
    ∃ info rest, getGroupAncestry db g = info :: rest ∧ info.uuid = g := by
  have hmap := map_uuid_getGroupAncestry h hg
  cases ha : getGroupAncestry db g with
  | nil =>
    rw [ha] at hmap
    simp [maxDepth, walk, takeDistinct] at hmap
  | cons info rest =>
    rw [ha] at hmap
    simp only [maxDepth, walk, takeDistinct, List.map_cons, List.not_mem_nil, ↓reduceIte, id_eq,
      List.cons.injEq] at hmap
    exact ⟨info, rest, rfl, hmap.1⟩

/-! ### Tokens -/

/-- A round of adding entries adds their uuids. -/
theorem contains_foldl_add {γ : Type} (uuid : γ → String) (kind : γ → TokenEntryKind) (l : List γ)
    (token : AccessToken) (v : String) :
    (l.foldl (fun token c => token.add (uuid c) (kind c)) token).contains v ↔
      token.contains v ∨ v ∈ l.map uuid := by
  induction l generalizing token with
  | nil => simp
  | cons c l ih =>
    rw [List.foldl_cons, ih]
    simp only [AccessToken.contains_add, Bool.or_eq_true, decide_eq_true_eq, List.map_cons, List.mem_cons]
    tauto

/-- No entry is of the kind `wildcard`. -/
private def NoWildcard (token : AccessToken) : Prop := ∀ entry ∈ token.entries, entry.kind ≠ .wildcard

private theorem NoWildcard.add {token : AccessToken} (h : NoWildcard token) {uuid : String} {kind : TokenEntryKind}
    (hk : kind ≠ .wildcard) : NoWildcard (token.add uuid kind) := by
  intro entry hentry
  rcases AccessToken.mem_entries_add hentry with hentry | rfl
  · exact h entry hentry
  · exact hk

private theorem NoWildcard.foldl {γ : Type} {f : AccessToken → γ → AccessToken}
    (hf : ∀ token c, NoWildcard token → NoWildcard (f token c)) {token : AccessToken} (h : NoWildcard token)
    (l : List γ) : NoWildcard (l.foldl f token) := by
  induction l generalizing token with
  | nil => exact h
  | cons c l ih => exact ih (hf token c h)

theorem mem_getPlayerGroups {db : Db} {p u : String} :
    u ∈ (getPlayerGroups db p).map GroupInfo.uuid ↔
      (⟨p, u⟩ : PlayerGroupRow) ∈ db.playerGroups ∧ u ∈ db.groupUuids := by
  unfold getPlayerGroups playerGroupRows Db.groupUuids
  simp only [List.map_map, List.mem_map, List.mem_insertionSort, List.mem_flatMap, List.mem_filter, beq_iff_eq,
    Function.comp_apply]
  constructor
  · rintro ⟨row, ⟨pg, ⟨hpg, rfl⟩, hrow, huuid⟩, rfl⟩
    have hu : (rowToGroupInfo row).uuid = pg.groupUuid := huuid.symm
    exact ⟨hu ▸ hpg, row, hrow, rfl⟩
  · rintro ⟨hpg, row, hrow, rfl⟩
    exact ⟨row, ⟨_, ⟨hpg, rfl⟩, hrow, rfl⟩, rfl⟩

/-- The player, and the groups that up to 32 parent steps reach from a group of the player. -/
def InToken (db : Db) (p u : String) : Prop :=
  u = p ∨ ∃ g, (⟨p, g⟩ : PlayerGroupRow) ∈ db.playerGroups ∧ u ∈ db.groupUuids ∧
    ∃ n ≤ 32, ascend db.parentOf n g = some u

namespace PermissionManager

theorem contains_addDirectGroups {token : AccessToken} {groups : List GroupInfo} {v : String} :
    (addDirectGroups token groups).contains v ↔ token.contains v ∨ v ∈ groups.map GroupInfo.uuid :=
  contains_foldl_add GroupInfo.uuid (fun _ => .directGroup) groups token v

theorem contains_addAncestry {token : AccessToken} {ancestry : List GroupInfo} {v : String} :
    (addAncestry token ancestry).contains v ↔ token.contains v ∨ v ∈ (ancestry.drop 1).map GroupInfo.uuid :=
  contains_foldl_add GroupInfo.uuid (fun _ => .inheritedGroup) (ancestry.drop 1) token v

theorem contains_foldl_addAncestry {γ : Type} (ancestry : γ → List GroupInfo) (l : List γ) (token : AccessToken)
    (v : String) :
    (l.foldl (fun token c => addAncestry token (ancestry c)) token).contains v ↔
      token.contains v ∨ ∃ c ∈ l, v ∈ ((ancestry c).drop 1).map GroupInfo.uuid := by
  induction l generalizing token with
  | nil => simp
  | cons c l ih =>
    rw [List.foldl_cons, ih, contains_addAncestry]
    simp only [List.mem_cons, exists_eq_or_imp]
    tauto

theorem contains_buildToken_player {db : Db} (h : db.groupUuids.Nodup) {p u : String} :
    (buildToken db .player p).contains u ↔ InToken db p u := by
  unfold buildToken InToken
  simp only [contains_foldl_addAncestry, contains_addDirectGroups, AccessToken.contains_add,
    AccessToken.contains_empty, Bool.or_false, decide_eq_true_eq, or_assoc]
  refine or_congr_right ?_
  constructor
  · rintro (hu | ⟨group, hgroup, hu⟩)
    · obtain ⟨hpg, hmem⟩ := mem_getPlayerGroups.1 hu
      exact ⟨u, hpg, hmem, 0, Nat.zero_le _, rfl⟩
    · have hanc : u ∈ (getGroupAncestry db group.uuid).map GroupInfo.uuid :=
        ((List.drop_sublist 1 _).map _).subset hu
      obtain ⟨-, hmem, n, hn, hasc⟩ := (mem_getGroupAncestry h).1 hanc
      exact ⟨group.uuid, (mem_getPlayerGroups.1 (List.mem_map_of_mem hgroup)).1, hmem, n, hn, hasc⟩
  · rintro ⟨g, hpg, hmem, n, hn, hasc⟩
    have hg : g ∈ db.groupUuids := by
      cases n with
      | zero =>
        rw [ascend_zero, Option.some.injEq] at hasc
        rw [hasc]
        exact hmem
      | succ n => exact Db.mem_groupUuids_of_ascend hasc
    obtain ⟨info, rest, hrest, hinfo⟩ := head_getGroupAncestry h hg
    have hu : u ∈ (getGroupAncestry db g).map GroupInfo.uuid := (mem_getGroupAncestry h).2 ⟨hg, hmem, n, hn, hasc⟩
    rw [hrest, List.map_cons, List.mem_cons, hinfo] at hu
    obtain ⟨group, hgroup, rfl⟩ := List.mem_map.1 (mem_getPlayerGroups.2 ⟨hpg, hg⟩)
    rcases hu with rfl | hu
    · exact .inl (List.mem_map_of_mem hgroup)
    · refine .inr ⟨group, hgroup, ?_⟩
      rw [hrest]
      exact hu

theorem contains_buildToken_group {db : Db} (h : db.groupUuids.Nodup) {g u : String} :
    (buildToken db .group g).contains u ↔
      g ∈ db.groupUuids ∧ u ∈ db.groupUuids ∧ ∃ n ≤ 32, ascend db.parentOf n g = some u := by
  unfold buildToken
  have hfold := contains_foldl_add (fun c : GroupInfo × Nat => c.1.uuid)
    (fun c => if c.2 = 0 then .subject else .inheritedGroup) (getGroupAncestry db g).zipIdx .empty u
  refine hfold.trans ?_
  have hmap : (getGroupAncestry db g).zipIdx.map (fun c => c.1.uuid) =
      (getGroupAncestry db g).map GroupInfo.uuid := by
    have := congrArg (List.map GroupInfo.uuid) (List.zipIdx_map_fst 0 (getGroupAncestry db g))
    rwa [List.map_map] at this
  rw [hmap, ← mem_getGroupAncestry h]
  simp

/-- Wildcards are no identities: no token has an entry of that kind. -/
theorem kind_ne_wildcard_buildToken (db : Db) (kind : SubjectKind) (uuid : String) :
    ∀ entry ∈ (buildToken db kind uuid).entries, entry.kind ≠ .wildcard := by
  have hempty : NoWildcard .empty := by simp [NoWildcard, AccessToken.empty]
  cases kind with
  | player =>
    refine NoWildcard.foldl (fun token group h => ?_) (NoWildcard.foldl ?_ (hempty.add (by simp)) _) _
    · exact NoWildcard.foldl (fun _ _ h => h.add (by simp)) h _
    · exact fun _ _ h => h.add (by simp)
  | group =>
    refine NoWildcard.foldl (fun token c h => h.add ?_) hempty _
    split <;> simp

end PermissionManager

end BakaPerms
