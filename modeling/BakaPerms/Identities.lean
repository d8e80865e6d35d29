import BakaPerms.Ancestry

/-!
# What an access token holds

`buildToken` adds identities in rounds, and the first entry of a uuid stays.  A round with one label adds exactly the
new uuids under that label (`mem_foldl_add`), so the label of a group says in which round it came first: a group of
the player is direct even where it is an ancestor of another one, and a group that several ancestries list is
inherited once (`buildToken_identities`).
-/

namespace BakaPerms

open Chain PermissionRepository

/-- A group that the player is a member of. -/
def DirectGroup (db : Db) (p g : String) : Prop := (⟨p, g⟩ : PlayerGroupRow) ∈ db.playerGroups ∧ g ∈ db.groupUuids

/-- A group that 1 to 32 parent steps reach from `g`. -/
def Inherits (db : Db) (g u : String) : Prop :=
  u ∈ db.groupUuids ∧ ∃ n, 1 ≤ n ∧ n ≤ 32 ∧ ascend db.parentOf n g = some u

/-- What a player's token has to hold, by label. -/
def PlayerIdentity (db : Db) (p u : String) : TokenEntryKind → Prop
  | .subject => u = p
  | .directGroup => DirectGroup db p u
  | .inheritedGroup => ¬ DirectGroup db p u ∧ ∃ g, DirectGroup db p g ∧ Inherits db g u
  | .wildcard => False

/-- What a group's token has to hold, by label. -/
def GroupIdentity (db : Db) (g u : String) : TokenEntryKind → Prop
  | .subject => u = g
  | .directGroup => False
  | .inheritedGroup => u ≠ g ∧ Inherits db g u
  | .wildcard => False

namespace AccessToken

/-- A round of adding entries under one label. -/
theorem mem_foldl_add (kind : TokenEntryKind) (l : List String) (token : AccessToken) (entry : TokenEntry) :
    entry ∈ (l.foldl (fun token uuid => token.add uuid kind) token).entries ↔
      entry ∈ token.entries ∨ token.contains entry.uuid = false ∧ entry.kind = kind ∧ entry.uuid ∈ l := by
  induction l generalizing token with
  | nil => simp
  | cons uuid l ih =>
    rw [List.foldl_cons, ih, mem_entries_add_iff, contains_add, List.mem_cons]
    by_cases hu : entry.uuid = uuid
    · have hentry : entry = ⟨uuid, kind⟩ ↔ entry.kind = kind := by
        rw [← hu]
        exact ⟨fun h => congrArg TokenEntry.kind h, fun h => h ▸ rfl⟩
      simp only [hu, hentry, decide_true, Bool.true_or, Bool.true_eq_false, false_and, or_false, true_or, and_true]
    · have hentry : entry ≠ ⟨uuid, kind⟩ := fun h => hu (congrArg TokenEntry.uuid h)
      simp only [hu, hentry, and_false, or_false, decide_false, Bool.false_or, false_or]

theorem contains_foldl (kind : TokenEntryKind) (l : List String) (token : AccessToken) (v : String) :
    (l.foldl (fun token uuid => token.add uuid kind) token).contains v ↔ token.contains v ∨ v ∈ l := by
  have := contains_foldl_add id (fun _ => kind) l token v
  rwa [List.map_id] at this

end AccessToken

/-! ### The ancestry without its first group -/

theorem nodup_getGroupAncestry {db : Db} (h : db.groupUuids.Nodup) (g : String) :
    ((getGroupAncestry db g).map GroupInfo.uuid).Nodup := by
  rw [getGroupAncestry_eq h]
  exact (nodup_parentChain ..).1

theorem mem_drop_getGroupAncestry {db : Db} (h : db.groupUuids.Nodup) {g u : String} :
    u ∈ ((getGroupAncestry db g).drop 1).map GroupInfo.uuid ↔ u ≠ g ∧ Inherits db g u := by
  by_cases hg : g ∈ db.groupUuids
  · obtain ⟨info, rest, hrest, rfl⟩ := head_getGroupAncestry h hg
    have hnodup := nodup_getGroupAncestry h info.uuid
    have hmem := mem_getGroupAncestry h (g := info.uuid) (u := u)
    rw [hrest, List.map_cons, List.nodup_cons] at hnodup
    rw [hrest, List.map_cons, List.mem_cons] at hmem
    rw [hrest, List.drop_one, List.tail_cons]
    constructor
    · intro hu
      have hne : u ≠ info.uuid := fun heq => hnodup.1 (heq ▸ hu)
      obtain ⟨-, hgroup, n, hn, hasc⟩ := hmem.1 (.inr hu)
      cases n with
      | zero => exact absurd (Option.some.inj hasc).symm hne
      | succ n => exact ⟨hne, hgroup, n + 1, Nat.le_add_left .., hn, hasc⟩
    · rintro ⟨hne, hgroup, n, -, hn, hasc⟩
      exact (hmem.2 ⟨hg, hgroup, n, hn, hasc⟩).resolve_left hne
  · rw [getGroupAncestry_of_notMem hg]
    constructor
    · intro hu
      cases hu
    · rintro ⟨-, -, n, hn, -, hasc⟩
      obtain ⟨n, rfl⟩ := Nat.exists_eq_add_of_le' hn
      exact absurd (Db.mem_groupUuids_of_ascend hasc) hg

namespace PermissionManager

/-- The rounds of `buildToken` for a player. -/
theorem buildToken_player_eq (db : Db) (p : String) :
    buildToken db .player p =
      ((getPlayerGroups db p).flatMap fun group => ((getGroupAncestry db group.uuid).drop 1).map GroupInfo.uuid).foldl
        (fun token uuid => token.add uuid .inheritedGroup)
        (((getPlayerGroups db p).map GroupInfo.uuid).foldl (fun token uuid => token.add uuid .directGroup)
          (AccessToken.empty.add p .subject)) := by
  rw [List.foldl_flatMap, List.foldl_map]
  simp only [List.foldl_map]
  rfl

private theorem foldl_zipIdx {k : Nat} (hk : 0 < k) (l : List GroupInfo) (token : AccessToken) :
    (l.zipIdx k).foldl (fun token (group, i) => token.add group.uuid (if i = 0 then .subject else .inheritedGroup))
      token = (l.map GroupInfo.uuid).foldl (fun token uuid => token.add uuid .inheritedGroup) token := by
  induction l generalizing k token with
  | nil => rfl
  | cons group l ih =>
    rw [List.zipIdx_cons, List.foldl_cons, List.map_cons, List.foldl_cons, ih (Nat.succ_pos k)]
    simp only [if_neg hk.ne']

/-- The rounds of `buildToken` for a group that exists. -/
theorem buildToken_group_eq {db : Db} (h : db.groupUuids.Nodup) {g : String} (hg : g ∈ db.groupUuids) :
    buildToken db .group g =
      (((getGroupAncestry db g).drop 1).map GroupInfo.uuid).foldl (fun token uuid => token.add uuid .inheritedGroup)
        (AccessToken.empty.add g .subject) := by
  obtain ⟨info, rest, hrest, rfl⟩ := head_getGroupAncestry h hg
  unfold buildToken
  rw [hrest, List.zipIdx_cons, List.foldl_cons, foldl_zipIdx (Nat.succ_pos 0)]
  rfl

theorem mem_buildToken_player {db : Db} (h : db.groupUuids.Nodup) {p : String} (hp : p ∉ db.groupUuids) (u : String)
    (kind : TokenEntryKind) :
    (⟨u, kind⟩ : TokenEntry) ∈ (buildToken db .player p).entries ↔ PlayerIdentity db p u kind := by
  have hgroups : u ∈ (getPlayerGroups db p).map GroupInfo.uuid ↔ DirectGroup db p u := mem_getPlayerGroups
  have hinherited : u ∈ ((getPlayerGroups db p).flatMap fun group =>
      ((getGroupAncestry db group.uuid).drop 1).map GroupInfo.uuid) ↔
      ∃ g, DirectGroup db p g ∧ u ≠ g ∧ Inherits db g u := by
    rw [List.mem_flatMap]
    constructor
    · rintro ⟨group, hgroup, hu⟩
      exact ⟨group.uuid, mem_getPlayerGroups.1 (List.mem_map_of_mem hgroup), (mem_drop_getGroupAncestry h).1 hu⟩
    · rintro ⟨g, hg, hu⟩
      obtain ⟨group, hgroup, rfl⟩ := List.mem_map.1 (mem_getPlayerGroups.2 hg)
      exact ⟨group, hgroup, (mem_drop_getGroupAncestry h).2 hu⟩
  have hsubject : (⟨u, kind⟩ : TokenEntry) ∈ (AccessToken.empty.add p .subject).entries ↔ u = p ∧ kind = .subject := by
    rw [AccessToken.mem_entries_add_iff, AccessToken.contains_empty]
    simp [AccessToken.empty]
  rw [buildToken_player_eq, AccessToken.mem_foldl_add, AccessToken.mem_foldl_add, hsubject, ← Bool.not_eq_true,
    ← Bool.not_eq_true, AccessToken.contains_foldl, hgroups, hinherited]
  simp only [AccessToken.contains_add, AccessToken.contains_empty, Bool.or_false, decide_eq_true_eq]
  cases kind with
  | subject => simp [PlayerIdentity]
  | directGroup =>
    -- the player is no group, so the first entry is not in the way
    have hne : DirectGroup db p u → u ≠ p := fun hu heq => hp (heq ▸ hu.2)
    simpa [PlayerIdentity] using hne
  | inheritedGroup =>
    simp only [PlayerIdentity, reduceCtorEq, and_false, false_and, false_or, true_and, not_or]
    constructor
    · rintro ⟨⟨-, hu⟩, g, hg, -, hinh⟩
      exact ⟨hu, g, hg, hinh⟩
    · rintro ⟨hu, g, hg, hinh⟩
      exact ⟨⟨fun heq => hp (heq ▸ hinh.1), hu⟩, g, hg, fun heq => hu (heq ▸ hg), hinh⟩
  | wildcard => simp [PlayerIdentity]

theorem mem_buildToken_group {db : Db} (h : db.groupUuids.Nodup) {g : String} (hg : g ∈ db.groupUuids) (u : String)
    (kind : TokenEntryKind) :
    (⟨u, kind⟩ : TokenEntry) ∈ (buildToken db .group g).entries ↔ GroupIdentity db g u kind := by
  rw [buildToken_group_eq h hg, AccessToken.mem_foldl_add, AccessToken.mem_entries_add_iff,
    mem_drop_getGroupAncestry h]
  simp only [AccessToken.contains_add, AccessToken.contains_empty, Bool.or_false]
  cases kind <;> simp [GroupIdentity, AccessToken.empty]

/-- A token holds the identities of its subject, each once and under its label, and `find` and `contains` read it. -/
theorem buildToken_identities {db : Db} (h : db.groupUuids.Nodup) (s : String) :
    (s ∉ db.groupUuids →
      ((buildToken db .player s).entries.map TokenEntry.uuid).Nodup ∧
      ∀ u kind, (⟨u, kind⟩ : TokenEntry) ∈ (buildToken db .player s).entries ↔ PlayerIdentity db s u kind) ∧
    (s ∉ db.groupUuids → (buildToken db .group s).entries = []) ∧
    (s ∈ db.groupUuids →
      ((buildToken db .group s).entries.map TokenEntry.uuid).Nodup ∧
      ∀ u kind, (⟨u, kind⟩ : TokenEntry) ∈ (buildToken db .group s).entries ↔ GroupIdentity db s u kind) ∧
    ∀ kind u, (∀ entry, (buildToken db kind s).find u = some entry ↔
        entry ∈ (buildToken db kind s).entries ∧ entry.uuid = u) ∧
      ((buildToken db kind s).contains u ↔ ∃ entry ∈ (buildToken db kind s).entries, entry.uuid = u) := by
  refine ⟨fun hs => ⟨AccessToken.nodup_uuids _, mem_buildToken_player h hs⟩, fun hs => ?_,
    fun hs => ⟨AccessToken.nodup_uuids _, mem_buildToken_group h hs⟩, fun kind u => ⟨fun entry => ?_, ?_⟩⟩
  · unfold buildToken
    rw [getGroupAncestry_of_notMem hs]
    rfl
  · exact AccessToken.find_eq_some
  · rw [AccessToken.contains_iff, List.mem_map]

/-- A player in two groups, the one an ancestor of the other, above them a cycle. -/
def diamondDb : Db where
  groups := [⟨"a", "a", some "b"⟩, ⟨"b", "b", some "c"⟩, ⟨"c", "c", some "b"⟩]
  playerGroups := [⟨"p", "a"⟩, ⟨"p", "b"⟩]
  permissions := []

theorem buildToken_identities_sample :
    (⟨"c", .inheritedGroup⟩ : TokenEntry) ∈ (buildToken diamondDb .player "p").entries ↔
      PlayerIdentity diamondDb "p" "c" .inheritedGroup := by
  have hkey : diamondDb.groupUuids.Nodup := by decide
  exact ((buildToken_identities hkey "p").1 (by decide)).2 "c" .inheritedGroup

example : (buildToken diamondDb .player "p").entries =
    [⟨"p", .subject⟩, ⟨"a", .directGroup⟩, ⟨"b", .directGroup⟩, ⟨"c", .inheritedGroup⟩] := by decide +kernel

end PermissionManager

end BakaPerms
