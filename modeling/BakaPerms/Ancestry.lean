import BakaPerms.Token

/-!
# The parent chain

What `getGroupAncestry` returns, without its query and its loop: the groups met by following `parent_uuid` from a
group, up to a link that is null or leads to no group, up to a group that is already listed, and 33 groups at most
(`parentChain`).  The rows of the recursive query come in the order of the chain, and cutting them at the first
repetition is the same as not following the link that repeats (`takeDistinct_ancestryRows`).
-/

namespace BakaPerms

open Chain PermissionRepository

/-- The chain of at most `n` groups from `uuid` upwards that lists no group of `listed` and none twice. -/
def parentChain (db : Db) : Nat → List String → String → List GroupInfo
  | 0, _, _ => []
  | n + 1, listed, uuid =>
    if uuid ∈ listed then []
    else
      match getGroup db uuid with
      | none => []
      | some group =>
        match group.parentUuid with
        | none => [group]
        | some parent => group :: parentChain db n (uuid :: listed) parent

theorem getGroup_eq_some {db : Db} (h : db.groupUuids.Nodup) {row : GroupRow} (hrow : row ∈ db.groups) :
    getGroup db row.uuid = some (rowToGroupInfo row) := by
  have hfind : db.findGroup row.uuid = some row := (Db.findGroup_eq_some h).2 ⟨hrow, rfl⟩
  exact congrArg (Option.map rowToGroupInfo) hfind

theorem getGroup_eq_none {db : Db} {uuid : String} (h : uuid ∉ db.groupUuids) : getGroup db uuid = none := by
  cases hg : db.findGroup uuid with
  | none => exact congrArg (Option.map rowToGroupInfo) hg
  | some row =>
    have hmem := Db.findGroup_isSome.1 (Option.isSome_iff_exists.2 ⟨row, hg⟩)
    exact absurd hmem h

theorem uuid_getGroup {db : Db} {uuid : String} {group : GroupInfo} (h : getGroup db uuid = some group) :
    group.uuid = uuid := by
  obtain ⟨row, hrow, rfl⟩ := Option.map_eq_some_iff.1 h
  have huuid : row.uuid = uuid := by simpa using List.find?_some hrow
  exact huuid

/-- The loop over the rows of the query, before it has decided on the first of them. -/
theorem takeDistinct_ancestryRows {db : Db} (h : db.groupUuids.Nodup) {row : GroupRow} (hrow : row ∈ db.groups)
    (bound depth : Nat) (visited : List String) :
    takeDistinct GroupInfo.uuid visited
        ((ancestryRows db.groups bound depth [row]).map fun r => rowToGroupInfo r.1) =
      parentChain db (bound + 1) visited row.uuid := by
  induction bound generalizing row depth visited with
  | zero =>
    rw [parentChain, getGroup_eq_some h hrow]
    refine if_congr Iff.rfl rfl ?_
    cases hp : row.parentUuid with
    | none => simp [takeDistinct, rowToGroupInfo, hp]
    | some parent => simp [takeDistinct, rowToGroupInfo, hp, parentChain]
  | succ bound ih =>
    rw [parentChain, getGroup_eq_some h hrow, ancestryRows, parentRows_eq h]
    refine if_congr Iff.rfl rfl ?_
    cases hp : row.parentUuid with
    | none => simp [takeDistinct, rowToGroupInfo, hp, ancestryRows_nil]
    | some parent =>
      cases hfind : db.findGroup parent with
      | none =>
        -- the link leads to no group: the query has no further row, and the chain ends
        have hget : getGroup db parent = none := congrArg (Option.map rowToGroupInfo) hfind
        simp [takeDistinct, rowToGroupInfo, hp, hfind, ancestryRows_nil, parentChain, hget]
      | some next =>
        obtain ⟨hmem, rfl⟩ := (Db.findGroup_eq_some h).1 hfind
        have hnext := ih hmem (depth + 1) (row.uuid :: visited)
        simp only [rowToGroupInfo, hp, Option.bind_some, hfind, Option.toList_some]
        exact congrArg (_ :: ·) hnext

theorem getGroupAncestry_eq {db : Db} (h : db.groupUuids.Nodup) (g : String) :
    getGroupAncestry db g = parentChain db 33 [] g := by
  by_cases hg : g ∈ db.groupUuids
  · obtain ⟨row, hrow, rfl⟩ := List.mem_map.1 hg
    have hfind : db.findGroup row.uuid = some row := (Db.findGroup_eq_some h).2 ⟨hrow, rfl⟩
    unfold getGroupAncestry
    simp only [filter_uuid_eq h, hfind, Option.toList_some]
    rw [List.Pairwise.insertionSort_eq (pairwise_ancestryRows ..)]
    exact takeDistinct_ancestryRows h hrow maxDepth 0 []
  · rw [getGroupAncestry_of_notMem hg, parentChain, getGroup_eq_none hg]
    rfl

/-! ### What the chain looks like -/

theorem length_parentChain (db : Db) (n : Nat) (listed : List String) (uuid : String) :
    (parentChain db n listed uuid).length ≤ n := by
  induction n generalizing listed uuid with
  | zero => exact Nat.le_refl _
  | succ n ih =>
    unfold parentChain
    split
    · exact Nat.zero_le _
    · cases getGroup db uuid with
      | none => exact Nat.zero_le _
      | some group =>
        cases hp : group.parentUuid with
        | none => simp [hp]
        | some parent =>
          have := ih (uuid :: listed) parent
          simp only [hp, List.length_cons]
          omega

/-- The chain starts with the group that it is asked for. -/
theorem head_parentChain {db : Db} {n : Nat} {listed : List String} {uuid : String} {group : GroupInfo}
    (h : group ∈ (parentChain db n listed uuid).head?) : group.uuid = uuid := by
  cases n with
  | zero => cases h
  | succ n =>
    unfold parentChain at h
    split at h
    · cases h
    · cases hg : getGroup db uuid with
      | none => simp [hg] at h
      | some group' =>
        have hhead : group' = group := by
          cases hp : group'.parentUuid <;> simpa [hg, hp] using h
        exact hhead ▸ uuid_getGroup hg

theorem isChain_parentChain (db : Db) (n : Nat) (listed : List String) (uuid : String) :
    (parentChain db n listed uuid).IsChain fun a b => a.parentUuid = some b.uuid := by
  induction n generalizing listed uuid with
  | zero => exact .nil
  | succ n ih =>
    unfold parentChain
    split
    · exact .nil
    · cases getGroup db uuid with
      | none => exact .nil
      | some group =>
        cases hp : group.parentUuid with
        | none => simp [hp]
        | some parent =>
          simp only [hp]
          cases hrest : parentChain db n (uuid :: listed) parent with
          | nil => exact .singleton _
          | cons next rest =>
            have hnext : next ∈ (parentChain db n (uuid :: listed) parent).head? := by simp [hrest]
            refine .cons_cons ?_ (hrest ▸ ih _ _)
            rw [hp, head_parentChain hnext]

/-- No group is listed twice, and none that was listed before. -/
theorem nodup_parentChain (db : Db) (n : Nat) (listed : List String) (uuid : String) :
    ((parentChain db n listed uuid).map GroupInfo.uuid).Nodup ∧
      ∀ group ∈ parentChain db n listed uuid, group.uuid ∉ listed := by
  induction n generalizing listed uuid with
  | zero => simp [parentChain]
  | succ n ih =>
    unfold parentChain
    split
    · simp
    · rename_i hnew
      cases hg : getGroup db uuid with
      | none => simp
      | some group =>
        have huuid := uuid_getGroup hg
        cases hp : group.parentUuid with
        | none => simpa [hp, huuid] using hnew
        | some parent =>
          obtain ⟨hnodup, hdisjoint⟩ := ih (uuid :: listed) parent
          simp only [hp]
          constructor
          · refine List.nodup_cons.2 ⟨fun hmem => ?_, hnodup⟩
            obtain ⟨group', hgroup', heq⟩ := List.mem_map.1 hmem
            exact hdisjoint group' hgroup' (by simp [heq, huuid])
          · intro group' hgroup'
            rcases List.mem_cons.1 hgroup' with rfl | hgroup'
            · rwa [huuid]
            · exact fun hmem => hdisjoint group' hgroup' (List.mem_cons_of_mem _ hmem)

/-- `getGroupAncestry` follows the parent chain on every table with unique uuids: it returns at most 33 groups, none
twice, no group exactly when there is none of this uuid, the group itself first, and after each group its parent. -/
theorem getGroupAncestry_eq_parentChain {db : Db} (h : db.groupUuids.Nodup) (g : String) :
    getGroupAncestry db g = parentChain db 33 [] g ∧ (getGroupAncestry db g).length ≤ 33 ∧
      ((getGroupAncestry db g).map GroupInfo.uuid).Nodup ∧ (getGroupAncestry db g = [] ↔ g ∉ db.groupUuids) ∧
      (∀ group ∈ (getGroupAncestry db g).head?, group.uuid = g) ∧
      (getGroupAncestry db g).IsChain fun a b => a.parentUuid = some b.uuid := by
  have heq := getGroupAncestry_eq h g
  refine ⟨heq, ?_, ?_, ?_, ?_, ?_⟩
  · rw [heq]
    exact length_parentChain ..
  · rw [heq]
    exact (nodup_parentChain ..).1
  · constructor
    · intro hnil hg
      obtain ⟨info, rest, hcons, -⟩ := head_getGroupAncestry h hg
      rw [hcons] at hnil
      cases hnil
    · exact getGroupAncestry_of_notMem
  · intro group hgroup
    rw [heq] at hgroup
    exact head_parentChain hgroup
  · rw [heq]
    exact isChain_parentChain ..

/-- A tail that leads into a cycle of two groups, and a link to a group that is not there. -/
def tailDb : Db where
  groups := [⟨"a", "a", some "b"⟩, ⟨"b", "b", some "c"⟩, ⟨"c", "c", some "b"⟩, ⟨"d", "d", some "e"⟩]
  playerGroups := []
  permissions := []

theorem getGroupAncestry_eq_parentChain_sample :
    getGroupAncestry tailDb "a" = parentChain tailDb 33 [] "a" ∧
      getGroupAncestry tailDb "d" = parentChain tailDb 33 [] "d" := by
  have hkey : tailDb.groupUuids.Nodup := by decide
  exact ⟨(getGroupAncestry_eq_parentChain hkey "a").1, (getGroupAncestry_eq_parentChain hkey "d").1⟩

example : (getGroupAncestry tailDb "a").map GroupInfo.uuid = ["a", "b", "c"] := by decide +kernel

end BakaPerms
