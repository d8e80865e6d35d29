import BakaPerms.Lib.Directory
import BakaPerms.SharedStore

/-!
# The group store

What `groups` and `player_groups` are for: a directory of groups with unique names, their parents and their members.
Each call of the manager acts on the directory as the operation of that name, and is refused exactly when the operation
is not defined or when up to 32 parent steps lead from the new parent to the group (`Call.act`, `Call.Permitted`).  Over
every run of calls the tables hold the directory, and what the queries return is read off it
(`group_store_follows`).
-/

namespace BakaPerms

open Chain Effect PermissionManager

abbrev GroupDirectory := Directory String String String

/-- The rows of the tables are those of the directory. -/
structure Db.Holds (db : Db) (d : GroupDirectory) : Prop where
  group : ∀ row : GroupRow, row ∈ db.groups ↔ d.name row.uuid = some row.name ∧ d.parent row.uuid = row.parentUuid
  member : ∀ row : PlayerGroupRow, row ∈ db.playerGroups ↔ d.member row.playerUuid row.groupUuid

/-! ### The directory in the tables -/

theorem Db.findGroup_name {db : Db} (h : db.groupUuids.Nodup) {u n : String} :
    (db.findGroup u).map GroupRow.name = some n ↔ ∃ row ∈ db.groups, row.uuid = u ∧ row.name = n := by
  rw [Option.map_eq_some_iff]
  refine exists_congr fun row => ?_
  rw [Db.findGroup_eq_some h, and_assoc]

/-- The directory of tables that satisfy the constraints. -/
def Db.Schema.directory {db : Db} (h : db.Schema) : GroupDirectory where
  name u := (db.findGroup u).map GroupRow.name
  parent := db.parentOf
  member p g := ⟨p, g⟩ ∈ db.playerGroups
  name_injective u v n hu hv := by
    obtain ⟨row, hrow, rfl, hname⟩ := (Db.findGroup_name h.groups_key).1 hu
    obtain ⟨row', hrow', rfl, hname'⟩ := (Db.findGroup_name h.groups_key).1 hv
    rw [List.inj_on_of_nodup_map h.groups_name hrow hrow' (hname.trans hname'.symm)]
  parent_exists u v hv := by
    rw [Option.isSome_map, Option.isSome_map, Db.findGroup_isSome, Db.findGroup_isSome]
    exact ⟨Db.mem_groupUuids_of_parentOf hv, h.parentOf_mem hv⟩
  member_exists p g hg := by
    rw [Option.isSome_map, Db.findGroup_isSome]
    exact h.membership_exists _ hg

theorem Db.Schema.holds_directory {db : Db} (h : db.Schema) : db.Holds h.directory where
  group row := by
    constructor
    · intro hrow
      have hfind : db.findGroup row.uuid = some row := (Db.findGroup_eq_some h.groups_key).2 ⟨hrow, rfl⟩
      refine ⟨(Db.findGroup_name h.groups_key).2 ⟨row, hrow, rfl, rfl⟩, ?_⟩
      show (db.findGroup row.uuid).bind GroupRow.parentUuid = _
      rw [hfind]
      rfl
    · rintro ⟨hname, hparent⟩
      obtain ⟨row', hfind, hname'⟩ := Option.map_eq_some_iff.1 hname
      have hparent' : row'.parentUuid = row.parentUuid := by
        rw [← hparent]
        show _ = (db.findGroup row.uuid).bind GroupRow.parentUuid
        rw [hfind]
        rfl
      obtain ⟨hrow', huuid⟩ := (Db.findGroup_eq_some h.groups_key).1 hfind
      obtain ⟨uuid, name, parentUuid⟩ := row
      obtain ⟨uuid', name', parentUuid'⟩ := row'
      cases huuid
      cases hname'
      cases hparent'
      exact hrow'
  member _ := Iff.rfl

namespace Db.Holds

variable {db : Db} {d : GroupDirectory}

/-- The row of a group that is there. -/
theorem row_mem (h : db.Holds d) {u n : String} (hn : d.name u = some n) :
    (⟨u, n, d.parent u⟩ : GroupRow) ∈ db.groups := (h.group _).2 ⟨hn, rfl⟩

theorem has (h : db.Holds d) {u : String} : d.Has u ↔ u ∈ db.groupUuids := by
  constructor
  · intro hu
    obtain ⟨n, hn⟩ := Option.isSome_iff_exists.1 hu
    exact List.mem_map_of_mem (f := GroupRow.uuid) (h.row_mem hn)
  · intro hu
    obtain ⟨row, hrow, rfl⟩ := List.mem_map.1 hu
    exact Option.isSome_iff_exists.2 ⟨_, ((h.group row).1 hrow).1⟩

theorem name_eq_some (h : db.Holds d) {n : String} : (∃ u, d.name u = some n) ↔ n ∈ db.groups.map GroupRow.name := by
  constructor
  · rintro ⟨u, hn⟩
    exact List.mem_map_of_mem (f := GroupRow.name) (h.row_mem hn)
  · intro hn
    obtain ⟨row, hrow, rfl⟩ := List.mem_map.1 hn
    exact ⟨row.uuid, ((h.group row).1 hrow).1⟩

theorem parent_eq (h : db.Holds d) (hkey : db.groupUuids.Nodup) : d.parent = db.parentOf := by
  funext u
  refine Option.ext fun v => ?_
  rw [Db.parentOf_eq_some hkey]
  constructor
  · intro hv
    obtain ⟨n, hn⟩ := Option.isSome_iff_exists.1 (d.parent_exists hv).1
    exact ⟨_, h.row_mem hn, rfl, hv⟩
  · rintro ⟨row, hrow, rfl, hv⟩
    rw [((h.group row).1 hrow).2, hv]

theorem canCreate_iff (h : db.Holds d) {u n : String} {parent : Option String} :
    d.CanCreate u n parent ↔ u ∉ db.groupUuids ∧ n ∉ db.groups.map GroupRow.name ∧
      ∀ p, parent = some p → p ∈ u :: db.groupUuids := by
  constructor
  · intro hc
    refine ⟨mt h.has.2 hc.new, fun hn => ?_, fun p hp => ?_⟩
    · obtain ⟨v, hv⟩ := h.name_eq_some.2 hn
      exact hc.name_free v hv
    · rw [List.mem_cons, ← h.has]
      exact hc.parent p hp
  · rintro ⟨hnew, hname, hparent⟩
    refine ⟨mt h.has.1 hnew, fun v hv => hname (h.name_eq_some.1 ⟨v, hv⟩), fun p hp => ?_⟩
    rw [h.has, ← List.mem_cons]
    exact hparent p hp

/-! ### The statements -/

theorem create (h : db.Holds d) {u n : String} {parent : Option String} (hc : d.CanCreate u n parent) :
    Db.Holds { db with groups := db.groups ++ [⟨u, n, parent⟩] } (d.create u n parent hc) where
  group row := by
    obtain ⟨hnew, -⟩ := h.canCreate_iff.1 hc
    show row ∈ db.groups ++ [⟨u, n, parent⟩] ↔ Function.update d.name u (some n) row.uuid = some row.name ∧
      Function.update d.parent u parent row.uuid = row.parentUuid
    rw [List.mem_append, List.mem_singleton]
    by_cases hu : row.uuid = u
    · have hold : row ∉ db.groups := fun hrow => hnew (hu ▸ List.mem_map_of_mem hrow)
      obtain ⟨uuid, name, parentUuid⟩ := row
      cases hu
      simp [hold, eq_comm]
    · have hne : row ≠ ⟨u, n, parent⟩ := fun hrow => hu (congrArg GroupRow.uuid hrow)
      rw [Function.update_of_ne hu, Function.update_of_ne hu, or_iff_left hne]
      exact h.group row
  member := h.member

theorem setParent (h : db.Holds d) {u : String} {parent : Option String}
    (hp : ∀ v, parent = some v → d.Has u → d.Has v) :
    Db.Holds { db with groups := withParent db.groups u parent } (d.setParent u parent hp) where
  group row := by
    show row ∈ withParent db.groups u parent ↔ d.name row.uuid = some row.name ∧
      (if row.uuid = u then (d.name u).bind fun _ => parent else d.parent row.uuid) = row.parentUuid
    rw [withParent, Table.mem_rewrite]
    constructor
    · rintro ⟨row', hrow', rfl⟩
      obtain ⟨hname, hparent⟩ := (h.group row').1 hrow'
      by_cases hu : row'.uuid = u
      · subst hu
        simp [hname]
      · simp [hu, hname, hparent]
    · rintro ⟨hname, hparent⟩
      refine ⟨_, h.row_mem hname, ?_⟩
      obtain ⟨uuid, name, parentUuid⟩ := row
      by_cases hu : uuid = u
      · subst hu
        simp_all [GroupRow.setParent]
      · simp_all
  member := h.member

theorem delete (h : db.Holds d) (u : String) {db' : Db} (hgroups : db'.groups = withoutGroup db.groups u)
    (hplayers : db'.playerGroups = Table.delete (fun row => row.groupUuid == u) db.playerGroups) :
    db'.Holds (d.delete u) where
  group row := by
    show row ∈ db'.groups ↔ Function.update d.name u none row.uuid = some row.name ∧
      (if row.uuid = u ∨ d.parent row.uuid = some u then none else d.parent row.uuid) = row.parentUuid
    rw [hgroups, withoutGroup, Table.mem_rewrite]
    constructor
    · rintro ⟨row', hrow', rfl⟩
      obtain ⟨hmem, hne⟩ := List.mem_filter.1 hrow'
      obtain ⟨hname, hparent⟩ := (h.group row').1 hmem
      have hu : row'.uuid ≠ u := by simpa using hne
      by_cases hp : row'.parentUuid = some u
      · simp [hp, hu, hname, hparent]
      · simp [hp, hu, hname, hparent]
    · rintro ⟨hname, hparent⟩
      have hu : row.uuid ≠ u := by
        intro hu
        rw [hu, Function.update_self] at hname
        cases hname
      rw [Function.update_of_ne hu] at hname
      refine ⟨_, List.mem_filter.2 ⟨h.row_mem hname, by simpa using hu⟩, ?_⟩
      obtain ⟨uuid, name, parentUuid⟩ := row
      simp only [hu, false_or] at hparent
      by_cases hp : d.parent uuid = some u
      · simp_all [GroupRow.setParent]
      · simp_all
  member row := by
    show row ∈ db'.playerGroups ↔ d.member row.playerUuid row.groupUuid ∧ row.groupUuid ≠ u
    rw [hplayers, Table.delete, List.mem_filter, h.member row]
    simp

/-- Deleting a group that is not there changes nothing. -/
theorem delete_of_notMem (h : db.Holds d) {u : String} (hu : u ∉ db.groupUuids) {db' : Db}
    (hgroups : db'.groups = db.groups) (hplayers : db'.playerGroups = db.playerGroups) : db'.Holds (d.delete u) := by
  have hnot : ¬ d.Has u := mt h.has.1 hu
  have hsame : d.delete u = d := d.delete_of_not_has hnot
  rw [hsame]
  exact ⟨fun row => hgroups ▸ h.group row, fun row => hplayers ▸ h.member row⟩

theorem enter (h : db.Holds d) {p u : String} (hu : d.Has u) :
    Db.Holds { db with playerGroups := db.playerGroups ++ [⟨p, u⟩] } (d.enter p u hu) where
  group := h.group
  member row := by
    show row ∈ db.playerGroups ++ [⟨p, u⟩] ↔
      d.member row.playerUuid row.groupUuid ∨ row.playerUuid = p ∧ row.groupUuid = u
    rw [List.mem_append, List.mem_singleton, h.member row, PlayerGroupRow.mk.injEq]

theorem leave (h : db.Holds d) (p u : String) :
    Db.Holds { db with playerGroups := Table.delete (· == ⟨p, u⟩) db.playerGroups } (d.leave p u) where
  group := h.group
  member row := by
    show row ∈ Table.delete (· == ⟨p, u⟩) db.playerGroups ↔
      d.member row.playerUuid row.groupUuid ∧ ¬ (row.playerUuid = p ∧ row.groupUuid = u)
    rw [Table.delete, List.mem_filter, h.member row]
    obtain ⟨player, group⟩ := row
    simp

end Db.Holds

/-! ### The calls -/

/-- The directory allows the call. -/
def Call.Permitted (d : GroupDirectory) : Call → Prop
  | createGroup uuid name parentUuid => d.CanCreate uuid name parentUuid
  | setGroupParent groupUuid (some parentUuid) => d.Has groupUuid →
    d.Has parentUuid ∧ ∀ n ≤ 32, ascend d.parent n parentUuid ≠ some groupUuid
  | addPlayerToGroup _ groupUuid => d.Has groupUuid
  | _ => True

theorem Call.Permitted.parent {d : GroupDirectory} {g : String} {parent : Option String}
    (h : (Call.setGroupParent g parent).Permitted d) : ∀ p, parent = some p → d.Has g → d.Has p := by
  rintro p rfl hg
  exact (h hg).1

open Classical in
/-- What the call does to the directory. -/
noncomputable def Call.act (d : GroupDirectory) : Call → GroupDirectory
  | createGroup uuid name parentUuid =>
    if h : d.CanCreate uuid name parentUuid then d.create uuid name parentUuid h else d
  | deleteGroup groupUuid => d.delete groupUuid
  | setGroupParent groupUuid parentUuid =>
    if h : (Call.setGroupParent groupUuid parentUuid).Permitted d then d.setParent groupUuid parentUuid h.parent else d
  | addPlayerToGroup playerUuid groupUuid =>
    if h : d.Has groupUuid then d.enter playerUuid groupUuid h else d
  | removePlayerFromGroup playerUuid groupUuid => d.leave playerUuid groupUuid
  | _ => d

section Calls

variable {db : Db} {d : GroupDirectory}

theorem createGroup_of_canCreate (h : db.Holds d) {uuid name : String} {parent : Option String}
    (hc : d.CanCreate uuid name parent) :
    PermissionRepository.getGroupByName db name = none ∧ PermissionRepository.createGroup uuid name parent db =
      .ok () { db with groups := db.groups ++ [⟨uuid, name, parent⟩] } := by
  have hrow := h.canCreate_iff.1 hc
  constructor
  · refine Option.map_eq_none_iff.2 (List.find?_eq_none.2 fun row hmem hname => hrow.2.1 ?_)
    rw [← beq_iff_eq.1 hname]
    exact List.mem_map_of_mem hmem
  · exact insertGroup_eq_ok.2 ⟨hrow, rfl⟩

theorem createGroup_of_not_canCreate (h : db.Holds d) {uuid name : String} {parent : Option String}
    (hc : ¬ d.CanCreate uuid name parent) : Fails (PermissionRepository.createGroup uuid name parent) db := by
  cases hx : PermissionRepository.createGroup uuid name parent db with
  | ok a db' => exact absurd (h.canCreate_iff.2 (insertGroup_eq_ok.1 hx).1) hc
  | error e db' => exact ⟨e, db', hx⟩

theorem setGroupParent_of_permitted (h : db.Holds d) (hkey : db.groupUuids.Nodup) {g : String} {parent : Option String}
    (hp : (Call.setGroupParent g parent).Permitted d) :
    ¬ parent.any (wouldCreateCycle db g) ∧ PermissionRepository.setGroupParent g parent db =
      .ok () { db with groups := withParent db.groups g parent } := by
  constructor
  · cases parent with
    | none => simp
    | some p =>
      rw [Option.any_some, wouldCreateCycle_iff hkey, ← h.has, ← h.parent_eq hkey]
      rintro ⟨hg, n, hn, habove⟩
      exact (hp hg).2 n hn habove
  · refine updateGroupParent_eq_ok.2 ⟨fun hg p hparent => ?_, rfl⟩
    exact h.has.1 (hp.parent p hparent (h.has.2 hg))

theorem setGroupParent_of_not_permitted (h : db.Holds d) (hkey : db.groupUuids.Nodup) {g : String}
    {parent : Option String} (hp : ¬ (Call.setGroupParent g parent).Permitted d) :
    parent.any (wouldCreateCycle db g) ∨ Fails (PermissionRepository.setGroupParent g parent) db := by
  cases parent with
  | none => exact absurd trivial hp
  | some p =>
    by_cases hc : wouldCreateCycle db g p
    · exact .inl hc
    · right
      cases hx : PermissionRepository.setGroupParent g (some p) db with
      | error e db' => exact ⟨e, db', hx⟩
      | ok a db' =>
        refine absurd (fun hg => ⟨?_, fun n hn habove => hc ?_⟩) hp
        · exact h.has.2 ((updateGroupParent_eq_ok.1 hx).1 (h.has.1 hg) p rfl)
        · rw [wouldCreateCycle_iff hkey, ← h.has, ← h.parent_eq hkey]
          exact ⟨hg, n, hn, habove⟩

/-- `INSERT OR IGNORE` says whether the player was not a member before. -/
theorem addPlayerToGroup_of_has (h : db.Holds d) {g : String} (hg : d.Has g) (p : String) :
    ∃ changed db', PermissionRepository.addPlayerToGroup p g db = .ok changed db' ∧ db'.Holds (d.enter p g hg) ∧
      (changed = true ↔ ¬ d.member p g) := by
  have hmember : d.member p g ↔ (⟨p, g⟩ : PlayerGroupRow) ∈ db.playerGroups := (h.member ⟨p, g⟩).symm
  by_cases hp : d.member p g
  · have hinsert : insertPlayerGroup ⟨p, g⟩ db = .ok 0 db := if_pos (hmember.1 hp)
    have hsame : d.enter p g hg = d := d.enter_of_member hp
    exact ⟨false, db, bind_of_ok hinsert, hsame.symm ▸ h, by simp [hp]⟩
  · have hinsert : insertPlayerGroup ⟨p, g⟩ db = .ok 1 { db with playerGroups := db.playerGroups ++ [⟨p, g⟩] } :=
      (if_neg (mt hmember.2 hp)).trans (if_pos (h.has.1 hg))
    exact ⟨true, _, bind_of_ok hinsert, h.enter hg, by simp [hp]⟩

theorem addPlayerToGroup_of_not_has (h : db.Holds d) {g : String} (hg : ¬ d.Has g) (p : String) :
    Fails (PermissionRepository.addPlayerToGroup p g) db := by
  have hmember : (⟨p, g⟩ : PlayerGroupRow) ∉ db.playerGroups := fun hrow => hg (d.member_exists ((h.member _).1 hrow))
  have hinsert : insertPlayerGroup ⟨p, g⟩ db = .error (.database "FOREIGN KEY constraint failed") db :=
    (if_neg hmember).trans (if_neg (mt h.has.2 hg))
  exact ⟨_, _, bind_of_error hinsert⟩

theorem removePlayerFromGroup_result (h : db.Holds d) (p g : String) :
    ∃ changed db', PermissionRepository.removePlayerFromGroup p g db = .ok changed db' ∧ db'.Holds (d.leave p g) ∧
      (changed = true ↔ d.member p g) := by
  refine ⟨_, _, rfl, h.leave p g, ?_⟩
  rw [decide_eq_true_iff, List.countP_pos_iff, ← h.member ⟨p, g⟩]
  simp

/-- The tables go on holding the directory. -/
theorem Call.holds_effect (hdb : db.Sound) (h : db.Holds d) (call : Call) : (call.effect db).Holds (call.act d) := by
  have hother {db' : Db} (hsame : SameGroups db db') : db'.Holds d := by
    obtain ⟨hgroups, hplayers⟩ := Prod.mk.inj hsame
    exact ⟨fun row => hgroups ▸ h.group row, fun row => hplayers ▸ h.member row⟩
  cases call with
  | createGroup uuid name parent =>
    by_cases hc : d.CanCreate uuid name parent
    · obtain ⟨hname, hok⟩ := createGroup_of_canCreate h hc
      simp only [Call.effect, Call.act, hname, dif_pos hc, final_of_ok hok]
      exact h.create hc
    · obtain ⟨e, db', herror⟩ := createGroup_of_not_canCreate h hc
      simp only [Call.effect, Call.act, dif_neg hc, final_of_error herror,
        PermissionRepository.atomic_createGroup _ _ _ herror, ite_self]
      exact h
  | deleteGroup g =>
    obtain ⟨db', hok⟩ := deleteGroup_succeeds hdb.masks hdb.numbered_entries g
    simp only [Call.effect, Call.act, final_of_ok hok]
    rcases PermissionRepository.deleteGroup_groups hok with ⟨-, hgroups, hplayers⟩ | ⟨hg, hgroups, hplayers⟩
    · exact h.delete g hgroups hplayers
    · exact h.delete_of_notMem hg hgroups hplayers
  | setGroupParent g parent =>
    by_cases hp : (Call.setGroupParent g parent).Permitted d
    · obtain ⟨hc, hok⟩ := setGroupParent_of_permitted h hdb.groups_key hp
      simp only [Call.effect, Call.act, if_neg hc, dif_pos hp, final_of_ok hok]
      exact h.setParent hp.parent
    · simp only [Call.effect, Call.act, dif_neg hp]
      rcases setGroupParent_of_not_permitted h hdb.groups_key hp with hc | ⟨e, db', herror⟩
      · rwa [if_pos hc]
      · rw [final_of_error herror, PermissionRepository.atomic_setGroupParent _ _ herror, ite_self]
        exact h
  | addPlayerToGroup p g =>
    by_cases hg : d.Has g
    · obtain ⟨changed, db', hok, hholds, -⟩ := addPlayerToGroup_of_has h hg p
      simp only [Call.effect, Call.act, dif_pos hg, final_of_ok hok]
      exact hholds
    · obtain ⟨e, db', herror⟩ := addPlayerToGroup_of_not_has h hg p
      simp only [Call.effect, Call.act, dif_neg hg, final_of_error herror,
        PermissionRepository.atomic_addPlayerToGroup _ _ herror]
      exact h
  | removePlayerFromGroup p g =>
    obtain ⟨changed, db', hok, hholds, -⟩ := removePlayerFromGroup_result h p g
    simp only [Call.effect, Call.act, final_of_ok hok]
    exact hholds
  | appendACE =>
    exact hother (PermissionRepository.within_appendACE aclMoves_sameGroups _ _ _ _ _ (fun _ => trivial) db)
  | insertACE =>
    exact hother (PermissionRepository.within_insertACE aclMoves_sameGroups _ _ _ _ _ _ (fun _ => trivial) db)
  | removeACE => exact hother (PermissionRepository.within_removeACE aclMoves_sameGroups _ _ db)
  | moveACE => exact hother (PermissionRepository.within_moveACE aclMoves_sameGroups _ _ _ db)
  | clearNodeACL => exact hother (PermissionRepository.within_clearNodeACL aclMoves_sameGroups _ db)
  | checkPermission => exact h
  | invalidate => exact h

/-- The calls that change groups or memberships. -/
def Call.EditsGroups : Call → Prop
  | createGroup .. | deleteGroup _ | setGroupParent .. | addPlayerToGroup .. | removePlayerFromGroup .. => True
  | _ => False

theorem Call.throws_iff_not_permitted {m : PermissionManager} (hm : m.db.Sound) (h : m.db.Holds d) {call : Call}
    (hcall : call.EditsGroups) : call.Throws m ↔ ¬ call.Permitted d := by
  cases call with
  | createGroup uuid name parent =>
    rw [throws_createGroup]
    constructor
    · intro hthrows hc
      obtain ⟨hname, hok⟩ := createGroup_of_canCreate h hc
      rcases hthrows with hsome | hfails
      · rw [hname] at hsome
        cases hsome
      · exact not_fails_of_ok hok hfails
    · exact fun hc => .inr (createGroup_of_not_canCreate h hc)
  | setGroupParent g parent =>
    rw [throws_setGroupParent]
    constructor
    · intro hthrows hp
      obtain ⟨hc, hok⟩ := setGroupParent_of_permitted h hm.groups_key hp
      exact hthrows.elim hc (not_fails_of_ok hok)
    · exact setGroupParent_of_not_permitted h hm.groups_key
  | deleteGroup g =>
    obtain ⟨db', hok⟩ := deleteGroup_succeeds hm.masks hm.numbered_entries g
    refine iff_of_false (fun hthrows => ?_) (not_not_intro trivial)
    exact not_fails_of_ok hok (throws_writer.1 (throws_map.1 hthrows))
  | addPlayerToGroup p g =>
    refine throws_map.trans (throws_membership.trans ?_)
    constructor
    · rintro hfails (hg : d.Has g)
      obtain ⟨changed, db', hok, -⟩ := addPlayerToGroup_of_has h hg p
      exact not_fails_of_ok hok hfails
    · exact fun hg => addPlayerToGroup_of_not_has h hg p
  | removePlayerFromGroup p g =>
    obtain ⟨changed, db', hok, -⟩ := removePlayerFromGroup_result h p g
    refine iff_of_false (fun hthrows => ?_) (not_not_intro trivial)
    exact not_fails_of_ok hok (throws_membership.1 (throws_map.1 hthrows))
  | appendACE | insertACE | removeACE | moveACE | clearNodeACL | checkPermission | invalidate => exact hcall.elim

end Calls

/-! ### The queries -/

/-- The group as the directory has it. -/
def GroupInfo.In (d : GroupDirectory) (info : GroupInfo) : Prop :=
  d.name info.uuid = some info.name ∧ d.parent info.uuid = info.parentUuid

/-- What the queries list is what the directory says, each entry once, groups by name and members by uuid. -/
structure Db.Lists (db : Db) (d : GroupDirectory) : Prop where
  group : ∀ uuid info, PermissionRepository.getGroup db uuid = some info ↔ info.In d ∧ info.uuid = uuid
  groupByName : ∀ name info, PermissionRepository.getGroupByName db name = some info ↔ info.In d ∧ info.name = name
  allGroups : (PermissionRepository.getAllGroups db).Pairwise (fun a b => a.name < b.name) ∧
    ∀ info, info ∈ PermissionRepository.getAllGroups db ↔ info.In d
  playerGroups : ∀ p, (PermissionRepository.getPlayerGroups db p).Pairwise (fun a b => a.name < b.name) ∧
    ∀ info, info ∈ PermissionRepository.getPlayerGroups db p ↔ info.In d ∧ d.member p info.uuid
  groupMembers : ∀ g, (PermissionRepository.getGroupMembers db g).Pairwise (· < ·) ∧
    ∀ p, p ∈ PermissionRepository.getGroupMembers db g ↔ d.member p g

section Queries

variable {db : Db} {d : GroupDirectory}

theorem Db.Holds.mem_groupInfos (h : db.Holds d) {info : GroupInfo} :
    (∃ row ∈ db.groups, rowToGroupInfo row = info) ↔ info.In d := by
  constructor
  · rintro ⟨row, hrow, rfl⟩
    exact (h.group row).1 hrow
  · intro hinfo
    exact ⟨⟨info.uuid, info.name, info.parentUuid⟩, (h.group _).2 hinfo, rfl⟩

theorem Db.Holds.find_info (h : db.Holds d) (key : GroupInfo → String)
    (hkey : (db.groups.map fun row => key (rowToGroupInfo row)).Nodup) {k : String} {info : GroupInfo} :
    (db.groups.find? fun row => key (rowToGroupInfo row) == k).map rowToGroupInfo = some info ↔
      info.In d ∧ key info = k := by
  rw [Option.map_eq_some_iff, ← h.mem_groupInfos]
  constructor
  · rintro ⟨row, hfind, rfl⟩
    obtain ⟨hrow, hk⟩ := (Table.find?_eq_some_iff hkey).1 hfind
    exact ⟨⟨row, hrow, rfl⟩, hk⟩
  · rintro ⟨⟨row, hrow, rfl⟩, hk⟩
    exact ⟨row, (Table.find?_eq_some_iff hkey).2 ⟨hrow, hk⟩, rfl⟩

/-- Groups of distinct names, sorted by name. -/
theorem pairwise_sorted_infos {rows : List GroupRow} (h : (rows.map GroupRow.name).Nodup) :
    ((rows.insertionSort fun a b => a.name ≤ b.name).map rowToGroupInfo).Pairwise fun a b => a.name < b.name :=
  List.pairwise_map.2 (Table.pairwise_sort GroupRow.name h)

theorem mem_playerGroupRows {p : String} {row : GroupRow} : row ∈ PermissionRepository.playerGroupRows db p ↔
    row ∈ db.groups ∧ (⟨p, row.uuid⟩ : PlayerGroupRow) ∈ db.playerGroups := by
  simp only [PermissionRepository.playerGroupRows, List.mem_flatMap, List.mem_filter, beq_iff_eq]
  constructor
  · rintro ⟨⟨player, group⟩, ⟨hpg, rfl⟩, hrow, rfl⟩
    exact ⟨hrow, hpg⟩
  · rintro ⟨hrow, hpg⟩
    exact ⟨_, ⟨hpg, rfl⟩, hrow, rfl⟩

/-- The join has no group twice. -/
theorem nodup_playerGroupRows (hdb : db.Schema) (p : String) :
    ((PermissionRepository.playerGroupRows db p).map GroupRow.name).Nodup := by
  have hrows : (PermissionRepository.playerGroupRows db p).Nodup := by
    refine List.nodup_flatMap.2 ⟨fun pg _ => hdb.groups_key.of_map.filter _, ?_⟩
    refine (hdb.playerGroups_key.filter _).imp_of_mem fun {pg pg'} hpg hpg' hne row hrow hrow' => hne ?_
    have hplayer := (List.mem_filter.1 hpg).2
    have hplayer' := (List.mem_filter.1 hpg').2
    have hgroup := (List.mem_filter.1 hrow).2
    have hgroup' := (List.mem_filter.1 hrow').2
    obtain ⟨player, group⟩ := pg
    obtain ⟨player', group'⟩ := pg'
    simp_all
  refine hrows.map_on fun row hrow row' hrow' hname => ?_
  exact List.inj_on_of_nodup_map hdb.groups_name (mem_playerGroupRows.1 hrow).1 (mem_playerGroupRows.1 hrow').1 hname

theorem Db.Holds.lists (hdb : db.Schema) (h : db.Holds d) : db.Lists d where
  group _ _ := h.find_info GroupInfo.uuid hdb.groups_key
  groupByName _ _ := h.find_info GroupInfo.name hdb.groups_name
  allGroups := by
    refine ⟨pairwise_sorted_infos hdb.groups_name, fun info => ?_⟩
    rw [← h.mem_groupInfos, PermissionRepository.getAllGroups, List.mem_map]
    simp only [List.mem_insertionSort]
  playerGroups p := by
    refine ⟨pairwise_sorted_infos (nodup_playerGroupRows hdb p), fun info => ?_⟩
    rw [← h.mem_groupInfos, PermissionRepository.getPlayerGroups, List.mem_map]
    simp only [List.mem_insertionSort, mem_playerGroupRows, h.member]
    constructor
    · rintro ⟨row, ⟨hrow, hmember⟩, rfl⟩
      exact ⟨⟨row, hrow, rfl⟩, hmember⟩
    · rintro ⟨⟨row, hrow, rfl⟩, hmember⟩
      exact ⟨row, ⟨hrow, hmember⟩, rfl⟩
  groupMembers g := by
    constructor
    · refine Table.pairwise_sort id ?_
      rw [List.map_id]
      refine (hdb.playerGroups_key.filter _).map_on fun pg hpg pg' hpg' hplayer => ?_
      have hgroup := (List.mem_filter.1 hpg).2
      have hgroup' := (List.mem_filter.1 hpg').2
      obtain ⟨player, group⟩ := pg
      obtain ⟨player', group'⟩ := pg'
      simp_all
    · intro p
      rw [← h.member ⟨p, g⟩, PermissionRepository.getGroupMembers, List.mem_insertionSort, List.mem_map]
      simp only [List.mem_filter, beq_iff_eq]
      constructor
      · rintro ⟨⟨player, group⟩, ⟨hpg, rfl⟩, rfl⟩
        exact hpg
      · exact fun hpg => ⟨_, ⟨hpg, rfl⟩, rfl⟩

end Queries

/-! ### Runs -/

/-- The manager does what the directory says. -/
structure Follows (m : PermissionManager) (d : GroupDirectory) : Prop where
  holds : m.db.Holds d
  lists : m.db.Lists d
  throws : ∀ call : Call, call.EditsGroups → (call.Throws m ↔ ¬ call.Permitted d)
  added : ∀ p g, d.Has g → ∃ changed m', PermissionManager.addPlayerToGroup p g m = .ok changed m' ∧
    (changed = true ↔ ¬ d.member p g)
  removed : ∀ p g, ∃ changed m', PermissionManager.removePlayerFromGroup p g m = .ok changed m' ∧
    (changed = true ↔ d.member p g)

theorem follows_of_holds {m : PermissionManager} (hm : m.db.Sound) {d : GroupDirectory} (h : m.db.Holds d) :
    Follows m d where
  holds := h
  lists := h.lists hm.toSchema
  throws _ hcall := Call.throws_iff_not_permitted hm h hcall
  added p g hg := by
    obtain ⟨changed, db', hok, -, hchanged⟩ := addPlayerToGroup_of_has h hg p
    exact ⟨changed, _, membership_of_ok hok p, hchanged⟩
  removed p g := by
    obtain ⟨changed, db', hok, -, hchanged⟩ := removePlayerFromGroup_result h p g
    exact ⟨changed, _, membership_of_ok hok p, hchanged⟩

/-- Over every run of calls the manager follows the directory. -/
theorem group_store_follows {db : Db} (hdb : db.Sound) (calls : List Call) :
    Follows (runCalls (.init db) calls) (Run.run Call.act hdb.directory calls) := by
  refine follows_of_holds (sound_runCalls hdb calls) ?_
  induction calls using List.reverseRecOn with
  | nil => exact hdb.holds_directory
  | append_singleton calls call ih =>
    rw [Run.run_concat, runCalls, Run.run_concat, Call.apply_db]
    exact Call.holds_effect (sound_runCalls hdb calls) ih call

/-- Two groups, one below the other and with a member, a parent that would close a cycle, and the group deleted. -/
def directoryCalls : List Call :=
  [.createGroup "g" "staff" none, .createGroup "h" "default" (some "g"), .addPlayerToGroup "p" "g",
    .setGroupParent "g" (some "h"), .deleteGroup "g"]

theorem group_store_follows_sample :
    Follows (runCalls (.init Db.empty) directoryCalls)
      (Run.run Call.act Db.sound_empty.directory directoryCalls) :=
  group_store_follows Db.sound_empty directoryCalls

end BakaPerms
