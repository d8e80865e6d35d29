import BakaPerms.Cache
import BakaPerms.Sequential

/-!
# The group hierarchy

Following `parent_uuid` must never come back to a group.  Every operation but one keeps that: a new group is
nobody's parent and deleting a group only cuts links.  Setting a parent closes a cycle exactly when the group is an
ancestor of its new parent at any height (`acyclic_setGroupParent`), while `wouldCreateCycle` looks at 32 parent
steps on the table of its own query (`wouldCreateCycle_iff`).  So the hierarchy stays acyclic in a run of calls
exactly when no call sets a parent with the group more than 32 steps above it (`acyclic_runCalls_iff`), and under
concurrency exactly when the check still holds at each `UPDATE` (`acyclic_schedule_iff`).
-/

namespace BakaPerms

open Chain Effect PermissionRepository PermissionManager

/-! ### The parent links after an operation -/

theorem parentOf_congr {db db' : Db} (h : db'.groups = db.groups) : db'.parentOf = db.parentOf := by
  funext u
  unfold Db.parentOf Db.findGroup
  rw [h]

theorem parentOf_withParent {db : Db} {g : String} (hg : g ∈ db.groupUuids) (parent : Option String) :
    Db.parentOf { db with groups := withParent db.groups g parent } = Function.update db.parentOf g parent := by
  have hfind : ∀ u, Db.findGroup { db with groups := withParent db.groups g parent } u =
      (db.findGroup u).map fun row => if row.uuid == g then row.setParent parent else row := by
    intro u
    unfold Db.findGroup withParent Table.rewrite
    rw [List.find?_map]
    congr 2
    funext row
    by_cases hrow : row.uuid = g <;> simp [hrow]
  funext u
  unfold Db.parentOf
  rw [hfind]
  cases hu : db.findGroup u with
  | none =>
    have hne : u ≠ g := by
      rintro rfl
      have := Db.findGroup_isSome.2 hg
      rw [hu] at this
      cases this
    rw [Function.update_of_ne hne, hu]
    rfl
  | some row =>
    have huuid : row.uuid = u := by simpa using List.find?_some hu
    by_cases hug : u = g
    · subst hug
      rw [Function.update_self]
      simp [huuid]
    · rw [Function.update_of_ne hug, hu]
      simp [huuid, hug]

theorem withParent_of_notMem {db : Db} {g : String} (hg : g ∉ db.groupUuids) (parent : Option String) :
    withParent db.groups g parent = db.groups := by
  refine Table.rewrite_of_forall_not fun row hrow => ?_
  have hne : row.uuid ≠ g := fun h => hg (h ▸ List.mem_map_of_mem hrow)
  simpa using hne

theorem parentOf_append {db : Db} {row : GroupRow} (hnew : row.uuid ∉ db.groupUuids) :
    Db.parentOf { db with groups := db.groups ++ [row] } = Function.update db.parentOf row.uuid row.parentUuid := by
  funext u
  unfold Db.parentOf Db.findGroup
  rw [List.find?_append]
  by_cases hu : u = row.uuid
  · subst hu
    have hnone : db.groups.find? (fun r => r.uuid == row.uuid) = none := by
      refine List.find?_eq_none.2 fun r hr => ?_
      have hne : r.uuid ≠ row.uuid := fun h => hnew (h ▸ List.mem_map_of_mem hr)
      simpa using hne
    rw [hnone, Function.update_self]
    simp
  · rw [Function.update_of_ne hu]
    have hne : row.uuid ≠ u := Ne.symm hu
    simp [hne]

theorem parentOf_withoutGroup {db : Db} (hdb : db.Schema) {db' : Db} (hdb' : db'.Schema) {g : String}
    (h : db'.groups = withoutGroup db.groups g) {u v : String} (hv : db'.parentOf u = some v) :
    db.parentOf u = some v := by
  obtain ⟨row, hrow, rfl, hparent⟩ := (Db.parentOf_eq_some hdb'.groups_key).1 hv
  rw [h] at hrow
  obtain ⟨row', hrow', rfl⟩ := Table.mem_rewrite.1 hrow
  by_cases hp : row'.parentUuid = some g
  · simp [hp] at hparent
  · simp only [beq_iff_eq, hp, ↓reduceIte] at hparent ⊢
    exact (Db.parentOf_eq_some hdb.groups_key).2 ⟨row', List.mem_of_mem_filter hrow', rfl, hparent⟩

/-! ### Acyclicity after an operation -/

/-- Under the foreign keys only a group that exists can be above another group. -/
theorem mem_groupUuids_of_reaches {db : Db} (hdb : db.Schema) {p g : String} {n : Nat}
    (h : ascend db.parentOf (n + 1) p = some g) : p ∈ db.groupUuids ∧ g ∈ db.groupUuids := by
  have hp := Db.mem_groupUuids_of_ascend h
  exact ⟨hp, hdb.ascend_mem hp h⟩

theorem wouldCreateCycle_iff {db : Db} (hdb : db.groupUuids.Nodup) {g p : String} :
    wouldCreateCycle db g p = true ↔ g ∈ db.groupUuids ∧ ∃ n ≤ 32, ascend db.parentOf n p = some g := by
  unfold wouldCreateCycle
  have hany : (getGroupAncestry db p).any (fun ancestor => ancestor.uuid == g) = true ↔
      g ∈ (getGroupAncestry db p).map GroupInfo.uuid := by
    simp [List.any_eq_true]
  rw [hany, mem_getGroupAncestry hdb]
  constructor
  · rintro ⟨-, hg, hn⟩
    exact ⟨hg, hn⟩
  · rintro ⟨hg, n, hn, hasc⟩
    refine ⟨?_, hg, n, hn, hasc⟩
    cases n with
    | zero =>
      rw [ascend_zero, Option.some.injEq] at hasc
      rw [hasc]
      exact hg
    | succ n => exact Db.mem_groupUuids_of_ascend hasc

/-- Setting a parent closes a cycle exactly when the group is at or above its new parent. -/
theorem acyclic_setGroupParent {db : Db} (h : Acyclic db.parentOf) (g p : String) :
    Acyclic (final (PermissionRepository.setGroupParent g (some p)) db).parentOf ↔
      ¬ (g ∈ db.groupUuids ∧ Reaches db.parentOf p g) := by
  by_cases hg : g ∈ db.groupUuids
  · by_cases hp : p ∈ db.groupUuids
    · have hok : PermissionRepository.setGroupParent g (some p) db =
          .ok () { db with groups := withParent db.groups g (some p) } := by
        refine updateGroupParent_eq_ok.2 ⟨fun _ parent hparent => ?_, rfl⟩
        rw [← Option.some.inj hparent]
        exact hp
      rw [final_of_ok hok, parentOf_withParent hg, acyclic_update_iff h]
      simp [hg]
    · have hno : ¬ Reaches db.parentOf p g := by
        rintro ⟨n, hn⟩
        cases n with
        | zero =>
          rw [ascend_zero, Option.some.injEq] at hn
          rw [hn] at hp
          exact hp hg
        | succ n => exact hp (Db.mem_groupUuids_of_ascend hn)
      have hsame : final (PermissionRepository.setGroupParent g (some p)) db = db := by
        cases hx : PermissionRepository.setGroupParent g (some p) db with
        | error e db' => rw [final_of_error hx, updateGroupParent_error hx]
        | ok a db' => exact absurd ((updateGroupParent_eq_ok.1 hx).1 hg p rfl) hp
      rw [hsame]
      simp [h, hno]
  · have hok : PermissionRepository.setGroupParent g (some p) db =
        .ok () { db with groups := withParent db.groups g (some p) } :=
      updateGroupParent_eq_ok.2 ⟨fun hg' => absurd hg' hg, rfl⟩
    rw [final_of_ok hok, withParent_of_notMem hg]
    simp [h, hg]

theorem acyclic_clearParent {db : Db} (h : Acyclic db.parentOf) (g : String) :
    Acyclic (final (PermissionRepository.setGroupParent g none) db).parentOf := by
  have hok : PermissionRepository.setGroupParent g none db =
      .ok () { db with groups := withParent db.groups g none } :=
    updateGroupParent_eq_ok.2 ⟨fun _ parent hparent => (by cases hparent), rfl⟩
  rw [final_of_ok hok]
  by_cases hg : g ∈ db.groupUuids
  · rw [parentOf_withParent hg]
    exact h.update_none g
  · rw [withParent_of_notMem hg]
    exact h

/-- A new group that is not its own parent. -/
theorem acyclic_createGroup {db : Db} (hdb : db.Schema) (h : Acyclic db.parentOf) {uuid name : String}
    {parent : Option String} (hne : parent ≠ some uuid) :
    Acyclic (final (PermissionRepository.createGroup uuid name parent) db).parentOf := by
  cases hx : PermissionRepository.createGroup uuid name parent db with
  | error e db' => rwa [final_of_error hx, insertGroup_error hx]
  | ok a db' =>
    obtain ⟨⟨hnew, -⟩, rfl⟩ := insertGroup_eq_ok.1 hx
    rw [final_of_ok hx, parentOf_append hnew]
    cases parent with
    | none => exact h.update_none uuid
    | some p =>
      refine (acyclic_update_iff h uuid p).2 ?_
      rintro ⟨n, hn⟩
      cases n with
      | zero => exact hne hn
      | succ n => exact hnew (mem_groupUuids_of_reaches hdb hn).2

theorem acyclic_deleteGroup {db : Db} (hdb : db.Schema) (h : Acyclic db.parentOf) (g : String) :
    Acyclic (final (PermissionRepository.deleteGroup g) db).parentOf := by
  have hdb' := within_deleteGroup aclMoves_schema g (within_deleteGroupRow g) db hdb
  cases hx : PermissionRepository.deleteGroup g db with
  | error e db' => rwa [final_of_error hx, atomic_deleteGroup g hx]
  | ok a db' =>
    rw [final_of_ok hx] at hdb' ⊢
    rcases deleteGroup_groups hx with ⟨-, hgroups, -⟩ | ⟨-, hgroups, -⟩
    · exact h.mono fun u v hv => parentOf_withoutGroup hdb hdb' hgroups hv
    · rwa [parentOf_congr hgroups]

private theorem groups_of_within {α : Type} {x : DbM α} (hx : Within SameGroups x) (db : Db) :
    (final x db).groups = db.groups := (Prod.mk.inj (hx db)).1

/-- Only three calls touch the groups. -/
theorem Call.groups_effect (db : Db) (call : Call) :
    (∃ uuid name parent, call = .createGroup uuid name parent) ∨ (∃ g, call = .deleteGroup g) ∨
      (∃ g parent, call = .setGroupParent g parent) ∨ (call.effect db).groups = db.groups := by
  cases call with
  | createGroup uuid name parent => exact .inl ⟨uuid, name, parent, rfl⟩
  | deleteGroup g => exact .inr (.inl ⟨g, rfl⟩)
  | setGroupParent g parent => exact .inr (.inr (.inl ⟨g, parent, rfl⟩))
  | checkPermission => exact .inr (.inr (.inr rfl))
  | invalidate => exact .inr (.inr (.inr rfl))
  | appendACE =>
    exact .inr (.inr (.inr (groups_of_within (within_appendACE aclMoves_sameGroups _ _ _ _ _ fun _ => trivial) db)))
  | insertACE =>
    exact .inr (.inr (.inr (groups_of_within (within_insertACE aclMoves_sameGroups _ _ _ _ _ _ fun _ => trivial) db)))
  | removeACE => exact .inr (.inr (.inr (groups_of_within (within_removeACE aclMoves_sameGroups _ _) db)))
  | moveACE => exact .inr (.inr (.inr (groups_of_within (within_moveACE aclMoves_sameGroups _ _ _) db)))
  | clearNodeACL => exact .inr (.inr (.inr (groups_of_within (within_clearNodeACL aclMoves_sameGroups _) db)))
  | addPlayerToGroup playerUuid g =>
    refine .inr (.inr (.inr ?_))
    show (final (insertPlayerGroup ⟨playerUuid, g⟩ >>= fun n => pure (decide (0 < n))) db).groups = db.groups
    rw [final_bind_pure]
    cases hx : insertPlayerGroup ⟨playerUuid, g⟩ db with
    | error e db' => rw [final_of_error hx, insertPlayerGroup_error hx]
    | ok n db' =>
      rw [final_of_ok hx]
      rcases insertPlayerGroup_ok hx with ⟨-, rfl⟩ | ⟨-, -, -, rfl⟩ <;> rfl
  | removePlayerFromGroup => exact .inr (.inr (.inr rfl))

/-- Every call but `setGroupParent` with a parent keeps the hierarchy acyclic. -/
theorem acyclic_effect {db : Db} (hdb : db.Schema) (h : Acyclic db.parentOf) {call : Call}
    (hfresh : ∀ uuid name, call ≠ .createGroup uuid name (some uuid))
    (hset : ∀ g p, call = .setGroupParent g (some p) → wouldCreateCycle db g p = false →
      ¬ (g ∈ db.groupUuids ∧ Reaches db.parentOf p g)) :
    Acyclic (call.effect db).parentOf := by
  rcases call.groups_effect db with ⟨uuid, name, parent, rfl⟩ | ⟨g, rfl⟩ | ⟨g, parent, rfl⟩ | hgroups
  · simp only [Call.effect]
    split
    · exact h
    · refine acyclic_createGroup hdb h ?_
      rintro rfl
      exact hfresh uuid name rfl
  · exact acyclic_deleteGroup hdb h g
  · cases parent with
    | none => exact acyclic_clearParent h g
    | some p =>
      simp only [Call.effect, Option.any_some]
      by_cases hc : wouldCreateCycle db g p
      · rwa [if_pos hc]
      · rw [if_neg hc]
        exact (acyclic_setGroupParent h g p).2 (hset g p rfl (by simpa using hc))
  · rwa [parentOf_congr hgroups]

/-! ### Calls one after another -/

/-- A group that is at or above the new parent lies at most 32 steps above it. -/
def WithinBound (db : Db) (g p : String) : Prop := ∀ n, ascend db.parentOf n p = some g → n ≤ 32

theorem not_reaches_of_withinBound {db : Db} (hdb : db.Schema) {g p : String} (hb : WithinBound db g p)
    (hc : wouldCreateCycle db g p = false) : ¬ (g ∈ db.groupUuids ∧ Reaches db.parentOf p g) := by
  rintro ⟨hg, n, hn⟩
  have htrue := (wouldCreateCycle_iff hdb.groups_key).2 ⟨hg, n, hb n hn, hn⟩
  rw [hc] at htrue
  cases htrue

/-- A run of calls, in which no group is made its own parent on creation, keeps the hierarchy acyclic exactly when
it never sets a parent with the group more than 32 steps above it. -/
theorem acyclic_runCalls_iff {db : Db} (hdb : db.Schema) (hempty : db.groups = []) {calls : List Call}
    (hfresh : ∀ uuid name, Call.createGroup uuid name (some uuid) ∉ calls) :
    (∀ part, part <+: calls → Acyclic (runCalls (.init db) part).db.parentOf) ↔
      ∀ part g p, part ++ [.setGroupParent g (some p)] <+: calls → WithinBound (runCalls (.init db) part).db g p := by
  have hschema : ∀ part, (runCalls (.init db) part).db.Schema := fun part => schema_runCalls hdb part
  have hconcat : ∀ part call, (runCalls (.init db) (part ++ [call])).db =
      call.effect (runCalls (.init db) part).db := by
    intro part call
    rw [← Call.apply_db]
    exact congrArg PermissionManager.db (Run.run_concat ..)
  constructor
  · intro hacyc part g p hpart n hn
    have hbefore := hacyc part ((List.prefix_append _ _).trans hpart)
    have hafter := hacyc _ hpart
    rw [hconcat] at hafter
    by_contra hlong
    obtain ⟨k, rfl⟩ : ∃ k, n = k + 1 := ⟨n - 1, by omega⟩
    have hg := (mem_groupUuids_of_reaches (hschema part) hn).2
    -- the group is at one height only, which the query does not reach
    have hc : ¬ wouldCreateCycle (runCalls (.init db) part).db g p = true := by
      intro hc
      obtain ⟨-, m, hm, hasc⟩ := (wouldCreateCycle_iff (hschema part).groups_key).1 hc
      have := hbefore.height_unique hasc hn
      omega
    simp only [Call.effect, Option.any_some, if_neg hc] at hafter
    exact (acyclic_setGroupParent hbefore g p).1 hafter ⟨hg, _, hn⟩
  · intro hbound part hpart
    refine Run.prefix_induction (P := fun part => Acyclic (runCalls (.init db) part).db.parentOf) ?_ ?_ hpart
    · intro u n hu
      have := Db.mem_groupUuids_of_ascend hu
      simp [PermissionManager.init, Db.groupUuids, hempty] at this
    · intro part call hpc ih
      rw [hconcat]
      refine acyclic_effect (hschema part) ih ?_ ?_
      · rintro uuid name rfl
        exact hfresh uuid name (hpc.subset (by simp))
      · rintro g p rfl hc
        exact not_reaches_of_withinBound (hschema part) (hbound part g p hpc) hc

/-- A chain of `n + 1` groups, each created under the one before. -/
def chainCalls (n : Nat) : List Call :=
  .createGroup "0" "0" none ::
    (List.range n).map fun k => .createGroup (toString (k + 1)) (toString (k + 1)) (some (toString k))

/-- The top of a chain of 34 groups gets the bottom as its parent: `wouldCreateCycle` does not see the top. -/
theorem deep_cycle :
    ascend (runCalls (.init Db.empty) (chainCalls 33 ++ [.setGroupParent "0" (some "33")])).db.parentOf 34 "0" =
      some "0" := by
  decide +kernel

/-- A group gets a parent, and the opposite link is refused. -/
def reparentCalls : List Call :=
  [.createGroup "a" "alpha" none, .createGroup "b" "beta" none, .setGroupParent "b" (some "a"),
    .setGroupParent "a" (some "b")]

theorem acyclic_runCalls_iff_sample :
    ((∀ part, part <+: reparentCalls → Acyclic (runCalls (.init Db.empty) part).db.parentOf) ↔
        ∀ part g p, part ++ [.setGroupParent g (some p)] <+: reparentCalls →
          WithinBound (runCalls (.init Db.empty) part).db g p) ∧
      (runCalls (.init Db.empty) reparentCalls).db.parentOf "b" = some "a" ∧
      (runCalls (.init Db.empty) reparentCalls).db.parentOf "a" = none := by
  refine ⟨acyclic_runCalls_iff Db.schema_empty rfl fun uuid name h => ?_, by decide +kernel, by decide +kernel⟩
  simp [reparentCalls] at h

/-! ### Calls of `setGroupParent` in any order -/

/-- The parties that calls of `setGroupParent` can become. -/
def Reparents : Thread → Prop
  | .start (.setGroupParent _ _) | .updateParent _ _ | .invalidate _ | .returned _ | .failed _ => True
  | _ => False

private theorem reparents_commit {m : PermissionManager} {x : DbM Unit} :
    Reparents (commit m x fun _ => .invalidate none).2 := by
  unfold commit
  cases x m.db <;> trivial

/-- The step of such a party leaves the database, clears a parent, or is the update that follows a check. -/
theorem Reparents.step {m : PermissionManager} {t : Thread} (ht : Reparents t) :
    Reparents (t.step m).2 ∧ ((t.step m).1.db = m.db ∨
      (∃ g, (t.step m).1.db = final (PermissionRepository.setGroupParent g none) m.db) ∨
      ∃ g p, t = .updateParent g p ∧
        (t.step m).1.db = final (PermissionRepository.setGroupParent g (some p)) m.db) := by
  cases t with
  | start call =>
    cases call with
    | setGroupParent g parent =>
      cases parent with
      | none =>
        refine ⟨reparents_commit, .inr (.inl ⟨g, ?_⟩)⟩
        simp only [Thread.step, Call.step, commit_fst]
      | some p =>
        simp only [Thread.step, Call.step]
        split
        · exact ⟨trivial, .inl rfl⟩
        · exact ⟨trivial, .inl rfl⟩
    | _ => exact ht.elim
  | updateParent g p =>
    refine ⟨reparents_commit, .inr (.inr ⟨g, p, rfl, ?_⟩)⟩
    simp only [Thread.step, commit_fst]
  | invalidate target => exact ⟨trivial, .inl rfl⟩
  | returned result => exact ⟨trivial, .inl rfl⟩
  | failed e => exact ⟨trivial, .inl rfl⟩
  | check => exact ht.elim
  | insertGroup => exact ht.elim

theorem groupUuids_setGroupParent (db : Db) (g : String) (parent : Option String) :
    (final (PermissionRepository.setGroupParent g parent) db).groupUuids = db.groupUuids := by
  cases hx : PermissionRepository.setGroupParent g parent db with
  | error e db' => rw [final_of_error hx, updateGroupParent_error hx]
  | ok a db' =>
    obtain ⟨-, rfl⟩ := updateGroupParent_eq_ok.1 hx
    rw [final_of_ok hx]
    exact map_uuid_withParent ..

/-- In an acyclic hierarchy of at most 32 groups the check sees every ancestor. -/
theorem withinBound_of_length_le {db : Db} (hdb : db.Schema) (h : Acyclic db.parentOf)
    (hsmall : db.groups.length ≤ 32) (g p : String) : WithinBound db g p := by
  intro n hn
  cases n with
  | zero => exact Nat.zero_le _
  | succ n =>
    have hp := Db.mem_groupUuids_of_ascend hn
    have hlt := ascend_lt_length h hn fun k _ x hx => hdb.ascend_mem hp hx
    have hlen : db.groupUuids.length = db.groups.length := List.length_map _
    omega

/-- The groups stay the same ones and every party is a call of `setGroupParent`. -/
structure Reparenting (db : Db) (s : System) : Prop where
  schema : s.manager.db.Schema
  groups : s.manager.db.groupUuids = db.groupUuids
  threads : ∀ t ∈ s.threads, Reparents t

theorem reparenting_init {db : Db} (hdb : db.Schema) (args : List (String × Option String)) :
    Reparenting db (System.init db (args.map fun a => .setGroupParent a.1 a.2)) where
  schema := hdb
  groups := rfl
  threads := by
    intro t ht
    obtain ⟨call, hcall, rfl⟩ := List.mem_map.1 ht
    obtain ⟨a, -, rfl⟩ := List.mem_map.1 hcall
    trivial

/-- What a step of one of the parties does to the hierarchy. -/
theorem Reparenting.step {db : Db} {s : System} (hs : Reparenting db s) (i : Nat) :
    Reparenting db (s.step i) ∧ ((s.step i).manager.db = s.manager.db ∨
      (∃ g, (s.step i).manager.db = final (PermissionRepository.setGroupParent g none) s.manager.db) ∨
      ∃ g p, s.threads[i]? = some (.updateParent g p) ∧
        (s.step i).manager.db = final (PermissionRepository.setGroupParent g (some p)) s.manager.db) := by
  rcases s.step_cases i with ⟨-, heq⟩ | ⟨t, ht, hm, hthreads⟩
  · rw [heq]
    exact ⟨hs, .inl rfl⟩
  obtain ⟨hnext, hstep⟩ := (hs.threads t (List.mem_of_getElem? ht)).step (m := s.manager)
  rw [← hm] at hstep
  refine ⟨⟨?_, ?_, ?_⟩, ?_⟩
  · rcases hstep with h | ⟨g, h⟩ | ⟨g, p, -, h⟩ <;> rw [h]
    · exact hs.schema
    · exact within_updateGroupParent g none _ hs.schema
    · exact within_updateGroupParent g (some p) _ hs.schema
  · rcases hstep with h | ⟨g, h⟩ | ⟨g, p, -, h⟩ <;> rw [h]
    · exact hs.groups
    · exact (groupUuids_setGroupParent ..).trans hs.groups
    · exact (groupUuids_setGroupParent ..).trans hs.groups
  · intro u hu
    rw [hthreads] at hu
    rcases List.mem_or_eq_of_mem_set hu with hu | rfl
    · exact hs.threads u hu
    · exact hnext
  · rcases hstep with h | h | ⟨g, p, rfl, h⟩
    · exact .inl h
    · exact .inr (.inl h)
    · exact .inr (.inr ⟨g, p, ht, h⟩)

/-- Concurrent calls of `setGroupParent` on at most 32 groups keep the hierarchy acyclic exactly when the check that
each of them has made still holds at its `UPDATE`. -/
theorem acyclic_schedule_iff {db : Db} (hdb : db.Schema) (hacyc : Acyclic db.parentOf)
    (hsmall : db.groups.length ≤ 32) {args : List (String × Option String)} {sched : List Nat} :
    (∀ part, part <+: sched → Acyclic
        ((System.init db (args.map fun a => .setGroupParent a.1 a.2)).run part).manager.db.parentOf) ↔
      ∀ part i g p, part ++ [i] <+: sched →
        ((System.init db (args.map fun a => .setGroupParent a.1 a.2)).run part).threads[i]? =
          some (.updateParent g p) →
        wouldCreateCycle ((System.init db (args.map fun a => .setGroupParent a.1 a.2)).run part).manager.db g p =
          false := by
  generalize hinit : System.init db (args.map fun a => Call.setGroupParent a.1 a.2) = s
  have hrun : ∀ part, Reparenting db (s.run part) := fun part =>
    Run.run_invariant (P := Reparenting db) System.step (fun s i h => (h.step i).1)
      (hinit ▸ reparenting_init hdb args) part
  have hlength : ∀ part, (s.run part).manager.db.groups.length ≤ 32 := by
    intro part
    have h := congrArg List.length (hrun part).groups
    simp only [Db.groupUuids, List.length_map] at h
    rw [h]
    exact hsmall
  constructor
  · intro h part i g p hpart hthread
    have hbefore := h part ((List.prefix_append _ _).trans hpart)
    have hafter := h _ hpart
    simp only [System.run, Run.run_concat] at hafter hbefore hthread ⊢
    have hupdate : ((Run.run System.step s part).step i).manager.db =
        final (PermissionRepository.setGroupParent g (some p)) (Run.run System.step s part).manager.db := by
      simp only [System.step, hthread, Thread.step, commit_fst]
    rw [hupdate] at hafter
    have hno := (acyclic_setGroupParent hbefore g p).1 hafter
    by_contra hc
    obtain ⟨hg, n, -, hn⟩ := (wouldCreateCycle_iff (hrun part).schema.groups_key).1 (by simpa using hc)
    exact hno ⟨hg, n, hn⟩
  · intro hcheck part hpart
    refine Run.run_invariant_on (P := fun s => Acyclic s.manager.db.parentOf) System.step ?_ ?_ hpart
    · rw [← hinit]
      exact hacyc
    · intro part i hpi ih
      rcases (hrun part).step i with ⟨-, h | ⟨g, h⟩ | ⟨g, p, ht, h⟩⟩
      · rwa [h]
      · rw [h]
        exact acyclic_clearParent ih g
      · rw [h, acyclic_setGroupParent ih]
        exact not_reaches_of_withinBound (hrun part).schema
          (withinBound_of_length_le (hrun part).schema ih (hlength part) g p) (hcheck part i g p hpi ht)

/-- Two groups without a parent. -/
def twoGroups : Db := { Db.empty with groups := [⟨"a", "a", none⟩, ⟨"b", "b", none⟩] }

theorem twoGroups_schema : twoGroups.Schema where
  groups_key := by decide
  groups_name := by decide
  playerGroups_key := List.nodup_nil
  permissions_key := List.nodup_nil
  parent_exists := by simp [twoGroups]
  membership_exists := by simp [twoGroups, Db.empty]

theorem twoGroups_acyclic : Acyclic twoGroups.parentOf := by
  intro u n hn
  rw [ascend_succ] at hn
  obtain ⟨v, hv, -⟩ := Option.bind_eq_some_iff.1 hn
  obtain ⟨row, hrow, -, hparent⟩ := (Db.parentOf_eq_some twoGroups_schema.groups_key).1 hv
  simp only [twoGroups, List.mem_cons, List.not_mem_nil, or_false] at hrow
  rcases hrow with rfl | rfl <;> cases hparent

/-- Both calls check before either updates: each group becomes the parent of the other. -/
theorem concurrent_cycle :
    Acyclic twoGroups.parentOf ∧ twoGroups.groups.length ≤ 32 ∧
      ascend ((System.init twoGroups [.setGroupParent "a" (some "b"), .setGroupParent "b" (some "a")]).run
        [0, 1, 0, 1]).manager.db.parentOf 2 "a" = some "a" := by
  refine ⟨twoGroups_acyclic, by decide, ?_⟩
  decide +kernel

theorem acyclic_schedule_iff_sample :
    (∀ part, part <+: [0, 1, 0, 1] → Acyclic ((System.init twoGroups
        ([("a", some "b"), ("b", some "a")].map fun a => .setGroupParent a.1 a.2)).run part).manager.db.parentOf) ↔
      ∀ part i g p, part ++ [i] <+: [0, 1, 0, 1] →
        ((System.init twoGroups
            ([("a", some "b"), ("b", some "a")].map fun a => .setGroupParent a.1 a.2)).run part).threads[i]? =
          some (.updateParent g p) →
        wouldCreateCycle ((System.init twoGroups
            ([("a", some "b"), ("b", some "a")].map fun a => .setGroupParent a.1 a.2)).run part).manager.db g p =
          false :=
  acyclic_schedule_iff twoGroups_schema twoGroups_acyclic (by decide)

end BakaPerms
