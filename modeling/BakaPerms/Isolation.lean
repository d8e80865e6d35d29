import BakaPerms.Deletion
import BakaPerms.Provenance

/-!
# Edits that do not concern a check

A call touches the decision of a player on a node (`Call.Touches`) when it edits the ACL of a node on the path, changes
the groups of the player, or moves or deletes a group of the player's token or with an ACE on the path.  The other
calls leave alone all that a check of the player on the node reads (`SameView`), each query of it and not only the
decision.  So while any number of them run, in any order of their steps, every check returns the decision that the
tables had before (`isolated_schedule`), although its queries are not in one transaction.
-/

namespace BakaPerms

open Chain Effect PermissionRepository PermissionManager PermissionResolver

/-- The call may change what the player is allowed on the node. -/
def Call.Touches (db : Db) (p node : String) : Call → Prop
  | checkPermission .. | invalidate _ | createGroup .. => False
  | appendACE _ k _ _ _ | insertACE _ k _ _ _ _ | removeACE k _ | moveACE k _ _ | clearNodeACL k => Covers k node
  | deleteGroup g => InToken db p g ∨ ∃ row ∈ db.permissions, Covers row.node node ∧ row.subjectUuid = g
  | setGroupParent g _ => InToken db p g
  | addPlayerToGroup q _ | removePlayerFromGroup q _ => q = p

/-- What a check of the player on the node reads is the same in both databases. -/
structure SameView (p node : String) (db db' : Db) : Prop where
  member : ∀ g, (⟨p, g⟩ : PlayerGroupRow) ∈ db'.playerGroups ↔ ⟨p, g⟩ ∈ db.playerGroups
  ancestry : ∀ g, (⟨p, g⟩ : PlayerGroupRow) ∈ db.playerGroups → ∀ n ≤ 32,
    ascend db'.parentOf n g = ascend db.parentOf n g
  acl : ∀ k, Covers k node → aclAt db' k = aclAt db k

section SameView

variable {p node : String} {db₀ db db' : Db}

theorem SameView.refl (p node : String) (db : Db) : SameView p node db db :=
  ⟨fun _ => Iff.rfl, fun _ _ _ _ => rfl, fun _ _ => rfl⟩

theorem SameView.trans (h : SameView p node db₀ db) (h' : SameView p node db db') : SameView p node db₀ db' where
  member g := (h'.member g).trans (h.member g)
  ancestry g hg n hn := (h'.ancestry g ((h.member g).2 hg) n hn).trans (h.ancestry g hg n hn)
  acl k hk := (h'.acl k hk).trans (h.acl k hk)

/-! ### The groups -/

/-- No group of the player leads to `g` within the bound of the ancestry query. -/
def Unreached (db : Db) (p g : String) : Prop :=
  ∀ k, (⟨p, k⟩ : PlayerGroupRow) ∈ db.playerGroups → ∀ n ≤ 32, ascend db.parentOf n k ≠ some g

theorem unreached_of_not_inToken (hdb : db.Schema) {g : String} (h : ¬ InToken db p g) : Unreached db p g := by
  intro k hk n hn hasc
  exact h (.inr ⟨k, hk, hdb.ascend_mem (hdb.membership_exists _ hk) hasc, n, hn, hasc⟩)

theorem SameView.unreached (h : SameView p node db₀ db) {g : String} (hg : Unreached db₀ p g) : Unreached db p g := by
  intro k hk n hn
  have hk₀ := (h.member k).1 hk
  rw [h.ancestry k hk₀ n hn]
  exact hg k hk₀ n hn

/-- Redirecting a link that the player's groups do not come to. -/
theorem ancestry_update {g : String} (hg : Unreached db p g) {o : Option String}
    (hparent : db'.parentOf = Function.update db.parentOf g o) {k : String}
    (hk : (⟨p, k⟩ : PlayerGroupRow) ∈ db.playerGroups) {n : Nat} (hn : n ≤ 32) :
    ascend db'.parentOf n k = ascend db.parentOf n k := by
  rw [hparent]
  exact ascend_update fun j hj => hg k hk j (hj.le.trans hn)

theorem sameView_of_parent (hplayers : db'.playerGroups = db.playerGroups) {g : String} (hg : Unreached db p g)
    {o : Option String} (hparent : db'.parentOf = Function.update db.parentOf g o)
    (hacl : ∀ k, Covers k node → aclAt db' k = aclAt db k) : SameView p node db db' where
  member k := by rw [hplayers]
  ancestry k hk n hn := ancestry_update hg hparent hk hn
  acl := hacl

theorem sameView_of_groups (hgroups : db'.groups = db.groups) (hplayers : db'.playerGroups = db.playerGroups)
    (hacl : ∀ k, Covers k node → aclAt db' k = aclAt db k) : SameView p node db db' where
  member k := by rw [hplayers]
  ancestry k hk n hn := by rw [parentOf_congr hgroups]
  acl := hacl

/-- The update of a parent, whether it comes too late or not. -/
theorem sameView_setGroupParent {g : String} (hg : Unreached db p g) (node : String) (parent : Option String) :
    SameView p node db (final (PermissionRepository.setGroupParent g parent) db) := by
  have hacl : ∀ k, Covers k node → aclAt (final (PermissionRepository.setGroupParent g parent) db) k = aclAt db k :=
    fun k _ => congrFun (aclAt_congr (permissions_setGroupParent ..)) k
  cases h : PermissionRepository.setGroupParent g parent db with
  | error e db' =>
    rw [final_of_error h, updateGroupParent_error h]
    exact .refl p node db
  | ok a db' =>
    rw [final_of_ok h] at hacl ⊢
    obtain ⟨-, rfl⟩ := updateGroupParent_eq_ok.1 h
    by_cases hmem : g ∈ db.groupUuids
    · exact sameView_of_parent rfl hg (parentOf_withParent hmem parent) hacl
    · exact sameView_of_groups (withParent_of_notMem hmem parent) rfl hacl

theorem sameView_createGroup (hdb : db.Schema) (p node uuid name : String) (parent : Option String) :
    SameView p node db (final (PermissionRepository.createGroup uuid name parent) db) := by
  cases h : PermissionRepository.createGroup uuid name parent db with
  | error e db' =>
    rw [final_of_error h, insertGroup_error h]
    exact .refl p node db
  | ok a db' =>
    rw [final_of_ok h]
    obtain ⟨⟨hnew, -, -⟩, rfl⟩ := insertGroup_eq_ok.1 h
    -- the links of the groups that exist do not lead to a new group
    have hunreached : Unreached db p uuid := fun k hk n _ hasc =>
      hnew (hdb.ascend_mem (hdb.membership_exists _ hk) hasc)
    exact sameView_of_parent rfl hunreached (parentOf_append hnew) fun k _ => rfl

theorem sameView_deleteGroup (hdb : db.Schema) {g : String} (hg : Unreached db p g)
    (h : PermissionRepository.deleteGroup g db = .ok () db')
    (hacl : ∀ k, Covers k node → aclAt db' k = aclAt db k) : SameView p node db db' := by
  have hdb' := within_deleteGroup aclMoves_schema g (within_deleteGroupRow g) db hdb
  rw [final_of_ok h] at hdb'
  rcases deleteGroup_groups h with ⟨-, hgroups, hplayers⟩ | ⟨-, hgroups, hplayers⟩
  swap
  · exact sameView_of_groups hgroups hplayers hacl
  refine ⟨fun k => ?_, fun k hk n hn => ?_, hacl⟩
  · rw [hplayers, Table.delete, List.mem_filter]
    refine ⟨fun h => h.1, fun hk => ⟨hk, ?_⟩⟩
    have hne : k ≠ g := fun hkg => hg k hk 0 (Nat.zero_le _) (congrArg some hkg)
    simpa using hne
  · refine ascend_congr fun j hj w hw => parentOf_withoutGroup_of_ne hdb hdb' hgroups ?_ ?_
    · rintro rfl
      exact hg k hk j (hj.le.trans hn) hw
    · intro hwg
      refine hg k hk (j + 1) (Nat.le_trans hj hn) ?_
      rw [ascend_succ', hw]
      exact hwg

/-! ### The memberships -/

theorem mem_addPlayerToGroup {q g k : String} (hq : q ≠ p) :
    (⟨p, k⟩ : PlayerGroupRow) ∈ (final (PermissionRepository.addPlayerToGroup q g) db).playerGroups ↔
      ⟨p, k⟩ ∈ db.playerGroups := by
  show _ ∈ (final (insertPlayerGroup ⟨q, g⟩ >>= fun n => pure (decide (0 < n))) db).playerGroups ↔ _
  rw [final_bind_pure]
  cases h : insertPlayerGroup ⟨q, g⟩ db with
  | error e db' => rw [final_of_error h, insertPlayerGroup_error h]
  | ok n db' =>
    rw [final_of_ok h]
    rcases insertPlayerGroup_ok h with ⟨-, rfl⟩ | ⟨-, -, -, rfl⟩
    · rfl
    · rw [List.mem_append, List.mem_singleton]
      refine or_iff_left fun hrow => hq ?_
      rw [(PlayerGroupRow.mk.inj hrow).1]

theorem mem_removePlayerFromGroup {q g k : String} (hq : q ≠ p) :
    (⟨p, k⟩ : PlayerGroupRow) ∈ (final (PermissionRepository.removePlayerFromGroup q g) db).playerGroups ↔
      ⟨p, k⟩ ∈ db.playerGroups := by
  show _ ∈ Table.delete (· == (⟨q, g⟩ : PlayerGroupRow)) db.playerGroups ↔ _
  rw [Table.delete, List.mem_filter]
  refine and_iff_left ?_
  have hne : (⟨p, k⟩ : PlayerGroupRow) ≠ ⟨q, g⟩ := fun h => hq (PlayerGroupRow.mk.inj h).1.symm
  simpa using hne

/-! ### The ACLs -/

theorem mem_aclAt {k : String} {x : Payload} :
    x ∈ aclAt db k ↔ ∃ row ∈ db.permissions, row.node = k ∧ row.payload = x := by
  unfold aclAt nodeRows
  simp only [List.mem_map, List.mem_insertionSort, List.mem_filter, beq_iff_eq]
  constructor
  · rintro ⟨row, ⟨hrow, hnode⟩, hx⟩
    exact ⟨row, hrow, hnode, hx⟩
  · rintro ⟨row, hrow, hnode, hx⟩
    exact ⟨row, ⟨hrow, hnode⟩, hx⟩

/-- An edit of the ACL of another node. -/
theorem update_getD_of_ne {acl : String → List Payload} {k k' : String} (hk : k' ≠ k) (c : Prop) [Decidable c]
    (l : List Payload) : ((if c then some (Function.update acl k l) else none).getD acl) k' = acl k' := by
  split
  · exact Function.update_of_ne hk ..
  · rfl

/-- The ACLs on the path after a call that does not touch the decision. -/
theorem editACL_of_not_touches (h : SameView p node db₀ db) {call : Call} (hcall : ¬ call.Touches db₀ p node)
    {k : String} (hk : Covers k node) : call.editACL (aclAt db) k = aclAt db k := by
  have hne : ∀ {k'}, ¬ Covers k' node → k ≠ k' := fun hk' heq => hk' (heq ▸ hk)
  cases call with
  | appendACE now k' => exact Function.update_of_ne (hne hcall) ..
  | insertACE now k' => exact update_getD_of_ne (hne hcall) ..
  | removeACE k' => exact update_getD_of_ne (hne hcall) ..
  | moveACE k' fromIndex toIndex =>
    show ((AclOp.moveACE k' fromIndex toIndex).apply (aclAt db)).getD (aclAt db) k = _
    by_cases hft : fromIndex = toIndex
    · have hself : (AclOp.moveACE k' fromIndex toIndex).apply (aclAt db) = some (aclAt db) := if_pos hft
      rw [hself, Option.getD_some]
    · have hmove : (AclOp.moveACE k' fromIndex toIndex).apply (aclAt db) = if _ then _ else none := if_neg hft
      rw [hmove]
      exact update_getD_of_ne (hne hcall) ..
  | clearNodeACL k' => exact Function.update_of_ne (hne hcall) ..
  | deleteGroup g =>
    refine List.filter_eq_self.2 fun x hx => ?_
    rw [h.acl k hk] at hx
    obtain ⟨row, hrow, rfl, rfl⟩ := mem_aclAt.1 hx
    exact decide_eq_true fun hg => hcall (.inr ⟨row, hrow, hk, hg⟩)
  | checkPermission | createGroup | setGroupParent | addPlayerToGroup | removePlayerFromGroup | invalidate => rfl

end SameView

/-! ### Calls that do not touch the decision -/

theorem sameGroups_of_aclOp {op : AclOp} (hop : ∀ g, op ≠ .deleteGroup g) (db : Db) :
    (final op.run db).groups = db.groups ∧ (final op.run db).playerGroups = db.playerGroups := by
  have hsame : Within SameGroups op.run := by
    cases op with
    | appendACE => exact within_appendACE aclMoves_sameGroups _ _ _ _ _ fun _ => trivial
    | insertACE => exact within_insertACE aclMoves_sameGroups _ _ _ _ _ _ fun _ => trivial
    | removeACE => exact within_removeACE aclMoves_sameGroups _ _
    | moveACE => exact within_moveACE aclMoves_sameGroups _ _ _
    | clearNodeACL => exact within_clearNodeACL aclMoves_sameGroups _
    | deleteGroup g => exact absurd rfl (hop g)
  exact Prod.mk.inj (hsame db)

/-- A call that does not touch the decision changes nothing that a check reads. -/
theorem Call.sameView_effect {p node : String} {db₀ db : Db} (hdb₀ : db₀.Sound) (hdb : db.Sound)
    (h : SameView p node db₀ db) {call : Call} (hcall : ¬ call.Touches db₀ p node) :
    SameView p node db (call.effect db) := by
  have hacl : ∀ k, Covers k node → aclAt (call.effect db) k = aclAt db k := by
    intro k hk
    rw [Call.aclAt_effect hdb]
    exact editACL_of_not_touches h hcall hk
  have hother : ∀ {op : AclOp}, call.aclOp = some op → (∀ g, op ≠ .deleteGroup g) →
      SameView p node db (call.effect db) := by
    intro op hop hne
    have hsame := sameGroups_of_aclOp hne db
    rw [← Call.effect_of_aclOp hop] at hsame
    exact sameView_of_groups hsame.1 hsame.2 hacl
  cases call with
  | checkPermission | invalidate => exact .refl p node db
  | appendACE | insertACE | removeACE | moveACE | clearNodeACL => exact hother rfl fun g hg => by cases hg
  | createGroup uuid name parent =>
    simp only [Call.effect]
    split
    · exact .refl p node db
    · exact sameView_createGroup hdb.toSchema p node uuid name parent
  | setGroupParent g parent =>
    simp only [Call.effect]
    split
    · exact .refl p node db
    · exact sameView_setGroupParent (h.unreached (unreached_of_not_inToken hdb₀.toSchema hcall)) node parent
  | deleteGroup g =>
    have hunreached := h.unreached (unreached_of_not_inToken hdb₀.toSchema fun hg => hcall (.inl hg))
    show SameView p node db (final (PermissionRepository.deleteGroup g) db)
    cases hdel : PermissionRepository.deleteGroup g db with
    | error e db' =>
      rw [final_of_error hdel, atomic_deleteGroup g hdel]
      exact .refl p node db
    | ok a db' =>
      have heffect : (Call.deleteGroup g).effect db = db' := final_of_ok hdel
      rw [heffect] at hacl
      rw [final_of_ok hdel]
      exact sameView_deleteGroup hdb.toSchema hunreached hdel hacl
  | addPlayerToGroup q g =>
    have hgroups : ((Call.addPlayerToGroup q g).effect db).groups = db.groups := by
      rcases Call.groups_effect db (.addPlayerToGroup q g) with ⟨_, _, _, h⟩ | ⟨_, h⟩ | ⟨_, _, h⟩ | h
      · cases h
      · cases h
      · cases h
      · exact h
    exact ⟨fun k => mem_addPlayerToGroup hcall, fun k hk n hn => by rw [parentOf_congr hgroups], hacl⟩
  | removePlayerFromGroup q g => exact ⟨fun k => mem_removePlayerFromGroup hcall, fun k hk n hn => rfl, hacl⟩

/-- A step of a party whose call does not touch the decision. -/
theorem Stage.sameView_step {p node : String} {db₀ : Db} (hdb₀ : db₀.Sound) {call : Call} {committed : Bool}
    {t : Thread} (hstage : Stage call committed t) {m : PermissionManager} (hm : m.db.Sound)
    (h : SameView p node db₀ m.db) (hcall : ¬ call.Touches db₀ p node) : SameView p node m.db (t.step m).1.db := by
  rcases hstage.step m with ⟨rfl, -, hcommits, -⟩ | ⟨-, hdb, -, -⟩
  · rcases hstage.takesEffect_or_update hcommits with htakes | ⟨g, parent, rfl, rfl⟩
    · rw [htakes.db]
      exact Call.sameView_effect hdb₀ hm h hcall
    · rw [updateParent_step_db]
      exact sameView_setGroupParent (h.unreached (unreached_of_not_inToken hdb₀.toSchema hcall)) node _
  · rw [hdb]
    exact .refl p node m.db

theorem sameView_schedule {p node : String} {db : Db} (hdb : db.Sound) {calls : List Call}
    (hcalls : ∀ call ∈ calls, ¬ call.Touches db p node) (sched : List Nat) :
    SameView p node db (dbAfter db calls sched) := by
  refine Run.run_invariant_on System.step (P := fun s => SameView p node db s.manager.db) (.refl p node db)
    (fun part i _ h => ?_) (List.prefix_refl sched)
  rcases System.step_cases ((System.init db calls).run part) i with ⟨-, heq⟩ | ⟨t, ht, hm, -⟩
  · rwa [heq]
  · obtain ⟨call, hcall, hstage⟩ := (placed_run db calls part).exists_stage ht
    rw [hm]
    have huntouched := hcalls call (List.mem_of_getElem? hcall)
    exact h.trans (hstage.sameView_step hdb (sound_schedule hdb calls part) h huntouched)

/-! ### What the checks return -/

/-- The ancestry query of a group of the player. -/
theorem SameView.mem_ancestry {p node : String} {db db' : Db} (h : SameView p node db db') (hdb : db.Schema)
    (hdb' : db'.Schema) {g u : String} (hg : (⟨p, g⟩ : PlayerGroupRow) ∈ db.playerGroups) :
    u ∈ (getGroupAncestry db' g).map GroupInfo.uuid ↔ u ∈ (getGroupAncestry db g).map GroupInfo.uuid := by
  have hg' := (h.member g).2 hg
  rw [mem_getGroupAncestry hdb.groups_key, mem_getGroupAncestry hdb'.groups_key]
  constructor
  · rintro ⟨-, -, n, hn, hasc⟩
    rw [h.ancestry g hg n hn] at hasc
    exact ⟨hdb.membership_exists _ hg, hdb.ascend_mem (hdb.membership_exists _ hg) hasc, n, hn, hasc⟩
  · rintro ⟨-, -, n, hn, hasc⟩
    rw [← h.ancestry g hg n hn] at hasc
    exact ⟨hdb'.membership_exists _ hg', hdb'.ascend_mem (hdb'.membership_exists _ hg') hasc, n, hn, hasc⟩

theorem SameView.mem_groups {p node : String} {db db' : Db} (h : SameView p node db db') (hdb : db.Schema)
    (hdb' : db'.Schema) {u : String} :
    u ∈ (getPlayerGroups db' p).map GroupInfo.uuid ↔ u ∈ (getPlayerGroups db p).map GroupInfo.uuid := by
  rw [mem_getPlayerGroups, mem_getPlayerGroups]
  constructor
  · rintro ⟨hpg, -⟩
    exact ⟨(h.member u).1 hpg, hdb.membership_exists _ ((h.member u).1 hpg)⟩
  · rintro ⟨hpg, -⟩
    exact ⟨(h.member u).2 hpg, hdb'.membership_exists _ ((h.member u).2 hpg)⟩

/-- The ACLs and the members of the token make the decision. -/
theorem SameView.decideACL_eq {p node : String} {db db' : Db} (h : SameView p node db db') (hdb : db.Sound)
    (hdb' : db'.Sound) {token token' : AccessToken} (ht : ∀ u, token'.contains u = token.contains u) :
    decideACL db' node token' = decideACL db node token := by
  unfold decideACL
  by_cases hne : node = ""
  · subst hne
    rfl
  obtain ⟨path, hpath, hmem, -⟩ := buildNodePath_eq_ok hne
  obtain ⟨aclMap, hbatch, hresolve⟩ := resolvePath_batch hdb.toKeys hdb.masks token path
  obtain ⟨aclMap', hbatch', hresolve'⟩ := resolvePath_batch hdb'.toKeys hdb'.masks token' path
  have hwalk : resolvePath token' (aclOf db') path = resolvePath token (aclOf db) path := by
    refine resolvePath_congr ht fun k hk => ?_
    rw [rules_aclOf, rules_aclOf, h.acl k ((hmem k).1 hk)]
  simp only [hpath, hbatch, hbatch', resolve, bind, Except.bind, pure, Except.pure]
  rw [hresolve', hresolve, hwalk]

/-- Who is always found is in a gathered token. -/
theorem Gathers.contains_of {view : List Nat → Db} {p : String} {start : List Nat} {done : List GroupInfo}
    {before : List Nat} {token : AccessToken} (h : Gathers view p start done before token) {u : String}
    (hu : u = p ∨ u ∈ (getPlayerGroups (view start) p).map GroupInfo.uuid ∨
      ∃ group ∈ done, ∀ part, u ∈ ((getGroupAncestry (view part) group.uuid).drop 1).map GroupInfo.uuid) :
    token.contains u := by
  induction h with
  | groups =>
    rw [contains_addDirectGroups, AccessToken.contains_add, AccessToken.contains_empty, Bool.or_false,
      decide_eq_true_eq]
    rcases hu with hp | hdirect | ⟨group, hgroup, -⟩
    · exact .inl hp
    · exact .inr hdirect
    · cases hgroup
  | @ancestry done before now token group h hlater ih =>
    rw [contains_addAncestry]
    rcases hu with hp | hdirect | ⟨group', hgroup', hanc⟩
    · exact .inl (ih (.inl hp))
    · exact .inl (ih (.inr (.inl hdirect)))
    · rcases List.mem_append.1 hgroup' with hold | hnew
      · exact .inl (ih (.inr (.inr ⟨group', hold, hanc⟩)))
      · rw [List.mem_singleton] at hnew
        subst hnew
        exact .inr (hanc now)

/-- A token that is built at once. -/
theorem gathers_buildToken (view : List Nat → Db) (p : String) (now : List Nat) :
    Gathers view p now (getPlayerGroups (view now) p) now (buildToken (view now) .player p) := by
  rw [buildToken_eq_finishToken]
  generalize hgroups : getPlayerGroups (view now) p = groups
  have hstart : Gathers view p now [] now (addDirectGroups (AccessToken.empty.add p .subject) groups) :=
    hgroups ▸ .groups
  clear hgroups
  generalize addDirectGroups (AccessToken.empty.add p .subject) groups = token at hstart ⊢
  induction groups using List.reverseRecOn with
  | nil => exact hstart
  | append_singleton groups group ih =>
    unfold finishToken at ih ⊢
    rw [List.foldl_append]
    exact .ancestry group ih (List.prefix_refl now)

/-- The token that a check puts together is the one of the tables before. -/
theorem contains_gathered {p node : String} {db : Db} (hdb : db.Sound) {calls : List Call}
    (hcalls : ∀ call ∈ calls, ¬ call.Touches db p node) {start before : List Nat} {token : AccessToken}
    (h : Gathers (dbAfter db calls) p start (getPlayerGroups (dbAfter db calls start) p) before token) (u : String) :
    token.contains u = (buildToken db .player p).contains u := by
  have hview := sameView_schedule hdb hcalls
  have hschema : ∀ part, (dbAfter db calls part).Schema := fun part => (sound_schedule hdb calls part).toSchema
  rw [Bool.eq_iff_iff, contains_buildToken_player hdb.groups_key]
  constructor
  · intro hu
    rcases h.contains hu with hp | hdirect | ⟨group, hgroup, between, -, -, hanc⟩
    · exact .inl hp
    · rw [(hview start).mem_groups hdb.toSchema (hschema start), mem_getPlayerGroups] at hdirect
      exact .inr ⟨u, hdirect.1, hdirect.2, 0, Nat.zero_le _, rfl⟩
    · have hmember := ((hview start).mem_groups hdb.toSchema (hschema start)).1 (List.mem_map_of_mem hgroup)
      have hpg := (mem_getPlayerGroups.1 hmember).1
      rw [(hview between).mem_ancestry hdb.toSchema (hschema between) hpg, mem_getGroupAncestry hdb.groups_key] at hanc
      exact .inr ⟨group.uuid, hpg, hanc.2⟩
  · rintro (hp | ⟨g, hpg, hu, n, hn, hasc⟩)
    · exact h.contains_of (.inl hp)
    have hmember : g ∈ (getPlayerGroups (dbAfter db calls start) p).map GroupInfo.uuid :=
      ((hview start).mem_groups hdb.toSchema (hschema start)).2
        (mem_getPlayerGroups.2 ⟨hpg, hdb.membership_exists _ hpg⟩)
    by_cases hug : u = g
    · subst hug
      exact h.contains_of (.inr (.inl hmember))
    obtain ⟨group, hgroup, rfl⟩ := List.mem_map.1 hmember
    refine h.contains_of (.inr (.inr ⟨group, hgroup, fun part => ?_⟩))
    have hanc : u ∈ (getGroupAncestry (dbAfter db calls part) group.uuid).map GroupInfo.uuid := by
      rw [(hview part).mem_ancestry hdb.toSchema (hschema part) hpg, mem_getGroupAncestry hdb.groups_key]
      exact ⟨hdb.membership_exists _ hpg, hu, n, hn, hasc⟩
    have hexists : group.uuid ∈ (dbAfter db calls part).groupUuids :=
      (hschema part).membership_exists _ (((hview part).member group.uuid).2 hpg)
    obtain ⟨info, rest, hrest, hinfo⟩ := head_getGroupAncestry (hschema part).groups_key hexists
    rw [hrest, List.map_cons, List.mem_cons, hinfo] at hanc
    rw [hrest]
    exact hanc.resolve_left hug

/-- While calls run that do not touch the decision of the player on the node, in any order of their steps, the decision
stays as it was and every check of it returns that decision. -/
theorem isolated_schedule {p node : String} {db : Db} (hdb : db.Sound) {calls : List Call}
    (hcalls : ∀ call ∈ calls, ¬ call.Touches db p node) (sched : List Nat) :
    resolvePermission (dbAfter db calls sched) p node = resolvePermission db p node ∧
      ∀ (i : Nat) (mask : AccessMask), calls[i]? = some (Call.checkPermission p node) →
        ((System.init db calls).run sched).threads[i]? = some (Thread.returned (some mask)) →
        resolvePermission db p node = .ok mask := by
  have hview := sameView_schedule hdb hcalls
  have hsound := sound_schedule hdb calls
  constructor
  · rw [resolvePermission_eq_decideACL, resolvePermission_eq_decideACL]
    refine (hview sched).decideACL_eq hdb (hsound sched) fun u => ?_
    exact contains_gathered hdb hcalls (gathers_buildToken (dbAfter db calls) p sched) u
  · intro i mask hcall hret
    obtain ⟨start, before, part, token, hgathers, -, -, hdecide⟩ :=
      (explained_run db calls sched).observed hcall hret
    rw [resolvePermission_eq_decideACL, ← hdecide]
    exact ((hview part).decideACL_eq hdb (hsound part) fun u => contains_gathered hdb hcalls hgathers u).symm

/-- A check, an edit of another node, a membership of another player, and a group that the player is not in. -/
def bystanders : List Call :=
  [.checkPermission "p" "a", .appendACE "t" "a.b" "*" 0 .allow, .addPlayerToGroup "q" "g", .createGroup "k" "kids" none,
    .setGroupParent "k" (some "g"), .deleteGroup "k"]

theorem bystanders_not_touch : ∀ call ∈ bystanders, ¬ call.Touches tornDb "p" "a" := by
  have hpath : ¬ Covers "a.b" "a" := by
    obtain ⟨path, hpath, hmem, -⟩ := buildNodePath_eq_ok (m := "a") (by decide)
    rw [← hmem]
    cases hpath
    decide
  have hout : ¬ InToken tornDb "p" "k" := by
    rw [← contains_buildToken_player sound_tornDb.groups_key]
    decide +kernel
  intro call hcall
  simp only [bystanders, List.mem_cons, List.not_mem_nil, or_false] at hcall
  rcases hcall with rfl | rfl | rfl | rfl | rfl | rfl
  · exact id
  · exact hpath
  · exact show "q" ≠ "p" by decide
  · exact id
  · exact hout
  · rintro (h | ⟨row, hrow, -, hsubject⟩)
    · exact hout h
    · have hall : ∀ row ∈ tornDb.permissions, row.subjectUuid ≠ "k" := by decide
      exact hall row hrow hsubject

theorem isolated_schedule_sample :
    resolvePermission (dbAfter tornDb bystanders [0, 1, 0, 3, 2, 3, 0, 4, 4, 0, 5, 0]) "p" "a" =
      resolvePermission tornDb "p" "a" :=
  (isolated_schedule sound_tornDb bystanders_not_touch [0, 1, 0, 3, 2, 3, 0, 4, 4, 0, 5, 0]).1

end BakaPerms
