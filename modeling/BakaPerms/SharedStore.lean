import BakaPerms.AnyOrder
import BakaPerms.Linearization

/-!
# The store that concurrent calls share

In every schedule of any calls the tables stay sound, and no edit of an ACL is lost or done twice: the lists of the
nodes are those that the edits give one after another, in the order in which the calls take effect, and an edit throws
exactly when its list operation is refused there, which a move of a position to itself never is (`shared_store`).  Unlike
`linearizable` this does not need the checks of `setGroupParent` to hold, as these calls leave the ACLs alone.
-/

namespace BakaPerms

open Effect PermissionManager PermissionRepository

/-- What a call does to the lists of the nodes; an operation that is refused changes nothing. -/
def Call.editACL (acl : String → List Payload) (call : Call) : String → List Payload :=
  match call.aclOp with
  | some op => (op.apply acl).getD acl
  | none => acl

theorem Db.Sound.wellNumbered {db : Db} (h : db.Sound) : db.WellNumbered := ⟨h.masks, h.numbered⟩

theorem Db.Sound.represents {db : Db} (h : db.Sound) : Represents db (aclAt db) := by
  obtain ⟨acl, hacl⟩ := h.numbered
  rwa [hacl.aclAt_eq]

theorem Db.Sound.of_permissions {db db' : Db} (h : db.Sound) (hschema : db'.Schema)
    (hp : db'.permissions = db.permissions) : db'.Sound :=
  ⟨hschema, (h.wellNumbered.congr hp).masks, (h.wellNumbered.congr hp).stores⟩

theorem aclAt_congr {db db' : Db} (h : db'.permissions = db.permissions) : aclAt db' = aclAt db := by
  funext node
  unfold aclAt nodeRows
  rw [h]

theorem length_aclAt (db : Db) (node : String) : (aclAt db node).length = (nodeRows db node).length := by
  unfold aclAt
  rw [List.length_map, List.length_insertionSort]

/-! ### Edits that throw -/

/-- The list operation is defined on positions in range, and on a move of a position to itself. -/
theorem AclOp.inRange_of_apply {db : Db} {op : AclOp} {acl : String → List Payload}
    (h : op.apply (aclAt db) = some acl) : op.InRange db ∨ ∃ node i, op = .moveACE node i i := by
  cases op with
  | insertACE now node position subjectUuid subjectType mask =>
    obtain ⟨hrange, -⟩ := Option.ite_none_right_eq_some.1 h
    rw [length_aclAt] at hrange
    exact .inl hrange
  | removeACE node position =>
    obtain ⟨hrange, -⟩ := Option.ite_none_right_eq_some.1 h
    rw [length_aclAt] at hrange
    exact .inl hrange
  | moveACE node fromIndex toIndex =>
    by_cases hft : fromIndex = toIndex
    · exact .inr ⟨node, toIndex, by rw [hft]⟩
    · obtain ⟨hrange, -⟩ := Option.ite_none_right_eq_some.1 ((if_neg hft).symm.trans h)
      rw [length_aclAt] at hrange
      exact .inl ⟨⟨hrange.1, hrange.2.1⟩, hrange.2.2⟩
  | appendACE | clearNodeACL | deleteGroup => exact .inl trivial

/-- An operation of the repository throws exactly when the list operation is not defined. -/
theorem AclOp.fails_iff {db : Db} (hdb : db.Sound) (op : AclOp) : Fails op.run db ↔ op.apply (aclAt db) = none := by
  constructor
  · rintro ⟨e, db', he⟩
    refine Option.eq_none_iff_forall_ne_some.2 fun acl hacl => ?_
    rcases AclOp.inRange_of_apply hacl with hrange | ⟨node, i, rfl⟩
    · obtain ⟨db'', h'⟩ := AclOp.runWith_succeeds hdb.wellNumbered hrange
      have hok := h' _ fun _ _ => rowByRow_updateOrderIndex
      rw [AclOp.runWith_updateOrderIndex] at hok
      exact not_fails_of_ok hok ⟨e, db', he⟩
    · have hok : (AclOp.moveACE node i i).run db = .ok () db := by
        show PermissionRepository.moveACE node i i db = _
        rw [PermissionRepository.moveACE, if_pos rfl]
        rfl
      exact not_fails_of_ok hok ⟨e, db', he⟩
  · intro hnone
    cases hrun : op.run db with
    | ok a db' =>
      obtain ⟨acl', hacl', -⟩ := AclOp.run_represents hdb.represents hrun
      rw [hnone] at hacl'
      cases hacl'
    | error e db' => exact ⟨e, db', hrun⟩

theorem Call.throws_iff {m : PermissionManager} (hm : m.db.Sound) {call : Call} {op : AclOp}
    (hop : call.aclOp = some op) : call.Throws m ↔ op.apply (aclAt m.db) = none := by
  rw [← AclOp.fails_iff hm]
  cases call <;> cases hop <;> exact throws_map.trans throws_writer

/-! ### What a call does to the lists -/

theorem Call.aclAt_effect {db : Db} (hdb : db.Sound) (call : Call) :
    aclAt (call.effect db) = call.editACL (aclAt db) := by
  unfold Call.editACL
  cases hop : call.aclOp with
  | none => exact aclAt_congr (Call.permissions_effect hop db)
  | some op =>
    rw [Call.effect_of_aclOp hop]
    cases hrun : op.run db with
    | ok a db' =>
      obtain ⟨acl', hacl', hrep⟩ := AclOp.run_represents hdb.represents hrun
      simp only [final_of_ok hrun, hacl', Option.getD_some, hrep.aclAt_eq]
    | error e db' =>
      obtain rfl := op.atomic_run hrun
      have hnone := (op.fails_iff hdb).1 ⟨e, _, hrun⟩
      simp only [final_of_error hrun, hnone, Option.getD_none]

/-- What the update of a parent does, whether it comes too late or not. -/
theorem permissions_setGroupParent (db : Db) (groupUuid : String) (parentUuid : Option String) :
    (final (PermissionRepository.setGroupParent groupUuid parentUuid) db).permissions = db.permissions := by
  cases h : PermissionRepository.setGroupParent groupUuid parentUuid db with
  | ok a db' => rw [final_of_ok h, (updateGroupParent_eq_ok.1 h).2]
  | error e db' => rw [final_of_error h, updateGroupParent_error h]

theorem updateParent_step_db (m : PermissionManager) (groupUuid parentUuid : String) :
    ((Thread.updateParent groupUuid parentUuid).step m).1.db =
      final (PermissionRepository.setGroupParent groupUuid (some parentUuid)) m.db :=
  congrArg PermissionManager.db (commit_fst ..)

/-- A step at which a call takes effect is as if the call had been made then, or an update of a parent. -/
theorem Stage.takesEffect_or_update {call : Call} {t : Thread} (h : Stage call false t) {m : PermissionManager}
    (hc : t.commits m = some call) :
    TakesEffect m call (t.step m) ∨
      ∃ g p, t = .updateParent g p ∧ call = .setGroupParent g (some p) := by
  by_cases ht : ∃ g p, t = .updateParent g p
  · obtain ⟨g, p, rfl⟩ := ht
    cases h
    exact .inr ⟨g, p, rfl, rfl⟩
  · exact .inl (h.takesEffect hc fun g p hupdate => absurd ⟨g, p, hupdate⟩ ht)

/-- Every step of a party keeps the tables sound. -/
theorem Stage.sound_step {call : Call} {committed : Bool} {t : Thread} (h : Stage call committed t)
    {m : PermissionManager} (hm : m.db.Sound) : (t.step m).1.db.Sound := by
  rcases h.step m with ⟨rfl, -, hcommits, -⟩ | ⟨-, hdb, -, -⟩
  · rcases h.takesEffect_or_update hcommits with htakes | ⟨g, p, rfl, -⟩
    · rw [htakes.db]
      exact Call.sound_effect hm call
    · rw [updateParent_step_db]
      exact hm.of_permissions (within_updateGroupParent _ _ m.db hm.toSchema) (permissions_setGroupParent ..)
  · rwa [hdb]

/-- A step at which a call takes effect edits the lists as the call does. -/
theorem Stage.edits {call : Call} {t : Thread} (h : Stage call false t) {m : PermissionManager}
    (hm : m.db.Sound) (hc : t.commits m = some call) :
    aclAt (t.step m).1.db = call.editACL (aclAt m.db) ∧
      ∀ op, call.aclOp = some op → ((∃ e, (t.step m).2 = .failed e) ↔ op.apply (aclAt m.db) = none) := by
  rcases h.takesEffect_or_update hc with htakes | ⟨g, p, rfl, rfl⟩
  · refine ⟨?_, fun op hop => (htakes.fails m rfl).trans (Call.throws_iff hm hop)⟩
    rw [htakes.db]
    exact Call.aclAt_effect hm call
  · refine ⟨?_, fun op hop => by cases hop⟩
    rw [updateParent_step_db]
    exact aclAt_congr (permissions_setGroupParent ..)

/-! ### Every schedule -/

theorem sound_schedule {db : Db} (hdb : db.Sound) (calls : List Call) (sched : List Nat) :
    ((System.init db calls).run sched).manager.db.Sound := by
  refine Run.run_invariant_on System.step (P := fun s => s.manager.db.Sound) hdb (fun part i _ h => ?_)
    (List.prefix_refl sched)
  rcases System.step_cases ((System.init db calls).run part) i with ⟨-, heq⟩ | ⟨t, ht, hm, -⟩
  · rwa [heq]
  · obtain ⟨call, -, hstage⟩ := (placed_run db calls part).exists_stage ht
    rw [hm]
    exact hstage.sound_step h

/-- The edits of the order, one after another, are what has become of the lists, and every edit has taken effect once
when its call has ended. -/
structure SharesStore (db : Db) (calls : List Call) (order : List (Nat × Call)) (s : System) : Prop where
  sound : s.manager.db.Sound
  acl : aclAt s.manager.db = viewAfter Call.editACL (aclAt db) order
  nodup : (order.map Prod.fst).Nodup
  entry : ∀ entry ∈ order, calls[entry.1]? = some entry.2
  finished : ∀ i call t, calls[i]? = some call → call.writes → s.threads[i]? = some t → t.Finished →
    (i, call) ∈ order
  throws : ∀ before i call op after, order = before ++ (i, call) :: after → call.aclOp = some op →
    ∀ t, s.threads[i]? = some t →
      ((∃ e, t = .failed e) ↔ op.apply (viewAfter Call.editACL (aclAt db) before) = none)

/-- The order accounts for the lists of the nodes, and for the edits that throw. -/
theorem accounts_acl {db : Db} (hdb : db.Sound) (calls : List Call) (sched : List Nat) :
    Accounts aclAt Call.editACL (fun acl call failed => ∀ op, call.aclOp = some op → (failed ↔ op.apply acl = none))
      (aclAt db) ((System.init db calls).commits sched) ((System.init db calls).run sched) :=
  accounts_run fun part _ _ _ _ _ hstage hcommits => hstage.edits (sound_schedule hdb calls part) hcommits

/-- Every schedule of any calls on sound tables leaves them sound, with the ACLs that the edits give in the order in
which they take effect. -/
theorem shared_store {db : Db} (hdb : db.Sound) (calls : List Call) (sched : List Nat) :
    SharesStore db calls ((System.init db calls).commits sched) ((System.init db calls).run sched) := by
  have hplaced := placed_run db calls sched
  have haccounts := accounts_acl hdb calls sched
  refine ⟨sound_schedule hdb calls sched, haccounts.tables, hplaced.nodup, ?_, ?_, ?_⟩
  · exact fun entry hentry => (hplaced.entry entry hentry).1
  · exact fun i call t hcall hw ht hfin => hplaced.mem_of_finished hcall hw ht hfin
  · exact fun before i call op after horder hop t ht => haccounts.fails before i call after horder t ht op hop

/-- Two edits of one node and one that comes too early for its position. -/
def sampleEdits : List Call :=
  [.appendACE "t1" "a" "p" 0 .allow, .insertACE "t2" "a" 0 "*" 0 .deny, .removeACE "a" 1]

theorem shared_store_sample :
    SharesStore Db.empty sampleEdits ((System.init Db.empty sampleEdits).commits [1, 2, 0, 1, 2, 0])
      ((System.init Db.empty sampleEdits).run [1, 2, 0, 1, 2, 0]) :=
  shared_store Db.sound_empty sampleEdits [1, 2, 0, 1, 2, 0]

example : aclAt ((System.init Db.empty sampleEdits).run [1, 2, 0, 1, 2, 0]).manager.db "a" =
    [⟨"*", 0, 0, "t2"⟩, ⟨"p", 0, 1, "t1"⟩] := by
  decide +kernel

end BakaPerms
