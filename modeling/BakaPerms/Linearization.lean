import BakaPerms.Hierarchy
import BakaPerms.Sequential
import BakaPerms.Statements

/-!
# Calls that take effect one after another

Each call that changes tables takes effect in one of its atomic steps: at its commit, or where it finds that the name
is taken or that there would be a cycle.  The calls in the order of these steps (`System.commits`) are a sequential
run that does to the tables what the schedule does, with the same calls throwing (`linearizable`).  The exception is a
`setGroupParent` whose check no longer holds at its `UPDATE`.
-/

namespace BakaPerms

open Effect PermissionManager

/-- The calls that change tables. -/
def Call.writes : Call → Bool
  | checkPermission .. | invalidate _ => false
  | _ => true

/-- The call that takes effect in the next step of the party. -/
def Thread.commits (m : PermissionManager) : Thread → Option Call
  | start (.checkPermission ..) | start (.invalidate _) => none
  | start (.createGroup uuid name parentUuid) =>
    if (PermissionRepository.getGroupByName m.db name).isSome then some (.createGroup uuid name parentUuid) else none
  | start (.setGroupParent groupUuid parentUuid) =>
    match parentUuid with
    | none => some (.setGroupParent groupUuid none)
    | some parent =>
      if wouldCreateCycle m.db groupUuid parent then some (.setGroupParent groupUuid (some parent)) else none
  | start call => some call
  | insertGroup uuid name parentUuid => some (.createGroup uuid name parentUuid)
  | updateParent groupUuid parentUuid => some (.setGroupParent groupUuid (some parentUuid))
  | _ => none

/-- The entries that a step of the system adds to the order of commits. -/
def System.commit (s : System) (i : Nat) : List (Nat × Call) :=
  match s.threads[i]? with
  | some t => ((t.commits s.manager).map (i, ·)).toList
  | none => []

/-- The parties and their calls in the order in which the calls take effect. -/
def System.commits (s : System) (sched : List Nat) : List (Nat × Call) := Run.log System.step System.commit s sched

/-- How far a call is, and whether it has taken effect; checks and reloads change no tables and never do. -/
inductive Stage : Call → Bool → Thread → Prop
  | start (call : Call) : Stage call false (.start call)
  | insertGroup (uuid name : String) (parentUuid : Option String) :
    Stage (.createGroup uuid name parentUuid) false (.insertGroup uuid name parentUuid)
  | updateParent (groupUuid parentUuid : String) :
    Stage (.setGroupParent groupUuid (some parentUuid)) false (.updateParent groupUuid parentUuid)
  | invalidate (call : Call) (target : Option String) : Stage call true (.invalidate target)
  | returned (call : Call) : Stage call true (.returned none)
  | failed (call : Call) (e : Exn) : Stage call true (.failed e)
  | check (playerUuid node : String) (gen : Nat) (state : CheckState) :
    Stage (.checkPermission playerUuid node) false (.check playerUuid node gen state)
  | answered (playerUuid node : String) (result : Option AccessMask) :
    Stage (.checkPermission playerUuid node) false (.returned result)
  | thrown (playerUuid node : String) (e : Exn) : Stage (.checkPermission playerUuid node) false (.failed e)
  | reloaded (target : Option String) : Stage (.invalidate target) false (.returned none)

/-- The call throws. -/
def Call.Throws (m : PermissionManager) (call : Call) : Prop := ∃ e m', call.run m = .error e m'

/-- The check of a `setGroupParent` still holds at its `UPDATE`. -/
def Rechecked (m : PermissionManager) (t : Thread) : Prop :=
  ∀ g p, t = .updateParent g p → wouldCreateCycle m.db g p = false

/-! ### Calls that throw -/

/-- The computation throws. -/
def Fails {α : Type} (x : DbM α) (db : Db) : Prop := ∃ e db', x db = .error e db'

theorem not_fails_of_ok {α : Type} {x : DbM α} {db db' : Db} {a : α} (h : x db = .ok a db') : ¬ Fails x db := by
  rintro ⟨e, db'', he⟩
  rw [h] at he
  cases he

theorem throws_map {α : Type} {x : ManagerM α} {m : PermissionManager} :
    (∃ e m', ((fun _ => none) <$> x : ManagerM (Option AccessMask)) m = .error e m') ↔ ∃ e m', x m = .error e m' :=
  exists_congr fun _ => exists_congr fun _ => map_eq_error

/-- A call of the repository after which nothing throws. -/
private theorem throws_repo_bind {α β : Type} {x : DbM α} {k : α → ManagerM β} (hk : ∀ a m e m', k a m ≠ .error e m')
    {m : PermissionManager} : (∃ e m', (repo x >>= k) m = .error e m') ↔ Fails x m.db := by
  cases hx : x m.db with
  | ok a db =>
    rw [bind_of_ok (repo_of_ok hx)]
    refine ⟨?_, fun h => absurd h (not_fails_of_ok hx)⟩
    rintro ⟨e, m', h⟩
    exact absurd h (hk _ _ _ _)
  | error e db =>
    rw [bind_of_error (repo_of_error hx)]
    exact ⟨fun _ => ⟨e, db, hx⟩, fun _ => ⟨_, _, rfl⟩⟩

theorem throws_writer {x : DbM Unit} {m : PermissionManager} :
    (∃ e m', (do repo x; invalidateAll : ManagerM Unit) m = .error e m') ↔ Fails x m.db :=
  throws_repo_bind fun _ _ _ _ h => by cases h

theorem throws_membership {x : DbM Bool} {m : PermissionManager} {playerUuid : String} :
    (∃ e m', (do
      if ← repo x then
        invalidatePlayer playerUuid
        return true
      else return false : ManagerM Bool) m = .error e m') ↔ Fails x m.db :=
  throws_repo_bind fun changed _ _ _ h => by cases changed <;> cases h

theorem throws_createGroup {m : PermissionManager} {uuid name : String} {parentUuid : Option String} :
    (Call.createGroup uuid name parentUuid).Throws m ↔ (PermissionRepository.getGroupByName m.db name).isSome ∨
      Fails (PermissionRepository.createGroup uuid name parentUuid) m.db := by
  refine throws_map.trans ?_
  by_cases hn : (PermissionRepository.getGroupByName m.db name).isSome
  · rw [createGroup_of_exists hn]
    exact ⟨fun _ => .inl hn, fun _ => ⟨_, _, rfl⟩⟩
  · rw [createGroup_of_new hn]
    refine Iff.trans (throws_repo_bind fun _ _ _ _ h => by cases h) ?_
    exact ⟨.inr, fun h => h.resolve_left hn⟩

theorem throws_setGroupParent {m : PermissionManager} {groupUuid : String} {parentUuid : Option String} :
    (Call.setGroupParent groupUuid parentUuid).Throws m ↔ parentUuid.any (wouldCreateCycle m.db groupUuid) ∨
      Fails (PermissionRepository.setGroupParent groupUuid parentUuid) m.db := by
  refine throws_map.trans ?_
  by_cases hc : parentUuid.any (wouldCreateCycle m.db groupUuid)
  · rw [setGroupParent_of_cycle hc]
    exact ⟨fun _ => .inl hc, fun _ => ⟨_, _, rfl⟩⟩
  · rw [setGroupParent_of_noCycle hc, throws_writer]
    exact ⟨.inr, fun h => h.resolve_left hc⟩

/-- A name that is taken since the check is refused by the table. -/
theorem fails_createGroup_of_exists {db : Db} {name : String} (h : (PermissionRepository.getGroupByName db name).isSome)
    (uuid : String) (parentUuid : Option String) :
    ∃ e, PermissionRepository.createGroup uuid name parentUuid db = .error e db := by
  cases hc : PermissionRepository.createGroup uuid name parentUuid db with
  | ok a db' =>
    obtain ⟨⟨-, hname, -⟩, -⟩ := insertGroup_eq_ok.1 hc
    obtain ⟨group, hgroup⟩ := Option.isSome_iff_exists.1 h
    obtain ⟨row, hrow, -⟩ := Option.map_eq_some_iff.1 hgroup
    have hrowname : row.name = name := by simpa using List.find?_some hrow
    exact absurd (List.mem_map.2 ⟨row, List.mem_of_find?_eq_some hrow, hrowname⟩) hname
  | error e db' => exact ⟨e, by rw [PermissionRepository.atomic_createGroup _ _ _ hc]⟩

/-! ### The step at which a call takes effect -/

/-- The step does to the tables what the call does, and the call fails where it would throw. -/
structure TakesEffect (m : PermissionManager) (call : Call) (r : PermissionManager × Thread) : Prop where
  db : r.1.db = call.effect m.db
  stage : Stage call true r.2
  fails : ∀ m', m'.db = m.db → ((∃ e, r.2 = .failed e) ↔ call.Throws m')

/-- A commit that does what the call does. -/
theorem takesEffect_commit {α : Type} {m : PermissionManager} {call : Call} {x : DbM α} {next : α → Thread}
    (hstage : ∀ a, Stage call true (next a) ∧ ∀ e, next a ≠ .failed e) (hdb : call.effect m.db = final x m.db)
    (hthrows : ∀ m', m'.db = m.db → (call.Throws m' ↔ Fails x m.db)) : TakesEffect m call (commit m x next) := by
  constructor
  · rw [commit_fst, hdb]
  · unfold commit
    cases hx : x m.db with
    | ok a db => exact (hstage a).1
    | error e db => exact .failed call e
  · intro m' hm'
    rw [hthrows m' hm']
    unfold commit
    cases hx : x m.db with
    | ok a db =>
      refine ⟨?_, fun h => absurd h (not_fails_of_ok hx)⟩
      rintro ⟨e, he⟩
      exact absurd he ((hstage a).2 e)
    | error e db => exact ⟨fun _ => ⟨e, db, hx⟩, fun _ => ⟨e, rfl⟩⟩

/-- A call that throws without touching the tables. -/
theorem takesEffect_failed {m : PermissionManager} {call : Call} (e : Exn) (hdb : call.effect m.db = m.db)
    (hthrows : ∀ m', m'.db = m.db → call.Throws m') : TakesEffect m call (m, .failed e) where
  db := hdb.symm
  stage := .failed call e
  fails m' hm' := ⟨fun _ => hthrows m' hm', fun _ => ⟨e, rfl⟩⟩

/-- A writer's commit, or a call's first step that is its commit. -/
private theorem takesEffect_writer {m : PermissionManager} {call : Call} {x : DbM Unit}
    (hdb : call.effect m.db = final x m.db)
    (hrun : call.run = (fun _ => none) <$> (do repo x; invalidateAll)) :
    TakesEffect m call (commit m x fun _ => .invalidate none) := by
  refine takesEffect_commit (fun _ => ⟨.invalidate call none, fun e h => by cases h⟩) hdb fun m' hm' => ?_
  unfold Call.Throws
  rw [hrun, throws_map, throws_writer, hm']

private theorem takesEffect_membership {m : PermissionManager} {call : Call} {x : DbM Bool} {playerUuid : String}
    (hdb : call.effect m.db = final x m.db)
    (hrun : call.run = (fun _ => none) <$> (do
      if ← repo x then
        invalidatePlayer playerUuid
        return true
      else return false)) :
    TakesEffect m call
      (commit m x fun changed => if changed then .invalidate (some playerUuid) else .returned none) := by
  refine takesEffect_commit (fun changed => ?_) hdb fun m' hm' => ?_
  · cases changed
    · exact ⟨.returned call, fun e h => by cases h⟩
    · exact ⟨.invalidate call (some playerUuid), fun e h => by cases h⟩
  · unfold Call.Throws
    rw [hrun, throws_map, throws_membership, hm']

/-- The first step of a call is where it takes effect, or it leaves the tables alone and the party goes on. -/
private theorem Call.step_commits (m : PermissionManager) (call : Call) :
    ((Thread.start call).commits m = some call ∧ call.writes ∧ TakesEffect m call (call.step m)) ∨
      ((Thread.start call).commits m = none ∧ (call.step m).1.db = m.db ∧ Stage call false (call.step m).2) := by
  cases call with
  | checkPermission playerUuid node =>
    refine .inr ⟨rfl, Call.check_step_db .., ?_⟩
    simp only [Call.step]
    cases m.cache playerUuid node with
    | some mask => exact .answered playerUuid node (some mask)
    | none => exact .check playerUuid node _ _
  | invalidate target => exact .inr ⟨rfl, rfl, .reloaded target⟩
  | createGroup uuid name parentUuid =>
    by_cases hn : (PermissionRepository.getGroupByName m.db name).isSome
    · refine .inl ⟨if_pos hn, rfl, ?_⟩
      simp only [Call.step, if_pos hn]
      refine takesEffect_failed _ ?_ fun m' hm' => ?_
      · simp only [Call.effect, if_pos hn]
      · rw [throws_createGroup, hm']
        exact .inl hn
    · refine .inr ⟨if_neg hn, ?_, ?_⟩
      · simp only [Call.step, if_neg hn]
      · simp only [Call.step, if_neg hn]
        exact .insertGroup uuid name parentUuid
  | setGroupParent groupUuid parentUuid =>
    cases parentUuid with
    | none =>
      exact .inl ⟨rfl, rfl, takesEffect_writer (x := PermissionRepository.setGroupParent groupUuid none) rfl rfl⟩
    | some parent =>
      by_cases hc : wouldCreateCycle m.db groupUuid parent
      · refine .inl ⟨if_pos hc, rfl, ?_⟩
        simp only [Call.step, if_pos hc]
        refine takesEffect_failed _ ?_ fun m' hm' => ?_
        · simp only [Call.effect, Option.any_some, if_pos hc]
        · rw [throws_setGroupParent, hm']
          exact .inl hc
      · refine .inr ⟨if_neg hc, ?_, ?_⟩
        · simp only [Call.step, if_neg hc]
        · simp only [Call.step, if_neg hc]
          exact .updateParent groupUuid parent
  | addPlayerToGroup playerUuid groupUuid => exact .inl ⟨rfl, rfl, takesEffect_membership rfl rfl⟩
  | removePlayerFromGroup playerUuid groupUuid =>
    exact .inl ⟨rfl, rfl,
      takesEffect_membership (x := PermissionRepository.removePlayerFromGroup playerUuid groupUuid) rfl rfl⟩
  | clearNodeACL node =>
    exact .inl ⟨rfl, rfl, takesEffect_writer (x := PermissionRepository.clearNodeACL node) rfl rfl⟩
  | appendACE | insertACE | removeACE | moveACE | deleteGroup => exact .inl ⟨rfl, rfl, takesEffect_writer rfl rfl⟩

/-- The insertion of a group, even if its name has been taken since the check. -/
private theorem takesEffect_insertGroup (m : PermissionManager) (uuid name : String) (parentUuid : Option String) :
    TakesEffect m (.createGroup uuid name parentUuid) ((Thread.insertGroup uuid name parentUuid).step m) := by
  refine takesEffect_commit (fun _ => ⟨.returned _, fun e h => by cases h⟩) ?_ fun m' hm' => ?_
  · by_cases hn : (PermissionRepository.getGroupByName m.db name).isSome
    · obtain ⟨e, he⟩ := fails_createGroup_of_exists hn uuid parentUuid
      simp only [Call.effect, if_pos hn, final_of_error he]
    · simp only [Call.effect, if_neg hn]
  · rw [throws_createGroup, hm']
    refine ⟨?_, .inr⟩
    rintro (hn | hfails)
    · obtain ⟨e, he⟩ := fails_createGroup_of_exists hn uuid parentUuid
      exact ⟨e, _, he⟩
    · exact hfails

/-- The update of a parent whose check still holds. -/
private theorem takesEffect_updateParent {m : PermissionManager} {groupUuid parentUuid : String}
    (hc : wouldCreateCycle m.db groupUuid parentUuid = false) :
    TakesEffect m (.setGroupParent groupUuid (some parentUuid))
      ((Thread.updateParent groupUuid parentUuid).step m) := by
  have hany : ¬ (some parentUuid).any (wouldCreateCycle m.db groupUuid) := by
    rw [Option.any_some, hc]
    exact Bool.false_ne_true
  refine takesEffect_commit (fun _ => ⟨.invalidate _ none, fun e h => by cases h⟩) ?_ fun m' hm' => ?_
  · simp only [Call.effect, if_neg hany]
  · rw [throws_setGroupParent, hm']
    exact ⟨fun h => h.resolve_left hany, .inr⟩

private theorem stage_commit {α : Type} {m : PermissionManager} {call : Call} {x : DbM α} {next : α → Thread}
    (h : ∀ a, Stage call true (next a)) : Stage call true (commit m x next).2 := by
  unfold commit
  cases x m.db with
  | ok a db => exact h a
  | error e db => exact .failed call e

/-- What a step of a party does: its call takes effect, or it goes on and the tables stay. -/
theorem Stage.step {call : Call} {committed : Bool} {t : Thread} (h : Stage call committed t) (m : PermissionManager) :
    (committed = false ∧ call.writes ∧ t.commits m = some call ∧ Stage call true (t.step m).2) ∨
      (t.commits m = none ∧ (t.step m).1.db = m.db ∧ Stage call committed (t.step m).2 ∧
        (committed = true → ((∃ e, (t.step m).2 = .failed e) ↔ ∃ e, t = .failed e))) := by
  cases h with
  | start call =>
    rcases call.step_commits m with ⟨hcommits, hw, htakes⟩ | ⟨hcommits, hdb, hstage⟩
    · exact .inl ⟨rfl, hw, hcommits, htakes.stage⟩
    · exact .inr ⟨hcommits, hdb, hstage, fun h => by cases h⟩
  | insertGroup uuid name parentUuid => exact .inl ⟨rfl, rfl, rfl, stage_commit fun _ => .returned _⟩
  | updateParent groupUuid parentUuid => exact .inl ⟨rfl, rfl, rfl, stage_commit fun _ => .invalidate _ none⟩
  | invalidate call target =>
    refine .inr ⟨rfl, rfl, .returned call, fun _ => ⟨?_, ?_⟩⟩
    · rintro ⟨e, h⟩
      cases h
    · rintro ⟨e, h⟩
      cases h
  | returned call => exact .inr ⟨rfl, rfl, .returned call, fun _ => Iff.rfl⟩
  | failed call e => exact .inr ⟨rfl, rfl, .failed call e, fun _ => Iff.rfl⟩
  | check playerUuid node gen state =>
    refine .inr ⟨rfl, Thread.check_step_db .., ?_, fun h => by cases h⟩
    rcases Thread.check_step m playerUuid node gen state with ⟨state', h, -⟩ | ⟨result, -, h⟩ | ⟨e, h⟩
    · rw [h]
      exact .check playerUuid node gen state'
    · rw [h]
      exact .answered playerUuid node (some result)
    · rw [h]
      exact .thrown playerUuid node e
  | answered playerUuid node result => exact .inr ⟨rfl, rfl, .answered playerUuid node result, fun h => by cases h⟩
  | thrown playerUuid node e => exact .inr ⟨rfl, rfl, .thrown playerUuid node e, fun h => by cases h⟩
  | reloaded target => exact .inr ⟨rfl, rfl, .reloaded target, fun h => by cases h⟩

/-- A call takes effect as it would at once, unless it is an update of a parent that comes too late. -/
theorem Stage.takesEffect {call : Call} {t : Thread} (h : Stage call false t) {m : PermissionManager}
    (hc : t.commits m = some call) (hre : Rechecked m t) : TakesEffect m call (t.step m) := by
  cases h with
  | start call =>
    rcases call.step_commits m with ⟨-, -, htakes⟩ | ⟨hcommits, -, -⟩
    · exact htakes
    · rw [hc] at hcommits
      cases hcommits
  | insertGroup uuid name parentUuid => exact takesEffect_insertGroup m uuid name parentUuid
  | updateParent groupUuid parentUuid => exact takesEffect_updateParent (hre groupUuid parentUuid rfl)
  | check | answered | thrown | reloaded => cases hc

/-! ### The order of the commits -/

/-- The order has the calls that have taken effect, once each. -/
structure Placed (calls : List Call) (order : List (Nat × Call)) (s : System) : Prop where
  nodup : (order.map Prod.fst).Nodup
  entry : ∀ entry ∈ order, calls[entry.1]? = some entry.2 ∧ entry.2.writes
  length : s.threads.length = calls.length
  stage : ∀ i call, calls[i]? = some call →
    ∃ t, s.threads[i]? = some t ∧ Stage call (decide (i ∈ order.map Prod.fst)) t

theorem placed_init (db : Db) (calls : List Call) : Placed calls [] (System.init db calls) where
  nodup := List.nodup_nil
  entry := by simp
  length := List.length_map ..
  stage := by
    intro i call hcall
    refine ⟨.start call, ?_, .start call⟩
    show (calls.map Thread.start)[i]? = _
    rw [List.getElem?_map, hcall]
    rfl

theorem Placed.exists_stage {calls : List Call} {order : List (Nat × Call)} {s : System} (h : Placed calls order s)
    {i : Nat} {t : Thread} (ht : s.threads[i]? = some t) :
    ∃ call, calls[i]? = some call ∧ Stage call (decide (i ∈ order.map Prod.fst)) t := by
  obtain ⟨hlt, -⟩ := List.getElem?_eq_some_iff.1 ht
  obtain ⟨call, hcall⟩ : ∃ call, calls[i]? = some call := ⟨_, List.getElem?_eq_getElem (h.length ▸ hlt)⟩
  obtain ⟨u, hu, hstage⟩ := h.stage i call hcall
  rw [ht, Option.some.injEq] at hu
  exact ⟨call, hcall, hu ▸ hstage⟩

/-- The stages after a step of the party with the index. -/
private theorem Placed.stage_step {calls : List Call} {order order' : List (Nat × Call)} {s : System}
    (h : Placed calls order s) {i : Nat} {call : Call} {t : Thread} (hcall : calls[i]? = some call)
    (ht : s.threads[i]? = some t) (hi : Stage call (decide (i ∈ order'.map Prod.fst)) (t.step s.manager).2)
    (hothers : ∀ j, i ≠ j → (j ∈ order'.map Prod.fst ↔ j ∈ order.map Prod.fst)) (j : Nat) (callj : Call)
    (hcallj : calls[j]? = some callj) :
    ∃ u, (s.step i).threads[j]? = some u ∧ Stage callj (decide (j ∈ order'.map Prod.fst)) u := by
  obtain ⟨u, hu, hstage⟩ := h.stage j callj hcallj
  refine ⟨_, System.getElem?_step hu i, ?_⟩
  by_cases hij : i = j
  · subst hij
    rw [ht, Option.some.injEq] at hu
    rw [hcall, Option.some.injEq] at hcallj
    subst hu hcallj
    rwa [if_pos rfl]
  · rw [if_neg hij, decide_eq_decide.2 (hothers j hij)]
    exact hstage

/-- One step: the call that takes effect in it goes to the end of the order. -/
theorem Placed.step {calls : List Call} {order : List (Nat × Call)} {s : System} (h : Placed calls order s) (i : Nat) :
    Placed calls (order ++ s.commit i) (s.step i) := by
  unfold System.commit
  rcases s.step_cases i with ⟨hnone, heq⟩ | ⟨t, ht, -, hthreads⟩
  · rw [hnone, heq]
    simpa using h
  have hlength : (s.step i).threads.length = calls.length := by rw [hthreads, List.length_set, h.length]
  obtain ⟨call, hcall, hstage⟩ := h.exists_stage ht
  rw [ht]
  rcases hstage.step s.manager with ⟨hnew, hw, hcommits, hstage'⟩ | ⟨hcommits, -, hstage', -⟩
  · simp only [hcommits, Option.map_some, Option.toList_some]
    have hmap : (order ++ [(i, call)]).map Prod.fst = order.map Prod.fst ++ [i] := List.map_append
    refine ⟨?_, ?_, hlength, h.stage_step hcall ht ?_ ?_⟩
    · rw [hmap]
      refine List.nodup_append.2 ⟨h.nodup, List.nodup_singleton i, fun a ha b hb hab => ?_⟩
      have hbi : b = i := List.mem_singleton.1 hb
      exact of_decide_eq_false hnew (by rwa [← hbi, ← hab])
    · intro entry hentry
      rcases List.mem_append.1 hentry with hentry | hentry
      · exact h.entry entry hentry
      · rw [List.mem_singleton] at hentry
        subst hentry
        exact ⟨hcall, hw⟩
    · rwa [hmap, decide_eq_true (List.mem_append_right _ (List.mem_singleton_self i))]
    · intro j hij
      rw [hmap, List.mem_append, List.mem_singleton]
      exact ⟨fun h => h.resolve_right (Ne.symm hij), .inl⟩
  · simp only [hcommits, Option.map_none, Option.toList_none, List.append_nil]
    exact ⟨h.nodup, h.entry, hlength, h.stage_step hcall ht hstage' fun _ _ => Iff.rfl⟩

theorem placed_run (db : Db) (calls : List Call) (sched : List Nat) :
    Placed calls ((System.init db calls).commits sched) ((System.init db calls).run sched) := by
  refine Run.prefix_induction (P := fun part =>
    Placed calls ((System.init db calls).commits part) ((System.init db calls).run part))
    (placed_init db calls) (fun part i _ h => ?_) (List.prefix_refl sched)
  unfold System.commits
  rw [Run.log_concat, System.run, Run.run_concat]
  exact h.step i

private theorem Stage.committed_of_finished {call : Call} {committed : Bool} {t : Thread} (h : Stage call committed t)
    (hw : call.writes) (ht : t.Finished) : committed = true := by
  cases h with
  | start call | insertGroup | updateParent | check => rcases ht with ⟨result, ht⟩ | ⟨e, ht⟩ <;> cases ht
  | invalidate | returned | failed => rfl
  | answered | thrown | reloaded => cases hw

/-- A call that has ended has taken effect. -/
theorem Placed.mem_of_finished {calls : List Call} {order : List (Nat × Call)} {s : System} (h : Placed calls order s)
    {i : Nat} {call : Call} {t : Thread} (hcall : calls[i]? = some call) (hw : call.writes)
    (ht : s.threads[i]? = some t) (hfin : t.Finished) : (i, call) ∈ order := by
  obtain ⟨u, hu, hstage⟩ := h.stage i call hcall
  rw [ht, Option.some.injEq] at hu
  subst hu
  obtain ⟨entry, hentry, rfl⟩ := List.mem_map.1 (of_decide_eq_true (hstage.committed_of_finished hw hfin))
  have hcall' := (h.entry entry hentry).1
  rw [hcall, Option.some.injEq] at hcall'
  rwa [hcall']

/-- The order only grows at its end. -/
theorem commits_prefix (s : System) {part sched : List Nat} (h : part <+: sched) :
    s.commits part <+: s.commits sched := by
  obtain ⟨rest, rfl⟩ := h
  exact ⟨_, (Run.log_append System.step System.commit s part rest).symm⟩

/-! ### The order as a sequential run -/

section Accounts

-- what the calls do to a view of the tables, and when it fits a call that it has failed
variable {V : Type} (view : Db → V) (act : V → Call → V) (fits : V → Call → Prop → Prop)

/-- The view after the calls of the entries. -/
def viewAfter (v : V) (entries : List (Nat × Call)) : V := entries.foldl (fun v entry => act v entry.2) v

/-- The order accounts for the view of the tables and for the parties that have failed. -/
structure Accounts (v : V) (order : List (Nat × Call)) (s : System) : Prop where
  tables : view s.manager.db = viewAfter act v order
  fails : ∀ before i call after, order = before ++ (i, call) :: after → ∀ t, s.threads[i]? = some t →
    fits (viewAfter act v before) call (∃ e, t = .failed e)

/-- The step does to the view what the call does, and fails where that fits. -/
def Acts (m : PermissionManager) (call : Call) (r : PermissionManager × Thread) : Prop :=
  view r.1.db = act (view m.db) call ∧ fits (view m.db) call (∃ e, r.2 = .failed e)

variable {view act fits}

/-- A step at which no call takes effect. -/
private theorem Accounts.goes_on {v : V} {calls : List Call} {order : List (Nat × Call)} {s : System}
    (h : Accounts view act fits v order s) (hp : Placed calls order s) {i : Nat} {t : Thread}
    (ht : s.threads[i]? = some t) (hdb : (s.step i).manager.db = s.manager.db)
    (hfails : i ∈ order.map Prod.fst → ((∃ e, (t.step s.manager).2 = .failed e) ↔ ∃ e, t = .failed e)) :
    Accounts view act fits v order (s.step i) where
  tables := (congrArg view hdb).trans h.tables
  fails := by
    intro before j call after horder u hu
    have hmem : (j, call) ∈ order := by
      rw [horder]
      exact List.mem_append_right _ (List.mem_cons_self ..)
    obtain ⟨w, hw, -⟩ := hp.stage j call (hp.entry _ hmem).1
    have hold := h.fails before j call after horder w hw
    rw [System.getElem?_step hw i, Option.some.injEq] at hu
    subst hu
    by_cases hij : i = j
    · subst hij
      rw [ht, Option.some.injEq] at hw
      subst hw
      rwa [if_pos rfl, propext (hfails (List.mem_map_of_mem hmem))]
    · rwa [if_neg hij]

/-- The step at which a call takes effect. -/
private theorem Accounts.takes_effect {v : V} {calls : List Call} {order : List (Nat × Call)} {s : System}
    (h : Accounts view act fits v order s) (hp : Placed calls order s) {i : Nat} {call : Call} {t : Thread}
    (ht : s.threads[i]? = some t) (hm : (s.step i).manager = (t.step s.manager).1) (hnew : i ∉ order.map Prod.fst)
    (hacts : Acts view act fits s.manager call (t.step s.manager)) :
    Accounts view act fits v (order ++ [(i, call)]) (s.step i) where
  tables := by
    rw [hm, hacts.1, h.tables]
    unfold viewAfter
    rw [List.foldl_append]
    rfl
  fails := by
    intro before j callj after horder u hu
    rcases List.eq_nil_or_concat after with rfl | ⟨after', last, rfl⟩
    · obtain ⟨rfl, hlast⟩ := List.append_inj' horder rfl
      obtain ⟨rfl, rfl⟩ := Prod.mk.inj (List.singleton_inj.1 hlast)
      rw [System.getElem?_step ht i, if_pos rfl, Option.some.injEq] at hu
      subst hu
      rw [← h.tables]
      exact hacts.2
    · rw [List.concat_eq_append, ← List.cons_append, ← List.append_assoc] at horder
      obtain ⟨horder, -⟩ := List.append_inj' horder rfl
      have hmem : (j, callj) ∈ order := by
        rw [horder]
        exact List.mem_append_right _ (List.mem_cons_self ..)
      obtain ⟨w, hw, -⟩ := hp.stage j callj (hp.entry _ hmem).1
      have hne : i ≠ j := by
        rintro rfl
        exact hnew (List.mem_map_of_mem hmem)
      rw [System.getElem?_step hw i, if_neg hne, Option.some.injEq] at hu
      subst hu
      exact h.fails before j callj after' horder w hw

theorem Accounts.step {v : V} {calls : List Call} {order : List (Nat × Call)} {s : System}
    (h : Accounts view act fits v order s) (hp : Placed calls order s) {i : Nat}
    (hacts : ∀ t call, s.threads[i]? = some t → Stage call false t → t.commits s.manager = some call →
      Acts view act fits s.manager call (t.step s.manager)) :
    Accounts view act fits v (order ++ s.commit i) (s.step i) := by
  unfold System.commit
  rcases s.step_cases i with ⟨hnone, heq⟩ | ⟨t, ht, hm, -⟩
  · rw [hnone, heq]
    simpa using h
  obtain ⟨call, -, hstage⟩ := hp.exists_stage ht
  rw [ht]
  rcases hstage.step s.manager with ⟨hnew, -, hcommits, -⟩ | ⟨hcommits, hdb, -, hfails⟩
  · simp only [hcommits, Option.map_some, Option.toList_some]
    rw [hnew] at hstage
    exact h.takes_effect hp ht hm (of_decide_eq_false hnew) (hacts t call ht hstage hcommits)
  · simp only [hcommits, Option.map_none, Option.toList_none, List.append_nil]
    exact h.goes_on hp ht (hm ▸ hdb) fun hmem => hfails (decide_eq_true hmem)

/-- After every schedule in which the calls that take effect do so as the view has it. -/
theorem accounts_run {db : Db} {calls : List Call} {sched : List Nat}
    (hacts : ∀ part i t call, part ++ [i] <+: sched → ((System.init db calls).run part).threads[i]? = some t →
      Stage call false t → t.commits ((System.init db calls).run part).manager = some call →
      Acts view act fits ((System.init db calls).run part).manager call
        (t.step ((System.init db calls).run part).manager)) :
    Accounts view act fits (view db) ((System.init db calls).commits sched) ((System.init db calls).run sched) := by
  refine Run.prefix_induction (P := fun part =>
    Accounts view act fits (view db) ((System.init db calls).commits part) ((System.init db calls).run part))
    ⟨rfl, by simp [System.commits, Run.log]⟩ (fun part i hpart h => ?_) (List.prefix_refl sched)
  have hp := placed_run db calls part
  unfold System.commits at hp ⊢
  rw [Run.log_concat, System.run, Run.run_concat]
  exact h.step hp fun t call ht => hacts part i t call hpart ht

end Accounts

/-- The tables after the calls of the entries. -/
abbrev effects (db : Db) (entries : List (Nat × Call)) : Db := viewAfter Call.effect db entries

theorem runCalls_db (m : PermissionManager) (entries : List (Nat × Call)) :
    (runCalls m (entries.map Prod.snd)).db = effects m.db entries := by
  induction entries generalizing m with
  | nil => rfl
  | cons entry entries ih =>
    refine (ih (entry.2.apply m)).trans ?_
    rw [Call.apply_db]
    rfl

/-- The schedule comes to the calls of the order made one after another. -/
structure Linearizes (db : Db) (calls : List Call) (order : List (Nat × Call)) (s : System) : Prop where
  tables : s.manager.db = (runCalls (.init db) (order.map Prod.snd)).db
  /-- Every call takes effect once at most. -/
  nodup : (order.map Prod.fst).Nodup
  entry : ∀ entry ∈ order, calls[entry.1]? = some entry.2 ∧ entry.2.writes
  /-- A call that has ended has taken effect. -/
  finished : ∀ i call t, calls[i]? = some call → call.writes → s.threads[i]? = some t → t.Finished →
    (i, call) ∈ order
  /-- A call throws exactly when it throws in its place of the order. -/
  throws : ∀ before i call after, order = before ++ (i, call) :: after → ∀ t, s.threads[i]? = some t →
    ((∃ e, t = .failed e) ↔ call.Throws (runCalls (.init db) (before.map Prod.snd)))

/-- The order in which the calls take effect accounts for the tables and for the calls that throw. -/
theorem accounts_effects {db : Db} {calls : List Call} {sched : List Nat}
    (hcheck : ∀ part i g p, part ++ [i] <+: sched →
      ((System.init db calls).run part).threads[i]? = some (.updateParent g p) →
      wouldCreateCycle ((System.init db calls).run part).manager.db g p = false) :
    Accounts id Call.effect (fun db call failed => ∀ m, m.db = db → (failed ↔ call.Throws m)) db
      ((System.init db calls).commits sched) ((System.init db calls).run sched) := by
  refine accounts_run fun part i t call hpart ht hstage hcommits => ?_
  have htakes := hstage.takesEffect hcommits fun g p hupdate => hcheck part i g p hpart (hupdate ▸ ht)
  exact ⟨htakes.db, htakes.fails⟩

/-- Every schedule in which the check of each `setGroupParent` still holds at its `UPDATE` is a sequential run of the
calls that change tables, in the order in which they take effect: the same tables, the same calls throwing.  The order
only grows at its end, so a call that has ended comes before every call that starts later. -/
theorem linearizable {db : Db} {calls : List Call} {sched : List Nat}
    (hcheck : ∀ part i g p, part ++ [i] <+: sched →
      ((System.init db calls).run part).threads[i]? = some (.updateParent g p) →
      wouldCreateCycle ((System.init db calls).run part).manager.db g p = false) :
    Linearizes db calls ((System.init db calls).commits sched) ((System.init db calls).run sched) ∧
      ∀ part, part <+: sched → (System.init db calls).commits part <+: (System.init db calls).commits sched := by
  have hplaced := placed_run db calls sched
  have haccounts := accounts_effects hcheck
  refine ⟨⟨?_, hplaced.nodup, hplaced.entry, ?_, ?_⟩, fun part hpart => commits_prefix _ hpart⟩
  · exact haccounts.tables.trans (runCalls_db (.init db) _).symm
  · exact fun i call t hcall hw ht hfin => hplaced.mem_of_finished hcall hw ht hfin
  · intro before i call after horder t ht
    exact haccounts.fails before i call after horder t ht _ (runCalls_db (.init db) before)

/-- A new parent, a group whose name is taken, and a group with the name of one that is created meanwhile. -/
def sampleWriters : List Call :=
  [.setGroupParent "a" (some "b"), .createGroup "c" "a" none, .createGroup "d" "x" none, .createGroup "e" "x" none]

def sampleTurns : List Nat := [0, 1, 2, 3, 3, 0, 2, 0]

/-- The party does not update a parent into a cycle. -/
def Thread.rechecks (db : Db) : Thread → Bool
  | updateParent g p => !wouldCreateCycle db g p
  | _ => true

theorem sampleTurns_recheck : ∀ part i g p, part ++ [i] <+: sampleTurns →
    ((System.init twoGroups sampleWriters).run part).threads[i]? = some (.updateParent g p) →
    wouldCreateCycle ((System.init twoGroups sampleWriters).run part).manager.db g p = false := by
  intro part i g p hpart hupdate
  have hall : ∀ part ∈ sampleTurns.inits, ∀ t ∈ ((System.init twoGroups sampleWriters).run part).threads,
      t.rechecks ((System.init twoGroups sampleWriters).run part).manager.db = true := by
    decide +kernel
  have hparty := hall part ((List.mem_inits _ _).2 ((List.prefix_append _ _).trans hpart)) _
    (List.mem_of_getElem? hupdate)
  simpa [Thread.rechecks] using hparty

theorem linearizable_sample :
    Linearizes twoGroups sampleWriters ((System.init twoGroups sampleWriters).commits sampleTurns)
      ((System.init twoGroups sampleWriters).run sampleTurns) :=
  (linearizable sampleTurns_recheck).1

example : (System.init twoGroups sampleWriters).commits sampleTurns = [(1, .createGroup "c" "a" none),
    (3, .createGroup "e" "x" none), (0, .setGroupParent "a" (some "b")), (2, .createGroup "d" "x" none)] := by
  decide +kernel

end BakaPerms
