import BakaPerms.SharedStore

/-!
# Processes that are killed

The plugin can be killed between any two of its database calls, and the next process loads what it finds in the file:
what has been committed, without the transaction that was open.  Over any number of such lives the tables stay sound,
every call that has returned is still done, a call that has not returned is done as a whole or not at all, and the
lists of the nodes are those that the edits of all the lives give one after another (`survives_crashes`).
-/

namespace BakaPerms

open Effect Locked PermissionManager

/-- A life of the process: the calls made in it, and the turns they have had when it is killed. -/
structure Life where
  calls : List Call
  turns : List Nat

namespace Life

/-- The parties, the mutex and the database when the process is killed. -/
def killed (db : Db) (life : Life) : StatementSystem := (StatementSystem.init db life.calls).run life.turns

/-- What the next process finds in the file. -/
def left (db : Db) (life : Life) : Db := (life.killed db).memory.committed

/-- The call has returned or thrown before the process is killed. -/
def Ended (db : Db) (life : Life) (i : Nat) (t : Thread) : Prop :=
  (life.killed db).parties[i]? = some (.ready t) ∧ t.Finished

end Life

/-- The calls of the order are those that the life has done, each once and as a whole. -/
structure Left (db : Db) (life : Life) (order : List (Nat × Call)) (db' : Db) : Prop where
  /-- Nothing is left of a transaction that was open. -/
  atomic : ∃ turns, turns.Sublist life.turns ∧ order = (System.init db life.calls).commits turns ∧
    db' = ((System.init db life.calls).run turns).manager.db
  sound : db'.Sound
  acl : aclAt db' = viewAfter Call.editACL (aclAt db) order
  nodup : (order.map Prod.fst).Nodup
  entry : ∀ entry ∈ order, life.calls[entry.1]? = some entry.2
  durable : ∀ i call t, life.calls[i]? = some call → call.writes → life.Ended db i t → (i, call) ∈ order
  /-- An edit that has ended has thrown exactly if its list operation was refused. -/
  throws : ∀ before i call op after t, order = before ++ (i, call) :: after → call.aclOp = some op →
    life.Ended db i t → ((∃ e, t = .failed e) ↔ op.apply (viewAfter Call.editACL (aclAt db) before) = none)

/-- The lives one after another, with the calls that they have done. -/
inductive History : Db → List Life → List (Nat × Call) → Db → Prop
  | nil (db : Db) : History db [] [] db
  | cons {db db' db'' : Db} {life : Life} {lives : List Life} {order orders : List (Nat × Call)} :
    Left db life order db' → History db' lives orders db'' → History db (life :: lives) (order ++ orders) db''

theorem viewAfter_append {V : Type} (act : V → Call → V) (v : V) (entries entries' : List (Nat × Call)) :
    viewAfter act v (entries ++ entries') = viewAfter act (viewAfter act v entries) entries' := List.foldl_append

/-- One life. -/
theorem Life.left_of_killed {db : Db} (hdb : db.Sound) (life : Life) : ∃ order, Left db life order (life.left db) := by
  obtain ⟨turns, hsub, hcoarse⟩ :=
    Fine.run_simulates Thread.action (StatementSystem.guarded_init db life.calls) life.turns
  have hrun : (life.killed db).committed = (System.init db life.calls).run turns :=
    StatementSystem.committed_eq hcoarse
  have htables : life.left db = ((System.init db life.calls).run turns).manager.db :=
    congrArg (fun s : System => s.manager.db) hrun
  have hplaced := placed_run db life.calls turns
  have haccounts := accounts_acl hdb life.calls turns
  -- what has ended has ended in the schedule of atomic steps
  have hthread {i : Nat} {t : Thread} (ht : life.Ended db i t) :
      ((System.init db life.calls).run turns).threads[i]? = some t := by
    rw [← hrun]
    show ((life.killed db).parties.map Party.coarse)[i]? = some t
    rw [List.getElem?_map, ht.1]
    rfl
  refine ⟨_, ⟨turns, hsub, rfl, htables⟩, ?_, ?_, hplaced.nodup, ?_, ?_, ?_⟩
  · rw [htables]
    exact sound_schedule hdb life.calls turns
  · rw [htables]
    exact haccounts.tables
  · exact fun entry hentry => (hplaced.entry entry hentry).1
  · exact fun i call t hcall hw ht => hplaced.mem_of_finished hcall hw (hthread ht) ht.2
  · exact fun before i call op after t horder hop ht => haccounts.fails before i call after horder t (hthread ht) op hop

/-- However often the process is killed, and wherever it is then. -/
theorem survives_crashes {db : Db} (hdb : db.Sound) (lives : List Life) :
    ∃ order, History db lives order (Run.run (fun db life => life.left db) db lives) ∧
      (Run.run (fun db life => life.left db) db lives).Sound ∧
      aclAt (Run.run (fun db life => life.left db) db lives) = viewAfter Call.editACL (aclAt db) order := by
  induction lives generalizing db with
  | nil => exact ⟨[], .nil db, hdb, rfl⟩
  | cons life lives ih =>
    obtain ⟨order, hleft⟩ := life.left_of_killed hdb
    obtain ⟨orders, hhistory, hsound, hacl⟩ := ih hleft.sound
    refine ⟨order ++ orders, .cons hleft hhistory, hsound, ?_⟩
    rw [viewAfter_append, ← hleft.acl]
    exact hacl

/-- An append that is killed before its `COMMIT`, and the same append once more. -/
def sampleLives : List Life :=
  [⟨[.appendACE "t1" "a" "p" 0 .allow, .appendACE "t2" "b" "p" 0 .deny],
      List.replicate 11 1 ++ List.replicate 8 0⟩,
    ⟨[.appendACE "t3" "a" "p" 0 .allow], List.replicate 11 0⟩]

theorem survives_crashes_sample :
    ∃ order, History Db.empty sampleLives order (Run.run (fun db life => life.left db) Db.empty sampleLives) ∧
      (Run.run (fun db life => life.left db) Db.empty sampleLives).Sound ∧
      aclAt (Run.run (fun db life => life.left db) Db.empty sampleLives) =
        viewAfter Call.editACL (aclAt Db.empty) order :=
  survives_crashes Db.sound_empty sampleLives

example : aclAt (Run.run (fun db life => life.left db) Db.empty sampleLives) "a" = [⟨"p", 0, 1, "t3"⟩] := by
  decide +kernel

end BakaPerms
