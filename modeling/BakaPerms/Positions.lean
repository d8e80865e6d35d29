import BakaPerms.Renumbering
import BakaPerms.Sequential

/-!
# Positions out of range

The positional calls of the manager throw before they have changed anything: `insertACE` by its count, `removeACE` by
the number of rows that its DELETE has hit, `moveACE` by the size of the ACL that it has fetched.  The positions of
a reachable ACL are `0, …, n - 1`, so these are the calls with a position out of range, with one exception: `moveACE`
of a position to itself returns before it looks at the ACL, and accepts every position (`checked_iff`).
-/

namespace BakaPerms

open Effect PermissionManager PermissionRepository

/-- The calls of the manager that take positions of an ACL. -/
inductive PositionalEdit
  | insertACE (now node : String) (position : Int) (subjectUuid : String) (subjectType : Int) (mask : AccessMask)
  | removeACE (node : String) (position : Int)
  | moveACE (node : String) (fromIndex toIndex : Int)

namespace PositionalEdit

def run : PositionalEdit → ManagerM Unit
  | insertACE now node position subjectUuid subjectType mask =>
    PermissionManager.insertACE now node position subjectUuid subjectType mask
  | removeACE node position => PermissionManager.removeACE node position
  | moveACE node fromIndex toIndex => PermissionManager.moveACE node fromIndex toIndex

/-- The operation of the repository. -/
def aclOp : PositionalEdit → AclOp
  | insertACE now node position subjectUuid subjectType mask =>
    .insertACE now node position subjectUuid subjectType mask
  | removeACE node position => .removeACE node position
  | moveACE node fromIndex toIndex => .moveACE node fromIndex toIndex

theorem run_eq (edit : PositionalEdit) : edit.run = (do repo edit.aclOp.run; invalidateAll) := by
  cases edit <;> rfl

/-- The call throws exactly when a position is out of range, and then the manager is as before. -/
def Checked (m : PermissionManager) (edit : PositionalEdit) : Prop :=
  ((∃ e m', edit.run m = .error e m') ↔ ¬ edit.aclOp.InRange m.db) ∧ ∀ e m', edit.run m = .error e m' → m' = m

theorem run_error {m m' : PermissionManager} {edit : PositionalEdit} {e : Exn} (h : edit.run m = .error e m') :
    m' = m := by
  rw [run_eq] at h
  exact writer_error edit.aclOp.atomic_run h

theorem checked_of_ok {m m' : PermissionManager} {edit : PositionalEdit} (h : edit.run m = .ok () m')
    (hrange : edit.aclOp.InRange m.db) : edit.Checked m := by
  refine ⟨⟨?_, fun hnot => absurd hrange hnot⟩, fun _ _ => run_error⟩
  rintro ⟨e, m'', he⟩
  rw [h] at he
  cases he

theorem checked_of_throws {m : PermissionManager} {edit : PositionalEdit} {e : Exn} (h : edit.run m = .error e m)
    (hrange : ¬ edit.aclOp.InRange m.db) : edit.Checked m :=
  ⟨⟨fun _ => hrange, fun _ => ⟨e, m, h⟩⟩, fun _ _ => run_error⟩

theorem not_checked_of_ok {m m' : PermissionManager} {edit : PositionalEdit} (h : edit.run m = .ok () m')
    (hrange : ¬ edit.aclOp.InRange m.db) : ¬ edit.Checked m := by
  intro hc
  obtain ⟨e, m'', he⟩ := hc.1.2 hrange
  rw [h] at he
  cases he

/-- A move of a position to itself returns at once, whatever the position. -/
theorem run_moveACE_self (m : PermissionManager) (node : String) (i : Int) :
    (moveACE node i i).run m = .ok () (invalidate m none) := by
  have hmove : PermissionRepository.moveACE node i i m.db = .ok () m.db := by
    rw [PermissionRepository.moveACE, if_pos rfl]
    rfl
  exact writer_of_ok hmove

/-- In every state that calls reach, a positional call throws exactly on positions out of range and changes nothing
then, unless it moves a position out of range to itself. -/
theorem checked_iff (calls : List Call) (edit : PositionalEdit) :
    edit.Checked (runCalls (.init Db.empty) calls) ↔
      ¬ ∃ node i, edit = .moveACE node i i ∧
        ¬ (0 ≤ i ∧ i < (nodeRows (runCalls (.init Db.empty) calls).db node).length) := by
  have hsound := sound_runCalls Db.sound_empty calls
  generalize runCalls (.init Db.empty) calls = m at hsound ⊢
  have hwell : m.db.WellNumbered := ⟨hsound.masks, hsound.numbered⟩
  by_cases hrange : edit.aclOp.InRange m.db
  · obtain ⟨db', h'⟩ := AclOp.runWith_succeeds hwell hrange
    have hrun : edit.aclOp.run m.db = .ok () db' := by
      rw [← AclOp.runWith_updateOrderIndex]
      exact h' _ fun _ _ => rowByRow_updateOrderIndex
    have hok : edit.run m = .ok () _ := (congrFun edit.run_eq m).trans (writer_of_ok hrun)
    refine ⟨fun _ => ?_, fun _ => checked_of_ok hok hrange⟩
    rintro ⟨node, i, rfl, hi⟩
    exact hi hrange.1
  · rcases AclOp.runWith_of_not_inRange hwell hrange with ⟨e, he⟩ | ⟨node, i, hop⟩
    · have hrun : edit.aclOp.run m.db = .error e m.db := by
        rw [← AclOp.runWith_updateOrderIndex]
        exact he _
      have hthrows : edit.run m = .error e m := (congrFun edit.run_eq m).trans (writer_of_error hrun)
      refine ⟨fun _ => ?_, fun _ => checked_of_throws hthrows hrange⟩
      rintro ⟨node, i, rfl, -⟩
      rw [run_moveACE_self] at hthrows
      cases hthrows
    · have hedit : edit = .moveACE node i i := by
        cases edit <;> cases hop
        rfl
      subst hedit
      have hok := run_moveACE_self m node i
      have hi : ¬ (0 ≤ i ∧ i < (nodeRows m.db node).length) := fun hi => hrange ⟨hi, hi⟩
      exact ⟨fun hc => absurd hc (not_checked_of_ok hok hrange), fun hno => absurd ⟨node, i, rfl, hi⟩ hno⟩

/-- A node without ACEs accepts a move of position 5 to itself. -/
theorem moveACE_not_checked : ¬ (moveACE "a" 5 5).Checked (runCalls (.init Db.empty) []) :=
  not_checked_of_ok (run_moveACE_self _ "a" 5) (by decide)

end PositionalEdit

end BakaPerms
