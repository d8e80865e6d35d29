import BakaPerms.Access

/-!
# Calls in favour of one decision

A call is in favour of a mask (`Call.Favours`) when all it does is to add ACEs with this mask, to take away or move back
ACEs with the other one, and to give subjects with ACEs of this mask only to players, or to take subjects without any
from them; and when it does not hide or uncover the less specific nodes in the wrong sense.  Runs of such calls never
turn a decision with this mask into the other one, for any player and any node (`favours_run`): while only allowing
calls are made nobody loses an access, and while only denying calls are made nobody gains one.
-/

namespace BakaPerms

open Chain Effect PermissionRepository PermissionManager PermissionResolver Rules

/-- No ACE of the subject has the mask. -/
def LacksACEs (db : Db) (a : AccessMask) (u : String) : Prop :=
  ∀ k, ∀ x ∈ aclAt db k, x.subjectUuid = u → payloadMask x ≠ a

/-- All ACEs of the subject have the mask. -/
def OnlyACEs (db : Db) (a : AccessMask) (u : String) : Prop :=
  ∀ k, ∀ x ∈ aclAt db k, x.subjectUuid = u → payloadMask x = a

/-- The call can change decisions to `a` only. -/
def Call.Favours (a : AccessMask) (db : Db) : Call → Prop
  | checkPermission .. | invalidate _ | createGroup .. => True
  | appendACE _ k _ _ mask | insertACE _ k _ _ _ mask => mask = a ∧ (a = .allow → aclAt db k ≠ [])
  | removeACE k i =>
    0 ≤ i → ∀ x, (aclAt db k)[i.toNat]? = some x → payloadMask x ≠ a ∧ (a = .deny → 2 ≤ (aclAt db k).length)
  | moveACE k i j =>
    0 ≤ i → ∀ x, (aclAt db k)[i.toNat]? = some x → (payloadMask x = a → j ≤ i) ∧ (payloadMask x ≠ a → i ≤ j)
  | clearNodeACL k => (∀ x ∈ aclAt db k, payloadMask x ≠ a) ∧ (a = .deny → aclAt db k = [])
  | deleteGroup g =>
    (∀ u, Reaches db.parentOf g u → LacksACEs db a u) ∧
      (a = .deny → ∀ k, (∃ x ∈ aclAt db k, x.subjectUuid = g) → ∃ x ∈ aclAt db k, x.subjectUuid ≠ g)
  | setGroupParent g parent =>
    (∀ n u, ascend db.parentOf (n + 1) g = some u → LacksACEs db a u) ∧
      ∀ h, parent = some h → ∀ u, Reaches db.parentOf h u → OnlyACEs db a u
  | addPlayerToGroup _ g => ∀ u, Reaches db.parentOf g u → OnlyACEs db a u
  | removePlayerFromGroup _ g => ∀ u, Reaches db.parentOf g u → LacksACEs db a u

/-! ### Identities -/

theorem inToken_iff {db : Db} (hdb : db.Schema) {p u : String} :
    InToken db p u ↔ u = p ∨ ∃ g, (⟨p, g⟩ : PlayerGroupRow) ∈ db.playerGroups ∧
      ∃ n ≤ 32, ascend db.parentOf n g = some u := by
  refine or_congr_right (exists_congr fun g => and_congr_right fun hg => ?_)
  constructor
  · rintro ⟨-, hasc⟩
    exact hasc
  · rintro ⟨n, hn, hasc⟩
    exact ⟨hdb.ascend_mem (hdb.membership_exists _ hg) hasc, n, hn, hasc⟩

/-- Who gains an identity finds the mask `a` only there, and who loses one has not had `a` there. -/
structure ShiftsTo (a : AccessMask) (db db' : Db) : Prop where
  gained : ∀ p u, InToken db' p u → InToken db p u ∨ OnlyACEs db a u
  lost : ∀ p u, InToken db p u → InToken db' p u ∨ LacksACEs db a u

section Shifts

variable {a : AccessMask} {db db' : Db}

theorem ShiftsTo.of_iff (h : ∀ p u, InToken db' p u ↔ InToken db p u) : ShiftsTo a db db' where
  gained p u hu := .inl ((h p u).1 hu)
  lost p u hu := .inl ((h p u).2 hu)

theorem shiftsTo_of_groups (hgroups : db'.groups = db.groups) (hplayers : db'.playerGroups = db.playerGroups) :
    ShiftsTo a db db' := by
  refine .of_iff fun p u => ?_
  unfold InToken Db.groupUuids
  rw [hgroups, hplayers, parentOf_congr hgroups]

/-- A link of the hierarchy is redirected. -/
theorem shiftsTo_of_parent (hdb : db.Schema) (hdb' : db'.Schema) {g : String} {parent : Option String}
    (hplayers : db'.playerGroups = db.playerGroups) (hparent : db'.parentOf = Function.update db.parentOf g parent)
    (hold : ∀ n u, ascend db.parentOf (n + 1) g = some u → LacksACEs db a u)
    (hnew : ∀ h, parent = some h → ∀ u, Reaches db.parentOf h u → OnlyACEs db a u) : ShiftsTo a db db' := by
  constructor
  · intro p u hu
    rw [inToken_iff hdb', hplayers, hparent] at hu
    rw [inToken_iff hdb]
    rcases hu with hp | ⟨k, hk, n, hn, hasc⟩
    · exact .inl (.inl hp)
    · rcases ascend_or_of_update hasc with hasc' | ⟨h, hh, hreach⟩
      · exact .inl (.inr ⟨k, hk, n, hn, hasc'⟩)
      · exact .inr (hnew h hh u hreach)
  · intro p u hu
    rw [inToken_iff hdb] at hu
    rw [inToken_iff hdb', hplayers, hparent]
    rcases hu with hp | ⟨k, hk, n, hn, hasc⟩
    · exact .inl (.inl hp)
    · rcases ascend_update_or (a := g) (o := parent) hasc with hasc' | ⟨j, hj⟩
      · exact .inl (.inr ⟨k, hk, n, hn, hasc'⟩)
      · exact .inr (hold j u hj)

theorem shiftsTo_setGroupParent (hdb : db.Schema) {g : String} {parent : Option String}
    (hold : ∀ n u, ascend db.parentOf (n + 1) g = some u → LacksACEs db a u)
    (hnew : ∀ h, parent = some h → ∀ u, Reaches db.parentOf h u → OnlyACEs db a u) :
    ShiftsTo a db (final (PermissionRepository.setGroupParent g parent) db) := by
  have hdb' := within_updateGroupParent g parent db hdb
  change (final (PermissionRepository.setGroupParent g parent) db).Schema at hdb'
  cases h : PermissionRepository.setGroupParent g parent db with
  | error e db' =>
    rw [final_of_error h, updateGroupParent_error h]
    exact shiftsTo_of_groups rfl rfl
  | ok r db' =>
    rw [final_of_ok h] at hdb' ⊢
    obtain ⟨-, rfl⟩ := updateGroupParent_eq_ok.1 h
    by_cases hmem : g ∈ db.groupUuids
    · exact shiftsTo_of_parent hdb hdb' rfl (parentOf_withParent hmem parent) hold hnew
    · exact shiftsTo_of_groups (withParent_of_notMem hmem parent) rfl

/-- No identity leads to a new group. -/
theorem shiftsTo_createGroup (hdb : db.Schema) (uuid name : String) (parent : Option String) :
    ShiftsTo a db (final (PermissionRepository.createGroup uuid name parent) db) := by
  have hdb' := within_insertGroup ⟨uuid, name, parent⟩ db hdb
  change (final (PermissionRepository.createGroup uuid name parent) db).Schema at hdb'
  refine .of_iff fun p u => ?_
  have hview := sameView_createGroup hdb p "" uuid name parent
  rw [inToken_iff hdb, inToken_iff hdb']
  refine or_congr_right (exists_congr fun g => ?_)
  rw [hview.member g]
  refine and_congr_right fun hg => exists_congr fun n => and_congr_right fun hn => ?_
  rw [hview.ancestry g hg n hn]

/-- A new membership leads to the group and what is above it. -/
theorem shiftsTo_addPlayerToGroup (hdb : db.Schema) {q g : String}
    (hnew : ∀ u, Reaches db.parentOf g u → OnlyACEs db a u) :
    ShiftsTo a db (final (PermissionRepository.addPlayerToGroup q g) db) := by
  have hfinal : final (PermissionRepository.addPlayerToGroup q g) db = final (insertPlayerGroup ⟨q, g⟩) db :=
    final_bind_pure ..
  rw [hfinal]
  have hdb' := within_insertPlayerGroup ⟨q, g⟩ db hdb
  cases h : insertPlayerGroup ⟨q, g⟩ db with
  | error e db' =>
    rw [final_of_error h, insertPlayerGroup_error h]
    exact shiftsTo_of_groups rfl rfl
  | ok n db' =>
    rw [final_of_ok h] at hdb' ⊢
    rcases insertPlayerGroup_ok h with ⟨-, rfl⟩ | ⟨-, -, -, rfl⟩
    · exact shiftsTo_of_groups rfl rfl
    constructor
    · intro p u hu
      rw [inToken_iff hdb'] at hu
      rw [inToken_iff hdb]
      rcases hu with hp | ⟨k, hk, n, hn, hasc⟩
      · exact .inl (.inl hp)
      · rcases List.mem_append.1 hk with hk | hk
        · exact .inl (.inr ⟨k, hk, n, hn, hasc⟩)
        · cases List.mem_singleton.1 hk
          exact .inr (hnew u ⟨n, hasc⟩)
    · intro p u hu
      rw [inToken_iff hdb] at hu
      rw [inToken_iff hdb']
      rcases hu with hp | ⟨k, hk, n, hn, hasc⟩
      · exact .inl (.inl hp)
      · exact .inl (.inr ⟨k, List.mem_append_left _ hk, n, hn, hasc⟩)

/-- A membership that ends has led to the group and what is above it. -/
theorem shiftsTo_removePlayerFromGroup (hdb : db.Schema) {q g : String}
    (hold : ∀ u, Reaches db.parentOf g u → LacksACEs db a u) :
    ShiftsTo a db (final (PermissionRepository.removePlayerFromGroup q g) db) := by
  have hfinal : final (PermissionRepository.removePlayerFromGroup q g) db =
      { db with playerGroups := Table.delete (· == ⟨q, g⟩) db.playerGroups } := rfl
  have hdb' := within_removePlayerFromGroup (within_deletePlayerGroup ⟨q, g⟩) db hdb
  rw [hfinal] at hdb' ⊢
  constructor
  · intro p u hu
    rw [inToken_iff hdb'] at hu
    rw [inToken_iff hdb]
    rcases hu with hp | ⟨k, hk, n, hn, hasc⟩
    · exact .inl (.inl hp)
    · exact .inl (.inr ⟨k, List.mem_of_mem_filter hk, n, hn, hasc⟩)
  · intro p u hu
    rw [inToken_iff hdb] at hu
    rw [inToken_iff hdb']
    rcases hu with hp | ⟨k, hk, n, hn, hasc⟩
    · exact .inl (.inl hp)
    · by_cases hrow : (⟨p, k⟩ : PlayerGroupRow) = ⟨q, g⟩
      · cases hrow
        exact .inr (hold u ⟨n, hasc⟩)
      · exact .inl (.inr ⟨k, List.mem_filter.2 ⟨hk, by simpa using hrow⟩, n, hn, hasc⟩)

/-- The identities that are lost with a group are the group and what is above it. -/
theorem shiftsTo_deleteGroup (hdb : db.Schema) (hdb' : db'.Schema) {g : String}
    (h : PermissionRepository.deleteGroup g db = .ok () db')
    (hold : ∀ u, Reaches db.parentOf g u → LacksACEs db a u) : ShiftsTo a db db' := by
  rcases deleteGroup_groups h with ⟨-, hgroups, hplayers⟩ | ⟨-, hgroups, hplayers⟩
  swap
  · exact shiftsTo_of_groups hgroups hplayers
  constructor
  · intro p u hu
    rw [inToken_iff hdb'] at hu
    rw [inToken_iff hdb]
    rcases hu with hp | ⟨k, hk, n, hn, hasc⟩
    · exact .inl (.inl hp)
    · rw [hplayers] at hk
      have hup := ascend_mono (fun _ _ hparent => parentOf_withoutGroup hdb hdb' hgroups hparent) hasc
      exact .inl (.inr ⟨k, List.mem_of_mem_filter hk, n, hn, hup⟩)
  · intro p u hu
    rw [inToken_iff hdb] at hu
    rw [inToken_iff hdb']
    rcases hu with hp | ⟨k, hk, n, hn, hasc⟩
    · exact .inl (.inl hp)
    by_cases hthrough : ∃ j ≤ n, ascend db.parentOf j k = some g
    · obtain ⟨j, hj, hjg⟩ := hthrough
      obtain ⟨i, rfl⟩ := Nat.exists_eq_add_of_le hj
      rw [ascend_add, hjg] at hasc
      exact .inr (hold u ⟨i, hasc⟩)
    · push Not at hthrough
      refine .inl (.inr ⟨k, ?_, n, hn, ?_⟩)
      · have hkg : k ≠ g := fun hkg => hthrough 0 (Nat.zero_le _) (congrArg some hkg)
        rw [hplayers]
        exact List.mem_filter.2 ⟨hk, by simpa using hkg⟩
      · rw [← hasc]
        refine ascend_congr fun j hj w hw => parentOf_withoutGroup_of_ne hdb hdb' hgroups ?_ ?_
        · rintro rfl
          exact hthrough j hj.le hw
        · intro hwg
          refine hthrough (j + 1) hj ?_
          rw [ascend_succ', hw]
          exact hwg

end Shifts

/-! ### ACLs -/

/-- At every node the first ACE that speaks about the player can only have become one with the mask `a`, and nodes are
filled or emptied in this sense. -/
structure MovesTo (a : AccessMask) (db db' : Db) (p : String) : Prop where
  layer : ∀ k, Towards (speaks db p) (speaks db' p) payloadMask .deny a (aclAt db k) (aclAt db' k)
  fill : AccessMask.deny ≠ a → ∀ k, aclAt db k = [] → aclAt db' k = []
  clear : AccessMask.deny = a → ∀ k, aclAt db' k = [] → aclAt db k = []

theorem MovesTo.decision {a : AccessMask} {db db' : Db} (hdb : db.Sound) (hdb' : db'.Sound) {p m : String}
    (h : MovesTo a db db' p) (ha : resolvePermission db p m = .ok a) : resolvePermission db' p m = .ok a := by
  have hm : m ≠ "" := by
    rintro rfl
    rw [resolvePermission, buildNodePath_empty] at ha
    cases ha
  obtain ⟨path, hpath, -⟩ := buildNodePath_eq_ok hm
  rw [resolvePermission_eq_verdict hdb hpath, Except.ok.injEq] at ha
  rw [resolvePermission_eq_verdict hdb' hpath]
  exact congrArg Except.ok (verdict_of_towards (fun k _ => h.layer k) (fun hd k _ => h.fill hd k)
    (fun hd k _ => h.clear hd k) ha)

section Moves

variable {a : AccessMask} {db db' : Db} {p : String}

theorem MovesTo.of_same (hspeaks : speaks db' p = speaks db p) (hacl : aclAt db' = aclAt db) : MovesTo a db db' p where
  layer k := by
    rw [hspeaks, hacl]
    exact Towards.refl _ _ _ _ _
  fill _ k hk := by rwa [hacl]
  clear _ k hk := by rwa [hacl] at hk

/-- One ACL is edited. -/
theorem MovesTo.of_update (hspeaks : speaks db' p = speaks db p) {k : String} {l : List Payload}
    (hacl : aclAt db' = Function.update (aclAt db) k l)
    (hl : Towards (speaks db p) (speaks db p) payloadMask .deny a (aclAt db k) l)
    (hfill : a = .allow → aclAt db k = [] → l = []) (hclear : a = .deny → l = [] → aclAt db k = []) :
    MovesTo a db db' p := by
  rw [← hspeaks] at hl
  constructor
  · intro k'
    by_cases hk : k' = k
    · subst hk
      rw [hacl, Function.update_self, ← hspeaks]
      exact hl
    · rw [hacl, Function.update_of_ne hk, hspeaks]
      exact Towards.refl _ _ _ _ _
  · intro hd k' hnil
    have ha : a = .allow := by
      cases a with
      | deny => exact absurd rfl hd
      | allow => rfl
    by_cases hk : k' = k
    · subst hk
      rw [hacl, Function.update_self]
      exact hfill ha hnil
    · rwa [hacl, Function.update_of_ne hk]
  · intro hd k' hnil
    by_cases hk : k' = k
    · subst hk
      rw [hacl, Function.update_self] at hnil
      exact hclear hd.symm hnil
    · rwa [hacl, Function.update_of_ne hk] at hnil

/-- The identities shift, and subjects without the mask `a` may lose their ACEs. -/
theorem MovesTo.of_shiftsTo (hdb : db.Schema) (hdb' : db'.Schema) (h : ShiftsTo a db db') (keep : Payload → Bool)
    (hacl : ∀ k, aclAt db' k = (aclAt db k).filter keep)
    (hkeep : ∀ k, ∀ x ∈ aclAt db k, ¬ keep x → payloadMask x ≠ a)
    (hclear : a = .deny → ∀ k, (aclAt db k).filter keep = [] → aclAt db k = []) : MovesTo a db db' p := by
  constructor
  · intro k
    rw [hacl]
    refine Tends.towards (.filter ?_ ?_) _
    · rintro x hx hspeaks (hno | hno)
      · exact hkeep k x hx hno
      · rw [speaks_iff hdb.groups_key] at hspeaks
        rw [speaks_iff hdb'.groups_key] at hno
        push Not at hno
        have htoken := hspeaks.resolve_left hno.1
        exact (h.lost p x.subjectUuid htoken).resolve_left hno.2 k x hx rfl
    · intro x hx _ hspeaks hno
      rw [speaks_iff hdb'.groups_key] at hspeaks
      rw [speaks_iff hdb.groups_key] at hno
      push Not at hno
      have htoken := hspeaks.resolve_left hno.1
      exact (h.gained p x.subjectUuid htoken).resolve_left hno.2 k x hx rfl
  · intro _ k hnil
    rw [hacl, hnil, List.filter_nil]
  · intro hd k hnil
    rw [hacl] at hnil
    exact hclear hd.symm k hnil

theorem MovesTo.of_groups (hdb : db.Schema) (hdb' : db'.Schema) (h : ShiftsTo a db db') (hacl : aclAt db' = aclAt db) :
    MovesTo a db db' p := by
  refine .of_shiftsTo hdb hdb' h (fun _ => true) (fun k => ?_) (fun k x _ hno => absurd rfl hno) fun _ k hnil => ?_
  · rw [List.filter_true, hacl]
  · rwa [List.filter_true] at hnil

theorem payloadMask_toInt (subjectUuid now : String) (subjectType : Int) (mask : AccessMask) :
    payloadMask ⟨subjectUuid, subjectType, mask.toInt, now⟩ = mask := by cases mask <;> rfl

theorem movesTo_inserted (hdb : db.Sound) {call : Call} {op : AclOp} (hop : call.aclOp = some op)
    (hne : ∀ g, op ≠ .deleteGroup g) {k : String} {i : Nat} {x : Payload} (hcall : call.inserted db = some (k, i, x))
    (hx : payloadMask x = a) (hfill : a = .allow → aclAt db k ≠ []) : MovesTo a db (call.effect db) p := by
  obtain ⟨hi, hedit⟩ := Call.editACL_of_inserted hcall
  have hacl := Call.aclAt_effect hdb call
  rw [hedit] at hacl
  refine .of_update (speaks_effect hop hne p) hacl ((Tends.insertIdx hi hx).towards _) ?_ ?_
  · exact fun ha hnil => absurd hnil (hfill ha)
  · intro _ hnil
    rw [insertIdx_eq_append hi] at hnil
    simp at hnil

theorem movesTo_insertACE (hdb : db.Sound) {now k subjectUuid : String} {position subjectType : Int}
    (hfill : a = .allow → aclAt db k ≠ []) :
    MovesTo a db ((Call.insertACE now k position subjectUuid subjectType a).effect db) p := by
  by_cases hrange : 0 ≤ position ∧ position ≤ (aclAt db k).length
  · exact movesTo_inserted hdb rfl (fun g hg => by cases hg) (if_pos hrange) (payloadMask_toInt ..) hfill
  · refine .of_same (speaks_effect rfl (fun g hg => by cases hg) p) ((Call.aclAt_effect hdb _).trans ?_)
    show ((AclOp.insertACE now k position subjectUuid subjectType a).apply (aclAt db)).getD (aclAt db) = _
    rw [AclOp.apply, if_neg hrange, Option.getD_none]

theorem movesTo_removeACE (hdb : db.Sound) {k : String} {i : Int} (h : (Call.removeACE k i).Favours a db) :
    MovesTo a db ((Call.removeACE k i).effect db) p := by
  have hspeaks : speaks ((Call.removeACE k i).effect db) p = speaks db p :=
    speaks_effect rfl (fun g hg => by cases hg) p
  have hacl : aclAt ((Call.removeACE k i).effect db) = ((AclOp.removeACE k i).apply (aclAt db)).getD (aclAt db) :=
    Call.aclAt_effect hdb _
  rw [AclOp.apply] at hacl
  by_cases hrange : 0 ≤ i ∧ i < (aclAt db k).length
  · rw [if_pos hrange, Option.getD_some] at hacl
    have hi : i.toNat < (aclAt db k).length := by omega
    refine .of_update hspeaks hacl ((Tends.eraseIdx fun x hx => (h hrange.1 x hx).1).towards _) ?_ ?_
    · intro _ hnil
      rw [hnil, List.eraseIdx_nil]
    · intro ha hnil
      have hlen := congrArg List.length hnil
      rw [List.length_eraseIdx_of_lt hi, List.length_nil] at hlen
      have htwo := (h hrange.1 _ (List.getElem?_eq_getElem hi)).2 ha
      omega
  · rw [if_neg hrange, Option.getD_none] at hacl
    exact .of_same hspeaks hacl

theorem movesTo_moveACE (hdb : db.Sound) {k : String} {i j : Int} (h : (Call.moveACE k i j).Favours a db) :
    MovesTo a db ((Call.moveACE k i j).effect db) p := by
  have hspeaks : speaks ((Call.moveACE k i j).effect db) p = speaks db p :=
    speaks_effect rfl (fun g hg => by cases hg) p
  have hacl : aclAt ((Call.moveACE k i j).effect db) = ((AclOp.moveACE k i j).apply (aclAt db)).getD (aclAt db) :=
    Call.aclAt_effect hdb _
  rw [AclOp.apply] at hacl
  by_cases hij : i = j
  · rw [if_pos hij, Option.getD_some] at hacl
    exact .of_same hspeaks hacl
  rw [if_neg hij] at hacl
  by_cases hrange : 0 ≤ i ∧ i < (aclAt db k).length ∧ 0 ≤ j ∧ j < (aclAt db k).length
  · rw [if_pos hrange, Option.getD_some] at hacl
    have hi : i.toNat < (aclAt db k).length := by omega
    have hj : j.toNat < (aclAt db k).length := by omega
    obtain ⟨hup, hdown⟩ := h hrange.1 _ (List.getElem?_eq_getElem hi)
    have hperm := moveElem_perm (aclAt db k) hi hj
    refine .of_update hspeaks hacl ?_ (fun _ hnil => ?_) fun _ hnil => ?_
    · rw [moveElem_of_lt hi]
      refine towards_move hi hj (fun hmask => ?_) fun hmask => ?_
      · have := hup hmask
        omega
      · have := hdown hmask
        omega
    · exact (hperm.trans (.of_eq hnil)).eq_nil
    · exact (hperm.symm.trans (.of_eq hnil)).eq_nil
  · rw [if_neg hrange, Option.getD_none] at hacl
    exact .of_same hspeaks hacl

theorem movesTo_clearNodeACL (hdb : db.Sound) {k : String} (h : (Call.clearNodeACL k).Favours a db) :
    MovesTo a db ((Call.clearNodeACL k).effect db) p := by
  have hdrop : Tends (speaks db p) (speaks db p) payloadMask a (aclAt db k) ((aclAt db k).filter fun _ => false) :=
    .filter (fun x hx _ _ => h.1 x hx) fun x _ hno => absurd hno Bool.false_ne_true
  rw [List.filter_false] at hdrop
  exact .of_update (speaks_effect rfl (fun g hg => by cases hg) p) (Call.aclAt_effect hdb _) (hdrop.towards _)
    (fun _ _ => rfl) fun ha _ => h.2 ha

theorem movesTo_deleteGroup (hdb : db.Sound) {g : String} (h : (Call.deleteGroup g).Favours a db) :
    MovesTo a db ((Call.deleteGroup g).effect db) p := by
  have hacl := Call.aclAt_effect hdb (.deleteGroup g)
  have hdb' := Call.sound_effect hdb (.deleteGroup g)
  have heffect : (Call.deleteGroup g).effect db = final (PermissionRepository.deleteGroup g) db := rfl
  rw [heffect] at hacl hdb' ⊢
  cases hdel : PermissionRepository.deleteGroup g db with
  | error e db' =>
    rw [final_of_error hdel, atomic_deleteGroup g hdel]
    exact .of_same rfl rfl
  | ok r db' =>
    rw [final_of_ok hdel] at hacl hdb' ⊢
    refine .of_shiftsTo hdb.toSchema hdb'.toSchema (shiftsTo_deleteGroup hdb.toSchema hdb'.toSchema hdel h.1)
      (fun x => decide (x.subjectUuid ≠ g)) (congrFun hacl) (fun k x hx hno => ?_) fun ha k hnil => ?_
    · have hg : x.subjectUuid = g := by simpa using hno
      exact h.1 g ⟨0, rfl⟩ k x hx hg
    · by_contra hne
      obtain ⟨x, hx⟩ := List.exists_mem_of_ne_nil _ hne
      have hall := List.filter_eq_nil_iff.1 hnil
      have hg : x.subjectUuid = g := by simpa using hall x hx
      obtain ⟨y, hy, hyg⟩ := h.2 ha k ⟨x, hx, hg⟩
      exact hall y hy (decide_eq_true hyg)

/-- A call that is in favour of the mask `a` changes decisions to `a` only. -/
theorem Call.Favours.movesTo (hdb : db.Sound) {call : Call} (h : call.Favours a db) :
    MovesTo a db (call.effect db) p := by
  have hdb' := Call.sound_effect hdb call
  have hacl := Call.aclAt_effect hdb call
  cases call with
  | checkPermission | invalidate => exact .of_same rfl rfl
  | createGroup uuid name parent =>
    refine .of_groups hdb.toSchema hdb'.toSchema ?_ hacl
    simp only [Call.effect]
    split
    · exact shiftsTo_of_groups rfl rfl
    · exact shiftsTo_createGroup hdb.toSchema uuid name parent
  | setGroupParent g parent =>
    refine .of_groups hdb.toSchema hdb'.toSchema ?_ hacl
    simp only [Call.effect]
    split
    · exact shiftsTo_of_groups rfl rfl
    · exact shiftsTo_setGroupParent hdb.toSchema h.1 h.2
  | addPlayerToGroup q g =>
    exact .of_groups hdb.toSchema hdb'.toSchema (shiftsTo_addPlayerToGroup hdb.toSchema h) hacl
  | removePlayerFromGroup q g =>
    exact .of_groups hdb.toSchema hdb'.toSchema (shiftsTo_removePlayerFromGroup hdb.toSchema h) hacl
  | appendACE now k subjectUuid subjectType mask =>
    obtain ⟨rfl, hfill⟩ := h
    exact movesTo_inserted hdb rfl (fun g hg => by cases hg) rfl (payloadMask_toInt ..) hfill
  | insertACE now k position subjectUuid subjectType mask =>
    obtain ⟨rfl, hfill⟩ := h
    exact movesTo_insertACE hdb hfill
  | removeACE k i => exact movesTo_removeACE hdb h
  | moveACE k i j => exact movesTo_moveACE hdb h
  | clearNodeACL k => exact movesTo_clearNodeACL hdb h
  | deleteGroup g => exact movesTo_deleteGroup hdb h

end Moves

/-! ### Runs -/

/-- Each call of the run is in favour of the mask `a` in the state in which it is made. -/
def AllFavour (a : AccessMask) : PermissionManager → List Call → Prop
  | _, [] => True
  | m, call :: calls => call.Favours a m.db ∧ AllFavour a (call.apply m) calls

/-- Who is given the mask `a` on a node before a run of calls in favour of `a` is given it after the run. -/
theorem favours_run {a : AccessMask} {m : PermissionManager} (hm : m.db.Sound) {calls : List Call}
    (hcalls : AllFavour a m calls) {p node : String} (ha : resolvePermission m.db p node = .ok a) :
    resolvePermission (runCalls m calls).db p node = .ok a := by
  induction calls generalizing m with
  | nil => exact ha
  | cons call calls ih =>
    obtain ⟨hcall, hrest⟩ := hcalls
    have hsound := Call.sound_effect hm call
    have hmoved := hcall.movesTo (p := p) hm
    have hdb := Call.apply_db m call
    rw [← hdb] at hsound hmoved
    exact ih hsound hrest (hmoved.decision hm hsound ha)

/-- Everybody is denied `a`, the parent of the player's group loses its ACE, and somebody else joins the group. -/
def denyingCalls : List Call := [.appendACE "t" "a" "*" 0 .deny, .removeACE "a" 1, .addPlayerToGroup "q" "g"]

theorem favours_run_sample :
    resolvePermission (runCalls (.init tornDb) denyingCalls).db "p" "a" = .ok .deny := by
  have hdeny : resolvePermission tornDb "p" "a" = .ok .deny := by decide +kernel
  have hremoved : (aclAt ((Call.appendACE "t" "a" "*" 0 .deny).apply (.init tornDb)).db "a") =
      [⟨"g", 1, 0, "t"⟩, ⟨"h", 1, 1, "t"⟩, ⟨"*", 0, 0, "t"⟩] := by decide +kernel
  have hrows : ∀ row ∈ ((runCalls (.init tornDb) (denyingCalls.take 2)).db).permissions, row.mask = .deny := by
    decide +kernel
  have hcalls : AllFavour .deny (.init tornDb) denyingCalls := by
    refine show _ ∧ _ ∧ _ ∧ True from ⟨⟨rfl, fun h => by cases h⟩, ?_, ?_, trivial⟩
    · intro _ x hx
      rw [hremoved] at hx ⊢
      cases hx
      exact ⟨by decide, fun _ => by decide⟩
    · intro u _ k x hx _
      obtain ⟨row, hrow, -, rfl⟩ := mem_aclAt.1 hx
      exact hrows row hrow
  exact favours_run sound_tornDb hcalls hdeny

end BakaPerms
