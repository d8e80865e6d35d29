import BakaPerms.Reachability

/-!
# What the listings are good for

`acl info` lists the ACL of a node and `user info` and `group info` the ACEs of a subject.  In sound tables the two
agree: an ACE of the subject stands in the ACL of its node at the position that is printed in front of it (`Lists`).
So the ACEs of a subject can be removed by hand, with the printed positions, from the last line of the list to the
first: nothing throws, and the ACLs are then those that `deleteGroup` leaves (`remove_listed`).
-/

namespace BakaPerms

open Effect Numbering PermissionManager PermissionRepository

/-! ### The listing of a subject -/

/-- The rows of a subject by node and position. -/
def subjectRows (db : Db) (subjectUuid : String) : List PermissionRow :=
  (db.permissions.filter fun row => row.subjectUuid == subjectUuid).insertionSort fun a b => toLex a.key ≤ toLex b.key

/-- The line of a row. -/
def PermissionRow.nodeACE (row : PermissionRow) : NodeACE := ⟨row.node, row.ace⟩

theorem mem_subjectRows {db : Db} {s : String} {row : PermissionRow} :
    row ∈ subjectRows db s ↔ row ∈ db.permissions ∧ row.subjectUuid = s := by
  simp [subjectRows]

theorem getSubjectACEs_eq {db : Db} (hm : db.ValidMasks) (s : String) :
    getSubjectACEs db s = .ok ((subjectRows db s).map PermissionRow.nodeACE) := by
  have hrows : ∀ row ∈ subjectRows db s, ∃ mask : AccessMask, row.accessMask = mask.toInt :=
    fun row hrow => hm row (mem_subjectRows.1 hrow).1
  show (subjectRows db s).mapM _ = _
  generalize subjectRows db s = rows at hrows
  induction rows with
  | nil => rfl
  | cons row rows ih =>
    rw [List.mapM_cons, rowToACE_eq_ok (hrows row (List.mem_cons_self ..)),
      ih fun row' hrow' => hrows row' (List.mem_cons_of_mem _ hrow')]
    rfl

theorem pairwise_subjectRows {db : Db} (hk : (db.permissions.map PermissionRow.key).Nodup) (s : String) :
    (subjectRows db s).Pairwise fun a b => toLex a.key < toLex b.key := by
  refine Table.pairwise_sort (fun row : PermissionRow => toLex row.key) ?_
  exact hk.sublist (List.filter_sublist.map _)

/-! ### The position of a row -/

theorem getElem?_number {β : Type} (k : Int) (l : List β) (i : Nat) :
    (number k l)[i]? = l[i]?.map fun b => (k + i, b) := by
  induction l generalizing k i with
  | nil => rfl
  | cons b l ih =>
    cases i with
    | zero => simp [number]
    | succ i =>
      rw [number, List.getElem?_cons_succ, List.getElem?_cons_succ, ih]
      congr 1
      funext b
      rw [Int.natCast_succ, Int.add_assoc, Int.add_comm 1]

/-- The rows of a node are numbered in their order. -/
theorem map_entry_sortedRows {db : Db} (hdb : db.Sound) (node : String) :
    (sortedRows db node).map PermissionRow.entry = number 0 (aclAt db node) := by
  rw [sortedRows, sort_map_entry]
  exact Table.sort_eq_of_perm Prod.fst (hdb.represents node) (pairwise_number 0 _)

/-- A row of the table stands in the ACL of its node where its position says. -/
theorem exists_index {db : Db} (hdb : db.Sound) {row : PermissionRow} (hrow : row ∈ db.permissions) :
    ∃ i : Nat, row.orderIndex = i ∧ (sortedRows db row.node)[i]? = some row ∧
      (aclAt db row.node)[i]? = some row.payload := by
  obtain ⟨i, hi⟩ := List.mem_iff_getElem?.1 (mem_sortedRows.2 ⟨hrow, rfl⟩)
  have hentry : ((sortedRows db row.node).map PermissionRow.entry)[i]? = some row.entry := by
    rw [List.getElem?_map, hi]
    rfl
  rw [map_entry_sortedRows hdb, getElem?_number] at hentry
  obtain ⟨payload, hpayload, heq⟩ := Option.map_eq_some_iff.1 hentry
  obtain ⟨hindex, rfl⟩ := Prod.mk.inj heq
  exact ⟨i, by rw [← hindex, Int.zero_add], hi, hpayload⟩

/-- The lines for the subject are its ACEs, each with its node and the position it has in the ACL there. -/
structure Lists (db : Db) (s : String) (aces : List NodeACE) : Prop where
  sorted : aces.Pairwise fun a b => toLex (a.node, a.ace.orderIndex) < toLex (b.node, b.ace.orderIndex)
  mem : ∀ line, line ∈ aces ↔ line.ace.subjectUuid = s ∧
    ∃ acl, getNodeACL db line.node = .ok acl ∧ ∃ i : Nat, line.ace.orderIndex = i ∧ acl[i]? = some line.ace

theorem lists_subjectRows {db : Db} (hdb : db.Sound) (s : String) :
    Lists db s ((subjectRows db s).map PermissionRow.nodeACE) where
  sorted := List.pairwise_map.2 (pairwise_subjectRows hdb.permissions_key s)
  mem := by
    intro line
    rw [List.mem_map]
    constructor
    · rintro ⟨row, hrow, rfl⟩
      obtain ⟨hmem, hsubject⟩ := mem_subjectRows.1 hrow
      obtain ⟨i, hindex, hi, -⟩ := exists_index hdb hmem
      refine ⟨hsubject, _, getNodeACL_eq hdb.masks _, i, hindex, ?_⟩
      rw [List.getElem?_map, PermissionRow.nodeACE, hi]
      rfl
    · rintro ⟨hsubject, acl, hacl, i, -, hi⟩
      rw [getNodeACL_eq hdb.masks] at hacl
      cases hacl
      obtain ⟨row, hrow, hace⟩ := List.mem_map.1 (List.mem_of_getElem? hi)
      obtain ⟨hmem, hnode⟩ := mem_sortedRows.1 hrow
      refine ⟨row, mem_subjectRows.2 ⟨hmem, ?_⟩, ?_⟩
      · rw [← hsubject, ← hace]
        rfl
      · rw [PermissionRow.nodeACE, hnode, hace]

/-! ### Removing what is listed -/

/-- Erasing an element that is filtered out anyway. -/
theorem filter_eraseIdx {α : Type} {p : α → Bool} {l : List α} {i : Nat} {x : α} (h : l[i]? = some x) (hx : ¬ p x) :
    (l.eraseIdx i).filter p = l.filter p := by
  obtain ⟨hlt, hget⟩ := List.getElem?_eq_some_iff.1 h
  have hsplit : l.take i ++ x :: l.drop (i + 1) = l := by
    rw [← hget, List.getElem_cons_drop, List.take_append_drop]
  rw [List.eraseIdx_eq_take_drop_succ]
  conv => rhs; rw [← hsplit]
  rw [List.filter_append, List.filter_append, List.filter_cons_of_neg hx]

/-- The last of the rows of a subject is removed, and the others stay where they are. -/
theorem subjectRows_removeACE {db db' : Db} (hdb : db.Sound) {s : String} {rows : List PermissionRow}
    {row : PermissionRow} (hrows : subjectRows db s = rows ++ [row])
    (h : PermissionRepository.removeACE row.node row.orderIndex db = .ok () db') : subjectRows db' s = rows := by
  have hsorted := pairwise_subjectRows hdb.permissions_key s
  rw [hrows, List.pairwise_append] at hsorted
  obtain ⟨hfront, -, hlast⟩ := hsorted
  have hmem : ∀ r, r ∈ rows ++ [row] ↔ r ∈ db.permissions ∧ r.subjectUuid = s := by
    rw [← hrows]
    exact fun r => mem_subjectRows
  have hrow := ((hmem row).1 (List.mem_append_right _ (List.mem_singleton_self row))).1
  have hnonneg {r : PermissionRow} (hr : r ∈ db.permissions) : 0 ≤ r.orderIndex :=
    hdb.wellNumbered.orderIndex_nonneg hr
  have hdb' := removeACE_permissions (fun _ => hnonneg) (hnonneg hrow) h
  have hperm : (db.permissions.filter fun r => r.subjectUuid == s).Perm (rows ++ [row]) := by
    rw [← hrows]
    exact (List.perm_insertionSort _ _).symm
  have hkey : ((rows ++ [row]).map PermissionRow.key).Nodup := by
    rw [← (hperm.map PermissionRow.key).nodup_iff]
    exact hdb.permissions_key.sublist (List.filter_sublist.map _)
  -- the rows of the subject on this node are in front of the position
  have hstay : renumber row.node (fun i => if i > row.orderIndex then i - 1 else i) rows = rows := by
    unfold renumber Table.rewrite
    conv => rhs; rw [← List.map_id rows]
    refine List.map_congr_left fun r hr => ?_
    by_cases hnode : r.node = row.node
    · have hlt := hlast r hr row (List.mem_singleton_self row)
      rcases Prod.Lex.toLex_lt_toLex.1 hlt with hlt | ⟨-, hlt⟩
      · have hlt' : r.node < row.node := hlt
        rw [hnode] at hlt'
        exact absurd hlt' (lt_irrefl _)
      · have hle : ¬ r.orderIndex > row.orderIndex := not_lt_of_gt hlt
        rw [if_pos (beq_iff_eq.2 hnode), PermissionRow.setOrderIndex, if_neg hle, id_eq]
    · rw [if_neg (by simpa using hnode), id_eq]
  refine Table.sort_eq_of_perm (fun row : PermissionRow => toLex row.key) ?_ hfront
  have hfilter : (db'.permissions.filter fun r => r.subjectUuid == s) =
      renumber row.node (fun i => if i > row.orderIndex then i - 1 else i)
        (Table.delete (fun r => r.node == row.node && r.orderIndex == row.orderIndex)
          (db.permissions.filter fun r => r.subjectUuid == s)) := by
    rw [hdb']
    unfold renumber Table.delete
    refine (Table.filter_rewrite (p := fun r : PermissionRow => r.subjectUuid == s)
      (f := PermissionRow.setOrderIndex fun i => if i > row.orderIndex then i - 1 else i) (fun _ => rfl) _).trans ?_
    rw [List.filter_comm]
  have hdelete : (Table.delete (fun r => r.node == row.node && r.orderIndex == row.orderIndex)
      (db.permissions.filter fun r => r.subjectUuid == s)).Perm rows := by
    rw [← (delete_last hkey).2]
    exact hperm.filter _
  rw [hfilter]
  conv => rhs; rw [← hstay]
  exact hdelete.map _

/-- The removal of a row from the position that is printed for it. -/
def NodeACE.removal (line : NodeACE) : Call := .removeACE line.node line.ace.orderIndex

/-- What is left when the ACEs of a subject are gone. -/
structure WithoutSubject (m m' : PermissionManager) (s : String) : Prop where
  acl : aclAt m'.db = fun node => (aclAt m.db node).filter fun x => decide (x.subjectUuid ≠ s)
  listed : getSubjectACEs m'.db s = .ok []
  groups : m'.db.groups = m.db.groups
  playerGroups : m'.db.playerGroups = m.db.playerGroups

/-- One removal. -/
theorem removal_last {m : PermissionManager} (hm : m.db.Sound) {s : String} {rows : List PermissionRow}
    {row : PermissionRow} (hrows : subjectRows m.db s = rows ++ [row]) :
    ¬ row.nodeACE.removal.Throws m ∧ (row.nodeACE.removal.apply m).db.Sound ∧
      subjectRows (row.nodeACE.removal.apply m).db s = rows ∧
      (∀ node, (aclAt (row.nodeACE.removal.apply m).db node).filter (fun x => decide (x.subjectUuid ≠ s)) =
        (aclAt m.db node).filter fun x => decide (x.subjectUuid ≠ s)) ∧
      (row.nodeACE.removal.apply m).db.groups = m.db.groups ∧
      (row.nodeACE.removal.apply m).db.playerGroups = m.db.playerGroups := by
  obtain ⟨hrow, hsubject⟩ : row ∈ m.db.permissions ∧ row.subjectUuid = s := by
    rw [← mem_subjectRows, hrows]
    exact List.mem_append_right _ (List.mem_singleton_self row)
  obtain ⟨i, hindex, -, hpayload⟩ := exists_index hm hrow
  obtain ⟨hi, -⟩ := List.getElem?_eq_some_iff.1 hpayload
  have hop : row.nodeACE.removal.aclOp = some (.removeACE row.node row.orderIndex) := rfl
  have happly : (AclOp.removeACE row.node row.orderIndex).apply (aclAt m.db) =
      some (Function.update (aclAt m.db) row.node ((aclAt m.db row.node).eraseIdx i)) := by
    rw [AclOp.apply, hindex, if_pos (by omega), Int.toNat_natCast]
  have hthrows : ¬ row.nodeACE.removal.Throws m := by
    rw [Call.throws_iff hm hop, happly]
    exact Option.some_ne_none _
  have hdb : (row.nodeACE.removal.apply m).db = row.nodeACE.removal.effect m.db := Call.apply_db ..
  have hacl : aclAt (row.nodeACE.removal.effect m.db) =
      Function.update (aclAt m.db) row.node ((aclAt m.db row.node).eraseIdx i) := by
    rw [Call.aclAt_effect hm, Call.editACL, hop]
    dsimp only
    rw [happly, Option.getD_some]
  obtain ⟨hgroups, hplayers⟩ :=
    Prod.mk.inj (within_removeACE aclMoves_sameGroups row.node row.orderIndex m.db)
  rw [hdb]
  refine ⟨hthrows, Call.sound_effect hm _, ?_, fun node => ?_, hgroups, hplayers⟩
  · obtain ⟨db', hremove⟩ : ∃ db', PermissionRepository.removeACE row.node row.orderIndex m.db = .ok () db' := by
      refine AclOp.run_ok_of_inRange hm.wellNumbered (.removeACE row.node row.orderIndex) ?_
      rw [length_aclAt] at hi
      exact ⟨by omega, by omega⟩
    have heffect : row.nodeACE.removal.effect m.db = db' := final_of_ok hremove
    rw [heffect]
    exact subjectRows_removeACE hm hrows hremove
  · rw [hacl]
    by_cases hnode : node = row.node
    · subst hnode
      rw [Function.update_self]
      refine filter_eraseIdx hpayload ?_
      have hself : row.payload.subjectUuid = s := hsubject
      simp [hself]
    · rw [Function.update_of_ne hnode]

/-- All removals, from the last line to the first. -/
theorem removals_run {m : PermissionManager} (hm : m.db.Sound) {s : String} {rows : List PermissionRow}
    (hrows : subjectRows m.db s = rows) :
    NoneThrows m (rows.reverse.map fun row => row.nodeACE.removal) ∧
      WithoutSubject m (runCalls m (rows.reverse.map fun row => row.nodeACE.removal)) s := by
  induction rows using List.reverseRecOn generalizing m with
  | nil =>
    refine ⟨noneThrows_nil m, ?_, ?_, rfl, rfl⟩
    · funext node
      refine (List.filter_eq_self.2 fun x hx => ?_).symm
      obtain ⟨row, hrow, rfl⟩ := List.mem_map.1 hx
      have hmem : row ∈ m.db.permissions := (mem_sortedRows.1 hrow).1
      have hne : row.subjectUuid ≠ s := by
        intro h
        have hlisted := mem_subjectRows.2 ⟨hmem, h⟩
        rw [hrows] at hlisted
        cases hlisted
      exact decide_eq_true hne
    · show getSubjectACEs m.db s = .ok []
      rw [getSubjectACEs_eq hm.masks, hrows]
      rfl
  | append_singleton rows row ih =>
    obtain ⟨hthrows, hsound, hrest, hacl, hgroups, hplayers⟩ := removal_last hm hrows
    obtain ⟨hnone, hwithout⟩ := ih hsound hrest
    rw [List.reverse_append, List.reverse_singleton, List.singleton_append, List.map_cons]
    refine ⟨.cons hthrows hnone, ?_, hwithout.listed, hwithout.groups.trans hgroups,
      hwithout.playerGroups.trans hplayers⟩
    exact hwithout.acl.trans (funext hacl)

/-- The ACEs that are listed for a subject can be removed at the positions printed, from the last one to the first:
none of the calls throws, the ACLs keep all other ACEs in their order, as `deleteGroup` would leave them, and nothing
is listed for the subject any more. -/
theorem remove_listed {m : PermissionManager} (hm : m.db.Sound) (s : String) :
    ∃ aces, getSubjectACEs m.db s = .ok aces ∧ Lists m.db s aces ∧
      NoneThrows m (aces.reverse.map NodeACE.removal) ∧
      WithoutSubject m (runCalls m (aces.reverse.map NodeACE.removal)) s ∧
      aclAt (runCalls m (aces.reverse.map NodeACE.removal)).db = aclAt ((Call.deleteGroup s).apply m).db := by
  obtain ⟨hnone, hwithout⟩ := removals_run hm (rfl : subjectRows m.db s = _)
  have hcalls : ((subjectRows m.db s).map PermissionRow.nodeACE).reverse.map NodeACE.removal =
      (subjectRows m.db s).reverse.map fun row => row.nodeACE.removal := by
    rw [← List.map_reverse, List.map_map]
    rfl
  refine ⟨_, getSubjectACEs_eq hm.masks s, lists_subjectRows hm s, ?_, ?_, ?_⟩
  · rwa [hcalls]
  · rwa [hcalls]
  · rw [hcalls, hwithout.acl, Call.apply_db, Call.aclAt_effect hm]
    rfl

/-- A player with two ACEs on one node and one on another. -/
def listedSample : PermissionManager :=
  runCalls (.init Db.empty) [.appendACE "t1" "b" "p" 0 .deny, .appendACE "t2" "b" "*" 0 .allow,
    .appendACE "t3" "b" "p" 0 .allow, .appendACE "t4" "a" "p" 0 .allow]

theorem remove_listed_sample :
    ∃ aces, getSubjectACEs listedSample.db "p" = .ok aces ∧ Lists listedSample.db "p" aces ∧
      NoneThrows listedSample (aces.reverse.map NodeACE.removal) ∧
      WithoutSubject listedSample (runCalls listedSample (aces.reverse.map NodeACE.removal)) "p" ∧
      aclAt (runCalls listedSample (aces.reverse.map NodeACE.removal)).db =
        aclAt ((Call.deleteGroup "p").apply listedSample).db :=
  remove_listed (sound_runCalls Db.sound_empty _) "p"

/-- From the first line to the last the positions do not hold any more. -/
example :
    (match getSubjectACEs listedSample.db "p" with
    | .ok aces => aclAt (runCalls listedSample (aces.map NodeACE.removal)).db "b"
    | .error _ => []) = [⟨"*", 0, 1, "t2"⟩, ⟨"p", 0, 1, "t3"⟩] := by
  decide +kernel

end BakaPerms
