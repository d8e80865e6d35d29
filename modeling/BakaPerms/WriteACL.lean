import BakaPerms.Overflow
import Mathlib.Data.Int.Interval

/-!
# What `writeACL` writes

`writeACL` gets the ACEs of a node in a new order, each still with its old position, and finds the rows again by these
positions alone.  From any distinct non-negative positions below `2 ^ 31 - 1` it gives the rows the places of their
ACEs in the list and leaves everything else alone: the loop never finds more or less than one row, because the rows
that it has already placed are not negative and the others keep their negated old position.  The position of an ACE
is an `int`, that of a row is not, and an UPDATE never finds a row with a larger position: the row stays negated.  So
the order is realised exactly when all positions of the node are small (`writeACL_realised_iff`).
-/

namespace BakaPerms

open Effect Numbering PermissionRepository SQLiteDatabase

/-! ### Reading the entries of a node -/

/-- `rowToACE` on the columns of an entry. -/
def entryToACE (x : Int × Payload) : Except Fault ACE := do
  let mask ← (toAccessMask (Int32.ofInt x.2.accessMask).toInt).mapError .thrown
  return ⟨(Int32.ofInt x.1).toInt, x.2.subjectUuid, (Int32.ofInt x.2.subjectType).toInt, mask⟩

theorem getNodeACL_eq_entries (db : Db) (node : String) :
    Columns.getNodeACL db node = ((entriesAt db node).insertionSort fun a b => a.1 ≤ b.1).mapM entryToACE := by
  rw [entriesAt, ← sort_map_entry, List.mapM_map]
  unfold Columns.getNodeACL Columns.rowToACE
  refine congrArg (fun f => List.mapM f _) (funext fun row => ?_)
  exact Columns.readACE_narrow (show row.aceColumns.drop 0 = row.aceColumns from rfl)

theorem entryToACE_ok {i k : Int} {x : Payload} {ace : ACE} (h : entryToACE (i, x) = .ok ace) :
    ace.orderIndex = (Int32.ofInt i).toInt ∧
      entryToACE (k, x) = .ok { ace with orderIndex := (Int32.ofInt k).toInt } := by
  unfold entryToACE at h ⊢
  cases hm : (toAccessMask (Int32.ofInt x.accessMask).toInt).mapError Fault.thrown with
  | error e =>
    simp only [hm] at h
    cases h
  | ok mask =>
    simp only [hm] at h ⊢
    cases h
    exact ⟨rfl, rfl⟩

/-- The ACEs of numbered payloads carry the numbers. -/
theorem mapM_number {L : List (Int × Payload)} {acl : List ACE} (h : L.mapM entryToACE = .ok acl) (k : Int) :
    acl.map ACE.orderIndex = L.map (fun x => (Int32.ofInt x.1).toInt) ∧
      (number k (L.map Prod.snd)).mapM entryToACE =
        .ok (acl.mapIdx fun i ace => { ace with orderIndex := (Int32.ofInt (k + i)).toInt }) := by
  induction acl generalizing L k with
  | nil =>
    cases L with
    | nil => exact ⟨rfl, rfl⟩
    | cons x L =>
      rw [List.mapM_cons] at h
      cases hx : entryToACE x <;> cases hL : L.mapM entryToACE <;> rw [hx, hL] at h <;> cases h
  | cons ace acl ih =>
    obtain ⟨x, L, rfl, hx, hL⟩ := mapM_eq_ok_cons.1 h
    obtain ⟨hidx, hnumber⟩ := ih hL (k + 1)
    obtain ⟨hace, hace'⟩ := entryToACE_ok (k := k) (x := x.2) hx
    refine ⟨by rw [List.map_cons, List.map_cons, hace, hidx], ?_⟩
    rw [List.map_cons, number, List.mapIdx_cons]
    refine mapM_eq_ok_cons.2 ⟨(k, x.2), _, rfl, ?_, ?_⟩
    · simpa using hace'
    · rw [hnumber]
      simp only [Nat.cast_add, Nat.cast_one, Int.add_assoc, Int.add_comm 1]

/-- Distinct positions below a bound are not more than the bound. -/
theorem length_le_of_nodup {l : List Int} (hnd : l.Nodup) {n : Nat} (h : ∀ i ∈ l, 0 ≤ i ∧ i < n) : l.length ≤ n := by
  have hsub : l.toFinset ⊆ Finset.Ico 0 (n : Int) := by
    intro i hi
    exact Finset.mem_Ico.2 (h i (List.mem_toFinset.1 hi))
  have hcard := Finset.card_le_card hsub
  rwa [List.toFinset_card_of_nodup hnd, Int.card_Ico, Int.sub_zero, Int.toNat_natCast] at hcard

/-! ### The loop -/

theorem writeACLFrom_append {node : String} {i : Int} {l₁ : List ACE} {db db₁ : Db}
    (h : writeACLFrom node i l₁ db = .ok () db₁) (l₂ : List ACE) :
    writeACLFrom node i (l₁ ++ l₂) db = writeACLFrom node (i + l₁.length) l₂ db₁ := by
  induction l₁ generalizing i db with
  | nil =>
    obtain ⟨-, rfl⟩ := pure_eq_ok.1 h
    simp
  | cons ace l₁ ih =>
    obtain ⟨n, db₂, h₂, hrest⟩ := bind_eq_ok.1 h
    rw [List.cons_append, writeACLFrom, bind_of_ok h₂, ih hrest, List.length_cons, Nat.cast_add, Nat.cast_one,
      Int.add_assoc, Int.add_comm 1]

theorem writeACL_append {node : String} {l₁ : List ACE} {db db₁ : Db} (h : writeACL node l₁ db = .ok () db₁)
    (l₂ : List ACE) : writeACL node (l₁ ++ l₂) db = writeACLFrom node l₁.length l₂ db₁ := by
  obtain ⟨n, db₂, h₂, hrest⟩ := bind_eq_ok.1 h
  rw [writeACL, bind_of_ok h₂, writeACLFrom_append hrest, Int.zero_add]

theorem updateOrderIndex_count {sel : PermissionRow → Bool} {set : Int → Int} {db db' : Db} {n : Nat}
    (h : updateOrderIndex sel set db = .ok n db') : n = db.permissions.countP sel := by
  unfold updateOrderIndex at h
  split at h
  · cases h
    rfl
  · cases h

theorem countP_entries (db : Db) (node : String) (p : Int → Bool) :
    db.permissions.countP (fun row => row.node == node && p row.orderIndex) =
      (entriesAt db node).countP fun x => p x.1 := by
  unfold entriesAt nodeRows
  rw [List.countP_map, List.countP_filter]
  exact List.countP_congr fun row _ => by simp [PermissionRow.entry, and_comm]

/-! ### An arrangement -/

/-- `acl` is the ACL of the node in some order, and `L` are the entries of the node in this order. -/
structure Arranged (db : Db) (node : String) (acl : List ACE) (L : List (Int × Payload)) : Prop where
  numbered : Numbered (entriesAt db node)
  small : ∀ x ∈ entriesAt db node, x.1 + 1 < 2 ^ 31
  perm : (entriesAt db node).Perm L
  decoded : L.mapM entryToACE = .ok acl

theorem exists_arranged {db : Db} {node : String} (h : Numbered (entriesAt db node))
    (hsmall : ∀ x ∈ entriesAt db node, x.1 + 1 < 2 ^ 31) {acl₀ acl : List ACE}
    (hacl₀ : Columns.getNodeACL db node = .ok acl₀) (hp : acl.Perm acl₀) : ∃ L, Arranged db node acl L := by
  rw [getNodeACL_eq_entries] at hacl₀
  obtain ⟨L, hL, hLacl⟩ := exists_perm_mapM hacl₀ hp
  exact ⟨L, h, hsmall, (hL.trans (List.perm_insertionSort _ _)).symm, hLacl⟩

namespace Arranged

variable {db db' : Db} {node : String} {acl : List ACE} {L : List (Int × Payload)}

theorem bounds (h : Arranged db node acl L) : ∀ x ∈ L, 0 ≤ x.1 ∧ x.1 + 1 < 2 ^ 31 := fun x hx =>
  ⟨h.numbered.nonneg x (h.perm.symm.subset hx), h.small x (h.perm.symm.subset hx)⟩

theorem nodup (h : Arranged db node acl L) : (L.map Prod.fst).Nodup :=
  (h.perm.map Prod.fst).nodup_iff.1 h.numbered.nodup

theorem orderIndex_eq (h : Arranged db node acl L) : acl.map ACE.orderIndex = L.map Prod.fst := by
  rw [(mapM_number h.decoded 0).1]
  refine List.map_congr_left fun x hx => FitsInt.toInt_ofInt ?_
  have := h.bounds x hx
  exact ⟨by omega, by omega⟩

theorem length_eq (h : Arranged db node acl L) : acl.length = L.length := by
  have hlength := congrArg List.length h.orderIndex_eq
  rwa [List.length_map, List.length_map] at hlength

theorem length_lt (h : Arranged db node acl L) : acl.length < 2 ^ 31 := by
  have hle : (L.map Prod.fst).length ≤ 2 ^ 31 - 1 := by
    refine length_le_of_nodup h.nodup fun i hi => ?_
    obtain ⟨x, hx, rfl⟩ := List.mem_map.1 hi
    have := h.bounds x hx
    exact ⟨this.1, by omega⟩
  rw [List.length_map] at hle
  rw [h.length_eq]
  omega

theorem orderIndex_bounds (h : Arranged db node acl L) :
    ∀ ace ∈ acl, 0 ≤ ace.orderIndex ∧ ace.orderIndex + 1 < 2 ^ 31 := by
  intro ace hace
  have hmem : ace.orderIndex ∈ acl.map ACE.orderIndex := List.mem_map_of_mem hace
  rw [h.orderIndex_eq] at hmem
  obtain ⟨x, hx, heq⟩ := List.mem_map.1 hmem
  rw [← heq]
  exact h.bounds x hx

theorem orderIndex_nonneg (h : Arranged db node acl L) : ∀ i ∈ acl.map ACE.orderIndex, 0 ≤ i := by
  intro i hi
  obtain ⟨ace, hace, rfl⟩ := List.mem_map.1 hi
  exact (h.orderIndex_bounds ace hace).1

/-- The positions in the list are those of the node's rows. -/
theorem mem_orderIndex (h : Arranged db node acl L) {i : Int} :
    i ∈ acl.map ACE.orderIndex ↔ i ∈ (entriesAt db node).map Prod.fst := by
  rw [h.orderIndex_eq]
  exact (h.perm.map Prod.fst).symm.mem_iff

/-- The node's entries afterwards carry their places in the list. -/
theorem stores (h : Arranged db node acl L) (h' : writeACL node acl db = .ok () db') :
    Stores (entriesAt db' node) (L.map Prod.snd) := by
  obtain ⟨s, he, hs⟩ := stores_writeACL h' h.perm h.nodup (fun x hx => (h.bounds x hx).1) h.orderIndex_eq
  rwa [he, Function.update_self]

/-- The ACL afterwards is the list with the places as positions. -/
theorem getNodeACL_writeACL (h : Arranged db node acl L) (h' : writeACL node acl db = .ok () db') :
    Columns.getNodeACL db' node = .ok (acl.mapIdx fun i ace => { ace with orderIndex := i }) := by
  rw [getNodeACL_eq_entries, Table.sort_eq_of_perm Prod.fst (h.stores h') (pairwise_number 0 _),
    (mapM_number h.decoded 0).2]
  have hlength := h.length_lt
  refine congrArg Except.ok (List.mapIdx_eq_mapIdx_iff.2 fun i hi => ?_)
  have hfits : FitsInt (0 + (i : Int)) := ⟨by omega, by omega⟩
  rw [hfits.toInt_ofInt, Int.zero_add]

theorem map_orderIndex_writeACL (h : Arranged db node acl L) (h' : writeACL node acl db = .ok () db') :
    ((nodeRows db' node).map PermissionRow.orderIndex).Perm ((List.range acl.length).map Int.ofNat) := by
  have hperm := (h.stores h').map Prod.fst
  rw [map_fst_number, List.length_map, ← h.length_eq, entriesAt, List.map_map] at hperm
  refine hperm.trans (List.Perm.of_eq (List.map_congr_left fun i _ => ?_))
  exact Int.zero_add _

/-- Each row of the node has the place of its ACE, and the other rows are as before. -/
theorem rows_writeACL (h : Arranged db node acl L) (h' : writeACL node acl db = .ok () db') :
    db' = { db with
      permissions := db.permissions.map fun row =>
        if row.node = node then { row with orderIndex := (acl.map ACE.orderIndex).idxOf row.orderIndex }
        else row } := by
  rw [writeACL_ok h', Table.rewrite]
  congr 1
  refine List.map_congr_left fun row hrow => ?_
  by_cases hnode : row.node = node
  · have hmem : row.orderIndex ∈ acl.map ACE.orderIndex :=
      h.mem_orderIndex.2 (List.mem_map_of_mem (entry_mem_entriesAt hrow hnode))
    rw [if_pos (beq_iff_eq.2 hnode), if_pos hnode, PermissionRow.setOrderIndex, relabel_negated h.orderIndex_nonneg,
      if_pos hmem]
  · rw [if_neg (by simpa using hnode), if_neg hnode]

/-- After the iterations for `l₁` the row of the next ACE is the one with its negated position. -/
theorem countP_next {l₁ l₂ : List ACE} {ace : ACE} (h : Arranged db node (l₁ ++ ace :: l₂) L) {db₁ : Db}
    (h₁ : writeACL node l₁ db = .ok () db₁) :
    db₁.permissions.countP (fun row => row.node == node && row.orderIndex == -(ace.orderIndex + 1)) = 1 := by
  have hmem : ace.orderIndex ∈ (l₁ ++ ace :: l₂).map ACE.orderIndex := List.mem_map_of_mem (by simp)
  have hnew : ace.orderIndex ∉ l₁.map ACE.orderIndex := by
    have hnodup := h.nodup
    rw [← h.orderIndex_eq, List.map_append, List.map_cons] at hnodup
    exact fun hmem₁ => List.disjoint_of_nodup_append hnodup hmem₁ (List.mem_cons_self ..)
  have hnonneg : ∀ i ∈ l₁.map ACE.orderIndex, 0 ≤ i := fun i hi =>
    h.orderIndex_nonneg i (by rw [List.map_append]; exact List.mem_append_left _ hi)
  rw [countP_entries db₁ node fun i => i == -(ace.orderIndex + 1), entriesAt_writeACL h₁, Function.update_self,
    List.countP_map, ← List.count_eq_one_of_mem h.numbered.nodup (h.mem_orderIndex.1 hmem), List.count,
    List.countP_map]
  refine List.countP_congr fun x hx => ?_
  simp only [Function.comp_apply, beq_iff_eq, relabel_negated hnonneg]
  by_cases hplaced : x.1 ∈ l₁.map ACE.orderIndex
  · -- a row that has its place is not negative, and its ACE was another one
    have hne : x.1 ≠ ace.orderIndex := fun heq => hnew (heq ▸ hplaced)
    have := h.orderIndex_nonneg _ hmem
    rw [if_pos hplaced]
    omega
  · rw [if_neg hplaced]
    omega

/-- The UPDATE for an ACE of the list rewrites one row. -/
theorem rewriteACE_writeACL {l₁ l₂ : List ACE} {ace : ACE} (h : Arranged db node (l₁ ++ ace :: l₂) L)
    (h' : writeACL node (l₁ ++ ace :: l₂) db = .ok () db') :
    ∃ db₁ db₂, Machine.writeACL node l₁ db = .ok () db₁ ∧
      Machine.rewriteACE node (Int32.ofNat l₁.length) ace db₁ = .ok 1 db₂ ∧
      Machine.writeACLFrom node (Int32.ofNat (l₁ ++ ace :: l₂).length) (Int32.ofNat (l₁.length + 1)) l₂ db₂ =
        .ok () db' := by
  have hlength := h.length_lt
  have hbounds := h.orderIndex_bounds
  obtain ⟨db₁, h₁⟩ := writeACL_succeeds h.numbered l₁
  rw [writeACL_append h₁] at h'
  obtain ⟨n, db₂, hupdate, hrest⟩ := bind_eq_ok.1 h'
  rw [updateOrderIndex_count hupdate, h.countP_next h₁] at hupdate
  rw [List.length_append, List.length_cons] at hlength ⊢
  have hi : (Int32.ofNat l₁.length).toInt = l₁.length := Int32.toInt_ofNat_of_lt (by omega)
  have hi' : (Int32.ofNat (l₁.length + 1)).toInt = l₁.length + 1 := Int32.toInt_ofNat_of_lt (by omega)
  refine ⟨db₁, db₂, ?_, ?_, ?_⟩
  · rw [Machine.writeACL_eq (fun a ha => hbounds a (List.mem_append_left _ ha)) (by omega)]
    exact mapError_of_ok h₁
  · rw [Machine.rewriteACE_eq (hbounds ace (by simp)), hi]
    exact mapError_of_ok hupdate
  · have hsize : (Int32.ofNat (l₁.length + (l₂.length + 1))).toInt =
        (Int32.ofNat (l₁.length + 1)).toInt + l₂.length := by
      rw [Int32.toInt_ofNat_of_lt hlength, hi']
      omega
    rw [Machine.writeACLFrom_eq (fun a ha => hbounds a (by simp [ha])) hsize, hi']
    exact mapError_of_ok hrest

end Arranged

/-! ### The order of a list -/

/-- `writeACL` has stored the order of the list: the ACL is the list, numbered from 0 on, each row of the node has the
place of its ACE and keeps the rest, all other rows are as before, and each UPDATE of the loop has rewritten one
row. -/
structure Realised (db db' : Db) (node : String) (acl : List ACE) : Prop where
  written : Machine.writeACL node acl db = .ok () db'
  listed : Columns.getNodeACL db' node = .ok (acl.mapIdx fun i ace => { ace with orderIndex := i })
  numbered : ((nodeRows db' node).map PermissionRow.orderIndex).Perm ((List.range acl.length).map Int.ofNat)
  rows : db' = { db with
    permissions := db.permissions.map fun row =>
      if row.node = node then { row with orderIndex := (acl.map ACE.orderIndex).idxOf row.orderIndex } else row }
  single : ∀ l₁ ace l₂, acl = l₁ ++ ace :: l₂ → ∃ db₁ db₂, Machine.writeACL node l₁ db = .ok () db₁ ∧
    Machine.rewriteACE node (Int32.ofNat l₁.length) ace db₁ = .ok 1 db₂ ∧
    Machine.writeACLFrom node (Int32.ofNat acl.length) (Int32.ofNat (l₁.length + 1)) l₂ db₂ = .ok () db'

theorem Arranged.realised {db : Db} {node : String} {acl : List ACE} {L : List (Int × Payload)}
    (h : Arranged db node acl L) : ∃ db', Realised db db' node acl := by
  obtain ⟨db', h'⟩ := writeACL_succeeds h.numbered acl
  refine ⟨db', ?_, h.getNodeACL_writeACL h', h.map_orderIndex_writeACL h', h.rows_writeACL h', ?_⟩
  · rw [Machine.writeACL_eq h.orderIndex_bounds h.length_lt]
    exact mapError_of_ok h'
  · rintro l₁ ace l₂ rfl
    exact h.rewriteACE_writeACL h'

/-! ### Positions that are no `int`s -/

theorem checked_eq_ok {v : Int} {w : Int32} {db db' : Db} (h : checked v db = .ok w db') :
    FitsInt v ∧ w.toInt = v ∧ db' = db := by
  by_cases hv : FitsInt v
  · rw [checked_of_fits hv] at h
    obtain ⟨rfl, rfl⟩ := pure_eq_ok.1 h
    exact ⟨hv, hv.toInt_ofInt, rfl⟩
  · unfold checked at h
    rw [if_neg hv] at h
    cases h

/-- A row of the node with the number. -/
def HasRow (db : Db) (node : String) (i : Int) : Prop := ∃ row ∈ db.permissions, row.node = node ∧ row.orderIndex = i

/-- The UPDATE looks for the negation of an `int`, which is above `-2 ^ 31`. -/
theorem hasRow_rewriteACE {db db' : Db} {node : String} {i : Int32} {ace : ACE} {n : Nat} {k : Int} (hk : k ≤ -2 ^ 31)
    (h : Machine.rewriteACE node i ace db = .ok n db') (hrow : HasRow db node k) : HasRow db' node k := by
  obtain ⟨next, db₁, hnext, h₁⟩ := bind_eq_ok.1 h
  obtain ⟨-, -, rfl⟩ := checked_eq_ok hnext
  obtain ⟨orderIndex, db₂, hnegated, h₂⟩ := bind_eq_ok.1 h₁
  obtain ⟨-, hvalue, rfl⟩ := checked_eq_ok hnegated
  have hlt := next.toInt_lt
  obtain ⟨row, hmem, hnode, hindex⟩ := hrow
  rw [updateOrderIndex_ok (mapError_eq_ok.1 h₂)]
  refine ⟨row, Table.mem_rewrite.2 ⟨row, hmem, if_neg ?_⟩, hnode, hindex⟩
  rw [bound_eq, Bool.and_eq_true_iff, beq_iff_eq, beq_iff_eq]
  omega

theorem hasRow_writeACLFrom {db db' : Db} {node : String} {size i : Int32} {acl : List ACE} {k : Int}
    (hk : k ≤ -2 ^ 31) (h : Machine.writeACLFrom node size i acl db = .ok () db') (hrow : HasRow db node k) :
    HasRow db' node k := by
  induction acl generalizing i db with
  | nil =>
    obtain ⟨-, rfl⟩ := pure_eq_ok.1 h
    exact hrow
  | cons ace acl ih =>
    unfold Machine.writeACLFrom at h
    split at h
    · obtain ⟨n, db₁, hupdate, h₁⟩ := bind_eq_ok.1 h
      obtain ⟨i', db₂, hi', h₂⟩ := bind_eq_ok.1 h₁
      obtain ⟨-, -, rfl⟩ := checked_eq_ok hi'
      exact ih h₂ (hasRow_rewriteACE hk hupdate hrow)
    · obtain ⟨-, rfl⟩ := pure_eq_ok.1 h
      exact hrow

/-- A row whose position is `2 ^ 31 - 1` or more stays negated. -/
theorem hasRow_writeACL {db db' : Db} {node : String} {acl : List ACE} {row : PermissionRow}
    (hrow : row ∈ nodeRows db node) (hlarge : 2 ^ 31 ≤ row.orderIndex + 1)
    (h : Machine.writeACL node acl db = .ok () db') : HasRow db' node (-(row.orderIndex + 1)) := by
  obtain ⟨n, db₁, hnegate, hloop⟩ := bind_eq_ok.1 h
  obtain ⟨hmem, hnode⟩ := List.mem_filter.1 hrow
  refine hasRow_writeACLFrom (by omega) hloop ?_
  rw [updateOrderIndex_ok (mapError_eq_ok.1 hnegate)]
  exact ⟨_, Table.mem_rewrite.2 ⟨row, hmem, if_pos hnode⟩, beq_iff_eq.1 hnode, rfl⟩

theorem Realised.small {db db' : Db} {node : String} {acl : List ACE} (h : Realised db db' node acl) :
    ∀ row ∈ nodeRows db node, row.orderIndex + 1 < 2 ^ 31 := by
  intro row hrow
  by_contra hlarge
  obtain ⟨row', hmem, hnode, hindex⟩ := hasRow_writeACL hrow (not_lt.1 hlarge) h.written
  have hplace : row'.orderIndex ∈ (List.range acl.length).map Int.ofNat :=
    h.numbered.subset (List.mem_map_of_mem (List.mem_filter.2 ⟨hmem, beq_iff_eq.2 hnode⟩))
  obtain ⟨i, -, hi⟩ := List.mem_map.1 hplace
  have hnonneg : 0 ≤ Int.ofNat i := Int.natCast_nonneg i
  omega

/-- `writeACL` with any arrangement of a node's ACL stores that arrangement, from any distinct non-negative positions,
exactly when the positions and their successors are `int`s. -/
theorem writeACL_realised_iff {db : Db} {node : String} (hnd : ((nodeRows db node).map PermissionRow.orderIndex).Nodup)
    (h₀ : ∀ row ∈ nodeRows db node, 0 ≤ row.orderIndex) {acl₀ acl : List ACE}
    (hacl₀ : Columns.getNodeACL db node = .ok acl₀) (hp : acl.Perm acl₀) :
    (∃ db', Realised db db' node acl) ↔ ∀ row ∈ nodeRows db node, row.orderIndex + 1 < 2 ^ 31 := by
  have hnumbered : Numbered (entriesAt db node) := by
    constructor
    · rw [entriesAt, List.map_map]
      exact hnd
    · intro x hx
      obtain ⟨row, hrow, rfl⟩ := List.mem_map.1 hx
      exact h₀ row hrow
  constructor
  · rintro ⟨db', h⟩
    exact h.small
  · intro hsmall
    have hentries : ∀ x ∈ entriesAt db node, x.1 + 1 < 2 ^ 31 := by
      intro x hx
      obtain ⟨row, hrow, rfl⟩ := List.mem_map.1 hx
      exact hsmall row hrow
    obtain ⟨L, hL⟩ := exists_arranged hnumbered hentries hacl₀ hp
    exact hL.realised

/-- Three rows with gaps between their positions. -/
def gappedDb : Db where
  groups := []
  playerGroups := []
  permissions := [⟨"a", 7, "p", 0, 1, "t"⟩, ⟨"b", 7, "p", 0, 1, "t"⟩, ⟨"a", 0, "q", 0, 0, "t"⟩,
    ⟨"a", 2, "*", 0, 0, "t"⟩]

theorem writeACL_realised_iff_sample :
    ∃ db', Realised gappedDb db' "a" [⟨2, "*", 0, .deny⟩, ⟨7, "p", 0, .allow⟩, ⟨0, "q", 0, .deny⟩] := by
  have hacl₀ : Columns.getNodeACL gappedDb "a" = .ok [⟨0, "q", 0, .deny⟩, ⟨2, "*", 0, .deny⟩, ⟨7, "p", 0, .allow⟩] := by
    rfl
  have hp : [⟨2, "*", 0, .deny⟩, ⟨7, "p", 0, .allow⟩, ⟨0, "q", 0, .deny⟩].Perm
      [(⟨0, "q", 0, .deny⟩ : ACE), ⟨2, "*", 0, .deny⟩, ⟨7, "p", 0, .allow⟩] := by decide
  exact (writeACL_realised_iff (by decide) (by decide) hacl₀ hp).2 (by decide)

/-- A node with a position that is no `int`. -/
def wideDb : Db where
  groups := []
  playerGroups := []
  permissions := [⟨"a", 2147483648, "p", 0, 1, "t"⟩, ⟨"a", 0, "q", 0, 0, "t"⟩]

/-- `reindexACL` on `wideDb`: the UPDATE for the large position finds no row. -/
theorem writeACL_leaves_negated :
    ((nodeRows wideDb "a").map PermissionRow.orderIndex).Nodup ∧ (∀ row ∈ nodeRows wideDb "a", 0 ≤ row.orderIndex) ∧
      Columns.getNodeACL wideDb "a" = .ok [⟨0, "q", 0, .deny⟩, ⟨-2147483648, "p", 0, .allow⟩] ∧
      (Machine.writeACL "a" [⟨0, "q", 0, .deny⟩, ⟨-2147483648, "p", 0, .allow⟩] wideDb = .ok () { wideDb with
        permissions := [⟨"a", -2147483649, "p", 0, 1, "t"⟩, ⟨"a", 0, "q", 0, 0, "t"⟩] }) ∧
      ¬ ∃ db', Realised wideDb db' "a" [⟨0, "q", 0, .deny⟩, ⟨-2147483648, "p", 0, .allow⟩] := by
  refine ⟨by decide, by decide, rfl, rfl, ?_⟩
  rintro ⟨db', h⟩
  have hsmall := h.small
  revert hsmall
  decide

end BakaPerms
