import BakaPerms.Isolation
import BakaPerms.Lib.Rules

/-!
# What an edit does to decisions

In sound tables a decision is the verdict of layered rules: the layers are the ACLs of the nodes on the path, and an
ACE applies to a player when its subject is the wildcard or in the player's token (`resolvePermission_eq_verdict`).  So
the laws of such rules say what a new ACE does (`decision_insertion`): it decides for those it speaks about and no
earlier ACE of its node does, it is passed over by the others, and as the first ACE of its node it denies the others
what the less specific nodes gave them.  An edit of a node that a more specific one with an ACE hides does nothing.
-/

namespace BakaPerms

open Chain Effect PermissionRepository PermissionManager PermissionResolver Rules

/-- The subject of the payload is the wildcard or an identity of the player. -/
def speaks (db : Db) (p : String) (x : Payload) : Bool := (buildToken db .player p).matches x.subjectUuid

theorem speaks_iff {db : Db} (hdb : db.groupUuids.Nodup) {p : String} {x : Payload} :
    speaks db p x = true ↔ x.subjectUuid = "*" ∨ InToken db p x.subjectUuid := by
  unfold speaks AccessToken.matches
  rw [Bool.or_eq_true, decide_eq_true_eq, contains_buildToken_player hdb]

/-- The search through the ACL of a node. -/
theorem firstMatch_eq_first (db : Db) (token : AccessToken) (k : String) :
    firstMatch token (aclOf db k) = first (fun x => token.matches x.subjectUuid) payloadMask (aclAt db k) := by
  have hacl : aclAt db k = (sortedRows db k).map PermissionRow.payload := rfl
  rw [firstMatch_aclOf, hacl, first, List.find?_map, Option.map_map]
  rfl

theorem aclOf_isEmpty_eq (db : Db) (k : String) : (aclOf db k).isEmpty = (aclAt db k).isEmpty := by
  have hacl : aclAt db k = (sortedRows db k).map PermissionRow.payload := rfl
  rw [hacl, aclOf, List.isEmpty_map, List.isEmpty_map]

theorem resolvePath_eq_verdict (db : Db) (token : AccessToken) (path : List String) :
    resolvePath token (aclOf db) path =
      verdict (fun x => token.matches x.subjectUuid) payloadMask .deny (aclAt db) path := by
  induction path with
  | nil => rfl
  | cons k path ih =>
    rw [resolvePath, verdict, aclOf_isEmpty_eq, firstMatch_eq_first, ih]
    cases first (fun x => token.matches x.subjectUuid) payloadMask (aclAt db k) <;> rfl

theorem resolvePermission_eq_verdict {db : Db} (hdb : db.Sound) {m : String} {path : List String}
    (hpath : buildNodePath m = .ok path) (p : String) :
    resolvePermission db p m = .ok (verdict (speaks db p) payloadMask .deny (aclAt db) path) := by
  rw [resolvePermission_eq hdb.toKeys hdb.masks hpath, resolvePath_eq_verdict]
  rfl

/-! ### Edits of an ACL -/

/-- `k` is on the path of `m`, and no node before it has an ACE. -/
def Asked (db : Db) (k m : String) : Prop :=
  Covers k m ∧ ∀ k', Covers k' m → MoreSpecific k' k → aclAt db k' = []

/-- The place of a node on a path. -/
theorem exists_split_of_covers {m k : String} {path : List String} (hmem : ∀ k, k ∈ path ↔ Covers k m)
    (hpath : path.Pairwise MoreSpecific) (hk : Covers k m) :
    ∃ before after, path = before ++ k :: after ∧ (before ++ k :: after).Nodup ∧
      ∀ k', k' ∈ before ↔ Covers k' m ∧ MoreSpecific k' k := by
  obtain ⟨before, after, rfl⟩ := List.append_of_mem ((hmem k).2 hk)
  refine ⟨before, after, rfl, hpath.imp fun h => h.ne, fun k' => ?_⟩
  obtain ⟨-, hafter, hbefore⟩ := List.pairwise_append.1 hpath
  constructor
  · intro hk'
    exact ⟨(hmem k').1 (List.mem_append_left _ hk'), hbefore k' hk' k (List.mem_cons_self ..)⟩
  · rintro ⟨hcov, hlt⟩
    rcases List.mem_append.1 ((hmem k').2 hcov) with hk' | hk'
    · exact hk'
    · rcases List.mem_cons.1 hk' with rfl | hk'
      · exact absurd rfl hlt.ne
      · exact absurd hlt ((List.pairwise_cons.1 hafter).1 k' hk').asymm

theorem verdict_update_of_not_asked {db : Db} {k m : String} {path : List String}
    (hmem : ∀ k, k ∈ path ↔ Covers k m) (hpath : path.Pairwise MoreSpecific) (hasked : ¬ Asked db k m)
    (p : String) (l : List Payload) :
    verdict (speaks db p) payloadMask .deny (Function.update (aclAt db) k l) path =
      verdict (speaks db p) payloadMask .deny (aclAt db) path := by
  by_cases hk : Covers k m
  · obtain ⟨before, after, rfl, hnodup, hbefore⟩ := exists_split_of_covers hmem hpath hk
    have hfree : k ∉ before := fun h => (hbefore k).1 h |>.2.ne rfl
    refine verdict_update_of_nonempty hfree ?_ l
    by_contra hno
    push Not at hno
    exact hasked ⟨hk, fun k' hcov hlt => hno k' ((hbefore k').2 ⟨hcov, hlt⟩)⟩
  · exact verdict_update_of_notMem (fun h => hk ((hmem k).1 h)) l

/-- The node, the index and the payload of a new ACE. -/
def Call.inserted (db : Db) : Call → Option (String × Nat × Payload)
  | appendACE now node subjectUuid subjectType mask =>
    some (node, (aclAt db node).length, ⟨subjectUuid, subjectType, mask.toInt, now⟩)
  | insertACE now node position subjectUuid subjectType mask =>
    if 0 ≤ position ∧ position ≤ (aclAt db node).length then
      some (node, position.toNat, ⟨subjectUuid, subjectType, mask.toInt, now⟩)
    else none
  | _ => none

theorem Call.editACL_of_inserted {db : Db} {call : Call} {k : String} {i : Nat} {a : Payload}
    (h : call.inserted db = some (k, i, a)) :
    i ≤ (aclAt db k).length ∧
      call.editACL (aclAt db) = Function.update (aclAt db) k ((aclAt db k).insertIdx i a) := by
  cases call with
  | appendACE now node subjectUuid subjectType mask =>
    cases h
    refine ⟨le_rfl, ?_⟩
    rw [List.insertIdx_length_self]
    rfl
  | insertACE now node position subjectUuid subjectType mask =>
    obtain ⟨hrange, heq⟩ := Option.ite_none_right_eq_some.1 h
    cases heq
    refine ⟨by omega, ?_⟩
    show ((AclOp.insertACE now k position subjectUuid subjectType mask).apply (aclAt db)).getD (aclAt db) = _
    rw [AclOp.apply, if_pos hrange, Option.getD_some]
  | _ => cases h

/-- The identities of the players after an edit of an ACL. -/
theorem speaks_effect {db : Db} {call : Call} {op : AclOp} (hop : call.aclOp = some op)
    (hne : ∀ g, op ≠ .deleteGroup g) (p : String) : speaks (call.effect db) p = speaks db p := by
  obtain ⟨hgroups, hplayers⟩ := sameGroups_of_aclOp hne db
  rw [← Call.effect_of_aclOp hop] at hgroups hplayers
  have htoken : buildToken (call.effect db) .player p = buildToken db .player p := by
    have hplayer : getPlayerGroups (call.effect db) p = getPlayerGroups db p := by
      unfold getPlayerGroups playerGroupRows
      rw [hgroups, hplayers]
    have hancestry : getGroupAncestry (call.effect db) = getGroupAncestry db := by
      funext g
      unfold getGroupAncestry
      rw [hgroups]
    unfold buildToken
    rw [hplayer, hancestry]
  funext x
  unfold speaks
  rw [htoken]

/-- What a new ACE does to the decision of a player on a node. -/
structure InsertionEffect (db db' : Db) (k : String) (i : Nat) (a : Payload) (p m : String) : Prop where
  unasked : ¬ Asked db k m → resolvePermission db' p m = resolvePermission db p m
  preceded : Asked db k m → speaks db p a → (∃ x ∈ (aclAt db k).take i, speaks db p x) →
    resolvePermission db' p m = resolvePermission db p m
  decides : Asked db k m → speaks db p a → (∀ x ∈ (aclAt db k).take i, ¬ speaks db p x) →
    resolvePermission db' p m = .ok (payloadMask a)
  skipped : Asked db k m → ¬ speaks db p a → aclAt db k ≠ [] →
    resolvePermission db' p m = resolvePermission db p m
  shields : Asked db k m → ¬ speaks db p a → aclAt db k = [] → resolvePermission db' p m = .ok .deny

/-- The effect of `appendACE` and `insertACE` on every decision. -/
theorem decision_insertion {db : Db} (hdb : db.Sound) {call : Call} {k : String} {i : Nat} {a : Payload}
    (hcall : call.inserted db = some (k, i, a)) (p : String) {m : String} (hm : m ≠ "") :
    InsertionEffect db (call.effect db) k i a p m := by
  have hdb' := Call.sound_effect hdb call
  obtain ⟨hi, hedit⟩ := Call.editACL_of_inserted hcall
  have hspeaks : speaks (call.effect db) p = speaks db p := by
    cases call with
    | appendACE | insertACE => exact speaks_effect rfl (fun g hg => by cases hg) p
    | _ => cases hcall
  obtain ⟨path, hpath, hmem, hpairwise, -⟩ := buildNodePath_eq_ok hm
  have hold := resolvePermission_eq_verdict hdb hpath p
  have hnew := resolvePermission_eq_verdict hdb' hpath p
  rw [hspeaks, Call.aclAt_effect hdb, hedit] at hnew
  have hasked : Asked db k m →
      verdict (speaks db p) payloadMask .deny (Function.update (aclAt db) k ((aclAt db k).insertIdx i a)) path =
        if speaks db p a then (first (speaks db p) payloadMask ((aclAt db k).take i)).getD (payloadMask a)
        else if aclAt db k = [] then .deny else verdict (speaks db p) payloadMask .deny (aclAt db) path := by
    rintro ⟨hk, hfree⟩
    obtain ⟨before, after, rfl, hnodup, hbefore⟩ := exists_split_of_covers hmem hpairwise hk
    exact verdict_insertIdx hnodup (fun k' hk' => hfree k' ((hbefore k').1 hk').1 ((hbefore k').1 hk').2) hi a
  -- an earlier ACE that speaks about the player decides before and after
  have hearlier : Asked db k m → ∀ mask, first (speaks db p) payloadMask ((aclAt db k).take i) = some mask →
      verdict (speaks db p) payloadMask .deny (aclAt db) path = mask := by
    rintro ⟨hk, hfree⟩ mask hmask
    obtain ⟨before, after, rfl, -, hbefore⟩ := exists_split_of_covers hmem hpairwise hk
    rw [verdict_append_of_empty fun k' hk' => hfree k' ((hbefore k').1 hk').1 ((hbefore k').1 hk').2]
    have hfirst : first (speaks db p) payloadMask (aclAt db k) = some mask := by
      rw [← List.take_append_drop i (aclAt db k), first_append, hmask, Option.some_or]
    obtain ⟨x, hx, -⟩ := mem_of_first hfirst
    rw [verdict, if_neg (by simpa using List.ne_nil_of_mem hx), hfirst, Option.getD_some]
  constructor
  · intro hno
    rw [hnew, hold, verdict_update_of_not_asked hmem hpairwise hno]
  · rintro hask hspeak ⟨x, hx, hxspeaks⟩
    cases hfirst : first (speaks db p) payloadMask ((aclAt db k).take i) with
    | none => exact absurd hxspeaks (first_eq_none.1 hfirst x hx)
    | some mask => rw [hnew, hold, hasked hask, if_pos hspeak, hfirst, Option.getD_some, hearlier hask mask hfirst]
  · intro hask hspeak hnone
    rw [hnew, hasked hask, if_pos hspeak, first_eq_none.2 hnone, Option.getD_none]
  · intro hask hspeak hne
    rw [hnew, hold, hasked hask, if_neg hspeak, if_neg hne]
  · intro hask hspeak hnil
    rw [hnew, hasked hask, if_neg hspeak, if_pos hnil]

/-- The group of the player is denied `a`, which an ACE in front of that one overrules for the player. -/
theorem decision_insertion_sample :
    InsertionEffect tornDb ((Call.insertACE "t" "a" 0 "p" 0 .allow).effect tornDb) "a" 0 ⟨"p", 0, 1, "t"⟩
      "p" "a.b" := by
  have hinserted : (Call.insertACE "t" "a" 0 "p" 0 .allow).inserted tornDb = some ("a", 0, ⟨"p", 0, 1, "t"⟩) := by
    decide +kernel
  exact decision_insertion sound_tornDb hinserted "p" (by decide)

example : resolvePermission tornDb "p" "a.b" = .ok .deny ∧
    resolvePermission ((Call.insertACE "t" "a" 0 "p" 0 .allow).effect tornDb) "p" "a.b" = .ok .allow := by
  decide +kernel

end BakaPerms
