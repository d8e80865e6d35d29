import BakaPerms.Cache
import BakaPerms.Decision

/-!
# Decisions of concurrent checks

A check makes its queries one after another and a commit can fall between them, so it may put together a token of
one database and the ACLs of another, and return a mask that is the decision on neither (`torn_read`).  For this a
commit must change what the check has read, and the same commit or a later one what the check has yet to read.  In
all other runs (`Untorn`) the reads of a check are those of one database, the last one before such a change
(`ReadOf`), and every mask that a check returns is the decision on a database that existed during the run
(`returned_of_untorn`).
-/

namespace BakaPerms

open PermissionRepository PermissionResolver PermissionManager

/-! ### What a check reads -/

/-- The identities that the query of the player's groups gives the token. -/
def groupsOf (db : Db) (p : String) : List String := (getPlayerGroups db p).map GroupInfo.uuid

/-- The identities that the ancestry query of a group gives the token. -/
def ancestorsOf (db : Db) (g : String) : List String := ((getGroupAncestry db g).drop 1).map GroupInfo.uuid

/-- What the ACL query gives the resolver: the subjects and masks of the node's path, in their order. -/
def readRules (db : Db) (node : String) : Except Exn (String → List (String × AccessMask)) := do
  let nodePath ← buildNodePath node
  let aclMap ← getNodeACLBatch db nodePath
  return fun k => (batchProvider aclMap k).map ACE.rule

/-- What the check has read is there on this database: the groups whose ancestry it has fetched (`done`) and those in
`todo` are the player's groups, and the token has the player, the groups, and the ancestors of the groups that are
done. -/
def ReadsHold (db : Db) (p : String) (token : AccessToken) (todo : List GroupInfo) : Prop :=
  ∃ done : List String, (∀ u, u ∈ groupsOf db p ↔ u ∈ done ∨ u ∈ todo.map GroupInfo.uuid) ∧
    ∀ u, token.contains u ↔ u = p ∨ u ∈ groupsOf db p ∨ ∃ g ∈ done, u ∈ ancestorsOf db g

/-- What the check has yet to read is the same on both databases. -/
def RestAgrees (db db' : Db) (node : String) (todo : List GroupInfo) : Prop :=
  (∀ group ∈ todo, ∀ u, u ∈ ancestorsOf db' group.uuid ↔ u ∈ ancestorsOf db group.uuid) ∧
    readRules db' node = readRules db node

/-- When a step after `part` changes what a check has read, neither it nor any later step of the schedule changes what
that check has yet to read. -/
def Untorn (s : System) (sched : List Nat) : Prop :=
  ∀ (part later : List Nat) (i j k : Nat) (p node : String) (gen : Nat) (token token' : AccessToken)
    (todo todo' : List GroupInfo), part ++ [i] <+: later ++ [j] → later ++ [j] <+: sched →
    (s.run part).threads[k]? = some (.check p node gen (.reading token todo)) →
    (s.run later).threads[k]? = some (.check p node gen (.reading token' todo')) →
    (ReadsHold (s.run part).manager.db p token todo → ReadsHold (s.run (part ++ [i])).manager.db p token todo) ∨
      RestAgrees (s.run later).manager.db (s.run (later ++ [j])).manager.db node todo'

theorem RestAgrees.refl (db : Db) (node : String) (todo : List GroupInfo) : RestAgrees db db node todo :=
  ⟨fun _ _ _ => Iff.rfl, rfl⟩

theorem RestAgrees.trans {db₁ db₂ db₃ : Db} {node : String} {todo : List GroupInfo}
    (h : RestAgrees db₁ db₂ node todo) (h' : RestAgrees db₂ db₃ node todo) : RestAgrees db₁ db₃ node todo :=
  ⟨fun group hg u => (h'.1 group hg u).trans (h.1 group hg u), h'.2.trans h.2⟩

/-- The decision depends on the members of the token and on the rules of the path. -/
theorem decideACL_of_rules {db db' : Db} {node : String} {token token' : AccessToken}
    (ht : ∀ u, token.contains u = token'.contains u) (h : readRules db node = readRules db' node) :
    decideACL db node token = decideACL db' node token' := by
  unfold readRules at h
  unfold decideACL resolve
  cases hpath : buildNodePath node with
  | error e => rfl
  | ok path =>
    rw [hpath] at h
    simp only [bind, Except.bind, pure, Except.pure] at h ⊢
    cases hbatch : getNodeACLBatch db path <;> cases hbatch' : getNodeACLBatch db' path <;> rw [hbatch, hbatch'] at h
    · cases h
      rfl
    · cases h
    · cases h
    · rename_i aclMap aclMap'
      have hrules := Except.ok.inj h
      exact congrArg Except.ok (resolvePath_congr ht fun k _ => congrFun hrules k)

theorem readsHold_direct {db : Db} {p : String} {groups : List GroupInfo}
    (h : ∀ u, u ∈ groupsOf db p ↔ u ∈ groups.map GroupInfo.uuid) :
    ReadsHold db p (addDirectGroups (AccessToken.empty.add p .subject) groups) groups := by
  refine ⟨[], fun u => by simpa using h u, fun u => ?_⟩
  rw [contains_addDirectGroups, h u]
  simp

/-- The query of an ancestry. -/
theorem ReadsHold.ancestry {db db' : Db} {p : String} {token : AccessToken} {group : GroupInfo}
    {todo : List GroupInfo} (h : ReadsHold db p token (group :: todo))
    (hsame : ∀ u, u ∈ ancestorsOf db' group.uuid ↔ u ∈ ancestorsOf db group.uuid) :
    ReadsHold db p (addAncestry token (getGroupAncestry db' group.uuid)) todo := by
  obtain ⟨done, hgroups, htoken⟩ := h
  refine ⟨group.uuid :: done, fun u => ?_, fun u => ?_⟩
  · rw [hgroups u, List.map_cons, List.mem_cons, List.mem_cons]
    tauto
  · have hnew : u ∈ ((getGroupAncestry db' group.uuid).drop 1).map GroupInfo.uuid ↔ u ∈ ancestorsOf db group.uuid :=
      hsame u
    rw [contains_addAncestry, htoken u, hnew, or_assoc, or_assoc]
    simp only [List.mem_cons, exists_eq_or_imp]
    exact or_congr_right (or_congr_right or_comm)

/-- A token whose reads hold has the members of the player's token. -/
theorem ReadsHold.contains_eq {db : Db} {p : String} {token : AccessToken} (h : ReadsHold db p token []) (u : String) :
    token.contains u = (buildToken db .player p).contains u := by
  obtain ⟨done, hgroups, htoken⟩ := h
  have hdone : (∃ g ∈ done, u ∈ ancestorsOf db g) ↔
      ∃ group ∈ getPlayerGroups db p, u ∈ ((getGroupAncestry db group.uuid).drop 1).map GroupInfo.uuid := by
    constructor
    · rintro ⟨g, hg, hu⟩
      obtain ⟨group, hgroup, rfl⟩ := List.mem_map.1 ((hgroups g).2 (.inl hg))
      exact ⟨group, hgroup, hu⟩
    · rintro ⟨group, hgroup, hu⟩
      have hmem := (hgroups group.uuid).1 (List.mem_map_of_mem hgroup)
      exact ⟨group.uuid, hmem.resolve_right List.not_mem_nil, hu⟩
  rw [Bool.eq_iff_iff, htoken u, hdone]
  unfold buildToken
  simp only [contains_foldl_addAncestry, contains_addDirectGroups, AccessToken.contains_add,
    AccessToken.contains_empty, Bool.or_false, decide_eq_true_eq, or_assoc]
  rfl

/-! ### The reads of a check on its way -/

/-- The reads of the check hold now, or they are those of the database before the step that has changed them, and the
rest is still as it was there. -/
inductive ReadOf (s : System) (part : List Nat) (k : Nat) (p node : String) (gen : Nat) (token : AccessToken)
    (todo : List GroupInfo) : Prop
  | now (h : ReadsHold (s.run part).manager.db p token todo)
  | before {base : List Nat} {i : Nat} {token₀ : AccessToken} {todo₀ : List GroupInfo} (hbase : base ++ [i] <+: part)
    (hcheck : (s.run base).threads[k]? = some (.check p node gen (.reading token₀ todo₀)))
    (hheld : ReadsHold (s.run base).manager.db p token₀ todo₀)
    (hlost : ¬ ReadsHold (s.run (base ++ [i])).manager.db p token₀ todo₀)
    (hreads : ReadsHold (s.run base).manager.db p token todo)
    (hrest : RestAgrees (s.run base).manager.db (s.run part).manager.db node todo)

section Reads

variable {s : System} {sched part : List Nat} {j k : Nat} {p node : String} {gen : Nat} {token : AccessToken}

theorem ReadOf.exists_base {todo : List GroupInfo} (h : ReadOf s part k p node gen token todo) :
    ∃ base, base <+: part ∧ ReadsHold (s.run base).manager.db p token todo ∧
      RestAgrees (s.run base).manager.db (s.run part).manager.db node todo := by
  cases h with
  | now h => exact ⟨part, List.prefix_refl part, h, RestAgrees.refl ..⟩
  | before hbase _ _ _ hreads hrest => exact ⟨_, (List.prefix_append ..).trans hbase, hreads, hrest⟩

/-- The step of another party. -/
theorem ReadOf.other {todo : List GroupInfo} (h : ReadOf s part k p node gen token todo) (huntorn : Untorn s sched)
    (hpart : part ++ [j] <+: sched)
    (hcheck : (s.run part).threads[k]? = some (.check p node gen (.reading token todo))) :
    ReadOf s (part ++ [j]) k p node gen token todo := by
  cases h with
  | now h =>
    by_cases hnow : ReadsHold (s.run (part ++ [j])).manager.db p token todo
    · exact .now hnow
    · have hrest := huntorn part part j j k p node gen token token todo todo (List.prefix_refl _) hpart hcheck hcheck
      exact .before (List.prefix_refl _) hcheck h hnow h (hrest.resolve_left fun hkeep => hnow (hkeep h))
  | @before base i token₀ todo₀ hbase hcheck₀ hheld hlost hreads hrest =>
    have hlater : base ++ [i] <+: part ++ [j] := hbase.trans (List.prefix_append ..)
    have hnext := huntorn base part i j k p node gen token₀ token todo₀ todo hlater hpart hcheck₀ hcheck
    exact .before hlater hcheck₀ hheld hlost hreads
      (hrest.trans (hnext.resolve_left fun hkeep => hlost (hkeep hheld)))

/-- The next ancestry query, which finds what it would have found before. -/
theorem ReadOf.ancestry {group : GroupInfo} {todo : List GroupInfo}
    (h : ReadOf s part k p node gen token (group :: todo))
    (hdb : (s.run (part ++ [j])).manager.db = (s.run part).manager.db) :
    ReadOf s (part ++ [j]) k p node gen
      (addAncestry token (getGroupAncestry (s.run part).manager.db group.uuid)) todo := by
  cases h with
  | now h =>
    refine .now ?_
    rw [hdb]
    exact h.ancestry fun _ => Iff.rfl
  | before hbase hcheck hheld hlost hreads hrest =>
    refine .before (hbase.trans (List.prefix_append ..)) hcheck hheld hlost
      (hreads.ancestry (hrest.1 group (List.mem_cons_self ..))) ?_
    rw [hdb]
    exact ⟨fun group' hg => hrest.1 group' (List.mem_cons_of_mem _ hg), hrest.2⟩

theorem readOf_step (huntorn : Untorn s sched) (hpart : part ++ [j] <+: sched)
    (ih : ∀ k p node gen token todo, (s.run part).threads[k]? = some (.check p node gen (.reading token todo)) →
      ReadOf s part k p node gen token todo)
    {todo : List GroupInfo}
    (hcheck : (s.run (part ++ [j])).threads[k]? = some (.check p node gen (.reading token todo))) :
    ReadOf s (part ++ [j]) k p node gen token todo := by
  have hrun : s.run (part ++ [j]) = (s.run part).step j := Run.run_concat ..
  rw [hrun] at hcheck
  obtain ⟨t, ht, hmanager, hnext⟩ := System.exists_of_getElem?_step hcheck
  by_cases hjk : j = k
  · rw [if_pos hjk] at hnext
    rcases Thread.step_check hnext.symm with ⟨-, -, -, hstate⟩ | ⟨state₀, rfl, hstep⟩
    · cases hstate
    have hdb : (s.run (part ++ [j])).manager.db = (s.run part).manager.db := by
      rw [hrun, hmanager hjk, Thread.check_step_db]
    cases hstep with
    | groups =>
      refine .now ?_
      rw [hdb]
      exact readsHold_direct fun _ => Iff.rfl
    | ancestry token₀ group todo => exact (ih k p node gen token₀ (group :: todo) ht).ancestry hdb
  · rw [if_neg hjk] at hnext
    subst hnext
    exact (ih k p node gen token todo ht).other huntorn hpart ht

theorem readOf_run {db : Db} {calls : List Call} (huntorn : Untorn (System.init db calls) sched)
    (hpart : part <+: sched) {todo : List GroupInfo}
    (hcheck : ((System.init db calls).run part).threads[k]? = some (.check p node gen (.reading token todo))) :
    ReadOf (System.init db calls) part k p node gen token todo := by
  refine Run.prefix_induction (P := fun part => ∀ k p node gen token todo,
    ((System.init db calls).run part).threads[k]? = some (.check p node gen (.reading token todo)) →
      ReadOf (System.init db calls) part k p node gen token todo) ?_ ?_ hpart k p node gen token todo hcheck
  · intro k p node gen token todo h
    obtain ⟨call, -, hcall⟩ := List.mem_map.1 (List.mem_of_getElem? h)
    cases hcall
  · exact fun part j hpart ih k p node gen token todo h => readOf_step huntorn hpart ih h

/-- What the last query decides is the decision on the database that the reads are of. -/
theorem ReadOf.decided (h : ReadOf s part k p node gen token []) {result : AccessMask}
    (hd : decideACL (s.run part).manager.db node token = .ok result) :
    ∃ base, base <+: part ∧ resolvePermission (s.run base).manager.db p node = .ok result := by
  obtain ⟨base, hbase, hreads, -, hrules⟩ := h.exists_base
  refine ⟨base, hbase, ?_⟩
  rw [resolvePermission_eq_decideACL, ← hd]
  exact decideACL_of_rules (fun u => (hreads.contains_eq u).symm) hrules.symm

end Reads

/-! ### What checks return -/

/-- How far the party of a check can be: whatever it returns has been seen. -/
def Served (seen : String → String → AccessMask → Prop) (p node : String) (t : Thread) : Prop :=
  t = .start (.checkPermission p node) ∨ (∃ gen state, t = .check p node gen state) ∨
    (∃ mask, t = .returned (some mask) ∧ seen p node mask) ∨ ∃ e, t = .failed e

/-- The masks that are cached, about to be stored or returned have been seen as decisions. -/
structure Traced (calls : List Call) (seen : String → String → AccessMask → Prop) (s : System) : Prop where
  cached : ∀ p node mask, s.manager.cache p node = some mask → seen p node mask
  stored : ∀ p node gen result, .check p node gen (.store result) ∈ s.threads → seen p node result
  served : ∀ (i : Nat) (p node : String), calls[i]? = some (Call.checkPermission p node) →
    ∃ t, s.threads[i]? = some t ∧ Served seen p node t

theorem traced_init (db : Db) (calls : List Call) (seen : String → String → AccessMask → Prop) :
    Traced calls seen (System.init db calls) where
  cached := by
    intro p node mask h
    cases h
  stored := by
    intro p node gen result h
    obtain ⟨call, -, hcall⟩ := List.mem_map.1 h
    cases hcall
  served := by
    intro i p node h
    refine ⟨.start (.checkPermission p node), ?_, .inl rfl⟩
    show (calls.map Thread.start)[i]? = _
    rw [List.getElem?_map, h]
    rfl

theorem Traced.mono {calls : List Call} {seen seen' : String → String → AccessMask → Prop} {s : System}
    (h : Traced calls seen s) (hle : ∀ p node mask, seen p node mask → seen' p node mask) :
    Traced calls seen' s where
  cached p node mask hc := hle p node mask (h.cached p node mask hc)
  stored p node gen result hc := hle p node result (h.stored p node gen result hc)
  served i p node hc := by
    obtain ⟨t, ht, hserved⟩ := h.served i p node hc
    refine ⟨t, ht, ?_⟩
    rcases hserved with hs | hs | ⟨mask, hs, hm⟩ | hs
    · exact .inl hs
    · exact .inr (.inl hs)
    · exact .inr (.inr (.inl ⟨mask, hs, hle p node mask hm⟩))
    · exact .inr (.inr (.inr hs))

/-- The own step of a party. -/
private theorem Traced.served_step {calls : List Call} {seen : String → String → AccessMask → Prop} {s : System}
    (hs : Traced calls seen s) {p node : String} {t : Thread} (hmem : t ∈ s.threads) (ht : Served seen p node t) :
    Served seen p node (t.step s.manager).2 := by
  rcases ht with rfl | ⟨gen, state, rfl⟩ | ⟨mask, rfl, hm⟩ | ⟨e, rfl⟩
  · simp only [Thread.step, Call.step]
    cases hcache : s.manager.cache p node with
    | none => exact .inr (.inl ⟨_, _, rfl⟩)
    | some mask => exact .inr (.inr (.inl ⟨mask, rfl, hs.cached p node mask hcache⟩))
  · rcases Thread.check_step s.manager p node gen state with ⟨state', hnext, -⟩ | ⟨result, rfl, hnext⟩ | ⟨e, hnext⟩
    · rw [hnext]
      exact .inr (.inl ⟨gen, state', rfl⟩)
    · rw [hnext]
      exact .inr (.inr (.inl ⟨result, rfl, hs.stored p node gen result hmem⟩))
    · rw [hnext]
      exact .inr (.inr (.inr ⟨e, rfl⟩))
  · exact .inr (.inr (.inl ⟨mask, rfl, hm⟩))
  · exact .inr (.inr (.inr ⟨e, rfl⟩))

/-- One step keeps the invariant when what the last queries decide has been seen. -/
theorem Traced.step {calls : List Call} {seen : String → String → AccessMask → Prop} {s : System}
    (hs : Traced calls seen s) (i : Nat)
    (hdecided : ∀ p node gen token result, .check p node gen (.reading token []) ∈ s.threads →
      decideACL s.manager.db node token = .ok result → seen p node result) :
    Traced calls seen (s.step i) := by
  rcases s.step_cases i with ⟨-, heq⟩ | ⟨t, ht, hm, hthreads⟩
  · rwa [heq]
  have hmem : t ∈ s.threads := List.mem_of_getElem? ht
  have hold : ∀ u ∈ (s.step i).threads, u = (t.step s.manager).2 ∨ u ∈ s.threads := by
    intro u hu
    rw [hthreads] at hu
    exact (List.mem_or_eq_of_mem_set hu).symm
  constructor
  case cached =>
    intro p node mask h
    rw [hm] at h
    rcases Thread.step_cache s.manager t with ⟨hcache, -, -⟩ | ⟨target, -, hstep⟩ |
      ⟨p₀, node₀, gen₀, result, rfl, hstep⟩
    · rw [hcache] at h
      exact hs.cached p node mask h
    · rw [hstep] at h
      exact hs.cached p node mask (eraseCache_eq_some h).2.2
    · rw [hstep] at h
      rcases storeResult_cache h with ⟨-, rfl, rfl, rfl⟩ | h
      · exact hs.stored _ _ _ _ hmem
      · exact hs.cached p node mask h
  case stored =>
    intro p node gen result h
    rcases hold _ h with h | h
    · rcases Thread.step_check h.symm with ⟨-, -, -, hstate⟩ | ⟨state₀, rfl, hc⟩
      · cases hstate
      · cases hc with
        | decide token result hd => exact hdecided p node gen token result hmem hd
    · exact hs.stored p node gen result h
  case served =>
    intro j p node hcall
    obtain ⟨u, hu, hserved⟩ := hs.served j p node hcall
    refine ⟨_, System.getElem?_step hu i, ?_⟩
    split
    · exact hs.served_step (List.mem_of_getElem? hu) hserved
    · exact hserved

/-- In a run in which no commit that changes what a check has read comes before a change of what it has yet to read,
every mask that a check returns is the decision on the database at some point of the run. -/
theorem returned_of_untorn {db : Db} {calls : List Call} {sched : List Nat}
    (huntorn : Untorn (System.init db calls) sched) {i : Nat} {p node : String} {mask : AccessMask}
    (hcall : calls[i]? = some (.checkPermission p node))
    (hret : ((System.init db calls).run sched).threads[i]? = some (.returned (some mask))) :
    ∃ part, part <+: sched ∧ resolvePermission ((System.init db calls).run part).manager.db p node = .ok mask := by
  have hrun : ∀ part, part <+: sched → Traced calls (fun p node mask => ∃ part', part' <+: part ∧
      resolvePermission ((System.init db calls).run part').manager.db p node = .ok mask)
      ((System.init db calls).run part) := by
    intro part hpart
    refine Run.prefix_induction (P := fun part => Traced calls (fun p node mask => ∃ part', part' <+: part ∧
      resolvePermission ((System.init db calls).run part').manager.db p node = .ok mask)
      ((System.init db calls).run part)) (traced_init db calls _) (fun part j hpj ih => ?_) hpart
    have hlonger : part <+: part ++ [j] := List.prefix_append ..
    rw [System.run, Run.run_concat]
    refine (ih.mono fun p node mask => Exists.imp fun part' => And.imp_left fun hp' => hp'.trans hlonger).step j ?_
    intro p node gen token result hmem hd
    obtain ⟨k, hk⟩ := List.mem_iff_getElem?.1 hmem
    obtain ⟨base, hbase, hresult⟩ := (readOf_run huntorn (hlonger.trans hpj) hk).decided hd
    exact ⟨base, hbase.trans hlonger, hresult⟩
  obtain ⟨t, ht, hserved⟩ := (hrun sched (List.prefix_refl _)).served i p node hcall
  rw [hret, Option.some.injEq] at ht
  subst ht
  rcases hserved with h | ⟨gen, state, h⟩ | ⟨mask', h, hseen⟩ | ⟨e, h⟩
  · cases h
  · cases h
  · cases h
    exact hseen
  · cases h

/-- The steps of the first part keep what the checks have read, those of the second what they have yet to read. -/
theorem untorn_append {s : System} {before after : List Nat}
    (hkeep : ∀ part i, part ++ [i] <+: before → ∀ p node gen token todo,
      Thread.check p node gen (.reading token todo) ∈ (s.run part).threads →
      ReadsHold (s.run part).manager.db p token todo → ReadsHold (s.run (part ++ [i])).manager.db p token todo)
    (hrest : ∀ later j, later ++ [j] <+: before ++ after → before.length ≤ later.length → ∀ p node gen token todo,
      Thread.check p node gen (.reading token todo) ∈ (s.run later).threads →
      RestAgrees (s.run later).manager.db (s.run (later ++ [j])).manager.db node todo) :
    Untorn s (before ++ after) := by
  intro part later i j k p node gen token token' todo todo' hpart hlater hcheck hcheck'
  by_cases hshort : part.length < before.length
  · have hprefix : part ++ [i] <+: before := by
      refine List.prefix_of_prefix_length_le (hpart.trans hlater) (List.prefix_append ..) ?_
      rw [List.length_append, List.length_singleton]
      exact hshort
    exact .inl (hkeep part i hprefix p node gen token todo (List.mem_of_getElem? hcheck))
  · have hlength := hpart.length_le
    rw [List.length_append, List.length_append, List.length_singleton, List.length_singleton] at hlength
    exact .inr (hrest later j hlater (by omega) p node gen token' todo' (List.mem_of_getElem? hcheck'))

theorem readRules_congr {db db' : Db} (h : db'.permissions = db.permissions) (node : String) :
    readRules db' node = readRules db node := by
  unfold readRules getNodeACLBatch
  rw [h]

/-- The player's group is allowed and its parent denied. -/
def betweenDb : Db where
  groups := [⟨"h", "default", none⟩, ⟨"g", "staff", some "h"⟩]
  playerGroups := [⟨"p", "g"⟩]
  permissions := [⟨"a", 0, "h", 1, 0, "t"⟩, ⟨"a", 1, "g", 1, 1, "t"⟩]

def betweenCalls : List Call :=
  [.checkPermission "p" "a", .setGroupParent "g" none, .removePlayerFromGroup "p" "g"]

/-- The group loses its parent before the check has read its ancestry, and the player leaves the group when the check
has read the token. -/
def betweenSched : List Nat := [0, 0, 1, 0] ++ [2, 0, 0]

/-- The mask that a party has returned. -/
def Thread.result : Thread → Option AccessMask
  | returned result => result
  | _ => none

theorem Thread.eq_returned_of_result {t : Thread} {mask : AccessMask} (h : t.result = some mask) :
    t = .returned (some mask) := by
  cases t with
  | returned result => exact congrArg Thread.returned h
  | start | check | insertGroup | updateParent | invalidate | failed => cases h

/-- The groups whose ancestry a check has yet to read. -/
def Thread.todo : Thread → List GroupInfo
  | check _ _ _ (.reading _ todo) => todo
  | _ => []

/-- The commit between the query of the groups and that of the ancestry. -/
private theorem readsHold_betweenSched {p node : String} {gen : Nat} {token : AccessToken} {todo : List GroupInfo}
    (hcheck : Thread.check p node gen (.reading token todo) ∈
      ((System.init betweenDb betweenCalls).run [0, 0]).threads) :
    ReadsHold ((System.init betweenDb betweenCalls).run ([0, 0] ++ [1])).manager.db p token todo := by
  have hthreads : ((System.init betweenDb betweenCalls).run [0, 0]).threads =
      [.check "p" "a" 0 (.reading (addDirectGroups (AccessToken.empty.add "p" .subject) (getPlayerGroups betweenDb "p"))
        (getPlayerGroups betweenDb "p")), .start (.setGroupParent "g" none), .start (.removePlayerFromGroup "p" "g")] :=
    rfl
  have hgroups : groupsOf ((System.init betweenDb betweenCalls).run ([0, 0] ++ [1])).manager.db "p" =
      groupsOf betweenDb "p" := by
    decide +kernel
  rw [hthreads] at hcheck
  simp only [List.mem_cons, List.not_mem_nil, or_false, reduceCtorEq] at hcheck
  cases hcheck
  exact readsHold_direct fun u => by rw [hgroups]; rfl

theorem untorn_betweenSched : Untorn (System.init betweenDb betweenCalls) betweenSched := by
  have hquery : ∀ part ∈ [[], [0], [0, 0, 1]], ((System.init betweenDb betweenCalls).run (part ++ [0])).manager.db =
      ((System.init betweenDb betweenCalls).run part).manager.db := by
    decide +kernel
  have hpermissions : ∀ part ∈ betweenSched.inits,
      ((System.init betweenDb betweenCalls).run part).manager.db.permissions = betweenDb.permissions := by
    decide +kernel
  have htodo : ∀ part ∈ betweenSched.inits, 4 ≤ part.length →
      ∀ t ∈ ((System.init betweenDb betweenCalls).run part).threads, t.todo = [] := by
    decide +kernel
  refine untorn_append (fun part i hpart p node gen token todo hcheck hreads => ?_)
    fun later j hlater hlength p node gen token todo hcheck => ?_
  · have hinit : part ++ [i] ∈ [0, 0, 1, 0].inits := (List.mem_inits _ _).2 hpart
    have hcases : (part ∈ [[], [0], [0, 0, 1]] ∧ i = 0) ∨ (part = [0, 0] ∧ i = 1) := by
      have hdrop : part = (part ++ [i]).dropLast := by simp
      have hlast : some i = (part ++ [i]).getLast? := by simp
      simp only [List.inits, List.map_cons, List.map_nil, List.mem_cons, List.not_mem_nil, or_false] at hinit
      rcases hinit with h | h | h | h | h
      · simp at h
      all_goals
        rw [h] at hdrop hlast
        simp_all
    rcases hcases with ⟨hmem, rfl⟩ | ⟨rfl, rfl⟩
    · rwa [hquery part hmem]
    · exact readsHold_betweenSched hcheck
  · have hmem : later ∈ betweenSched.inits := (List.mem_inits _ _).2 ((List.prefix_append ..).trans hlater)
    have hnone : todo = [] := htodo later hmem hlength _ hcheck
    subst hnone
    refine ⟨fun group hg => absurd hg List.not_mem_nil, readRules_congr ?_ node⟩
    rw [hpermissions later hmem, hpermissions _ ((List.mem_inits _ _).2 hlater)]

theorem returned_of_untorn_sample :
    ∃ part, part <+: betweenSched ∧
      resolvePermission ((System.init betweenDb betweenCalls).run part).manager.db "p" "a" = .ok .allow := by
  have hresult : (((System.init betweenDb betweenCalls).run betweenSched).threads[0]?.bind Thread.result) =
      some .allow := by
    decide +kernel
  obtain ⟨t, ht, hmask⟩ := Option.bind_eq_some_iff.1 hresult
  have hcall : betweenCalls[0]? = some (.checkPermission "p" "a") := rfl
  refine returned_of_untorn untorn_betweenSched hcall ?_
  rw [ht, Thread.eq_returned_of_result hmask]

/-! ### A torn read -/

/-- The player's group is denied and its parent allowed. -/
def tornDb : Db where
  groups := [⟨"h", "default", none⟩, ⟨"g", "staff", some "h"⟩]
  playerGroups := [⟨"p", "g"⟩]
  permissions := [⟨"a", 0, "g", 1, 0, "t"⟩, ⟨"a", 1, "h", 1, 1, "t"⟩]

/-- The check has read its token when the deletion of the group commits, and reads the ACL after that. -/
def tornSched : List Nat := [0, 0, 0, 1, 0, 0]

def tornCalls : List Call := [.checkPermission "p" "a", .deleteGroup "g"]

/-- A check returns `allow` in a run in which the decision is `deny` on every database. -/
theorem torn_read :
    ((System.init tornDb tornCalls).run tornSched).threads[0]? = some (.returned (some .allow)) ∧
      ∀ part, part <+: tornSched →
        resolvePermission ((System.init tornDb tornCalls).run part).manager.db "p" "a" = .ok .deny := by
  constructor
  · have hresult : (((System.init tornDb tornCalls).run tornSched).threads[0]?.bind Thread.result) = some .allow := by
      decide +kernel
    obtain ⟨t, ht, hmask⟩ := Option.bind_eq_some_iff.1 hresult
    rw [ht, Thread.eq_returned_of_result hmask]
  · have hall : ∀ part ∈ tornSched.inits,
        resolvePermission ((System.init tornDb tornCalls).run part).manager.db "p" "a" = .ok .deny := by
      decide +kernel
    exact fun part hpart => hall part ((List.mem_inits _ _).2 hpart)

end BakaPerms
