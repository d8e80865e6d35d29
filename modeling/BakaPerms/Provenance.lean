import BakaPerms.Decision
import BakaPerms.SharedStore
import BakaPerms.TornReads

/-!
# Where the answers of concurrent checks come from

Whatever commits fall between its queries, a check puts its answer together from databases of the run that come one
after another: the groups of the player on one of them, the ancestry of each group on a later one, the ACLs on a last
one (`Observed`).  The answer that is cached, stored or returned has always come about so (`observed_schedule`).  Hence
an `allow` rests on an ACE that some database of the run had at the node that governs there, for the wildcard, the
player, or a group that the player's groups have led to (`allow_from_ace`).
-/

namespace BakaPerms

open Chain PermissionRepository PermissionManager PermissionResolver

section Observed

-- the database after each part of a schedule
variable (view : List Nat → Db)

/-- The token of the player's groups after `start`, with the ancestries of `done` as they were found up to `now`. -/
inductive Gathers (p : String) (start : List Nat) : List GroupInfo → List Nat → AccessToken → Prop
  | groups : Gathers p start [] start
      (addDirectGroups (AccessToken.empty.add p .subject) (getPlayerGroups (view start) p))
  | ancestry {done : List GroupInfo} {before now : List Nat} {token : AccessToken} (group : GroupInfo)
      (h : Gathers p start done before token) (hlater : before <+: now) :
      Gathers p start (done ++ [group]) now (addAncestry token (getGroupAncestry (view now) group.uuid))

/-- The mask is the decision on the ACLs after a part of the run with a token gathered before. -/
def Observed (now : List Nat) (p node : String) (mask : AccessMask) : Prop :=
  ∃ start before part token, Gathers view p start (getPlayerGroups (view start) p) before token ∧
    before <+: part ∧ part <+: now ∧ decideACL (view part) node token = .ok mask

variable {view}

theorem Observed.mono {now now' : List Nat} {p node : String} {mask : AccessMask} (h : Observed view now p node mask)
    (hlater : now <+: now') : Observed view now' p node mask := by
  obtain ⟨start, before, part, token, hgathers, hbefore, hpart, hdecide⟩ := h
  exact ⟨start, before, part, token, hgathers, hbefore, hpart.trans hlater, hdecide⟩

/-- What a check on its way has read. -/
def HasRead (view : List Nat → Db) (now : List Nat) (p node : String) : CheckState → Prop
  | .readGroups => True
  | .reading token todo => ∃ start before done, getPlayerGroups (view start) p = done ++ todo ∧
    Gathers view p start done before token ∧ before <+: now
  | .store result => Observed view now p node result

theorem HasRead.mono {now now' : List Nat} {p node : String} {state : CheckState} (h : HasRead view now p node state)
    (hlater : now <+: now') : HasRead view now' p node state := by
  cases state with
  | readGroups => trivial
  | reading token todo =>
    obtain ⟨start, before, done, hgroups, hgathers, hbefore⟩ := h
    exact ⟨start, before, done, hgroups, hgathers, hbefore.trans hlater⟩
  | store result => exact Observed.mono h hlater

/-- A query reads from the database at this point of the run. -/
theorem HasRead.step {now : List Nat} {p node : String} {state state' : CheckState}
    (h : HasRead view now p node state) (hstep : CheckStep (view now) p node state state') :
    HasRead view now p node state' := by
  cases hstep with
  | groups => exact ⟨now, now, [], rfl, .groups, List.prefix_refl now⟩
  | ancestry token group todo =>
    obtain ⟨start, before, done, hgroups, hgathers, hbefore⟩ := h
    refine ⟨start, now, done ++ [group], ?_, .ancestry group hgathers hbefore, List.prefix_refl now⟩
    rw [hgroups, List.append_assoc]
    rfl
  | decide token result hdecide =>
    obtain ⟨start, before, done, hgroups, hgathers, hbefore⟩ := h
    rw [List.append_nil] at hgroups
    subst hgroups
    exact ⟨start, before, now, token, hgathers, hbefore, List.prefix_refl now, hdecide⟩

end Observed

/-! ### The invariant -/

/-- The database after a part of the schedule. -/
abbrev dbAfter (db : Db) (calls : List Call) (part : List Nat) : Db := ((System.init db calls).run part).manager.db

/-- The masks in the cache and with the checks have been observed. -/
structure Explained (view : List Nat → Db) (calls : List Call) (now : List Nat) (s : System) : Prop where
  cached : ∀ p node mask, s.manager.cache p node = some mask → Observed view now p node mask
  reads : ∀ p node gen state, .check p node gen state ∈ s.threads → HasRead view now p node state
  served : ∀ (i : Nat) (p node : String), calls[i]? = some (Call.checkPermission p node) →
    ∃ t, s.threads[i]? = some t ∧ Served (Observed view now) p node t

theorem explained_init (db : Db) (calls : List Call) (view : List Nat → Db) :
    Explained view calls [] (System.init db calls) where
  cached := by
    intro p node mask h
    cases h
  reads := by
    intro p node gen state h
    obtain ⟨call, -, hcall⟩ := List.mem_map.1 h
    cases hcall
  served := (traced_init db calls (Observed view [])).served

theorem Served.mono {seen seen' : String → String → AccessMask → Prop} {p node : String} {t : Thread}
    (h : Served seen p node t) (hle : ∀ mask, seen p node mask → seen' p node mask) : Served seen' p node t := by
  rcases h with hs | hs | ⟨mask, hs, hm⟩ | hs
  · exact .inl hs
  · exact .inr (.inl hs)
  · exact .inr (.inr (.inl ⟨mask, hs, hle mask hm⟩))
  · exact .inr (.inr (.inr hs))

section Step

variable {view : List Nat → Db} {calls : List Call} {now : List Nat} {s : System}

/-- A check returns what it finds in the cache or what it has worked out. -/
private theorem Explained.served_step (hs : Explained view calls now s) {p node : String} {t : Thread}
    (hmem : t ∈ s.threads) (ht : Served (Observed view now) p node t) :
    Served (Observed view now) p node (t.step s.manager).2 := by
  rcases ht with rfl | ⟨gen, state, rfl⟩ | ⟨mask, rfl, hm⟩ | ⟨e, rfl⟩
  · simp only [Thread.step, Call.step]
    cases hcache : s.manager.cache p node with
    | none => exact .inr (.inl ⟨_, _, rfl⟩)
    | some mask => exact .inr (.inr (.inl ⟨mask, rfl, hs.cached p node mask hcache⟩))
  · rcases Thread.check_step s.manager p node gen state with ⟨state', hnext, -⟩ | ⟨result, rfl, hnext⟩ | ⟨e, hnext⟩
    · rw [hnext]
      exact .inr (.inl ⟨gen, state', rfl⟩)
    · rw [hnext]
      exact .inr (.inr (.inl ⟨result, rfl, hs.reads p node gen (.store result) hmem⟩))
    · rw [hnext]
      exact .inr (.inr (.inr ⟨e, rfl⟩))
  · exact .inr (.inr (.inl ⟨mask, rfl, hm⟩))
  · exact .inr (.inr (.inr ⟨e, rfl⟩))

theorem Explained.step (hs : Explained view calls now s) (hdb : s.manager.db = view now) (i : Nat) :
    Explained view calls (now ++ [i]) (s.step i) := by
  have hlater : now <+: now ++ [i] := List.prefix_append now [i]
  rcases s.step_cases i with ⟨-, heq⟩ | ⟨t, ht, hm, hthreads⟩
  · rw [heq]
    refine ⟨fun p node mask h => (hs.cached p node mask h).mono hlater,
      fun p node gen state h => (hs.reads p node gen state h).mono hlater, fun j p node hcall => ?_⟩
    obtain ⟨u, hu, hserved⟩ := hs.served j p node hcall
    exact ⟨u, hu, hserved.mono fun mask h => h.mono hlater⟩
  have hmem : t ∈ s.threads := List.mem_of_getElem? ht
  constructor
  case cached =>
    intro p node mask h
    refine Observed.mono ?_ hlater
    rw [hm] at h
    rcases Thread.step_cache s.manager t with ⟨hcache, -, -⟩ | ⟨target, -, hstep⟩ |
      ⟨p₀, node₀, gen₀, result, rfl, hstep⟩
    · rw [hcache] at h
      exact hs.cached p node mask h
    · rw [hstep] at h
      exact hs.cached p node mask (eraseCache_eq_some h).2.2
    · rw [hstep] at h
      rcases storeResult_cache h with ⟨-, rfl, rfl, rfl⟩ | h
      · exact hs.reads p node gen₀ (.store mask) hmem
      · exact hs.cached p node mask h
  case reads =>
    intro p node gen state h
    refine HasRead.mono ?_ hlater
    rw [hthreads] at h
    rcases List.mem_or_eq_of_mem_set h with h | h
    · exact hs.reads p node gen state h
    · rcases Thread.step_check h.symm with ⟨-, -, -, rfl⟩ | ⟨state₀, rfl, hc⟩
      · trivial
      · rw [hdb] at hc
        exact (hs.reads p node gen state₀ hmem).step hc
  case served =>
    intro j p node hcall
    obtain ⟨u, hu, hserved⟩ := hs.served j p node hcall
    refine ⟨_, System.getElem?_step hu i, Served.mono ?_ fun mask h => Observed.mono h hlater⟩
    split
    · exact hs.served_step (List.mem_of_getElem? hu) hserved
    · exact hserved

end Step

theorem explained_run (db : Db) (calls : List Call) (sched : List Nat) :
    Explained (dbAfter db calls) calls sched ((System.init db calls).run sched) := by
  refine Run.prefix_induction (P := fun part =>
    Explained (dbAfter db calls) calls part ((System.init db calls).run part))
    (explained_init db calls _) (fun part i _ h => ?_) (List.prefix_refl sched)
  have hstep := h.step rfl i
  rwa [System.run, Run.run_concat]

/-- What a check has returned is what was worked out for it. -/
theorem Explained.observed {view : List Nat → Db} {calls : List Call} {now : List Nat} {s : System}
    (hs : Explained view calls now s) {i : Nat} {p node : String} {mask : AccessMask}
    (hcall : calls[i]? = some (.checkPermission p node)) (hret : s.threads[i]? = some (.returned (some mask))) :
    Observed view now p node mask := by
  obtain ⟨t, ht, hserved⟩ := hs.served i p node hcall
  rw [hret, Option.some.injEq] at ht
  subst ht
  rcases hserved with h | ⟨gen, state, h⟩ | ⟨mask', h, hseen⟩ | ⟨e, h⟩
  · cases h
  · cases h
  · cases h
    exact hseen
  · cases h

/-- In every schedule, what a check returns is a decision on databases of the run that come one after another: one for
the player's groups, one for the ancestry of each group, and one for the ACLs. -/
theorem observed_schedule {db : Db} {calls : List Call} {sched : List Nat} {i : Nat} {p node : String}
    {mask : AccessMask} (hcall : calls[i]? = some (.checkPermission p node))
    (hret : ((System.init db calls).run sched).threads[i]? = some (.returned (some mask))) :
    Observed (dbAfter db calls) sched p node mask := (explained_run db calls sched).observed hcall hret

/-- The check of the torn read. -/
theorem returned_tornSched :
    ((System.init tornDb tornCalls).run tornSched).threads[0]? = some (.returned (some .allow)) := by
  have hresult : (((System.init tornDb tornCalls).run tornSched).threads[0]?.bind Thread.result) = some .allow := by
    decide +kernel
  obtain ⟨t, ht, hmask⟩ := Option.bind_eq_some_iff.1 hresult
  rw [ht, Thread.eq_returned_of_result hmask]

theorem observed_torn : Observed (dbAfter tornDb tornCalls) tornSched "p" "a" .allow := by
  have hcall : tornCalls[0]? = some (.checkPermission "p" "a") := rfl
  exact observed_schedule hcall returned_tornSched

/-! ### The ACE behind an `allow` -/

/-- At one point of the run a group of the player, later on its way up to the subject. -/
def LedTo (view : List Nat → Db) (part : List Nat) (p u : String) : Prop :=
  ∃ start between g, start <+: between ∧ between <+: part ∧ (⟨p, g⟩ : PlayerGroupRow) ∈ (view start).playerGroups ∧
    ∃ n ≤ 32, ascend (view between).parentOf n g = some u

section Gathers

variable {view : List Nat → Db} {p : String} {start : List Nat}

theorem Gathers.start_prefix {done : List GroupInfo} {before : List Nat} {token : AccessToken}
    (h : Gathers view p start done before token) : start <+: before := by
  induction h with
  | groups => exact List.prefix_refl start
  | ancestry group h hlater ih => exact ih.trans hlater

/-- Who is in a gathered token. -/
theorem Gathers.contains {done : List GroupInfo} {before : List Nat} {token : AccessToken}
    (h : Gathers view p start done before token) {u : String} (hu : token.contains u) :
    u = p ∨ u ∈ (getPlayerGroups (view start) p).map GroupInfo.uuid ∨
      ∃ group ∈ done, ∃ between, start <+: between ∧ between <+: before ∧
        u ∈ (getGroupAncestry (view between) group.uuid).map GroupInfo.uuid := by
  induction h with
  | groups =>
    rw [contains_addDirectGroups, AccessToken.contains_add, AccessToken.contains_empty, Bool.or_false,
      decide_eq_true_eq] at hu
    rcases hu with rfl | hu
    · exact .inl rfl
    · exact .inr (.inl hu)
  | @ancestry done before now token group h hlater ih =>
    rcases contains_addAncestry.1 hu with hu | hu
    · rcases ih hu with hp | hdirect | ⟨group', hgroup', between, hstart, hbetween, hanc⟩
      · exact .inl hp
      · exact .inr (.inl hdirect)
      · exact .inr (.inr ⟨group', List.mem_append_left _ hgroup', between, hstart, hbetween.trans hlater, hanc⟩)
    · refine .inr (.inr ⟨group, List.mem_append_right _ (List.mem_singleton_self group), now, ?_, ?_, ?_⟩)
      · exact h.start_prefix.trans hlater
      · exact List.prefix_refl now
      · exact ((List.drop_sublist 1 _).map _).subset hu

theorem Gathers.ledTo {before part : List Nat} {token : AccessToken}
    (h : Gathers view p start (getPlayerGroups (view start) p) before token) (hpart : before <+: part)
    (hkeys : ∀ part, (view part).groupUuids.Nodup) {u : String} (hu : token.contains u) :
    u = p ∨ LedTo view part p u := by
  rcases h.contains hu with hp | hdirect | ⟨group, hgroup, between, hstart, hbetween, hanc⟩
  · exact .inl hp
  · obtain ⟨hpg, -⟩ := mem_getPlayerGroups.1 hdirect
    refine .inr ⟨start, start, u, List.prefix_refl start, h.start_prefix.trans hpart, hpg, 0, Nat.zero_le _, rfl⟩
  · obtain ⟨hpg, -⟩ := mem_getPlayerGroups.1 (List.mem_map_of_mem hgroup)
    obtain ⟨-, -, hreaches⟩ := (mem_getGroupAncestry (hkeys between)).1 hanc
    exact .inr ⟨start, between, group.uuid, hstart, hbetween.trans hpart, hpg, hreaches⟩

end Gathers

/-- An `allow` is the mask of a row of the governing node that the token matches. -/
theorem row_of_decideACL {db : Db} (hk : db.Keys) (hm : db.ValidMasks) {node : String} {token : AccessToken}
    (h : decideACL db node token = .ok .allow) :
    ∃ row ∈ db.permissions, Governs db row.node node ∧ row.accessMask = AccessMask.allow.toInt ∧
      token.matches row.subjectUuid = true := by
  have hne : node ≠ "" := by
    rintro rfl
    cases h
  obtain ⟨path, hpath, hmem, hpairwise, -⟩ := buildNodePath_eq_ok hne
  obtain ⟨aclMap, hbatch, hresolve⟩ := resolvePath_batch hk hm token path
  have hwalk : resolvePath token (aclOf db) path = .allow := by
    unfold decideACL resolve at h
    simp only [hpath, hbatch, bind, Except.bind, pure, Except.pure, Except.ok.injEq] at h
    rw [← hresolve, h]
  rw [resolvePath_eq] at hwalk
  cases hfind : path.find? fun node => !(aclOf db node).isEmpty with
  | none =>
    rw [hfind] at hwalk
    cases hwalk
  | some k =>
    have hgov : Governs db k node := (find?_eq_some_iff_governs hmem hpairwise).1 hfind
    rw [hfind, Option.bind_some, firstMatch_aclOf] at hwalk
    cases hrow : (sortedRows db k).find? fun row => token.matches row.subjectUuid with
    | none =>
      rw [hrow] at hwalk
      cases hwalk
    | some row =>
      rw [hrow] at hwalk
      obtain ⟨hperm, rfl⟩ := mem_sortedRows.1 (List.mem_of_find?_eq_some hrow)
      have hmask : row.mask = .allow := hwalk
      have hmatch : token.matches row.subjectUuid = true := by simpa using List.find?_some hrow
      exact ⟨row, hperm, hgov, (PermissionRow.mask_eq_iff (hm row hperm)).1 hmask, hmatch⟩

/-- No schedule makes a check return `allow` without an ACE that allows: one that the governing node had on some
database of the run, for the wildcard, the player, or a group that up to 32 parent steps led to from a group of the
player. -/
theorem allow_from_ace {db : Db} (hdb : db.Sound) {calls : List Call} {sched : List Nat} {i : Nat} {p node : String}
    (hcall : calls[i]? = some (.checkPermission p node))
    (hret : ((System.init db calls).run sched).threads[i]? = some (.returned (some .allow))) :
    ∃ part, part <+: sched ∧ ∃ row ∈ (dbAfter db calls part).permissions,
      Governs (dbAfter db calls part) row.node node ∧ row.accessMask = AccessMask.allow.toInt ∧
        (row.subjectUuid = "*" ∨ row.subjectUuid = p ∨ LedTo (dbAfter db calls) part p row.subjectUuid) := by
  obtain ⟨start, before, part, token, hgathers, hbefore, hpart, hdecide⟩ :=
    (explained_run db calls sched).observed hcall hret
  have hsound := sound_schedule hdb calls
  obtain ⟨row, hperm, hgov, hmask, hmatch⟩ := row_of_decideACL (hsound part).toKeys (hsound part).masks hdecide
  refine ⟨part, hpart, row, hperm, hgov, hmask, ?_⟩
  unfold AccessToken.matches at hmatch
  rw [Bool.or_eq_true, decide_eq_true_eq] at hmatch
  rcases hmatch with hwild | htoken
  · exact .inl hwild
  · exact .inr (hgathers.ledTo hbefore (fun part => (hsound part).groups_key) htoken)

/-- The calls that fill the tables of the torn read. -/
theorem sound_tornDb : tornDb.Sound := by
  have hrun : (runCalls (.init Db.empty) [.createGroup "h" "default" none, .createGroup "g" "staff" (some "h"),
      .addPlayerToGroup "p" "g", .appendACE "t" "a" "g" 1 .deny, .appendACE "t" "a" "h" 1 .allow]).db = tornDb := by
    decide +kernel
  rw [← hrun]
  exact sound_runCalls Db.sound_empty _

theorem allow_from_ace_torn :
    ∃ part, part <+: tornSched ∧ ∃ row ∈ (dbAfter tornDb tornCalls part).permissions,
      Governs (dbAfter tornDb tornCalls part) row.node "a" ∧ row.accessMask = AccessMask.allow.toInt ∧
        (row.subjectUuid = "*" ∨ row.subjectUuid = "p" ∨
          LedTo (dbAfter tornDb tornCalls) part "p" row.subjectUuid) := by
  have hcall : tornCalls[0]? = some (.checkPermission "p" "a") := rfl
  exact allow_from_ace sound_tornDb hcall returned_tornSched

end BakaPerms
