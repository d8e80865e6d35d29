import BakaPerms.Cache

/-!
# The generation as a machine word

`cacheGeneration_` and the `gen` of a check are of type `uint64_t`, and the model counts without a bound.  Here the
parties run on the counter of the source, which wraps around (`System.wordStep`).  The two systems stay together exactly
as long as no check takes the generation for its own after `2 ^ 64` invalidations or a multiple of them (`word_run`).  So
what holds of the cache with a counter without a bound holds with the one of the source, however often it wraps around,
if no check is still at work after `2 ^ 64` invalidations since it has read the generation (`word_coherent`).
-/

namespace BakaPerms

open Effect PermissionManager

def generations : Nat := 2 ^ 64

/-- The manager with its counter in a `uint64_t`. -/
def PermissionManager.wrap (m : PermissionManager) : PermissionManager :=
  { m with cacheGeneration := m.cacheGeneration % generations }

def Thread.wrap : Thread → Thread
  | check playerUuid node gen state => .check playerUuid node (gen % generations) state
  | t => t

def System.wrap (s : System) : System := ⟨s.manager.wrap, s.threads.map Thread.wrap⟩

/-- The step of a party in the source: `++cacheGeneration_` wraps around. -/
def System.wordStep (s : System) (i : Nat) : System := ⟨(s.step i).manager.wrap, (s.step i).threads⟩

abbrev System.wordRun (s : System) (sched : List Nat) : System := Run.run System.wordStep s sched

/-- The step of the party is not the store of a check that takes the generation for its own after `2 ^ 64`
invalidations or a multiple of them, unless the result is cached already. -/
def Timely (s : System) (i : Nat) : Prop :=
  ∀ p node gen result, s.threads[i]? = some (.check p node gen (.store result)) →
    s.manager.cacheGeneration % generations = gen % generations →
    s.manager.cacheGeneration = gen ∨ s.manager.cache p node = some result

@[simp] theorem wrap_db (m : PermissionManager) : m.wrap.db = m.db := rfl

@[simp] theorem wrap_cache (m : PermissionManager) : m.wrap.cache = m.cache := rfl

theorem wrap_wrap (m : PermissionManager) : m.wrap.wrap = m.wrap := by
  unfold PermissionManager.wrap
  rw [Nat.mod_mod]

theorem wrap_invalidate (m : PermissionManager) (target : Option String) :
    (m.wrap.invalidate target).wrap = (m.invalidate target).wrap := by
  unfold PermissionManager.wrap invalidate
  simp only [Nat.mod_add_mod]

/-- What a store does when it takes effect. -/
def PermissionManager.remember (m : PermissionManager) (p node : String) (result : AccessMask) : PermissionManager :=
  { m with cache := Function.update m.cache p (Function.update (m.cache p) node (some result)) }

section Store

variable {m : PermissionManager} {p node : String} {gen : Nat} {result : AccessMask}

theorem storeResult_of_eq (h : m.cacheGeneration = gen) : m.storeResult p node gen result = m.remember p node result :=
  if_pos h

theorem storeResult_of_ne (h : m.cacheGeneration ≠ gen) : m.storeResult p node gen result = m := if_neg h

theorem remember_cache (m : PermissionManager) (p node : String) (result : AccessMask) :
    (m.remember p node result).cache p node = some result := by
  unfold PermissionManager.remember
  simp only [Function.update_self]

theorem remember_of_cached (h : m.cache p node = some result) : m.remember p node result = m := by
  unfold PermissionManager.remember
  rw [← h, Function.update_eq_self, Function.update_eq_self]

theorem wrap_remember (m : PermissionManager) (p node : String) (result : AccessMask) :
    (m.wrap.remember p node result).wrap = (m.remember p node result).wrap :=
  wrap_wrap (m.remember p node result)

/-- A store that takes effect on one counter only is noticed, unless the result was there before. -/
theorem wrap_storeResult :
    (m.wrap.storeResult p node (gen % generations) result).wrap = (m.storeResult p node gen result).wrap ↔
      (m.cacheGeneration % generations = gen % generations →
        m.cacheGeneration = gen ∨ m.cache p node = some result) := by
  by_cases hmod : m.cacheGeneration % generations = gen % generations
  · have hword : m.wrap.storeResult p node (gen % generations) result = m.wrap.remember p node result :=
      storeResult_of_eq hmod
    rw [hword, wrap_remember]
    by_cases hgen : m.cacheGeneration = gen
    · rw [storeResult_of_eq hgen]
      exact iff_of_true rfl fun _ => .inl hgen
    · rw [storeResult_of_ne hgen]
      constructor
      · intro heq _
        have hcache := congrArg (fun m => m.cache p node) heq
        simp only [wrap_cache, remember_cache] at hcache
        exact .inr hcache.symm
      · intro h
        rw [remember_of_cached ((h hmod).resolve_left hgen)]
  · have hgen : m.cacheGeneration ≠ gen := fun h => hmod (congrArg (· % generations) h)
    have hword : m.wrap.cacheGeneration ≠ gen % generations := hmod
    rw [storeResult_of_ne hgen, storeResult_of_ne hword, wrap_wrap]
    exact iff_of_true rfl fun h => absurd h hmod

end Store

/-! ### One step -/

/-- The move of a party on the two counters. -/
def SameMove (r r' : PermissionManager × Thread) : Prop := r.1.wrap = r'.1.wrap ∧ r.2 = r'.2.wrap

theorem sameMove_commit {α : Type} (m : PermissionManager) (x : DbM α) {next : α → Thread}
    (h : ∀ a, (next a).wrap = next a) : SameMove (commit m.wrap x next) (commit m x next) := by
  unfold commit SameMove
  rw [wrap_db]
  cases x m.db with
  | ok a db => exact ⟨wrap_wrap { m with db := db }, (h a).symm⟩
  | error e db => exact ⟨wrap_wrap { m with db := db }, rfl⟩

/-- A check of the database decides how the call goes on. -/
theorem sameMove_guard {m : PermissionManager} {c : Prop} [Decidable c] {t u : Thread} (ht : t.wrap = t)
    (hu : u.wrap = u) :
    SameMove (if c then (m.wrap, t) else (m.wrap, u)) (if c then (m, t) else (m, u)) := by
  split
  · exact ⟨wrap_wrap m, ht.symm⟩
  · exact ⟨wrap_wrap m, hu.symm⟩

private theorem sameMove_call (m : PermissionManager) (call : Call) :
    SameMove (call.step m.wrap) (call.step m) := by
  cases call with
  | checkPermission playerUuid node =>
    simp only [Call.step, wrap_cache]
    cases m.cache playerUuid node with
    | some mask => exact ⟨wrap_wrap m, rfl⟩
    | none => exact ⟨wrap_wrap m, rfl⟩
  | createGroup uuid name parentUuid => exact sameMove_guard (t := .failed _) (u := .insertGroup ..) rfl rfl
  | setGroupParent groupUuid parentUuid =>
    cases parentUuid with
    | none => exact sameMove_commit m _ fun _ => rfl
    | some parent => exact sameMove_guard (t := .failed _) (u := .updateParent ..) rfl rfl
  | addPlayerToGroup playerUuid groupUuid => exact sameMove_commit m _ fun changed => by cases changed <;> rfl
  | removePlayerFromGroup playerUuid groupUuid => exact sameMove_commit m _ fun changed => by cases changed <;> rfl
  | invalidate target => exact ⟨wrap_invalidate m target, rfl⟩
  | appendACE | insertACE | removeACE | moveACE | clearNodeACL | deleteGroup =>
    exact sameMove_commit m _ fun _ => rfl

/-- A party that is not at its store makes the same move on the two counters. -/
theorem Thread.sameMove_step (m : PermissionManager) {t : Thread}
    (h : ∀ p node gen result, t ≠ .check p node gen (.store result)) : SameMove (t.wrap.step m.wrap) (t.step m) := by
  cases t with
  | start call => exact sameMove_call m call
  | check playerUuid node gen state =>
    rcases state with _ | ⟨token, todo⟩ | result
    · exact ⟨wrap_wrap m, rfl⟩
    · cases todo with
      | cons group todo => exact ⟨wrap_wrap m, rfl⟩
      | nil =>
        simp only [Thread.wrap, Thread.step, wrap_db]
        cases decideACL m.db node token with
        | ok result => exact ⟨wrap_wrap m, rfl⟩
        | error e => exact ⟨wrap_wrap m, rfl⟩
    · exact absurd rfl (h playerUuid node gen result)
  | insertGroup => exact sameMove_commit m _ fun _ => rfl
  | updateParent => exact sameMove_commit m _ fun _ => rfl
  | invalidate target => exact ⟨wrap_invalidate m target, rfl⟩
  | returned => exact ⟨wrap_wrap m, rfl⟩
  | failed => exact ⟨wrap_wrap m, rfl⟩

theorem Thread.wrap_step (m : PermissionManager) (t : Thread) :
    (t.wrap.step m.wrap).2 = (t.step m).2.wrap ∧
      ((t.wrap.step m.wrap).1.wrap = (t.step m).1.wrap ↔
        ∀ p node gen result, t = .check p node gen (.store result) →
          m.cacheGeneration % generations = gen % generations →
          m.cacheGeneration = gen ∨ m.cache p node = some result) := by
  by_cases hstore : ∃ p node gen result, t = .check p node gen (.store result)
  · obtain ⟨p, node, gen, result, rfl⟩ := hstore
    refine ⟨rfl, wrap_storeResult.trans ⟨?_, fun h => h _ _ _ _ rfl⟩⟩
    rintro h p' node' gen' result' heq
    cases heq
    exact h
  · have hno : ∀ p node gen result, t ≠ .check p node gen (.store result) :=
      fun p node gen result h => hstore ⟨p, node, gen, result, h⟩
    obtain ⟨hm, ht⟩ := Thread.sameMove_step m hno
    exact ⟨ht, iff_of_true hm fun p node gen result h => absurd h (hno p node gen result)⟩

/-- The step of the system with the counter of the source. -/
theorem System.wordStep_of_getElem? {s : System} {i : Nat} {t : Thread} (ht : s.threads[i]? = some t) :
    s.wordStep i = ⟨(t.step s.manager).1.wrap, s.threads.set i (t.step s.manager).2⟩ := by
  unfold System.wordStep System.step
  rw [ht]

theorem System.wrap_step_of_getElem? {s : System} {i : Nat} {t : Thread} (ht : s.threads[i]? = some t) :
    (s.step i).wrap = ⟨(t.step s.manager).1.wrap, (s.threads.map Thread.wrap).set i (t.step s.manager).2.wrap⟩ := by
  unfold System.step
  rw [ht]
  unfold System.wrap
  rw [List.map_set]

/-- The two counters stay together in a step exactly when it is timely. -/
theorem System.wrap_wordStep (s : System) (i : Nat) : s.wrap.wordStep i = (s.step i).wrap ↔ Timely s i := by
  have hget : s.wrap.threads[i]? = s.threads[i]?.map Thread.wrap := List.getElem?_map ..
  cases ht : s.threads[i]? with
  | none =>
    rw [ht] at hget
    have hword : s.wrap.wordStep i = s.wrap := by
      unfold System.wordStep System.step
      rw [hget]
      exact congrArg (fun m => System.mk m (s.threads.map Thread.wrap)) (wrap_wrap s.manager)
    have hstep : s.step i = s := by
      unfold System.step
      rw [ht]
    rw [hword, hstep]
    refine iff_of_true rfl fun p node gen result h => ?_
    rw [ht] at h
    cases h
  | some t =>
    rw [ht] at hget
    obtain ⟨hnext, hmanager⟩ := Thread.wrap_step s.manager t
    have htimely : Timely s i ↔ ∀ p node gen result, t = .check p node gen (.store result) →
        s.manager.cacheGeneration % generations = gen % generations →
        s.manager.cacheGeneration = gen ∨ s.manager.cache p node = some result := by
      unfold Timely
      simp only [ht, Option.some.injEq]
    rw [htimely, ← hmanager, System.wordStep_of_getElem? hget, System.wrap_step_of_getElem? ht]
    rw [show (t.wrap.step s.wrap.manager).2 = (t.step s.manager).2.wrap from hnext]
    exact ⟨fun h => congrArg System.manager h, fun h => congrArg (fun m => System.mk m _) h⟩

/-! ### Runs -/

theorem System.wrap_init (db : Db) (calls : List Call) : (System.init db calls).wrap = System.init db calls := by
  unfold System.wrap System.init
  rw [List.map_map]
  rfl

theorem wordRun_eq {db : Db} {calls : List Call} {sched τ : List Nat}
    (h : ∀ τ i, τ ++ [i] <+: sched → Timely ((System.init db calls).run τ) i) (hτ : τ <+: sched) :
    (System.init db calls).wordRun τ = ((System.init db calls).run τ).wrap := by
  refine Run.prefix_induction (P := fun τ =>
    (System.init db calls).wordRun τ = ((System.init db calls).run τ).wrap) ?_ (fun τ i hτ ih => ?_) hτ
  · exact (System.wrap_init db calls).symm
  · rw [System.wordRun] at ih
    rw [System.wordRun, System.run, Run.run_concat, Run.run_concat, ih]
    exact (System.wrap_wordStep _ i).2 (h τ i hτ)

/-- The counter of the source does what a counter without a bound does, in every state of the run, exactly when all
its steps are timely. -/
theorem word_run (db : Db) (calls : List Call) (sched : List Nat) :
    (∀ τ, τ <+: sched → (System.init db calls).wordRun τ = ((System.init db calls).run τ).wrap) ↔
      ∀ τ i, τ ++ [i] <+: sched → Timely ((System.init db calls).run τ) i := by
  refine ⟨fun h τ i hτ => ?_, fun h τ hτ => wordRun_eq h hτ⟩
  have hbefore := h τ ((List.prefix_append τ [i]).trans hτ)
  have hafter := h (τ ++ [i]) hτ
  rw [System.wordRun] at hbefore
  rw [System.wordRun, System.run, Run.run_concat, Run.run_concat, hbefore] at hafter
  exact (System.wrap_wordStep _ i).1 hafter

/-! ### Checks that are overtaken -/

/-- A party that is about to store its result has read the generation `2 ^ 64` invalidations ago, or earlier. -/
def Overtaken (s : System) : Prop :=
  ∃ p node gen result, .check p node gen (.store result) ∈ s.threads ∧ gen + generations ≤ s.manager.cacheGeneration

theorem Coherent.timely {s : System} (hs : Coherent s) (h : ¬ Overtaken s) (i : Nat) : Timely s i := by
  intro p node gen result ht hmod
  have hmem := List.mem_of_getElem? ht
  have hle := hs.generation p node gen _ hmem
  have hlt : s.manager.cacheGeneration < gen + generations := by
    by_contra hge
    exact h ⟨p, node, gen, result, hmem, Nat.le_of_not_lt hge⟩
  left
  unfold generations at *
  omega

/-- A writer is pending on the one counter when it is on the other. -/
theorem pending_wrap {p : String} {s : System} : Pending p s.wrap ↔ Pending p s := by
  constructor
  · rintro ⟨t, ht, he⟩
    obtain ⟨u, hu, rfl⟩ := List.mem_map.1 ht
    refine ⟨u, hu, ?_⟩
    cases u with
    | invalidate => exact he
    | start | check | insertGroup | updateParent | returned | failed => rcases he with h | h <;> cases h
  · rintro ⟨t, ht, he⟩
    refine ⟨t, List.mem_map.2 ⟨t, ht, ?_⟩, he⟩
    rcases he with rfl | rfl
    · rfl
    · rfl

/-- A party is at its start, or has returned, on the one counter when it has on the other. -/
theorem getElem?_wrap_threads {s : System} {i : Nat} {t : Thread} (ht : ∀ p node gen state, t ≠ .check p node gen state) :
    s.wrap.threads[i]? = some t ↔ s.threads[i]? = some t := by
  unfold System.wrap
  rw [List.getElem?_map, Option.map_eq_some_iff]
  constructor
  · rintro ⟨u, hu, rfl⟩
    cases u with
    | check p node gen state => exact absurd rfl (ht p node (gen % generations) state)
    | _ => exact hu
  · intro h
    refine ⟨t, h, ?_⟩
    cases t with
    | check p node gen state => exact absurd rfl (ht p node gen state)
    | _ => rfl

/-- The cache is coherent with the counter of the source, unless a check is overtaken. -/
theorem word_coherent {db : Db} (hdb : db.Schema) {calls : List Call} {sched : List Nat}
    (h : ∀ τ, τ <+: sched → ¬ Overtaken ((System.init db calls).run τ)) :
    (∀ p node mask, ((System.init db calls).wordRun sched).manager.cache p node = some mask →
      resolvePermission ((System.init db calls).wordRun sched).manager.db p node = .ok mask ∨
        Pending p ((System.init db calls).wordRun sched)) ∧
      ∀ (p node : String) (before during : List Nat) (i : Nat) (mask : AccessMask), sched = before ++ during →
        ((System.init db calls).wordRun before).threads[i]? = some (Thread.start (.checkPermission p node)) →
        (∀ part, part <+: during → ¬ Pending p ((System.init db calls).wordRun (before ++ part))) →
        ((System.init db calls).wordRun sched).threads[i]? = some (Thread.returned (some mask)) →
        resolvePermission ((System.init db calls).wordRun sched).manager.db p node = .ok mask := by
  have hword {τ : List Nat} (hτ : τ <+: sched) :
      (System.init db calls).wordRun τ = ((System.init db calls).run τ).wrap :=
    wordRun_eq (fun τ i hτ => (coherent_run hdb calls τ).timely (h τ ((List.prefix_append τ [i]).trans hτ)) i) hτ
  obtain ⟨hcached, hchecks⟩ := cache_coherent hdb calls sched
  constructor
  · intro p node mask hmask
    rw [hword (List.prefix_refl _)] at hmask ⊢
    rw [pending_wrap]
    exact hcached p node mask hmask
  · rintro p node before during i mask rfl hstart hquiet hret
    rw [hword (List.prefix_append ..), getElem?_wrap_threads fun _ _ _ _ h => by cases h] at hstart
    rw [hword (List.prefix_refl _), getElem?_wrap_threads fun _ _ _ _ h => by cases h] at hret
    rw [hword (List.prefix_refl _)]
    refine hchecks p node before during i mask rfl hstart (fun part hpart hpending => hquiet part hpart ?_) hret
    rwa [hword ((List.prefix_append_right_inj before).2 hpart), pending_wrap]

/-- The second check of the sample, after the invalidation. -/
def wordTurns : List Nat := [0, 0, 0, 0, 0, 1, 1, 2, 2, 2, 2, 2]

theorem word_coherent_sample :
    resolvePermission ((System.init sampleSchema sampleCalls).wordRun wordTurns).manager.db "p" "a" = .ok .deny ∨
      Pending "p" ((System.init sampleSchema sampleCalls).wordRun wordTurns) := by
  have hsmall : ∀ τ ∈ wordTurns.inits,
      ((System.init sampleSchema sampleCalls).run τ).manager.cacheGeneration < generations := by
    decide +kernel
  refine (word_coherent sampleSchema_schema fun τ hτ => ?_).1 "p" "a" .deny (by decide +kernel)
  rintro ⟨p, node, gen, result, -, hle⟩
  have hlt := hsmall τ ((List.mem_inits _ _).2 hτ)
  omega

end BakaPerms
