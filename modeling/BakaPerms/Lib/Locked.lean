import BakaPerms.Lib.Effect
import BakaPerms.Lib.Run
import Mathlib.Logic.Hydra

/-!
# Statements under a recursive mutex

Parties work on a shared state by operations: a single statement, or a transaction of several.  Every operation holds
a mutex from its start to its end, and every statement of a transaction locks it once more.  In the fine system the
parties take turns between any two of these small steps; in the coarse system an operation is one step.

The fine system simulates the coarse one (`Fine.run_simulates`): what it has committed after any schedule is what the
coarse system reaches by some of the turns.  No party waits for ever: the owner of the mutex can always go on, and
under a fair schedule every party comes to its end (`Fine.finishes`) when the coarse parties do.
-/

namespace Locked

/-! ### Operations -/

/-- Statements one after another, each of which may throw. -/
inductive Script (ε σ α : Type) : Type 1
  | done (a : α)
  | throw (e : ε)
  | exec {β : Type} (x : EStateM ε σ β) (k : β → Script ε σ α)

/-- An operation on the shared state. -/
inductive Op (ε σ α : Type) : Type 1
  | statement (x : EStateM ε σ α)
  | transaction (body : Script ε σ α)

/-- What a party does next: something with the part `κ` of the state that the mutex does not guard, or an operation. -/
inductive Action (ε σ κ τ : Type) : Type 1
  | outside (f : κ → κ × τ)
  | operation {α : Type} (op : Op ε σ α) (next : Except ε α → τ)

section Scripts

variable {ε σ α β : Type}

/-- The script without interruption. -/
def Script.run : Script ε σ α → EStateM ε σ α
  | done a => pure a
  | throw e => EStateM.throw e
  | exec x k => x >>= fun b => (k b).run

def Script.bind : Script ε σ α → (α → Script ε σ β) → Script ε σ β
  | done a, f => f a
  | throw e, _ => .throw e
  | exec x k, f => .exec x fun b => (k b).bind f

theorem Script.run_bind (script : Script ε σ α) (f : α → Script ε σ β) :
    (script.bind f).run = script.run >>= fun a => (f a).run := by
  induction script with
  | done a => rfl
  | throw e => rfl
  | exec x k ih =>
    funext s
    simp only [bind, run, ih]
    cases hx : x s with
    | ok b s' =>
      rw [Effect.bind_of_ok hx]
      cases hk : (k b).run s' with
      | ok a s'' => rw [Effect.bind_of_ok hk, Effect.bind_of_ok ((Effect.bind_of_ok hx).trans hk)]
      | error e s'' => rw [Effect.bind_of_error hk, Effect.bind_of_error ((Effect.bind_of_ok hx).trans hk)]
    | error e s' => rw [Effect.bind_of_error hx, Effect.bind_of_error (Effect.bind_of_error hx)]

/-- The operation as one step; a transaction that throws leaves the state as it was. -/
def Op.run : Op ε σ α → EStateM ε σ α
  | statement x => x
  | transaction body => fun s =>
    match body.run s with
    | .ok a s' => .ok a s'
    | .error e _ => .error e s

theorem Op.run_transaction_of_ok {body : Script ε σ α} {s s' : σ} {a : α} (h : body.run s = .ok a s') :
    (Op.transaction body).run s = .ok a s' := by
  simp only [Op.run, h]

theorem Op.run_transaction_of_error {body : Script ε σ α} {s s' : σ} {e : ε} (h : body.run s = .error e s') :
    (Op.transaction body).run s = .error e s := by
  simp only [Op.run, h]

end Scripts

variable {ε σ κ τ : Type}

/-! ### The coarse system -/

/-- The action in one step. -/
def Action.perform (shared : σ) (rest : κ) : Action ε σ κ τ → σ × κ × τ
  | outside f => (shared, f rest)
  | operation op next =>
    match op.run shared with
    | .ok a shared' => (shared', rest, next (.ok a))
    | .error e shared' => (shared', rest, next (.error e))

structure Coarse (σ κ τ : Type) where
  shared : σ
  rest : κ
  parties : List τ

/-- The party with the index performs its action. -/
def Coarse.step (action : τ → Action ε σ κ τ) (s : Coarse σ κ τ) (i : Nat) : Coarse σ κ τ :=
  match s.parties[i]? with
  | none => s
  | some t =>
    let r := (action t).perform s.shared s.rest
    ⟨r.1, r.2.1, s.parties.set i r.2.2⟩

/-! ### The fine system -/

/-- A mutex that its owner may lock again. -/
inductive Mutex
  | free
  | held (owner again : Nat)
  deriving DecidableEq

namespace Mutex

/-- The mutex after the party has locked it; `none` makes the party wait. -/
def lock (i : Nat) : Mutex → Option Mutex
  | free => some (held i 0)
  | held owner again => if owner = i then some (held owner (again + 1)) else none

def unlock : Mutex → Mutex
  | free => free
  | held _ 0 => free
  | held owner (again + 1) => held owner again

@[simp] theorem lock_free (i : Nat) : free.lock i = some (held i 0) := rfl

@[simp] theorem lock_owner (i again : Nat) : (held i again).lock i = some (held i (again + 1)) := if_pos rfl

theorem lock_of_ne {owner i : Nat} (h : owner ≠ i) (again : Nat) : (held owner again).lock i = none := if_neg h

end Mutex

/-- How far a party is in an operation. -/
inductive Phase (ε σ τ : Type) : Type 1
  | statement {α : Type} (x : EStateM ε σ α) (next : Except ε α → τ)
  | start {α : Type} (body : Script ε σ α) (next : Except ε α → τ)
  | body {α : Type} (todo : Script ε σ α) (next : Except ε α → τ)
  | inner {α β : Type} (x : EStateM ε σ β) (k : β → Script ε σ α) (next : Except ε α → τ)
  | innerReturned {α : Type} (todo : Script ε σ α) (next : Except ε α → τ)
  | innerThrown {α : Type} (e : ε) (next : Except ε α → τ)
  | rollback {α : Type} (e : ε) (next : Except ε α → τ)
  | leave (t : τ)

inductive Party (ε σ τ : Type) : Type 1
  | ready (t : τ)
  | inside (t : τ) (phase : Phase ε σ τ)

/-- What the parties share.  `saved` is the state at the start of the open transaction. -/
structure Memory (σ κ : Type) where
  shared : σ
  saved : Option σ
  rest : κ
  mutex : Mutex

structure Fine (ε σ κ τ : Type) : Type 1 where
  memory : Memory σ κ
  parties : List (Party ε σ τ)

/-- The phase after the first lock. -/
def Op.enter {α : Type} (next : Except ε α → τ) : Op ε σ α → Phase ε σ τ
  | statement x => .statement x next
  | transaction body => .start body next

variable (action : τ → Action ε σ κ τ)

/-- The next small step of a party; `none` while it waits for the mutex. -/
def Party.step (i : Nat) (m : Memory σ κ) : Party ε σ τ → Option (Memory σ κ × Party ε σ τ)
  | ready t =>
    match action t with
    | .outside f => some ({ m with rest := (f m.rest).1 }, .ready (f m.rest).2)
    | .operation op next => (m.mutex.lock i).map fun mutex => ({ m with mutex }, .inside t (op.enter next))
  | inside t (.statement x next) =>
    match x m.shared with
    | .ok a shared => some ({ m with shared }, .inside t (.leave (next (.ok a))))
    | .error e shared => some ({ m with shared }, .inside t (.leave (next (.error e))))
  | inside t (.start body next) => some ({ m with saved := some m.shared }, .inside t (.body body next))
  | inside t (.body (.done a) next) => some ({ m with saved := none }, .inside t (.leave (next (.ok a))))
  | inside t (.body (.throw e) next) => some (m, .inside t (.rollback e next))
  | inside t (.body (.exec x k) next) =>
    (m.mutex.lock i).map fun mutex => ({ m with mutex }, .inside t (.inner x k next))
  | inside t (.inner x k next) =>
    match x m.shared with
    | .ok b shared => some ({ m with shared }, .inside t (.innerReturned (k b) next))
    | .error e shared => some ({ m with shared }, .inside t (.innerThrown e next))
  | inside t (.innerReturned todo next) => some ({ m with mutex := m.mutex.unlock }, .inside t (.body todo next))
  | inside t (.innerThrown e next) => some ({ m with mutex := m.mutex.unlock }, .inside t (.rollback e next))
  | inside t (.rollback e next) =>
    some ({ m with shared := m.saved.getD m.shared, saved := none }, .inside t (.leave (next (.error e))))
  | inside _ (.leave t) => some ({ m with mutex := m.mutex.unlock }, .ready t)

/-- The turn of the party with the index; a party that waits does nothing. -/
def Fine.step (s : Fine ε σ κ τ) (i : Nat) : Fine ε σ κ τ :=
  match s.parties[i]? with
  | none => s
  | some p =>
    match p.step action i s.memory with
    | none => s
    | some (memory, p') => ⟨memory, s.parties.set i p'⟩

/-- The system before any step. -/
def Fine.init (shared : σ) (rest : κ) (parties : List τ) : Fine ε σ κ τ :=
  ⟨⟨shared, none, rest, .free⟩, parties.map .ready⟩

abbrev Fine.run (s : Fine ε σ κ τ) (sched : List Nat) : Fine ε σ κ τ := Run.run (Fine.step action) s sched

/-! ### What has been committed -/

/-- Where the party is in the coarse system. -/
def Party.coarse : Party ε σ τ → τ
  | ready t => t
  | inside _ (.leave t) => t
  | inside t _ => t

/-- The state without the open transaction. -/
def Memory.committed (m : Memory σ κ) : σ := m.saved.getD m.shared

def Fine.coarse (s : Fine ε σ κ τ) : Coarse σ κ τ := ⟨s.memory.committed, s.memory.rest, s.parties.map Party.coarse⟩

theorem Fine.coarse_init (shared : σ) (rest : κ) (parties : List τ) :
    (Fine.init shared rest parties : Fine ε σ κ τ).coarse = ⟨shared, rest, parties⟩ := by
  unfold Fine.init Fine.coarse
  rw [List.map_map]
  exact congrArg (Coarse.mk shared rest) (List.map_id _)

/-! ### The invariant -/

/-- The phase fits the party's action: what is left of a transaction, run on the shared state, ends as the whole does
on the saved one. -/
inductive Phase.Fits (t : τ) (shared : σ) : Option σ → Nat → Phase ε σ τ → Prop
  | statement {α : Type} {x : EStateM ε σ α} {next : Except ε α → τ}
    (h : action t = .operation (.statement x) next) : Fits t shared none 0 (.statement x next)
  | start {α : Type} {body : Script ε σ α} {next : Except ε α → τ}
    (h : action t = .operation (.transaction body) next) : Fits t shared none 0 (.start body next)
  | body {α : Type} {body todo : Script ε σ α} {next : Except ε α → τ} {saved : σ}
    (h : action t = .operation (.transaction body) next) (hrun : todo.run shared = body.run saved) :
    Fits t shared (some saved) 0 (.body todo next)
  | inner {α β : Type} {body : Script ε σ α} {x : EStateM ε σ β} {k : β → Script ε σ α} {next : Except ε α → τ}
    {saved : σ} (h : action t = .operation (.transaction body) next)
    (hrun : (Script.exec x k).run shared = body.run saved) : Fits t shared (some saved) 1 (.inner x k next)
  | innerReturned {α : Type} {body todo : Script ε σ α} {next : Except ε α → τ} {saved : σ}
    (h : action t = .operation (.transaction body) next) (hrun : todo.run shared = body.run saved) :
    Fits t shared (some saved) 1 (.innerReturned todo next)
  | innerThrown {α : Type} {body : Script ε σ α} {e : ε} {next : Except ε α → τ} {saved s : σ}
    (h : action t = .operation (.transaction body) next) (hrun : body.run saved = .error e s) :
    Fits t shared (some saved) 1 (.innerThrown e next)
  | rollback {α : Type} {body : Script ε σ α} {e : ε} {next : Except ε α → τ} {saved s : σ}
    (h : action t = .operation (.transaction body) next) (hrun : body.run saved = .error e s) :
    Fits t shared (some saved) 0 (.rollback e next)
  | leave (t' : τ) : Fits t shared none 0 (.leave t')

/-- The party is not in an operation. -/
def Party.Outside (p : Party ε σ τ) : Prop := ∃ t, p = .ready t

/-- The mutex is free and nobody is in an operation, or its owner is the only one. -/
inductive Fine.Guarded (s : Fine ε σ κ τ) : Prop
  | free (hmutex : s.memory.mutex = .free) (hsaved : s.memory.saved = none) (hout : ∀ p ∈ s.parties, p.Outside)
  | held {i again : Nat} {t : τ} {phase : Phase ε σ τ} (hmutex : s.memory.mutex = .held i again)
    (hi : s.parties[i]? = some (.inside t phase))
    (hfits : Phase.Fits action t s.memory.shared s.memory.saved again phase)
    (hout : ∀ j p, j ≠ i → s.parties[j]? = some p → p.Outside)

theorem Fine.guarded_init (shared : σ) (rest : κ) (parties : List τ) :
    (Fine.init shared rest parties : Fine ε σ κ τ).Guarded action := by
  refine .free rfl rfl fun p hp => ?_
  obtain ⟨t, -, rfl⟩ := List.mem_map.1 hp
  exact ⟨t, rfl⟩

/-! ### One step -/

/-- The party's step is not seen in the coarse system, or it is the party's action there. -/
def Refines (t : τ) (m m' : Memory σ κ) (p p' : Party ε σ τ) : Prop :=
  (m'.committed = m.committed ∧ m'.rest = m.rest ∧ p'.coarse = p.coarse) ∨
    (p.coarse = t ∧ (action t).perform m.committed m.rest = (m'.committed, m'.rest, p'.coarse))

/-- The step keeps the mutex, or gives it back. -/
inductive Holds (i : Nat) (t : τ) (m' : Memory σ κ) : Party ε σ τ → Prop
  | inside {again : Nat} {phase : Phase ε σ τ} (hmutex : m'.mutex = .held i again)
    (hfits : Phase.Fits action t m'.shared m'.saved again phase) : Holds i t m' (.inside t phase)
  | ready {t' : τ} (hmutex : m'.mutex = .free) (hsaved : m'.saved = none) : Holds i t m' (.ready t')

variable {action}

theorem perform_transaction {α : Type} {t : τ} {body : Script ε σ α} {next : Except ε α → τ}
    (h : action t = .operation (.transaction body) next) (s : σ) (c : κ) :
    (action t).perform s c =
      match body.run s with
      | .ok a s' => (s', c, next (.ok a))
      | .error e _ => (s, c, next (.error e)) := by
  rw [h]
  unfold Action.perform
  cases hrun : body.run s with
  | ok a s' => simp only [Op.run_transaction_of_ok hrun]
  | error e s' => simp only [Op.run_transaction_of_error hrun]

/-- What a step of the owner does; the owner never waits. -/
theorem Phase.Fits.step {i again : Nat} {t : τ} {phase : Phase ε σ τ} {m : Memory σ κ}
    (h : Phase.Fits action t m.shared m.saved again phase) (hmutex : m.mutex = .held i again) :
    ∃ m' p', (Party.inside t phase).step action i m = some (m', p') ∧ Holds action i t m' p' ∧
      Refines action t m m' (.inside t phase) p' := by
  obtain ⟨shared, saved, rest, mutex⟩ := m
  dsimp only at h hmutex
  subst hmutex
  cases h with
  | @statement α x next h =>
    have hperform : (action t).perform shared rest =
        match x shared with
        | .ok a s => (s, rest, next (.ok a))
        | .error e s => (s, rest, next (.error e)) := by
      rw [h]
      rfl
    cases hx : x shared with
    | ok a s =>
      rw [hx] at hperform
      have hstep : (Party.inside t (.statement x next)).step action i ⟨shared, none, rest, .held i 0⟩ =
          some (⟨s, none, rest, .held i 0⟩, .inside t (.leave (next (.ok a)))) := by
        simp only [Party.step, hx]
      exact ⟨_, _, hstep, .inside rfl (.leave _), .inr ⟨rfl, hperform⟩⟩
    | error e s =>
      rw [hx] at hperform
      have hstep : (Party.inside t (.statement x next)).step action i ⟨shared, none, rest, .held i 0⟩ =
          some (⟨s, none, rest, .held i 0⟩, .inside t (.leave (next (.error e)))) := by
        simp only [Party.step, hx]
      exact ⟨_, _, hstep, .inside rfl (.leave _), .inr ⟨rfl, hperform⟩⟩
  | start h => exact ⟨_, _, rfl, .inside rfl (.body h rfl), .inl ⟨rfl, rfl, rfl⟩⟩
  | @body α body todo next saved h hrun =>
    have hperform := perform_transaction h saved rest
    rw [← hrun] at hperform
    cases todo with
    | done a => exact ⟨_, _, rfl, .inside rfl (.leave _), .inr ⟨rfl, hperform⟩⟩
    | throw e => exact ⟨_, _, rfl, .inside rfl (.rollback h hrun.symm), .inl ⟨rfl, rfl, rfl⟩⟩
    | exec x k =>
      unfold Party.step
      rw [Mutex.lock_owner]
      exact ⟨_, _, rfl, .inside rfl (.inner h hrun), .inl ⟨rfl, rfl, rfl⟩⟩
  | @inner α β body x k next saved h hrun =>
    cases hx : x shared with
    | ok b s =>
      have hk : (k b).run s = body.run saved := (Effect.bind_of_ok hx).symm.trans hrun
      have hstep : (Party.inside t (.inner x k next)).step action i ⟨shared, some saved, rest, .held i 1⟩ =
          some (⟨s, some saved, rest, .held i 1⟩, .inside t (.innerReturned (k b) next)) := by
        simp only [Party.step, hx]
      exact ⟨_, _, hstep, .inside rfl (.innerReturned h hk), .inl ⟨rfl, rfl, rfl⟩⟩
    | error e s =>
      have he : body.run saved = .error e s := hrun.symm.trans (Effect.bind_of_error hx)
      have hstep : (Party.inside t (.inner x k next)).step action i ⟨shared, some saved, rest, .held i 1⟩ =
          some (⟨s, some saved, rest, .held i 1⟩, .inside t (.innerThrown e next)) := by
        simp only [Party.step, hx]
      exact ⟨_, _, hstep, .inside rfl (.innerThrown h he), .inl ⟨rfl, rfl, rfl⟩⟩
  | innerReturned h hrun => exact ⟨_, _, rfl, .inside rfl (.body h hrun), .inl ⟨rfl, rfl, rfl⟩⟩
  | innerThrown h hrun => exact ⟨_, _, rfl, .inside rfl (.rollback h hrun), .inl ⟨rfl, rfl, rfl⟩⟩
  | @rollback α body e next saved s h hrun =>
    have hperform := perform_transaction h saved rest
    rw [hrun] at hperform
    exact ⟨_, _, rfl, .inside rfl (.leave _), .inr ⟨rfl, hperform⟩⟩
  | leave t' => exact ⟨_, _, rfl, .ready rfl rfl, .inl ⟨rfl, rfl, rfl⟩⟩

/-- What a step of a party outside does: it waits, acts outside, or takes the free mutex. -/
theorem Party.step_ready (t : τ) (i : Nat) (m : Memory σ κ) :
    (∃ f, action t = .outside f ∧ (Party.ready t : Party ε σ τ).step action i m =
        some ({ m with rest := (f m.rest).1 }, .ready (f m.rest).2)) ∨
      ∃ (α : Type) (op : Op ε σ α) (next : Except ε α → τ), action t = .operation op next ∧
        (Party.ready t : Party ε σ τ).step action i m =
          (m.mutex.lock i).map fun mutex => ({ m with mutex }, .inside t (op.enter next)) := by
  cases h : action t with
  | outside f => exact .inl ⟨f, rfl, by simp only [Party.step, h]⟩
  | operation op next => exact .inr ⟨_, op, next, rfl, by simp only [Party.step, h]⟩

/-- The phase after the first lock fits. -/
theorem fits_enter {α : Type} {t : τ} {op : Op ε σ α} {next : Except ε α → τ} (h : action t = .operation op next)
    (shared : σ) : Phase.Fits action t shared none 0 (op.enter next) := by
  cases op with
  | statement x => exact .statement h
  | transaction body => exact .start h

theorem coarse_enter {α : Type} (t : τ) (op : Op ε σ α) (next : Except ε α → τ) :
    (Party.inside t (op.enter next)).coarse = t := by
  cases op <;> rfl

/-- A turn: nothing happens, or the party has moved. -/
theorem Fine.step_cases (s : Fine ε σ κ τ) (i : Nat) :
    (s.step action i = s ∧ (s.parties[i]? = none ∨ ∃ p, s.parties[i]? = some p ∧ p.step action i s.memory = none)) ∨
      ∃ p m' p', s.parties[i]? = some p ∧ p.step action i s.memory = some (m', p') ∧
        s.step action i = ⟨m', s.parties.set i p'⟩ := by
  unfold Fine.step
  cases hp : s.parties[i]? with
  | none => exact .inl ⟨rfl, .inl rfl⟩
  | some p =>
    cases hstep : p.step action i s.memory with
    | none => exact .inl ⟨by simp only [hstep], .inr ⟨p, rfl, hstep⟩⟩
    | some r => exact .inr ⟨p, r.1, r.2, rfl, hstep, by simp only [hstep]⟩

theorem set_map_of_getElem? {α β : Type*} (f : α → β) {l : List α} {i : Nat} {a b : α} (h : l[i]? = some a)
    (hab : f b = f a) : (l.set i b).map f = l.map f := by
  refine List.ext_getElem? fun j => ?_
  rw [List.getElem?_map, List.getElem?_map]
  by_cases hij : i = j
  · subst hij
    obtain ⟨hlt, -⟩ := List.getElem?_eq_some_iff.1 h
    rw [List.getElem?_set_self hlt, h]
    exact congrArg some hab
  · rw [List.getElem?_set_ne hij]

/-- A party's step in the coarse system. -/
theorem Refines.coarse {t : τ} {s : Fine ε σ κ τ} {i : Nat} {m' : Memory σ κ} {p p' : Party ε σ τ}
    (h : Refines action t s.memory m' p p') (hp : s.parties[i]? = some p) :
    (⟨m', s.parties.set i p'⟩ : Fine ε σ κ τ).coarse = s.coarse ∨
      (⟨m', s.parties.set i p'⟩ : Fine ε σ κ τ).coarse = s.coarse.step action i := by
  rcases h with ⟨hcommitted, hrest, hparty⟩ | ⟨hparty, hperform⟩
  · left
    unfold Fine.coarse
    rw [hcommitted, hrest, set_map_of_getElem? _ hp hparty]
  · right
    have ht : s.coarse.parties[i]? = some t := by
      show (s.parties.map Party.coarse)[i]? = some t
      rw [List.getElem?_map, hp, ← hparty]
      rfl
    unfold Coarse.step
    simp only [ht]
    show (⟨m'.committed, m'.rest, (s.parties.set i p').map Party.coarse⟩ : Coarse σ κ τ) = _
    rw [List.map_set]
    show _ = (⟨((action t).perform s.memory.committed s.memory.rest).1,
      ((action t).perform s.memory.committed s.memory.rest).2.1,
      (s.parties.map Party.coarse).set i ((action t).perform s.memory.committed s.memory.rest).2.2⟩ : Coarse σ κ τ)
    rw [hperform]

/-- The party that holds the mutex after its step is the only one in an operation. -/
theorem guarded_of_holds {parties : List (Party ε σ τ)} {i : Nat} {t : τ} {m' : Memory σ κ} {p p' : Party ε σ τ}
    (h : Holds action i t m' p') (hp : parties[i]? = some p)
    (hout : ∀ j q, j ≠ i → parties[j]? = some q → q.Outside) :
    (⟨m', parties.set i p'⟩ : Fine ε σ κ τ).Guarded action := by
  obtain ⟨hlt, -⟩ := List.getElem?_eq_some_iff.1 hp
  cases h with
  | inside hmutex hfits =>
    refine .held hmutex (List.getElem?_set_self hlt) hfits fun j q hj hq => hout j q hj ?_
    rwa [List.getElem?_set_ne (Ne.symm hj)] at hq
  | @ready t' hmutex hsaved =>
    refine .free hmutex hsaved fun q hq => ?_
    obtain ⟨j, hj⟩ := List.mem_iff_getElem?.1 hq
    by_cases hij : i = j
    · subst hij
      have hq' : some (Party.ready t') = some q := (List.getElem?_set_self hlt).symm.trans hj
      exact ⟨t', (Option.some.inj hq').symm⟩
    · exact hout j q (Ne.symm hij) (by rwa [List.getElem?_set_ne hij] at hj)

/-- Everybody else is outside when a party outside takes its step. -/
theorem Fine.Guarded.set_outside {s : Fine ε σ κ τ} (hs : s.Guarded action) {i : Nat} {t t' : τ} {m' : Memory σ κ}
    (hi : s.parties[i]? = some (.ready t)) (hmutex : m'.mutex = s.memory.mutex) (hsaved : m'.saved = s.memory.saved)
    (hshared : m'.shared = s.memory.shared) : (⟨m', s.parties.set i (.ready t')⟩ : Fine ε σ κ τ).Guarded action := by
  cases hs with
  | free hfree hnone hout =>
    refine .free (hmutex.trans hfree) (hsaved.trans hnone) fun p hp => ?_
    rcases List.mem_or_eq_of_mem_set hp with hp | rfl
    · exact hout p hp
    · exact ⟨t', rfl⟩
  | @held j again u phase hheld hj hfits hout =>
    have hij : i ≠ j := by
      rintro rfl
      rw [hi] at hj
      cases hj
    refine .held (hmutex.trans hheld) ((List.getElem?_set_ne hij).trans hj) ?_ fun k p hk hp => ?_
    · rw [hshared, hsaved]
      exact hfits
    · by_cases hik : i = k
      · subst hik
        obtain ⟨hlt, -⟩ := List.getElem?_eq_some_iff.1 hi
        have hp' : some (Party.ready t') = some p := (List.getElem?_set_self hlt).symm.trans hp
        exact ⟨t', (Option.some.inj hp').symm⟩
      · exact hout k p hk (by rwa [List.getElem?_set_ne hik] at hp)

/-- A turn keeps the invariant, and the coarse system does the same or does not move. -/
theorem Fine.Guarded.step {s : Fine ε σ κ τ} (hs : s.Guarded action) (i : Nat) :
    (s.step action i).Guarded action ∧
      ((s.step action i).coarse = s.coarse ∨ (s.step action i).coarse = s.coarse.step action i) := by
  rcases s.step_cases i with ⟨hsame, -⟩ | ⟨p, m', p', hp, hstep, hnext⟩
  · rw [hsame]
    exact ⟨hs, .inl rfl⟩
  rw [hnext]
  cases p with
  | ready t =>
    rcases Party.step_ready t i s.memory with ⟨f, haction, houtside⟩ | ⟨α, op, next, haction, hlock⟩
    · rw [houtside, Option.some.injEq, Prod.mk.injEq] at hstep
      obtain ⟨rfl, rfl⟩ := hstep
      have hrefines : Refines action t s.memory { s.memory with rest := (f s.memory.rest).1 }
          (.ready t) (.ready (f s.memory.rest).2) := by
        refine .inr ⟨rfl, ?_⟩
        rw [haction]
        rfl
      exact ⟨hs.set_outside hp rfl rfl rfl, hrefines.coarse hp⟩
    · rw [hlock] at hstep
      cases hs with
      | free hfree hnone hout =>
        rw [hfree, Mutex.lock_free] at hstep
        obtain ⟨rfl, rfl⟩ := Prod.mk.inj (Option.some.inj hstep)
        have hholds : Holds action i t { s.memory with mutex := .held i 0 } (.inside t (op.enter next)) := by
          refine .inside rfl ?_
          rw [hnone]
          exact fits_enter haction _
        have hrefines : Refines action t s.memory { s.memory with mutex := .held i 0 } (.ready t)
            (.inside t (op.enter next)) := .inl ⟨rfl, rfl, coarse_enter t op next⟩
        exact ⟨guarded_of_holds hholds hp fun j q _ hq => hout q (List.mem_of_getElem? hq), hrefines.coarse hp⟩
      | @held j again u phase hheld hj hfits hout =>
        have hij : j ≠ i := by
          rintro rfl
          rw [hp] at hj
          cases hj
        rw [hheld, Mutex.lock_of_ne hij] at hstep
        cases hstep
  | inside t phase =>
    cases hs with
    | free hfree hnone hout =>
      obtain ⟨t', ht'⟩ := hout _ (List.mem_of_getElem? hp)
      cases ht'
    | @held j again u phase' hheld hj hfits hout =>
      have hij : i = j := by
        by_contra hij
        obtain ⟨t', ht'⟩ := hout i _ hij hp
        cases ht'
      subst hij
      rw [hp, Option.some.injEq, Party.inside.injEq] at hj
      obtain ⟨rfl, rfl⟩ := hj
      obtain ⟨m₁, p₁, hstep₁, hholds, hrefines⟩ := hfits.step hheld
      rw [hstep, Option.some.injEq, Prod.mk.injEq] at hstep₁
      obtain ⟨rfl, rfl⟩ := hstep₁
      exact ⟨guarded_of_holds hholds hp hout, hrefines.coarse hp⟩

/-! ### Runs -/

variable (action)

theorem Fine.guarded_run {s : Fine ε σ κ τ} (hs : s.Guarded action) (sched : List Nat) :
    (s.run action sched).Guarded action :=
  Run.run_invariant (P := Fine.Guarded action) (Fine.step action) (fun _ i hs => (hs.step i).1) hs sched

/-- What the fine system has committed is what the coarse system does in some of the turns. -/
theorem Fine.run_simulates {s : Fine ε σ κ τ} (hs : s.Guarded action) (sched : List Nat) :
    ∃ turns, turns.Sublist sched ∧ (s.run action sched).coarse = Run.run (Coarse.step action) s.coarse turns := by
  induction sched generalizing s with
  | nil => exact ⟨[], .slnil, rfl⟩
  | cons i sched ih =>
    obtain ⟨hguarded, hcoarse⟩ := hs.step i
    obtain ⟨turns, hsub, hrun⟩ := ih hguarded
    rcases hcoarse with hsame | hstep
    · refine ⟨turns, hsub.cons i, ?_⟩
      rw [← hsame]
      exact hrun
    · refine ⟨i :: turns, hsub.cons_cons i, ?_⟩
      show _ = Run.run (Coarse.step action) (s.coarse.step action i) turns
      rw [← hstep]
      exact hrun

/-! ### Every party comes to its end -/

section Termination

variable (Final : τ → Prop)

/-- The places of the coarse system that can come after a place. -/
def Follows (t' t : τ) : Prop :=
  ¬ Final t ∧ ((∃ f c, action t = .outside f ∧ t' = (f c).2) ∨
    ∃ (α : Type) (op : Op ε σ α) (next : Except ε α → τ) (r : Except ε α), action t = .operation op next ∧ t' = next r)

/-- The party has come to its end. -/
def Party.AtEnd (p : Party ε σ τ) : Prop := ∃ t, p = .ready t ∧ Final t

/-- The small steps of a party that has not come to its end, on any memory. -/
def Moves (p' p : Party ε σ τ) : Prop :=
  ¬ p.AtEnd Final ∧ ∃ (i : Nat) (m m' : Memory σ κ), p.step action i m = some (m', p')

variable {action Final}

private theorem acc_inside {t : τ} {phase : Phase ε σ τ}
    (h : ∀ i m m' p', (Party.inside t phase).step action i m = some (m', p') → Acc (Moves action Final) p') :
    Acc (Moves action Final) (.inside t phase) := by
  refine Acc.intro _ fun p' hp => ?_
  obtain ⟨-, i, m, m', hstep⟩ := hp
  exact h i m m' p' hstep

theorem acc_leave {t' : τ} (h : Acc (Moves action Final) (.ready t')) (t : τ) :
    Acc (Moves action Final) (.inside t (.leave t')) := by
  refine acc_inside fun i m m' p' hstep => ?_
  cases hstep
  exact h

theorem acc_statement {α : Type} {next : Except ε α → τ} (h : ∀ r, Acc (Moves action Final) (.ready (next r))) (t : τ)
    (x : EStateM ε σ α) : Acc (Moves action Final) (.inside t (.statement x next)) := by
  refine acc_inside fun i m m' p' hstep => ?_
  unfold Party.step at hstep
  cases hx : x m.shared with
  | ok a s =>
    simp only [hx, Option.some.injEq, Prod.mk.injEq] at hstep
    obtain ⟨-, rfl⟩ := hstep
    exact acc_leave (h _) t
  | error e s =>
    simp only [hx, Option.some.injEq, Prod.mk.injEq] at hstep
    obtain ⟨-, rfl⟩ := hstep
    exact acc_leave (h _) t

theorem acc_rollback {α : Type} {next : Except ε α → τ} (h : ∀ r, Acc (Moves action Final) (.ready (next r))) (t : τ)
    (e : ε) : Acc (Moves action Final) (.inside t (.rollback e next)) := by
  refine acc_inside fun i m m' p' hstep => ?_
  cases hstep
  exact acc_leave (h _) t

/-- A transaction ends, whatever its statements return: induction on the script. -/
theorem acc_body {α : Type} {next : Except ε α → τ} (h : ∀ r, Acc (Moves action Final) (.ready (next r))) (t : τ)
    (todo : Script ε σ α) : Acc (Moves action Final) (.inside t (.body todo next)) := by
  induction todo with
  | done a =>
    refine acc_inside fun i m m' p' hstep => ?_
    cases hstep
    exact acc_leave (h _) t
  | throw e =>
    refine acc_inside fun i m m' p' hstep => ?_
    cases hstep
    exact acc_rollback h t e
  | exec x k ih =>
    refine acc_inside fun i m m' p' hstep => ?_
    obtain ⟨mutex, -, hmap⟩ := Option.map_eq_some_iff.1 hstep
    obtain ⟨-, rfl⟩ := Prod.mk.inj hmap
    refine acc_inside fun i m m' p' hstep => ?_
    unfold Party.step at hstep
    cases hx : x m.shared with
    | ok b s =>
      simp only [hx, Option.some.injEq, Prod.mk.injEq] at hstep
      obtain ⟨-, rfl⟩ := hstep
      refine acc_inside fun i m m' p' hstep => ?_
      cases hstep
      exact ih b
    | error e s =>
      simp only [hx, Option.some.injEq, Prod.mk.injEq] at hstep
      obtain ⟨-, rfl⟩ := hstep
      refine acc_inside fun i m m' p' hstep => ?_
      cases hstep
      exact acc_rollback h t e

/-- A party makes finitely many small steps when it passes finitely many places of the coarse system. -/
theorem acc_ready {t : τ} (ht : Acc (Follows action Final) t) :
    Acc (Moves action Final : Party ε σ τ → Party ε σ τ → Prop) (.ready t) := by
  induction ht with
  | intro t _ ih =>
    refine Acc.intro _ fun p' hp => ?_
    obtain ⟨hidle, i, m, m', hstep⟩ := hp
    have hnot : ¬ Final t := fun h => hidle ⟨t, rfl, h⟩
    rcases Party.step_ready t i m with ⟨f, haction, houtside⟩ | ⟨α, op, next, haction, hlock⟩
    · rw [houtside, Option.some.injEq, Prod.mk.injEq] at hstep
      obtain ⟨-, rfl⟩ := hstep
      exact ih _ ⟨hnot, .inl ⟨f, _, haction, rfl⟩⟩
    · rw [hlock] at hstep
      obtain ⟨mutex, -, hmap⟩ := Option.map_eq_some_iff.1 hstep
      obtain ⟨-, rfl⟩ := Prod.mk.inj hmap
      have hnext (r : Except ε α) : Acc (Moves action Final) (.ready (next r)) :=
        ih _ ⟨hnot, .inr ⟨α, op, next, r, haction, rfl⟩⟩
      cases op with
      | statement x => exact acc_statement hnext t x
      | transaction body =>
        refine acc_inside fun i m m' p' hstep => ?_
        cases hstep
        exact acc_body hnext t body

/-- The owner of the mutex can go on; if it is free, everybody can. -/
theorem Fine.Guarded.exists_move {s : Fine ε σ κ τ} (hs : s.Guarded action) {p : Party ε σ τ} (hp : p ∈ s.parties)
    (hidle : ¬ p.AtEnd Final) : ∃ i p m' p', s.parties[i]? = some p ∧ ¬ p.AtEnd Final ∧
      p.step action i s.memory = some (m', p') ∧ s.step action i = ⟨m', s.parties.set i p'⟩ := by
  have hmove {i : Nat} {p p' : Party ε σ τ} {m' : Memory σ κ} (hi : s.parties[i]? = some p)
      (hstep : p.step action i s.memory = some (m', p')) : s.step action i = ⟨m', s.parties.set i p'⟩ := by
    unfold Fine.step
    simp only [hi, hstep]
  cases hs with
  | free hfree hnone hout =>
    obtain ⟨i, hi⟩ := List.mem_iff_getElem?.1 hp
    obtain ⟨t, rfl⟩ := hout p hp
    rcases Party.step_ready t i s.memory with ⟨f, -, hstep⟩ | ⟨α, op, next, -, hstep⟩
    · exact ⟨i, _, _, _, hi, hidle, hstep, hmove hi hstep⟩
    · rw [hfree, Mutex.lock_free] at hstep
      exact ⟨i, _, _, _, hi, hidle, hstep, hmove hi hstep⟩
  | @held i again t phase hheld hi hfits hout =>
    obtain ⟨m', p', hstep, -, -⟩ := hfits.step hheld
    refine ⟨i, _, m', p', hi, ?_, hstep, hmove hi hstep⟩
    rintro ⟨t', ht', -⟩
    cases ht'

/-- When all parties have come to their end, the mutex is free and no transaction is open. -/
theorem Fine.Guarded.free_of_atEnd {s : Fine ε σ κ τ} (hs : s.Guarded action) (h : ∀ p ∈ s.parties, p.AtEnd Final) :
    s.memory.mutex = .free ∧ s.memory.saved = none := by
  cases hs with
  | free hfree hnone hout => exact ⟨hfree, hnone⟩
  | held hheld hi hfits hout =>
    obtain ⟨t, ht, -⟩ := h _ (List.mem_of_getElem? hi)
    cases ht

/-- The moves of the parties that have finitely many left. -/
def Down (action : τ → Action ε σ κ τ) (Final : τ → Prop) (p' p : Party ε σ τ) : Prop :=
  Moves action Final p' p ∧ Acc (Moves action Final) p

theorem wellFounded_down : WellFounded (Down action Final) := by
  refine ⟨fun p => Acc.intro p fun p' hp => ?_⟩
  have hacc := hp.2.inv hp.1
  clear hp
  induction hacc with
  | intro p' _ ih => exact Acc.intro p' fun q hq => ih q hq.1

/-- One party goes down, the others stay. -/
theorem cutExpand_set {parties : List (Party ε σ τ)} {i : Nat} {p p' : Party ε σ τ} (hi : parties[i]? = some p)
    (hgoes : Down action Final p' p) :
    Relation.CutExpand (Down action Final) (parties.set i p' : Multiset (Party ε σ τ)) parties := by
  obtain ⟨hlt, hget⟩ := List.getElem?_eq_some_iff.1 hi
  have hbefore : (parties : Multiset (Party ε σ τ)) = (parties.eraseIdx i : Multiset _) + {p} := by
    rw [← Multiset.coe_singleton, Multiset.coe_add, Multiset.coe_eq_coe, ← hget]
    exact (List.getElem_cons_eraseIdx_perm hlt).symm.trans (List.perm_append_singleton _ _).symm
  have hafter : (parties.set i p' : Multiset (Party ε σ τ)) = (parties.eraseIdx i : Multiset _) + {p'} := by
    rw [← Multiset.coe_singleton, Multiset.coe_add, Multiset.coe_eq_coe]
    exact (List.set_perm_cons_eraseIdx hlt p').trans (List.perm_append_singleton _ _).symm
  rw [hbefore, hafter]
  exact Relation.cutExpand_add_single _ hgoes

/-- The order in which the system goes down. -/
def Fine.Below (action : τ → Action ε σ κ τ) (Final : τ → Prop) (s' s : Fine ε σ κ τ) : Prop :=
  Relation.CutExpand (Down action Final) (s'.parties : Multiset (Party ε σ τ)) s.parties

theorem Fine.wellFounded_below : WellFounded (Fine.Below action Final : Fine ε σ κ τ → Fine ε σ κ τ → Prop) := by
  have hirrefl : Std.Irrefl (Down action Final) := ⟨wellFounded_down.irrefl.irrefl⟩
  exact InvImage.wf _ wellFounded_down.cutExpand

/-- A party at its end stays there. -/
theorem Fine.step_of_atEnd (hfinal : ∀ t, Final t → action t = .outside fun c => (c, t)) {s : Fine ε σ κ τ} {i : Nat}
    {p : Party ε σ τ} (hi : s.parties[i]? = some p) (hp : p.AtEnd Final) : s.step action i = s := by
  obtain ⟨t, rfl, ht⟩ := hp
  have hstep : (Party.ready t : Party ε σ τ).step action i s.memory = some (s.memory, .ready t) := by
    simp only [Party.step, hfinal t ht]
  obtain ⟨hlt, hget⟩ := List.getElem?_eq_some_iff.1 hi
  unfold Fine.step
  simp only [hi, hstep]
  rw [← hget, List.set_getElem_self]

/-- The invariant of `n` parties that have finitely many steps left each. -/
structure Fine.Live (action : τ → Action ε σ κ τ) (Final : τ → Prop) (n : Nat) (s : Fine ε σ κ τ) : Prop where
  guarded : s.Guarded action
  acc : ∀ p ∈ s.parties, Acc (Moves action Final) p
  length : s.parties.length = n

theorem Fine.Live.step (hfinal : ∀ t, Final t → action t = .outside fun c => (c, t)) {s : Fine ε σ κ τ} {n : Nat}
    (hs : s.Live action Final n) (i : Nat) :
    s.step action i = s ∨ ((s.step action i).Live action Final n ∧ Fine.Below action Final (s.step action i) s) := by
  rcases s.step_cases i with ⟨hsame, -⟩ | ⟨p, m', p', hi, hstep, hnext⟩
  · exact .inl hsame
  by_cases hp : p.AtEnd Final
  · exact .inl (Fine.step_of_atEnd hfinal hi hp)
  have hmoves : Moves action Final p' p := ⟨hp, i, _, m', hstep⟩
  have hacc := hs.acc p (List.mem_of_getElem? hi)
  refine .inr ⟨⟨(hs.guarded.step i).1, ?_, ?_⟩, ?_⟩
  · rw [hnext]
    intro q hq
    rcases List.mem_or_eq_of_mem_set hq with hq | rfl
    · exact hs.acc q hq
    · exact hacc.inv hmoves
  · rw [hnext, ← hs.length]
    exact List.length_set
  · rw [hnext]
    exact cutExpand_set hi ⟨hmoves, hacc⟩

/-- Under a fair schedule every party comes to its end, though nobody queues for the mutex: the others can keep a party
waiting only as long as they have steps left themselves. -/
theorem Fine.finishes (hfinal : ∀ t, Final t → action t = .outside fun c => (c, t)) {s : Fine ε σ κ τ} {n : Nat}
    (hs : s.Live action Final n) {sched : ℕ → ℕ} (hfair : Run.Fair (· < n) sched) :
    ∃ k, ∀ p ∈ (s.run action (Run.upTo sched k)).parties, p.AtEnd Final := by
  refine Run.exists_goal_of_fair (P := Fine.Live action Final n) (Q := fun s => ∀ p ∈ s.parties, p.AtEnd Final)
    (r := Fine.Below action Final) (fun s i hs => ?_) (fun s i hs => ?_) (fun s hs hgoal => ?_)
    (Fine.wellFounded_below.apply s) hs hfair
  · rcases hs.step hfinal i with hsame | ⟨hlive, -⟩
    · rwa [hsame]
    · exact hlive
  · exact (hs.step hfinal i).imp_right And.right
  · obtain ⟨p, hp, hnot⟩ : ∃ p ∈ s.parties, ¬ p.AtEnd Final := by
      by_contra hall
      exact hgoal fun p hp => by_contra fun hnot => hall ⟨p, hp, hnot⟩
    obtain ⟨i, q, m', q', hi, hq, hstep, hnext⟩ := hs.guarded.exists_move hp hnot
    obtain ⟨hlt, -⟩ := List.getElem?_eq_some_iff.1 hi
    refine ⟨i, hs.length ▸ hlt, ?_⟩
    rw [hnext]
    exact cutExpand_set hi ⟨⟨hq, i, _, m', hstep⟩, hs.acc q (List.mem_of_getElem? hi)⟩

end Termination

end Locked
