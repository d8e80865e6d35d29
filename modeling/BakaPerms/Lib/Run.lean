import Mathlib.Data.List.Infix
import Mathlib.Data.List.Range
import Mathlib.Tactic.Common

/-!
# Runs

A system that takes one input per step is run on a list of inputs: the calls made one after another, or the
schedule that says which of several parties moves next.  The states met in a run are those after the prefixes of
its inputs, and a property of all of them is proved by induction over the prefixes (`prefix_induction`).

An endless schedule is fair when every party comes again and again; `exists_goal_of_fair` is the rule for what such a
schedule must reach.
-/

namespace Run

variable {σ ι : Type*} (step : σ → ι → σ)

/-- The state after the inputs. -/
def run (s : σ) (is : List ι) : σ := is.foldl step s

@[simp] theorem run_nil (s : σ) : run step s [] = s := rfl

theorem run_append (s : σ) (is js : List ι) : run step s (is ++ js) = run step (run step s is) js :=
  List.foldl_append

theorem run_concat (s : σ) (is : List ι) (i : ι) : run step s (is ++ [i]) = step (run step s is) i := by
  rw [run_append]
  rfl

/-- What holds at the start of a run and is kept by each of its steps holds after every prefix. -/
theorem prefix_induction {P : List ι → Prop} {is : List ι} (h₀ : P [])
    (hs : ∀ τ i, τ ++ [i] <+: is → P τ → P (τ ++ [i])) {τ : List ι} (hτ : τ <+: is) : P τ := by
  induction τ using List.reverseRecOn with
  | nil => exact h₀
  | append_singleton τ i ih => exact hs τ i hτ (ih ((List.prefix_append τ [i]).trans hτ))

/-- A state property that every step keeps holds after every run. -/
theorem run_invariant {P : σ → Prop} (hs : ∀ s i, P s → P (step s i)) {s : σ} (h₀ : P s) (is : List ι) :
    P (run step s is) := by
  induction is generalizing s with
  | nil => exact h₀
  | cons i is ih => exact ih (hs s i h₀)

/-- Two systems that run on the same inputs stay related when each step keeps them so. -/
theorem run_simulation {τ : Type*} {step' : τ → ι → τ} {R : σ → τ → Prop}
    (hs : ∀ s t i, R s t → R (step s i) (step' t i)) {s : σ} {t : τ} (h₀ : R s t) (is : List ι) :
    R (run step s is) (run step' t is) := by
  induction is generalizing s t with
  | nil => exact h₀
  | cons i is ih => exact ih (hs s t i h₀)

/-- A state property that the steps of this run keep holds after each of its prefixes. -/
theorem run_invariant_on {P : σ → Prop} {s : σ} {is : List ι} (h₀ : P s)
    (hs : ∀ τ i, τ ++ [i] <+: is → P (run step s τ) → P (step (run step s τ) i)) {τ : List ι} (hτ : τ <+: is) :
    P (run step s τ) := by
  refine prefix_induction (P := fun τ => P (run step s τ)) h₀ (fun τ i hτ ih => ?_) hτ
  rw [run_concat]
  exact hs τ i hτ ih

/-! ### The log of a run -/

/-- What the steps of a run put down, in their order. -/
def log {ω : Type*} (emit : σ → ι → List ω) : σ → List ι → List ω
  | _, [] => []
  | s, i :: is => emit s i ++ log emit (step s i) is

theorem log_append {ω : Type*} (emit : σ → ι → List ω) (s : σ) (is js : List ι) :
    log step emit s (is ++ js) = log step emit s is ++ log step emit (run step s is) js := by
  induction is generalizing s with
  | nil => rfl
  | cons i is ih =>
    show emit s i ++ log step emit (step s i) (is ++ js) = _
    rw [ih, ← List.append_assoc]
    rfl

theorem log_concat {ω : Type*} (emit : σ → ι → List ω) (s : σ) (is : List ι) (i : ι) :
    log step emit s (is ++ [i]) = log step emit s is ++ emit (run step s is) i := by
  rw [log_append]
  exact congrArg _ (List.append_nil _)

/-! ### Fair schedules -/

/-- The first inputs of an endless schedule. -/
def upTo (sched : ℕ → ι) (n : ℕ) : List ι := (List.range n).map sched

theorem upTo_succ (sched : ℕ → ι) (n : ℕ) : upTo sched (n + 1) = upTo sched n ++ [sched n] := by
  unfold upTo
  rw [List.range_succ, List.map_append]
  rfl

theorem upTo_add (sched : ℕ → ι) (n k : ℕ) :
    upTo sched (n + k) = upTo sched n ++ upTo (fun j => sched (n + j)) k := by
  induction k with
  | zero => exact (List.append_nil _).symm
  | succ k ih => rw [← Nat.add_assoc, upTo_succ, ih, upTo_succ, List.append_assoc]

/-- The inputs in question come again and again. -/
def Fair (A : ι → Prop) (sched : ℕ → ι) : Prop := ∀ i, A i → ∀ n, ∃ k, n ≤ k ∧ sched k = i

variable {step}

/-- Every step does nothing or goes down, so the first step that does something goes down. -/
theorem descends_or_stays {r : σ → σ → Prop} {s : σ} (hstep : ∀ i, step s i = s ∨ r (step s i) s) (sched : ℕ → ι)
    (k : ℕ) : run step s (upTo sched k) = s ∨
      ∃ n < k, run step s (upTo sched n) = s ∧ r (run step s (upTo sched (n + 1))) s := by
  induction k with
  | zero => exact .inl rfl
  | succ k ih =>
    rcases ih with hstays | ⟨n, hn, h⟩
    · rcases hstep (sched k) with hsame | hdown
      · left
        rw [upTo_succ, run_concat, hstays, hsame]
      · refine .inr ⟨k, Nat.lt_succ_self k, hstays, ?_⟩
        rw [upTo_succ, run_concat, hstays]
        exact hdown
    · exact .inr ⟨n, Nat.lt_succ_of_lt hn, h⟩

/-- A fair schedule reaches the goal `Q` when every step does nothing or goes down, and short of the goal there is
always an input that makes a step. -/
theorem exists_goal_of_fair {r : σ → σ → Prop} {P Q : σ → Prop} {A : ι → Prop}
    (hinv : ∀ s i, P s → P (step s i)) (hstep : ∀ s i, P s → step s i = s ∨ r (step s i) s)
    (hhelp : ∀ s, P s → ¬ Q s → ∃ i, A i ∧ r (step s i) s) {s : σ} (hacc : Acc r s) (hs : P s)
    {sched : ℕ → ι} (hfair : Fair A sched) : ∃ n, Q (run step s (upTo sched n)) := by
  induction hacc generalizing sched with
  | intro s _ ih =>
    by_cases hgoal : Q s
    · exact ⟨0, hgoal⟩
    obtain ⟨i, hi, hdown⟩ := hhelp s hs hgoal
    obtain ⟨k, -, rfl⟩ := hfair i hi 0
    have hfirst : ∃ n, r (run step s (upTo sched (n + 1))) s := by
      rcases descends_or_stays (fun i => hstep s i hs) sched k with hstays | ⟨n, -, -, h⟩
      · refine ⟨k, ?_⟩
        rw [upTo_succ, run_concat, hstays]
        exact hdown
      · exact ⟨n, h⟩
    obtain ⟨n, hn⟩ := hfirst
    have hfair' : Fair A fun j => sched (n + 1 + j) := by
      intro i hi j
      obtain ⟨k, hk, rfl⟩ := hfair i hi (n + 1 + j)
      exact ⟨k - (n + 1), by omega, congrArg sched (by omega)⟩
    obtain ⟨n', hn'⟩ := ih _ hn (run_invariant step hinv hs _) hfair'
    refine ⟨n + 1 + n', ?_⟩
    rwa [upTo_add, run_append]

end Run
