/-
Finite runs of a guarded transition system (`Pegasus.Lib.Run`).

A system is given by a step function: `step s e` is the state after the event `e`,
or `none` when `e` is not possible in `s`. A run is a list of events, each possible
where it is taken.

* `run_invariant`: what every step preserves holds after every run.
* `run_invariant_of_steps`: the same for runs all of whose steps meet a condition.
* `run_invariant_of_mem`: the same for what speaks of the events of the run.
* `run_length_le_of_steps`, `run_length_le`: a measure that steps use up bounds the length of runs.
* `exists_run_until`: a measure that some step can always decrease is run down.
-/

import Mathlib

namespace TransitionSystem

variable {σ ε : Type} (step : σ → ε → Option σ)

/-- The state after a list of events, if each was possible. -/
def run : σ → List ε → Option σ
  | s, [] => some s
  | s, e :: es => (step s e).bind fun s' => run s' es

/-- Every event of a run meets a condition in the state it is taken in. -/
def StepsMeet (C : σ → ε → Prop) : σ → List ε → Prop
  | _, [] => True
  | s, e :: es => C s e ∧ ∀ s', step s e = some s' → StepsMeet C s' es

/-- No event is possible. -/
def Quiescent (s : σ) : Prop := ∀ e, step s e = none

variable {step}

variable {s t s' : σ} {e : ε} {es : List ε} {I : σ → Prop} {C : σ → ε → Prop} {μ : σ → Nat}
  {cost : ε → Nat}

theorem of_guard {p : Prop} [Decidable p] (h : (if p then some s else none) = some t) :
    p ∧ s = t := by
  simpa using h

@[simp] theorem run_nil (s : σ) : run step s [] = some s := rfl

theorem run_cons_eq_some :
    run step s (e :: es) = some t ↔ ∃ s', step s e = some s' ∧ run step s' es = some t :=
  Option.bind_eq_some_iff

theorem run_append {es fs : List ε} :
    run step s (es ++ fs) = (run step s es).bind fun s' => run step s' fs := by
  induction es generalizing s with
  | nil => rfl
  | cons e es ih => simp only [List.cons_append, run, Option.bind_assoc, ih]

/-- **Invariants.** What every step preserves holds after every run. -/
theorem run_invariant (hstep : ∀ s e s', step s e = some s' → I s → I s')
    (hrun : run step s es = some t) (hs : I s) : I t := by
  induction es generalizing s with
  | nil => exact Option.some.inj hrun ▸ hs
  | cons e es ih =>
    obtain ⟨s', he, hes⟩ := run_cons_eq_some.mp hrun
    exact ih hes (hstep s e s' he hs)

/-- **Invariants under a condition.** What the steps that meet `C` preserve holds after
every run all of whose steps meet `C`. -/
theorem run_invariant_of_steps (hstep : ∀ s e s', step s e = some s' → C s e → I s → I s')
    (hrun : run step s es = some t) (hmeet : StepsMeet step C s es) (hs : I s) : I t := by
  induction es generalizing s with
  | nil => exact Option.some.inj hrun ▸ hs
  | cons e es ih =>
    obtain ⟨s', he, hes⟩ := run_cons_eq_some.mp hrun
    exact ih hes (hmeet.2 s' he) (hstep s e s' he hmeet.1 hs)

/-- **Runs under a condition exist.** If every step that meets `C` is possible and preserves `I`, so
is every run all of whose steps meet `C`. -/
theorem exists_run_of_steps (hstep : ∀ s e, C s e → I s → ∃ s', step s e = some s' ∧ I s')
    (hmeet : StepsMeet step C s es) (hs : I s) : ∃ t, run step s es = some t ∧ I t := by
  induction es generalizing s with
  | nil => exact ⟨s, rfl, hs⟩
  | cons e es ih =>
    obtain ⟨s', he, hs'⟩ := hstep s e hmeet.1 hs
    obtain ⟨t, hrun, ht⟩ := ih (hmeet.2 s' he) hs'
    exact ⟨t, run_cons_eq_some.mpr ⟨s', he, hrun⟩, ht⟩

theorem stepsMeet_of_forall (h : ∀ e ∈ es, ∀ s, C s e) (s : σ) : StepsMeet step C s es := by
  induction es generalizing s with
  | nil => trivial
  | cons e es ih =>
    exact ⟨h e List.mem_cons_self s,
      fun s' _ => ih (fun e he => h e (List.mem_cons_of_mem _ he)) s'⟩

/-- **Invariants of one list of events.** It is enough that the events of the run preserve it. -/
theorem run_invariant_of_mem (hstep : ∀ s s', ∀ e ∈ es, step s e = some s' → I s → I s')
    (hrun : run step s es = some t) (hs : I s) : I t :=
  run_invariant_of_steps (C := fun _ e => e ∈ es) (fun s e s' he hmem => hstep s s' e hmem he) hrun
    (stepsMeet_of_forall (fun _ he _ => he) s) hs

theorem stepsMeet_and {C D : σ → ε → Prop} (hC : StepsMeet step C s es)
    (hD : StepsMeet step D s es) :
    StepsMeet step (fun s e => C s e ∧ D s e) s es := by
  induction es generalizing s with
  | nil => trivial
  | cons e es ih => exact ⟨⟨hC.1, hD.1⟩, fun s' he => ih (hC.2 s' he) (hD.2 s' he)⟩

theorem stepsMeet_cons (hC : C s e) (hstep : step s e = some s') (hrest : StepsMeet step C s' es) :
    StepsMeet step C s (e :: es) := by
  refine ⟨hC, fun t ht => ?_⟩
  obtain rfl := Option.some.inj (hstep.symm.trans ht)
  exact hrest

theorem stepsMeet_cons_of_none (hstep : step s e = none) :
    C s e ↔ StepsMeet step C s (e :: es) := by
  constructor
  · intro hC
    refine ⟨hC, ?_⟩
    intro s' hs'
    cases hstep.symm.trans hs'
  · intro h
    exact h.1

theorem stepsMeet_cons_of_some (hstep : step s e = some s') :
    C s e ∧ StepsMeet step C s' es ↔ StepsMeet step C s (e :: es) := by
  constructor
  · intro h
    exact stepsMeet_cons h.1 hstep h.2
  · intro h
    exact ⟨h.1, h.2 s' hstep⟩

instance StepsMeet.instDecidable {C : σ → ε → Prop} [∀ s e, Decidable (C s e)] :
    ∀ (s : σ) (es : List ε), Decidable (StepsMeet step C s es)
  | _, [] => isTrue trivial
  | s, e :: es =>
    match h : step s e with
    | none => decidable_of_iff _ (stepsMeet_cons_of_none h)
    | some s' =>
      have : Decidable (StepsMeet step C s' es) := instDecidable s' es
      decidable_of_iff _ (stepsMeet_cons_of_some h)

/-- **Bounded runs under a condition.** If a step that meets `C` uses up one unit of the measure,
apart from what its event costs, the measure and the costs bound the length of a run. -/
theorem run_length_le_of_steps (hI : ∀ s e s', step s e = some s' → C s e → I s → I s')
    (hμ : ∀ s e s', step s e = some s' → C s e → I s → μ s' + 1 ≤ μ s + cost e)
    (hrun : run step s es = some t) (hmeet : StepsMeet step C s es) (hs : I s) :
    es.length + μ t ≤ μ s + (es.map cost).sum := by
  induction es generalizing s with
  | nil =>
    cases Option.some.inj hrun
    simp
  | cons e es ih =>
    obtain ⟨s', he, hes⟩ := run_cons_eq_some.mp hrun
    have hrest := ih hes (hmeet.2 s' he) (hI s e s' he hmeet.1 hs)
    have hone := hμ s e s' he hmeet.1 hs
    simp only [List.length_cons, List.map_cons, List.sum_cons]
    omega

/-- **Bounded runs.** The same for runs whose steps need not meet a condition. -/
theorem run_length_le (hI : ∀ s e s', step s e = some s' → I s → I s')
    (hμ : ∀ s e s', step s e = some s' → I s → μ s' + 1 ≤ μ s + cost e)
    (hrun : run step s es = some t) (hs : I s) : es.length + μ t ≤ μ s + (es.map cost).sum :=
  run_length_le_of_steps (C := fun _ _ => True) (fun s e s' he _ => hI s e s' he)
    (fun s e s' he _ => hμ s e s' he) hrun (stepsMeet_of_forall (fun _ _ _ => trivial) s) hs

/-- **Reaching a goal.** If every state that satisfies the invariant has reached the goal
or has a step that decreases the measure, some run reaches the goal. -/
theorem exists_run_until {I Q : σ → Prop} (μ : σ → Nat)
    (hI : ∀ s e s', step s e = some s' → I s → I s')
    (hprog : ∀ s, I s → Q s ∨ ∃ e s', step s e = some s' ∧ μ s' < μ s) (hs : I s) :
    ∃ es t, run step s es = some t ∧ Q t := by
  induction hn : μ s using Nat.strongRecOn generalizing s with
  | ind n ih =>
    rcases hprog s hs with hQ | ⟨e, s', he, hlt⟩
    · exact ⟨[], s, rfl, hQ⟩
    · obtain ⟨es, t, hes, hQ⟩ := ih (μ s') (hn ▸ hlt) (hI s e s' he hs) rfl
      exact ⟨e :: es, t, run_cons_eq_some.mpr ⟨s', he, hes⟩, hQ⟩

end TransitionSystem
