import Mathlib.Logic.Basic

/-! # Traces of labelled transition systems

A `Machine` shows a label with every step.  `Trace` are the sequences of labels it can show, and a
forward simulation carries them over to another machine.
-/

namespace Simulation

variable {σ τ Label : Type}

structure Machine (σ Label : Type) where
  start : σ → Prop
  step : σ → Label → σ → Prop

namespace Machine

/-- The labels shown on the way to a state. -/
inductive Trace (M : Machine σ Label) : List Label → σ → Prop
  | start {s : σ} (starts : M.start s) : Trace M [] s
  | step {labels : List Label} {s s' : σ} {label : Label} (before : Trace M labels s)
      (step : M.step s label s') :
      Trace M (labels ++ [label]) s'

variable {M : Machine σ Label} {N : Machine τ Label} {labels : List Label} {s : σ}

/-- The last step of a trace. -/
theorem Trace.last {label : Label} (trace : M.Trace (labels ++ [label]) s) :
    ∃ s₀, M.Trace labels s₀ ∧ M.step s₀ label s := by
  generalize shown : labels ++ [label] = all at trace
  cases trace with
  | start starts =>
    exact absurd shown (List.append_ne_nil_of_right_ne_nil labels (List.cons_ne_nil label []))
  | step before step =>
    obtain ⟨rfl, rfl⟩ := List.append_singleton_inj.mp shown
    exact ⟨_, before, step⟩

/-- What holds of the labels and the state at the start, and is kept by each step. -/
structure Invariant (M : Machine σ Label) (I : List Label → σ → Prop) : Prop where
  start : ∀ {s}, M.start s → I [] s
  step : ∀ {labels s label s'}, I labels s → M.step s label s' → I (labels ++ [label]) s'

theorem Invariant.trace {I : List Label → σ → Prop} (kept : M.Invariant I)
    (trace : M.Trace labels s) : I labels s := by
  induction trace with
  | start starts => exact kept.start starts
  | step _ step ih => exact kept.step ih step

/-- Every step of `M` is one of `N` with the same label, on related states. -/
structure Simulates (M : Machine σ Label) (N : Machine τ Label) (R : σ → τ → Prop) : Prop where
  start : ∀ {s}, M.start s → ∃ t, N.start t ∧ R s t
  step : ∀ {s t label s'}, R s t → M.step s label s' → ∃ t', N.step t label t' ∧ R s' t'

/-- `N` shows what `M` shows. -/
theorem Simulates.trace {R : σ → τ → Prop} (simulates : M.Simulates N R) (trace : M.Trace labels s) :
    ∃ t, N.Trace labels t ∧ R s t := by
  induction trace with
  | start starts =>
    obtain ⟨t, starts', related⟩ := simulates.start starts
    exact ⟨t, .start starts', related⟩
  | step _ step ih =>
    obtain ⟨t, before, related⟩ := ih
    obtain ⟨t', step', related'⟩ := simulates.step related step
    exact ⟨t', .step before step', related'⟩

end Machine

end Simulation
