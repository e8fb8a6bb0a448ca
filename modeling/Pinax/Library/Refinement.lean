import Mathlib.Logic.Basic

/-! # Sequences of calls that refine an abstract machine

An implementation is a call on a representation that may fail, one for every mode `ι` it is built
in, with a precondition.  `Simulates` says that on related states the precondition is one of the
abstract state, and that a call that meets it succeeds, in every mode with the same result, and does
what `spec` does.  Both carry over from one call to every sequence of calls.
-/

namespace Refinement

variable {Op σ τ ε ι : Type}

/-- Each call of a sequence meets its precondition in the state it is made in. -/
def Obeys (pre : σ → Op → Prop) (call : σ → Op → Except ε σ) : σ → List Op → Prop
  | _, [] => True
  | s, op :: ops => pre s op ∧ ∀ s', call s op = .ok s' → Obeys pre call s' ops

/-- Each operation of a sequence is admitted by the abstract state it is applied to. -/
def Admits (admits : τ → Op → Prop) (spec : τ → Op → τ) : τ → List Op → Prop
  | _, [] => True
  | a, op :: ops => admits a op ∧ Admits admits spec (spec a op) ops

instance Admits.decidable {admits : τ → Op → Prop} {spec : τ → Op → τ} [∀ a op, Decidable (admits a op)] :
    ∀ a ops, Decidable (Admits admits spec a ops)
  | _, [] => inferInstanceAs (Decidable True)
  | a, op :: ops =>
    have : Decidable (Admits admits spec (spec a op) ops) := Admits.decidable _ _
    inferInstanceAs (Decidable (_ ∧ _))

structure Simulates (rep : σ → τ → Prop) (pre : ι → σ → Op → Prop) (call : ι → σ → Op → Except ε σ)
    (admits : τ → Op → Prop) (spec : τ → Op → τ) : Prop where
  pre_iff : ∀ {s a}, rep s a → ∀ mode op, pre mode s op ↔ admits a op
  step : ∀ {s a op}, rep s a → admits a op → ∃ s', (∀ mode, call mode s op = .ok s') ∧ rep s' (spec a op)

namespace Simulates

variable {rep : σ → τ → Prop} {pre : ι → σ → Op → Prop} {call : ι → σ → Op → Except ε σ}
  {admits : τ → Op → Prop} {spec : τ → Op → τ} {s : σ} {a : τ} {ops : List Op}

/-- Every call of an admitted sequence succeeds. -/
theorem run (h : Simulates rep pre call admits spec) (related : rep s a)
    (admitted : Admits admits spec a ops) :
    ∃ s', (∀ mode, ops.foldlM (call mode) s = .ok s') ∧ rep s' (ops.foldl spec a) := by
  induction ops generalizing s a with
  | nil => exact ⟨s, fun _ => rfl, related⟩
  | cons op ops ih =>
    obtain ⟨s₁, first, related₁⟩ := h.step related admitted.1
    obtain ⟨s₂, rest, related₂⟩ := ih related₁ admitted.2
    refine ⟨s₂, fun mode => ?_, related₂⟩
    rw [List.foldlM_cons, first mode]
    exact rest mode

/-- Whether a sequence meets its preconditions is seen in the abstract machine. -/
theorem obeys_iff (h : Simulates rep pre call admits spec) (mode : ι) (related : rep s a) :
    Obeys (pre mode) (call mode) s ops ↔ Admits admits spec a ops := by
  induction ops generalizing s a with
  | nil => exact Iff.rfl
  | cons op ops ih =>
    rw [Obeys, Admits, h.pre_iff related mode op]
    refine and_congr_right fun admitted => ?_
    obtain ⟨s₁, first, related₁⟩ := h.step related admitted
    rw [← ih related₁]
    refine ⟨fun rest => rest s₁ (first mode), fun rest s₂ second => ?_⟩
    obtain rfl := Except.ok.inj ((first mode).symm.trans second)
    exact rest

end Simulates

end Refinement
