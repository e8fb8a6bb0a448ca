import Mathlib.Algebra.Order.BigOperators.Group.List
import Mathlib.Algebra.Order.Ring.Nat

/-! # Packing

When a list of weights that is cut in two by the number of its elements gives parts that fit where
all the weights but one did.
-/

namespace Packing

variable {least most room : Nat}

/-- Weights between `least` and `most` that fit `room` still do when another one comes and half of
them leave: the other half is heavy enough to make up for it, or there are never two of them. -/
def Balanced (least most room : Nat) : Prop := most ≤ room / most * least ∨ room < 2 * least

instance : Decidable (Balanced least most room) := by
  unfold Balanced
  infer_instance

theorem sum_le {l : List Nat} (light : ∀ w ∈ l, w ≤ most) : l.sum ≤ l.length * most :=
  List.sum_le_card_nsmul l most light

theorem le_sum {l : List Nat} (heavy : ∀ w ∈ l, least ≤ w) : l.length * least ≤ l.sum :=
  List.card_nsmul_le_sum l least heavy

/-- A part with at most one weight more than the other. -/
theorem Balanced.part_le (balanced : Balanced least most room) (one : most ≤ room)
    {part other rest : List Nat} {w : Nat} (all : (part ++ other).Perm (w :: rest))
    (range : ∀ w' ∈ w :: rest, least ≤ w' ∧ w' ≤ most) (fits : rest.sum ≤ room)
    (length : part.length ≤ other.length + 1) : part.sum ≤ room := by
  have inPart : ∀ w' ∈ part, w' ≤ most :=
    fun w' member => (range w' (all.subset (List.mem_append_left _ member))).2
  have inOther : ∀ w' ∈ other, least ≤ w' :=
    fun w' member => (range w' (all.subset (List.mem_append_right _ member))).1
  have sum := all.sum_eq
  have count := all.length_eq
  simp only [List.sum_append, List.sum_cons, List.length_append, List.length_cons] at sum count
  have light := sum_le inPart
  by_cases few : part.length ≤ room / most
  · exact light.trans ((Nat.mul_le_mul_right most few).trans (Nat.div_mul_le_self room most))
  · cases balanced with
    | inl even =>
      have heavy :=
        Nat.le_trans (Nat.mul_le_mul_right least (show room / most ≤ other.length by omega))
          (le_sum inOther)
      have new := (range w List.mem_cons_self).2
      omega
    | inr single =>
      -- two weights of `rest` would not fit
      have heavy := le_sum fun w' member => (range w' (List.mem_cons_of_mem w member)).1
      have none : rest.length ≤ 1 := by
        by_contra more
        have := Nat.mul_le_mul_right least (show 2 ≤ rest.length by omega)
        omega
      have := Nat.mul_le_mul_right most (show part.length ≤ 1 by omega)
      omega

/-- There are `k` weights in the range with any sum that their number admits. -/
theorem exists_sum (ordered : least ≤ most) (k : Nat) {total : Nat} (low : k * least ≤ total)
    (high : total ≤ k * most) :
    ∃ l : List Nat, l.length = k ∧ l.sum = total ∧ ∀ w ∈ l, least ≤ w ∧ w ≤ most := by
  induction k generalizing total with
  | zero =>
    exact ⟨[], rfl, by simp only [List.sum_nil]; omega, fun w none => absurd none List.not_mem_nil⟩
  | succ k ih =>
    rw [Nat.succ_mul] at low high
    have between : k * least ≤ k * most := Nat.mul_le_mul_left k ordered
    let w := max least (total - k * most)
    obtain ⟨l, length, sum, range⟩ := @ih (total - w) (by omega) (by omega)
    refine ⟨w :: l, by rw [List.length_cons, length], by rw [List.sum_cons, sum]; omega,
      fun w' member => ?_⟩
    cases List.mem_cons.mp member with
    | inl here => omega
    | inr later => exact range w' later

/-- Where `Balanced` fails, some weights fit, but not those behind the middle with another one. -/
theorem exists_unbalanced (unbalanced : ¬ Balanced least most room) (ordered : least ≤ most)
    (one : most ≤ room) (some : 0 < most) :
    ∃ before after : List Nat, before.length = after.length ∧
      (∀ w ∈ before ++ after, least ≤ w ∧ w ≤ most) ∧
      before.sum + after.sum ≤ room ∧ room < most + after.sum := by
  let k := room / most
  obtain ⟨light, two⟩ := not_or.mp unbalanced
  have light : k * least < most := Nat.lt_of_not_le light
  have two : 2 * least ≤ room := Nat.le_of_not_lt two
  have positive : 1 ≤ k := Nat.div_pos one some
  have full : k * most ≤ room := Nat.div_mul_le_self room most
  have beyond : room < k * most + most := by
    have := Nat.lt_mul_div_succ room some
    rw [Nat.mul_succ, Nat.mul_comm] at this
    exact this
  have between : k * least ≤ k * most := Nat.mul_le_mul_left k ordered
  have twice : 2 * (k * least) ≤ room := by
    by_cases single : k = 1
    · rw [single, Nat.one_mul]
      exact two
    · have := Nat.mul_le_mul_right most (show 2 ≤ k by omega)
      omega
  obtain ⟨before, length, sum, range⟩ := exists_sum ordered k (le_refl (k * least)) between
  obtain ⟨after, length', sum', range'⟩ :=
    exists_sum ordered k (le_max_left (k * least) (room + 1 - most))
    (max_le between (by omega))
  refine ⟨before, after, length.trans length'.symm, fun w member => ?_, ?_, ?_⟩
  · cases List.mem_append.mp member with
    | inl first => exact range w first
    | inr second => exact range' w second
  · rw [sum, sum']
    omega
  · rw [sum']
    omega

end Packing
