import Mathlib.Data.List.Basic

/-! # Slices of a list and overwriting a range in place

`slice l at n` is the window of `n` elements at offset `off`, `overwrite l off xs` replaces the
window at `off` by `xs`.  A buffer is described by its slices: the lemmas below say which slices a
write changes and which it leaves alone, so that a layout proof is offset arithmetic only.
-/

namespace Slice

variable {α : Type}

def slice (l : List α) (off n : Nat) : List α := (l.drop off).take n

def overwrite (l : List α) (off : Nat) (xs : List α) : List α :=
  l.take off ++ xs ++ l.drop (off + xs.length)

@[simp] theorem length_slice (l : List α) (off n : Nat) :
    (slice l off n).length = min n (l.length - off) := by
  simp [slice]

theorem length_slice_of_le {l : List α} {off n : Nat} (bound : off + n ≤ l.length) :
    (slice l off n).length = n := by
  rw [length_slice]; omega

theorem length_overwrite {l : List α} {off : Nat} {xs : List α}
    (bound : off + xs.length ≤ l.length) : (overwrite l off xs).length = l.length := by
  simp only [overwrite, List.length_append, List.length_take, List.length_drop]
  omega

@[simp] theorem slice_zero (l : List α) (off : Nat) : slice l off 0 = [] := by simp [slice]

@[simp] theorem slice_full (l : List α) : slice l 0 l.length = l := by simp [slice]

theorem slice_eq_take (l : List α) (n : Nat) : slice l 0 n = l.take n := by simp [slice]

theorem getElem?_slice (l : List α) (off n i : Nat) :
    (slice l off n)[i]? = if i < n then l[off + i]? else none := by
  simp only [slice, List.getElem?_take, List.getElem?_drop]

theorem getElem?_overwrite {l : List α} {off : Nat} {xs : List α}
    (bound : off + xs.length ≤ l.length) (i : Nat) :
    (overwrite l off xs)[i]? =
      if off ≤ i ∧ i < off + xs.length then xs[i - off]? else l[i]? := by
  have takeLength : (l.take off).length = off := by simp only [List.length_take]; omega
  unfold overwrite
  by_cases low : i < off
  · rw [List.append_assoc, List.getElem?_append_left (by omega), if_neg (by omega),
      List.getElem?_take_of_lt low]
  · by_cases high : i < off + xs.length
    · rw [List.getElem?_append_left (by simp only [List.length_append]; omega),
        List.getElem?_append_right (by omega), takeLength, if_pos ⟨by omega, high⟩]
    · rw [List.getElem?_append_right (by simp only [List.length_append]; omega),
        List.getElem?_drop, if_neg (by omega)]
      simp only [List.length_append, takeLength]
      congr 1
      omega

/-- A write leaves every window disjoint from it alone. -/
theorem slice_overwrite_disjoint {l : List α} {off : Nat} {xs : List α}
    (bound : off + xs.length ≤ l.length) {at' n : Nat}
    (disjoint : at' + n ≤ off ∨ off + xs.length ≤ at') :
    slice (overwrite l off xs) at' n = slice l at' n := by
  apply List.ext_getElem?
  intro i
  rw [getElem?_slice, getElem?_slice, getElem?_overwrite bound]
  by_cases inside : i < n
  · rw [if_pos inside, if_pos inside, if_neg (by omega)]
  · rw [if_neg inside, if_neg inside]

/-- A window read inside a write. -/
theorem slice_overwrite_inside {l : List α} {off : Nat} {xs : List α}
    (bound : off + xs.length ≤ l.length) {at' n : Nat}
    (low : off ≤ at') (high : at' + n ≤ off + xs.length) :
    slice (overwrite l off xs) at' n = slice xs (at' - off) n := by
  apply List.ext_getElem?
  intro i
  rw [getElem?_slice, getElem?_slice, getElem?_overwrite bound]
  by_cases inside : i < n
  · rw [if_pos inside, if_pos inside, if_pos ⟨by omega, by omega⟩]
    congr 1
    omega
  · rw [if_neg inside, if_neg inside]

theorem slice_slice (l : List α) {off n at' m : Nat} (inside : at' + m ≤ n) :
    slice (slice l off n) at' m = slice l (off + at') m := by
  apply List.ext_getElem?
  intro i
  simp only [getElem?_slice]
  by_cases bound : i < m
  · rw [if_pos bound, if_pos bound, if_pos (by omega), Nat.add_assoc]
  · rw [if_neg bound, if_neg bound]

/-- A write inside a window, seen through the window. -/
theorem slice_overwrite_window {l : List α} {off n at' : Nat} {xs : List α} (bound : off + n ≤ l.length)
    (inside : at' + xs.length ≤ n) :
    slice (overwrite l (off + at') xs) off n = overwrite (slice l off n) at' xs := by
  have room : off + at' + xs.length ≤ l.length := by omega
  have len : (slice l off n).length = n := length_slice_of_le bound
  apply List.ext_getElem?
  intro i
  rw [getElem?_slice, getElem?_overwrite room, getElem?_overwrite (by rw [len]; exact inside),
    getElem?_slice]
  by_cases within : i < n
  · rw [if_pos within, if_pos within]
    by_cases written : at' ≤ i ∧ i < at' + xs.length
    · rw [if_pos written, if_pos (by omega), show off + i - (off + at') = i - at' by omega]
    · rw [if_neg written, if_neg (by omega)]
  · rw [if_neg within, if_neg within, if_neg (by omega)]

theorem slice_take (l : List α) {off n k : Nat} (bound : off + n ≤ k) :
    slice (l.take k) off n = slice l off n := by
  apply List.ext_getElem?
  intro i
  simp only [getElem?_slice, List.getElem?_take]
  by_cases inside : i < n
  · rw [if_pos inside, if_pos inside, if_pos (by omega)]
  · rw [if_neg inside, if_neg inside]

theorem slice_append_right {xs ys : List α} {off n : Nat} (past : xs.length ≤ off) :
    slice (xs ++ ys) off n = slice ys (off - xs.length) n := by
  simp only [slice, List.drop_append, List.drop_eq_nil_of_le past, List.nil_append]

theorem slice_append_exact (xs ys : List α) : slice (xs ++ ys) 0 xs.length = xs := by
  simp [slice]

theorem slice_to_end {l : List α} {off n : Nat} (len : off + n = l.length) :
    slice l off n = l.drop off := by
  simp only [slice]
  exact List.take_of_length_le (by rw [List.length_drop]; omega)

theorem slice_add (l : List α) (off m n : Nat) :
    slice l off m ++ slice l (off + m) n = slice l off (m + n) := by
  simp only [slice, ← List.drop_drop]
  rw [List.take_add]

end Slice
