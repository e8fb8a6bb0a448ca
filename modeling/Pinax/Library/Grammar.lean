import Mathlib.Data.List.Infix
import Mathlib.Data.List.Forall2

/-! # Readers and the grammars they accept

A reader takes a value from a buffer at an offset.  It reads a grammar when it returns a value
exactly where the grammar derives what stands there, and ends right after it.
-/

namespace Grammar

variable {α β ε : Type}

/-- The value at an offset, and the offset after it. -/
abbrev Reader (ε α β : Type) := List α → Nat → Except ε (β × Nat)

structure Reads (G : β → List α → Prop) (read : Reader ε α β) : Prop where
  sound : ∀ {buf at' value next}, read buf at' = .ok (value, next) →
    ∃ part, G value part ∧ part <+: buf.drop at' ∧ next = at' + part.length
  complete : ∀ {buf at' value part}, G value part → part <+: buf.drop at' →
    read buf at' = .ok (value, at' + part.length)

/-- One value after the other. -/
def many (read : Reader ε α β) (buf : List α) : Nat → Nat → List β → Except ε (List β)
  | 0, _, values => .ok values
  | count + 1, at', values => do
    let (value, next) ← read buf at'
    many read buf count next (values ++ [value])

variable {G : β → List α → Prop} {read : Reader ε α β} {buf part rest : List α} {at' count : Nat}
  {done values : List β}

theorem prefix_drop_append :
    part ++ rest <+: buf.drop at' ↔ part <+: buf.drop at' ∧ rest <+: buf.drop (at' + part.length) := by
  constructor
  · rintro ⟨after, split⟩
    have tail : buf.drop (at' + part.length) = rest ++ after := by
      rw [← List.drop_drop, ← split, List.append_assoc, List.drop_left]
    exact ⟨⟨rest ++ after, by rw [← split, List.append_assoc]⟩, ⟨after, tail.symm⟩⟩
  · rintro ⟨⟨tail, split⟩, ⟨after, tailSplit⟩⟩
    have same : buf.drop (at' + part.length) = tail := by
      rw [← List.drop_drop, ← split, List.drop_left]
    exact ⟨after, by rw [← split, List.append_assoc, tailSplit, same]⟩

namespace Reads

theorem many_iff (reads : Reads G read) :
    many read buf count at' done = .ok values ↔ ∃ new parts,
      values = done ++ new ∧ new.length = count ∧ List.Forall₂ G new parts ∧
        parts.flatten <+: buf.drop at' := by
  induction count generalizing at' done with
  | zero =>
    constructor
    · intro h
      injection h with same
      exact ⟨[], [], by simp [same], rfl, .nil, List.nil_prefix⟩
    · rintro ⟨new, parts, rfl, none, -, -⟩
      rw [List.length_eq_zero_iff.mp none, List.append_nil]
      rfl
  | succ count ih =>
    constructor
    · intro h
      rw [many] at h
      cases first : read buf at' with
      | error e =>
        rw [first] at h
        cases h
      | ok both =>
        obtain ⟨value, next⟩ := both
        rw [first] at h
        -- the first value stands before what the others are read from
        obtain ⟨part, derived, stands, rfl⟩ := reads.sound first
        obtain ⟨new, parts, rfl, len, derivations, follow⟩ := ih.mp h
        exact ⟨value :: new, part :: parts, by simp, by simp [len], .cons derived derivations,
          prefix_drop_append.mpr ⟨stands, follow⟩⟩
    · rintro ⟨new, parts, rfl, len, derivations, stand⟩
      cases derivations with
      | nil => cases len
      | cons derived derivations =>
        rw [List.flatten_cons] at stand
        obtain ⟨stands, follow⟩ := prefix_drop_append.mp stand
        rw [many, reads.complete derived stands]
        exact ih.mpr ⟨_, _, by simp, by simpa using len, derivations, follow⟩

end Reads

end Grammar
