import Mathlib.Algebra.Order.Ring.Nat
import Mathlib.Data.List.Induction

/-! # Big-endian byte strings

`toBe n v` is the `n`-byte big-endian form of `v` (taken modulo `256 ^ n`), `ofBe` reads a byte
string back as a number.
-/

namespace BigEndian

abbrev Bytes := List UInt8

def toBe : Nat → Nat → Bytes
  | 0, _ => []
  | n + 1, v => toBe n (v / 256) ++ [UInt8.ofNat v]

def ofBe (bytes : Bytes) : Nat := bytes.foldl (fun acc b => acc * 256 + b.toNat) 0

@[simp] theorem length_toBe (n v : Nat) : (toBe n v).length = n := by
  induction n generalizing v with
  | zero => rfl
  | succ n ih => simp [toBe, ih]

@[simp] theorem ofBe_nil : ofBe [] = 0 := rfl

theorem ofBe_snoc (bytes : Bytes) (b : UInt8) : ofBe (bytes ++ [b]) = ofBe bytes * 256 + b.toNat := by
  simp [ofBe]

theorem ofBe_lt (bytes : Bytes) : ofBe bytes < 256 ^ bytes.length := by
  induction bytes using List.reverseRecOn with
  | nil => simp
  | append_singleton bytes b ih =>
    rw [ofBe_snoc, List.length_append, List.length_singleton, Nat.pow_succ]
    have := b.toNat_lt
    omega

theorem ofBe_toBe (n v : Nat) : ofBe (toBe n v) = v % 256 ^ n := by
  induction n generalizing v with
  | zero => simp [toBe, Nat.mod_one]
  | succ n ih =>
    rw [toBe, ofBe_snoc, ih, show 256 ^ (n + 1) = 256 * 256 ^ n from Nat.pow_succ', Nat.mod_mul,
      UInt8.toNat_ofNat']
    omega

theorem ofBe_toBe_of_lt {n v : Nat} (bound : v < 256 ^ n) : ofBe (toBe n v) = v := by
  rw [ofBe_toBe, Nat.mod_eq_of_lt bound]

theorem toBe_ofBe (bytes : Bytes) : toBe bytes.length (ofBe bytes) = bytes := by
  induction bytes using List.reverseRecOn with
  | nil => rfl
  | append_singleton bytes b ih =>
    have lt := b.toNat_lt
    rw [ofBe_snoc, List.length_append, List.length_singleton, toBe,
      show (ofBe bytes * 256 + b.toNat) / 256 = ofBe bytes by omega, ih]
    congr 2
    apply UInt8.toNat_inj.mp
    rw [UInt8.toNat_ofNat']
    omega

end BigEndian
