import Mathlib.Algebra.Group.Nat.Defs
import Mathlib.Data.Int.Notation

/-!
# Arithmetic of `std::size_t`

Values of the 64-bit unsigned type are natural numbers below `modulus`.  Sums,
products and differences wrap; a division by zero has no value.
-/

namespace VeeamSignature.SizeT

/-- One more than the largest value of the type. -/
def modulus : ℕ := 2 ^ 64

def add (a b : ℕ) : ℕ := (a + b) % modulus

def mul (a b : ℕ) : ℕ := a * b % modulus

def sub (a b : ℕ) : ℕ := (a + (modulus - b % modulus)) % modulus

def div (a b : ℕ) : Option ℕ := if b = 0 then none else some (a / b)

/-- The conversion of an integer. -/
def ofInt (z : ℤ) : ℕ := (z % (modulus : ℤ)).toNat

theorem modulus_pos : 0 < modulus := by decide

theorem one_lt_modulus : 1 < modulus := by decide

theorem two_lt_modulus : 2 < modulus := by decide

theorem mul_lt (a b : ℕ) : mul a b < modulus := Nat.mod_lt _ modulus_pos

theorem sub_lt (a b : ℕ) : sub a b < modulus := Nat.mod_lt _ modulus_pos

theorem add_of_lt {a b : ℕ} (h : a + b < modulus) : add a b = a + b := Nat.mod_eq_of_lt h

theorem mul_of_lt {a b : ℕ} (h : a * b < modulus) : mul a b = a * b := Nat.mod_eq_of_lt h

theorem sub_of_le {a b : ℕ} (hba : b ≤ a) (ha : a < modulus) : sub a b = a - b := by
  unfold sub
  rw [Nat.mod_eq_of_lt (a := b) (by omega), show a + (modulus - b) = a - b + modulus by omega,
    Nat.add_mod_right, Nat.mod_eq_of_lt (by omega)]

theorem eq_of_sub_eq_zero {a b : ℕ} (ha : a < modulus) (hb : b < modulus) (h : sub a b = 0) :
    a = b := by
  unfold sub at h
  rw [Nat.mod_eq_of_lt hb] at h
  unfold modulus at *
  omega

theorem div_of_pos {b : ℕ} (hb : 0 < b) (a : ℕ) : div a b = some (a / b) :=
  if_neg (Nat.ne_of_gt hb)

theorem add_mod_modulus (a b : ℕ) : add (a % modulus) b = (a + b) % modulus := by
  simp [add]

theorem ofInt_of_lt {n : ℕ} (h : n < modulus) : ofInt n = n := by
  rw [ofInt, ← Int.natCast_emod, Int.toNat_natCast, Nat.mod_eq_of_lt h]

theorem mul_ofInt (n : ℕ) (z : ℤ) : mul n (ofInt z) = ofInt (n * z) := by
  have hpos : (modulus : ℤ) ≠ 0 := Int.natCast_ne_zero.mpr (Nat.ne_of_gt modulus_pos)
  have hcast : (ofInt z : ℤ) = z % (modulus : ℤ) := Int.toNat_of_nonneg (Int.emod_nonneg z hpos)
  have hproduct : (mul n (ofInt z) : ℤ) = n * z % (modulus : ℤ) := by
    rw [mul, Int.natCast_emod, Int.natCast_mul, hcast, Int.mul_emod, Int.emod_emod,
      ← Int.mul_emod]
  show mul n (ofInt z) = (n * z % (modulus : ℤ)).toNat
  rw [← hproduct, Int.toNat_natCast]

end VeeamSignature.SizeT
