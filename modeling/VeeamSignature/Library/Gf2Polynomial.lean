import Mathlib.Algebra.Polynomial.Div
import Mathlib.Algebra.Field.ZMod
import Mathlib.Algebra.CharP.Two
import Mathlib.Algebra.Polynomial.Degree.Operations
import Mathlib.RingTheory.AdjoinRoot
import VeeamSignature.Library.Gf2

/-!
# Bit vectors as polynomials

The register machine that divides bit vectors computes the remainder of the
division of polynomials over `ZMod 2`.
-/

namespace VeeamSignature.Gf2

open Polynomial

variable {n w : ℕ}

def coefficient (bit : Bool) : ZMod 2 := if bit then 1 else 0

@[simp] theorem coefficient_false : coefficient false = 0 := rfl

@[simp] theorem coefficient_true : coefficient true = 1 := rfl

theorem coefficient_xor (a b : Bool) : coefficient (a ^^ b) = coefficient a + coefficient b := by
  cases a <;> cases b <;> decide

theorem coefficient_injective : Function.Injective coefficient := by
  decide

/-- The polynomial that a bit vector stands for. -/
noncomputable def toPolynomial (d : BitVec n) : (ZMod 2)[X] :=
  ∑ i ∈ Finset.range n, monomial i (coefficient (d.getLsbD i))

theorem coeff_toPolynomial (d : BitVec n) (i : ℕ) :
    (toPolynomial d).coeff i = coefficient (d.getLsbD i) := by
  rw [toPolynomial, finsetSum_coeff]
  simp only [coeff_monomial, Finset.sum_ite_eq', Finset.mem_range]
  split
  · rfl
  · next hi => rw [BitVec.getLsbD_of_ge d i (Nat.le_of_not_lt hi), coefficient_false]

theorem toPolynomial_injective : Function.Injective (toPolynomial : BitVec n → (ZMod 2)[X]) := by
  intro d d' h
  apply BitVec.eq_of_getLsbD_eq
  intro i _
  apply coefficient_injective
  rw [← coeff_toPolynomial, ← coeff_toPolynomial, h]

@[simp] theorem toPolynomial_zero : toPolynomial (0#n) = 0 := by
  ext i
  rw [coeff_toPolynomial, BitVec.getLsbD_zero, coefficient_false, coeff_zero]

theorem toPolynomial_xor (d d' : BitVec n) :
    toPolynomial (d ^^^ d') = toPolynomial d + toPolynomial d' := by
  ext i
  rw [coeff_add, coeff_toPolynomial, coeff_toPolynomial, coeff_toPolynomial,
    BitVec.getLsbD_xor, coefficient_xor]

theorem degree_toPolynomial_lt (d : BitVec n) : (toPolynomial d).degree < n := by
  rw [degree_lt_iff_coeff_zero]
  intro i hi
  rw [coeff_toPolynomial, BitVec.getLsbD_of_ge d i hi, coefficient_false]

theorem toPolynomial_concat (d : BitVec n) (bit : Bool) :
    toPolynomial (d.concat bit) = toPolynomial d * X + C (coefficient bit) := by
  ext i
  rw [coeff_add, coeff_toPolynomial, BitVec.getLsbD_concat]
  cases i with
  | zero => simp
  | succ i => simp [coeff_toPolynomial]

theorem toPolynomial_shiftLeft (d : BitVec n) {k : ℕ} (h : n + k ≤ w) :
    toPolynomial (d.setWidth w <<< k) = toPolynomial d * X ^ k := by
  ext i
  rw [coeff_mul_X_pow', coeff_toPolynomial, coeff_toPolynomial, BitVec.getLsbD_shiftLeft,
    BitVec.getLsbD_setWidth]
  by_cases hk : k ≤ i
  · rw [if_pos hk, decide_eq_false (Nat.not_lt.mpr hk), Bool.not_false, Bool.and_true]
    by_cases hi : i - k < n
    · rw [decide_eq_true (show i < w by omega), decide_eq_true (show i - k < w by omega),
        Bool.true_and, Bool.true_and]
    · rw [BitVec.getLsbD_of_ge d (i - k) (Nat.le_of_not_lt hi), Bool.and_false, Bool.and_false]
  · rw [if_neg hk, decide_eq_true (Nat.lt_of_not_le hk), Bool.not_true, Bool.and_false,
      Bool.false_and, coefficient_false]

/-- The divisor with its leading coefficient. -/
noncomputable def divisor (poly : BitVec w) : (ZMod 2)[X] := X ^ w + toPolynomial poly

theorem divisor_monic (poly : BitVec w) : (divisor poly).Monic :=
  monic_X_pow_add (degree_toPolynomial_lt poly)

theorem degree_divisor (poly : BitVec w) : (divisor poly).degree = w := by
  rw [divisor, degree_add_eq_left_of_degree_lt]
  · exact degree_X_pow w
  · rw [degree_X_pow]
    exact degree_toPolynomial_lt poly

/-- A register is reduced. -/
theorem toPolynomial_modByMonic (poly r : BitVec w) :
    toPolynomial r %ₘ divisor poly = toPolynomial r := by
  rw [modByMonic_eq_self_iff (divisor_monic poly), degree_divisor]
  exact degree_toPolynomial_lt r

theorem toPolynomial_setWidth_succ (d : BitVec (w + 1)) :
    toPolynomial (d.setWidth w) = toPolynomial d + C (coefficient (d.getLsbD w)) * X ^ w := by
  ext i
  rw [coeff_add, coeff_C_mul_X_pow, coeff_toPolynomial, coeff_toPolynomial,
    BitVec.getLsbD_setWidth]
  rcases Nat.lt_trichotomy i w with hlt | rfl | hgt
  · rw [decide_eq_true hlt, Bool.true_and, if_neg hlt.ne, add_zero]
  · rw [decide_eq_false (Nat.lt_irrefl i), Bool.false_and, if_pos rfl, CharTwo.add_self_eq_zero,
      coefficient_false]
  · rw [decide_eq_false (Nat.lt_asymm hgt), Bool.false_and, if_neg hgt.ne',
      BitVec.getLsbD_of_ge d i hgt, coefficient_false, add_zero]

/-- Feeding a coefficient subtracts the divisor where the register overflows. -/
theorem toPolynomial_feed (hw : 0 < w) (poly r : BitVec w) (bit : Bool) :
    toPolynomial (feed poly r bit) =
      toPolynomial r * X + C (coefficient bit) + C (coefficient r.msb) * divisor poly := by
  have hmsb : (r.concat bit).getLsbD w = r.msb := by
    obtain ⟨w, rfl⟩ := Nat.exists_eq_add_of_lt hw
    rw [BitVec.getLsbD_concat, if_neg (Nat.succ_ne_zero _), BitVec.msb_eq_getLsbD_last]
  have hshift : toPolynomial ((r.concat bit).setWidth w) =
      toPolynomial r * X + C (coefficient bit) + C (coefficient r.msb) * X ^ w := by
    rw [toPolynomial_setWidth_succ, toPolynomial_concat, hmsb]
  rw [feed, divisor, mul_add, ← add_assoc, ← hshift]
  cases r.msb with
  | false => simp
  | true => simp [toPolynomial_xor]

theorem toPolynomial_feed_modByMonic (hw : 0 < w) (poly r : BitVec w) (bit : Bool) :
    toPolynomial (feed poly r bit) =
      (toPolynomial r * X + C (coefficient bit)) %ₘ divisor poly := by
  rw [← toPolynomial_modByMonic poly (feed poly r bit)]
  apply modByMonic_eq_of_dvd_sub (divisor_monic poly)
  rw [toPolynomial_feed hw, add_sub_cancel_left]
  exact dvd_mul_left _ _

/-- A factor of the dividend may be reduced first. -/
theorem modByMonic_mul_add {q : (ZMod 2)[X]} (hq : q.Monic) (p factor r : (ZMod 2)[X]) :
    (p %ₘ q * factor + r) %ₘ q = (p * factor + r) %ₘ q := by
  apply modByMonic_eq_of_dvd_sub hq
  rw [add_sub_add_right_eq_sub, ← sub_mul]
  exact (dvd_modByMonic_sub p q).mul_right factor

/-- The register machine computes the remainder. -/
theorem toPolynomial_mod2 (hw : 0 < w) (poly : BitVec w) (d : BitVec n) :
    toPolynomial (mod2 poly d) = toPolynomial d %ₘ divisor poly := by
  induction n with
  | zero =>
      rw [BitVec.of_length_zero (x := d), toPolynomial_zero, zero_modByMonic]
      exact toPolynomial_zero
  | succ n ih =>
      obtain ⟨x, bit, rfl⟩ := exists_concat d
      rw [mod2_concat, toPolynomial_feed_modByMonic hw, ih, toPolynomial_concat,
        modByMonic_mul_add (divisor_monic poly)]

theorem toPolynomial_advance (hw : 0 < w) (poly : BitVec w) (n : ℕ) (r : BitVec w) :
    toPolynomial (advance poly n r) = (toPolynomial r * X ^ n) %ₘ divisor poly := by
  rw [← mod2_shiftLeft_self, toPolynomial_mod2 hw, toPolynomial_shiftLeft r (le_refl _)]

/-- The product of a remainder and a polynomial, reduced. -/
def mul (poly r : BitVec w) (d : BitVec n) : BitVec w :=
  (coefficients d).foldl (fun product bit => feed poly product false ^^^ if bit then r else 0) 0

theorem mul_concat (poly r : BitVec w) (d : BitVec n) (bit : Bool) :
    mul poly r (d.concat bit) = feed poly (mul poly r d) false ^^^ if bit then r else 0 := by
  rw [mul, coefficients_concat, List.foldl_append]
  rfl

theorem toPolynomial_mul (hw : 0 < w) (poly r : BitVec w) (d : BitVec n) :
    toPolynomial (mul poly r d) = (toPolynomial r * toPolynomial d) %ₘ divisor poly := by
  induction n with
  | zero =>
      rw [BitVec.of_length_zero (x := d), toPolynomial_zero, mul_zero, zero_modByMonic]
      exact toPolynomial_zero
  | succ n ih =>
      obtain ⟨x, bit, rfl⟩ := exists_concat d
      have hbit : toPolynomial (if bit then r else 0) =
          (toPolynomial r * C (coefficient bit)) %ₘ divisor poly := by
        cases bit with
        | false => simp
        | true => simp [toPolynomial_modByMonic]
      rw [mul_concat, toPolynomial_xor, toPolynomial_feed_modByMonic hw, ih, hbit,
        toPolynomial_concat, modByMonic_mul_add (divisor_monic poly), ← add_modByMonic]
      simp [mul_add, mul_assoc]

theorem toPolynomial_iterate_square (hw : 0 < w) (poly r : BitVec w) (k : ℕ) :
    toPolynomial ((fun r => mul poly r r)^[k] r) = toPolynomial r ^ 2 ^ k %ₘ divisor poly := by
  induction k with
  | zero => simp [toPolynomial_modByMonic]
  | succ k ih =>
      rw [Function.iterate_succ_apply', toPolynomial_mul hw, ih, ← mul_modByMonic, ← pow_two,
        ← pow_mul, pow_succ]

/-! ## Powers of `X` -/

section Powers

variable {K : Type*} [Field K] {p q : K[X]} {m : ℕ}

theorem dvd_mul_X_pow_iff (hq : q.coeff 0 ≠ 0) (k : ℕ) : q ∣ p * X ^ k ↔ q ∣ p := by
  have hcoprime : IsCoprime X q := by
    rw [irreducible_X.coprime_iff_not_dvd, X_dvd_iff]
    exact hq
  exact ⟨(hcoprime.symm.pow_right (n := k)).dvd_of_dvd_mul_right, fun h => h.mul_right _⟩

/-- If the order of `X` is prime, it divides the exponents at which `X` is one. -/
theorem dvd_X_pow_sub_one_iff (hm : m.Prime) (hone : q ∣ X ^ m - 1) (hne : ¬ q ∣ X - 1) (k : ℕ) :
    q ∣ X ^ k - 1 ↔ m ∣ k := by
  have hpow (n : ℕ) : q ∣ X ^ n - 1 ↔ AdjoinRoot.root q ^ n = 1 := by
    rw [← AdjoinRoot.mk_eq_zero, map_sub, map_pow, AdjoinRoot.mk_X, map_one, sub_eq_zero]
  have hfact := Fact.mk hm
  have horder : orderOf (AdjoinRoot.root q) = m := by
    apply orderOf_eq_prime ((hpow m).mp hone)
    intro hroot
    apply hne
    have hfirst := (hpow 1).mpr (by rw [hroot, one_pow])
    rwa [pow_one] at hfirst
  rw [hpow, ← orderOf_dvd_iff_pow_eq_one, horder]

theorem dvd_X_pow_sub_X_pow_iff (hq : q.coeff 0 ≠ 0) (hm : m.Prime) (hone : q ∣ X ^ m - 1)
    (hne : ¬ q ∣ X - 1) {i j : ℕ} (hij : i ≤ j) : q ∣ X ^ j - X ^ i ↔ m ∣ j - i := by
  have hfactor : (X ^ j - X ^ i : K[X]) = (X ^ (j - i) - 1) * X ^ i := by
    rw [sub_mul, one_mul, ← pow_add, Nat.sub_add_cancel hij]
  rw [hfactor, dvd_mul_X_pow_iff hq, dvd_X_pow_sub_one_iff hm hone hne]

theorem degree_mul_X_pow_add_lt {n k : ℕ} (hq : q.degree < n) (hp : p.degree < k) :
    (q * X ^ k + p).degree < ((n + k : ℕ) : WithBot ℕ) := by
  rw [degree_lt_iff_coeff_zero] at hq hp ⊢
  intro i hi
  rw [coeff_add, coeff_mul_X_pow', if_pos (by omega), hq _ (by omega), hp _ (by omega), add_zero]

theorem card_support_mul_X_pow_add {k : ℕ} (hp : p.degree < k) :
    (q * X ^ k + p).support.card = q.support.card + p.support.card := by
  have hhigh (i : ℕ) (hi : k ≤ i) : p.coeff i = 0 :=
    coeff_eq_zero_of_degree_lt (hp.trans_le (Nat.cast_le.mpr hi))
  have hsupport : (q * X ^ k + p).support =
      q.support.map (addRightEmbedding k) ∪ p.support := by
    ext i
    rw [mem_support_iff, coeff_add, coeff_mul_X_pow', Finset.mem_union, Finset.mem_map,
      mem_support_iff]
    by_cases hk : k ≤ i
    · rw [if_pos hk, hhigh i hk, add_zero]
      constructor
      · intro hne
        exact .inl ⟨i - k, mem_support_iff.mpr hne, Nat.sub_add_cancel hk⟩
      · rintro (⟨j, hj, rfl⟩ | hzero)
        · rw [addRightEmbedding_apply, Nat.add_sub_cancel]
          exact mem_support_iff.mp hj
        · exact absurd rfl hzero
    · rw [if_neg hk, zero_add]
      constructor
      · exact .inr
      · rintro (⟨j, -, rfl⟩ | hne)
        · exact absurd (Nat.le_add_left k j) hk
        · exact hne
  have hdisjoint : Disjoint (q.support.map (addRightEmbedding k)) p.support := by
    rw [Finset.disjoint_left]
    intro i hi hmem
    obtain ⟨j, -, rfl⟩ := Finset.mem_map.mp hi
    exact mem_support_iff.mp hmem (hhigh _ (Nat.le_add_left k j))
  rw [hsupport, Finset.card_union_of_disjoint hdisjoint, Finset.card_map]

end Powers

theorem coeff_zero_divisor {poly : BitVec w} (hpoly : poly.getLsbD 0 = true) :
    (divisor poly).coeff 0 ≠ 0 := by
  have hw : w ≠ 0 := (BitVec.lt_of_getLsbD hpoly).ne'
  rw [divisor, coeff_add, coeff_toPolynomial, hpoly, coeff_X_pow, if_neg hw.symm, zero_add]
  exact one_ne_zero

/-- A cycle of squarings from `X` gives an exponent at which `X` is one. -/
theorem divisor_dvd_X_pow_sub_one {poly x : BitVec w} (hpoly : poly.getLsbD 0 = true)
    (hx : toPolynomial x = X) {k m : ℕ} (hcycle : (fun r => mul poly r r)^[k] x = x)
    (hm : m + 1 = 2 ^ k) : divisor poly ∣ X ^ m - 1 := by
  have hpower := toPolynomial_iterate_square (BitVec.lt_of_getLsbD hpoly) poly x k
  rw [hcycle, hx, ← hm] at hpower
  have hX : X %ₘ divisor poly = X := by
    rw [← hx]
    exact toPolynomial_modByMonic poly x
  rw [← dvd_mul_X_pow_iff (coeff_zero_divisor hpoly) 1, pow_one, sub_mul, one_mul, ← pow_succ,
    ← modByMonic_eq_zero_iff_dvd (divisor_monic poly), sub_modByMonic, hX, sub_eq_zero]
  exact hpower.symm

/-! ## Set bits -/

theorem cpopNatRec_eq_card (d : BitVec n) (k : ℕ) :
    d.cpopNatRec k 0 = ((Finset.range k).filter fun i => d.getLsbD i).card := by
  induction k with
  | zero => rfl
  | succ k ih =>
      rw [BitVec.cpopNatRec_succ, BitVec.cpopNatRec_add, ih, Finset.range_add_one,
        Finset.filter_insert]
      cases d.getLsbD k with
      | false => rfl
      | true =>
          rw [if_pos rfl, Finset.card_insert_of_notMem (by simp)]
          rfl

theorem card_support_toPolynomial (d : BitVec n) :
    (toPolynomial d).support.card = d.cpop.toNat := by
  have hsupport : (toPolynomial d).support = (Finset.range n).filter fun i => d.getLsbD i := by
    ext i
    rw [mem_support_iff, coeff_toPolynomial, Finset.mem_filter, Finset.mem_range]
    cases hbit : d.getLsbD i with
    | false => simp
    | true => simp [BitVec.lt_of_getLsbD hbit]
  rw [hsupport, BitVec.toNat_cpop, cpopNatRec_eq_card]

theorem coeff_eq_one {p : (ZMod 2)[X]} {i : ℕ} (hi : i ∈ p.support) : p.coeff i = 1 := by
  have hvalue : ∀ a : ZMod 2, a ≠ 0 → a = 1 := by decide
  exact hvalue _ (mem_support_iff.mp hi)

theorem eq_sum_X_pow (p : (ZMod 2)[X]) : p = ∑ i ∈ p.support, X ^ i := by
  refine p.as_sum_support_C_mul_X_pow.trans (Finset.sum_congr rfl fun i hi => ?_)
  rw [coeff_eq_one hi, C_1, one_mul]

theorem eval_one (p : (ZMod 2)[X]) : p.eval 1 = (p.support.card : ZMod 2) := by
  have hsum := congrArg (eval 1) (eq_sum_X_pow p)
  simpa [eval_finsetSum] using hsum

end VeeamSignature.Gf2
