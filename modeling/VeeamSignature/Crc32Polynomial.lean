import Mathlib.NumberTheory.LucasLehmer
import VeeamSignature.Crc32Steps
import VeeamSignature.Library.Gf2Polynomial

/-!
# The checksum as a remainder

The bytes that `compute_crc32` feeds are the coefficients of a polynomial, and
the register is its remainder by the CRC-32C generator.  Two buffers have the
same checksum exactly when the generator divides the difference.  The generator
has the root one, and the order of `X` modulo the generator is the prime
`2 ^ 31 - 1`; so changes of up to three bits are detected in any buffer that
has no more bits than that.
-/

namespace VeeamSignature

open Polynomial Gf2

/-- `x ^ 32 + x ^ 28 + ... + 1`, the number `0x11EDC6F41`. -/
noncomputable def crc32Generator : (ZMod 2)[X] := divisor crc32Polynomial

theorem crc32Generator_monic : crc32Generator.Monic := divisor_monic crc32Polynomial

/-- The first byte has the highest coefficients, and its least significant bit
the highest of them. -/
noncomputable def messagePolynomial (bytes : List Byte) : (ZMod 2)[X] :=
  bytes.foldl (fun p byte => p * X ^ 8 + toPolynomial byte.reverse) 0

theorem toPolynomial_mmCrc32U8 {crc : Crc32} {p : (ZMod 2)[X]}
    (h : toPolynomial crc.reverse = (p * X ^ 32) %ₘ crc32Generator) (value : Byte) :
    toPolynomial (mmCrc32U8 crc value).reverse =
      ((p * X ^ 8 + toPolynomial value.reverse) * X ^ 32) %ₘ crc32Generator := by
  have hshift : toPolynomial (value.reverse.setWidth 32 <<< 24) =
      toPolynomial value.reverse * X ^ 24 :=
    toPolynomial_shiftLeft value.reverse (by decide)
  have hregister : (toPolynomial crc.reverse + toPolynomial value.reverse * X ^ 24) * X ^ 8 =
      (p * X ^ 32) %ₘ crc32Generator * X ^ 8 + toPolynomial value.reverse * X ^ 32 := by
    rw [h, add_mul, mul_assoc (toPolynomial value.reverse), ← pow_add]
  have hmessage : (p * X ^ 8 + toPolynomial value.reverse) * X ^ 32 =
      p * X ^ 32 * X ^ 8 + toPolynomial value.reverse * X ^ 32 := by
    ring
  rw [reverse_mmCrc32U8, toPolynomial_advance (by decide), toPolynomial_xor, hshift, hregister,
    hmessage]
  exact modByMonic_mul_add crc32Generator_monic _ _ _

theorem toPolynomial_foldl_mmCrc32U8 (bytes : List Byte) {crc : Crc32} {p : (ZMod 2)[X]}
    (h : toPolynomial crc.reverse = (p * X ^ 32) %ₘ crc32Generator) :
    toPolynomial (bytes.foldl mmCrc32U8 crc).reverse =
      (bytes.foldl (fun p byte => p * X ^ 8 + toPolynomial byte.reverse) p * X ^ 32) %ₘ
        crc32Generator := by
  induction bytes generalizing crc p with
  | nil => exact h
  | cons byte bytes ih => exact ih (toPolynomial_mmCrc32U8 h byte)

theorem crc32c_remainder (bytes : List Byte) :
    toPolynomial (crc32c bytes).reverse =
      (messagePolynomial bytes * X ^ 32) %ₘ crc32Generator := by
  have hzero : (0#32).reverse = 0#32 := by
    decide +kernel
  have hstart : toPolynomial (0#32).reverse = (0 * X ^ 32) %ₘ crc32Generator := by
    rw [hzero, toPolynomial_zero, zero_mul, zero_modByMonic]
  rw [crc32c, messagePolynomial]
  exact toPolynomial_foldl_mmCrc32U8 bytes hstart

/-- In reversed bit order `compute_crc32` is the remainder of what its loops
feed, moved up by the width of the register. -/
theorem crcOf_remainder (bytes : List Byte) :
    toPolynomial (crcOf bytes).reverse =
      (messagePolynomial (crc32Fed bytes) * X ^ 32) %ₘ crc32Generator := by
  rw [crcOf_eq_foldl_fed]
  exact crc32c_remainder (crc32Fed bytes)

theorem crc32Generator_coeff_zero : crc32Generator.coeff 0 ≠ 0 :=
  coeff_zero_divisor crc32Polynomial_getLsbD_zero

theorem crc32c_eq_iff_dvd (x y : List Byte) :
    crc32c x = crc32c y ↔ crc32Generator ∣ messagePolynomial x - messagePolynomial y := by
  rw [← reverse_injective.eq_iff, ← toPolynomial_injective.eq_iff, crc32c_remainder,
    crc32c_remainder, ← sub_eq_zero, ← sub_modByMonic,
    modByMonic_eq_zero_iff_dvd crc32Generator_monic, ← sub_mul,
    dvd_mul_X_pow_iff crc32Generator_coeff_zero]

/-- Two buffers of whatever sizes have the same checksum exactly when the
generator divides the difference of what is fed. -/
theorem crcOf_eq_iff_dvd (x y : List Byte) :
    crcOf x = crcOf y ↔
      crc32Generator ∣ messagePolynomial (crc32Fed x) - messagePolynomial (crc32Fed y) := by
  rw [crcOf_eq_foldl_fed, crcOf_eq_foldl_fed]
  exact crc32c_eq_iff_dvd (crc32Fed x) (crc32Fed y)

/-! ## Changes of a few bits -/

theorem crc32Generator_eval_one : crc32Generator.eval 1 = 0 := by
  rw [crc32Generator, divisor, eval_add, eval_pow, eval_X, one_pow, eval_one,
    card_support_toPolynomial]
  decide

theorem toPolynomial_two : toPolynomial (2 : BitVec 32) = X := by
  ext i
  rw [coeff_toPolynomial, coeff_X]
  rcases Nat.lt_or_ge i 32 with hlt | hge
  · have hbits : ∀ i < 32, coefficient ((2 : BitVec 32).getLsbD i) = if 1 = i then 1 else 0 := by
      decide
    exact hbits i hlt
  · rw [BitVec.getLsbD_of_ge _ _ hge, coefficient_false, if_neg (by omega)]

set_option maxRecDepth 10000 in
/-- Squaring `X` as often as the order has bits leads back to `X`. -/
theorem iterate_square_two : (fun r => mul crc32Polynomial r r)^[31] 2 = (2 : BitVec 32) := by
  decide +kernel

theorem crc32Generator_dvd_order : crc32Generator ∣ X ^ mersenne 31 - 1 :=
  divisor_dvd_X_pow_sub_one crc32Polynomial_getLsbD_zero toPolynomial_two iterate_square_two
    (Nat.sub_add_cancel Nat.one_le_two_pow)

theorem not_crc32Generator_dvd : ¬ crc32Generator ∣ X - 1 := by
  have hdegree : (X - 1 : (ZMod 2)[X]).degree = 1 := degree_X_sub_C 1
  apply not_dvd_of_degree_lt
  · exact X_sub_C_ne_zero 1
  · rw [hdegree, crc32Generator, degree_divisor]
    decide

theorem prime_mersenne : (mersenne 31).Prime :=
  lucas_lehmer_sufficiency _ (by decide) (by norm_num)

/-- Changes of two bits cancel exactly at multiples of the order. -/
theorem crc32Generator_dvd_iff {i j : ℕ} (hij : i ≤ j) :
    crc32Generator ∣ X ^ j - X ^ i ↔ mersenne 31 ∣ j - i :=
  dvd_X_pow_sub_X_pow_iff crc32Generator_coeff_zero prime_mersenne crc32Generator_dvd_order
    not_crc32Generator_dvd hij

theorem length_crc32Fed (bytes : List Byte) : (crc32Fed bytes).length = bytes.length := by
  rw [crc32Fed, List.length_append, List.length_take, List.length_replicate]
  omega

/-- How many bits two buffers of one size differ in. -/
def flippedBits (x y : List Byte) : ℕ :=
  ((List.zipWith (· ^^^ ·) x y).map fun byte => byte.cpop.toNat).sum

theorem reverse_xor (a b : Byte) : (a ^^^ b).reverse = a.reverse ^^^ b.reverse := by
  apply BitVec.eq_of_getLsbD_eq
  intro i _
  rw [BitVec.getLsbD_xor, BitVec.getLsbD_reverse, BitVec.getLsbD_reverse, BitVec.getLsbD_reverse,
    BitVec.getMsbD_xor]

theorem messagePolynomial_sub {x y : List Byte} (hlength : x.length = y.length) :
    messagePolynomial x - messagePolynomial y = messagePolynomial (List.zipWith (· ^^^ ·) x y) := by
  have hfold : ∀ p q : (ZMod 2)[X],
      x.foldl (fun p byte => p * X ^ 8 + toPolynomial byte.reverse) p -
        y.foldl (fun p byte => p * X ^ 8 + toPolynomial byte.reverse) q =
      (List.zipWith (· ^^^ ·) x y).foldl (fun p byte => p * X ^ 8 + toPolynomial byte.reverse)
        (p - q) := by
    induction x generalizing y with
    | nil =>
        obtain rfl := List.eq_nil_of_length_eq_zero hlength.symm
        exact fun _ _ => rfl
    | cons a x ih =>
        cases y with
        | nil => cases hlength
        | cons b y =>
            intro p q
            have hstep : p * X ^ 8 + toPolynomial a.reverse - (q * X ^ 8 + toPolynomial b.reverse) =
                (p - q) * X ^ 8 + toPolynomial (a ^^^ b).reverse := by
              rw [reverse_xor, toPolynomial_xor, ← CharTwo.sub_eq_add (toPolynomial a.reverse)]
              ring
            rw [List.foldl_cons, List.foldl_cons, ih (Nat.succ.inj hlength), hstep]
            rfl
  rw [messagePolynomial, messagePolynomial, hfold, sub_zero, messagePolynomial]

theorem card_support_messagePolynomial (bytes : List Byte) :
    (messagePolynomial bytes).support.card = (bytes.map fun byte => byte.cpop.toNat).sum := by
  have hfold : ∀ p : (ZMod 2)[X],
      (bytes.foldl (fun p byte => p * X ^ 8 + toPolynomial byte.reverse) p).support.card =
        p.support.card + (bytes.map fun byte => byte.cpop.toNat).sum := by
    induction bytes with
    | nil => exact fun _ => rfl
    | cons byte bytes ih =>
        intro p
        rw [List.foldl_cons, ih, card_support_mul_X_pow_add (degree_toPolynomial_lt byte.reverse),
          card_support_toPolynomial, BitVec.cpop_reverse, List.map_cons, List.sum_cons,
          Nat.add_assoc]
  rw [messagePolynomial, hfold, support_zero, Finset.card_empty, Nat.zero_add]

theorem degree_messagePolynomial_lt (bytes : List Byte) :
    (messagePolynomial bytes).degree < (8 * bytes.length : ℕ) := by
  have hfold : ∀ (p : (ZMod 2)[X]) (n : ℕ), p.degree < n →
      (bytes.foldl (fun p byte => p * X ^ 8 + toPolynomial byte.reverse) p).degree <
        (n + 8 * bytes.length : ℕ) := by
    induction bytes with
    | nil => exact fun _ _ h => h
    | cons byte bytes ih =>
        intro p n hp
        have hnext := ih _ _ (degree_mul_X_pow_add_lt hp (degree_toPolynomial_lt byte.reverse))
        rwa [show n + 8 + 8 * bytes.length = n + 8 * (bytes.length + 1) by omega] at hnext
  have hzero : (0 : (ZMod 2)[X]).degree < (0 : ℕ) := by
    rw [degree_zero]
    exact WithBot.bot_lt_coe 0
  have hdegree := hfold 0 0 hzero
  rwa [Nat.zero_add] at hdegree

section Flips

variable {x y : List Byte}

/-- Where the checksums agree, the generator divides the changes. -/
theorem dvd_of_crcOf_eq (hlength : x.length = y.length) (heq : crcOf x = crcOf y) :
    crc32Generator ∣
      messagePolynomial (List.zipWith (· ^^^ ·) (crc32Fed x) (crc32Fed y)) := by
  have hfed : (crc32Fed x).length = (crc32Fed y).length := by
    rw [length_crc32Fed, length_crc32Fed, hlength]
  rw [crcOf_eq_foldl_fed, crcOf_eq_foldl_fed] at heq
  rw [← messagePolynomial_sub hfed]
  exact (crc32c_eq_iff_dvd (crc32Fed x) (crc32Fed y)).mp heq

/-- Changes of an odd number of the bits that are fed are detected. -/
theorem crcOf_ne_of_odd (hlength : x.length = y.length)
    (hodd : Odd (flippedBits (crc32Fed x) (crc32Fed y))) : crcOf x ≠ crcOf y := by
  intro heq
  obtain ⟨quotient, hquotient⟩ := dvd_of_crcOf_eq hlength heq
  have hroot := congrArg (eval 1) hquotient
  rw [eval_one, card_support_messagePolynomial, eval_mul, crc32Generator_eval_one, zero_mul]
    at hroot
  exact one_ne_zero ((ZMod.natCast_eq_one_iff_odd.mpr hodd).symm.trans hroot)

/-- Changes of two bits are detected in a buffer that is shorter than the order. -/
theorem crcOf_ne_of_two (hlength : x.length = y.length) (hsize : 8 * x.length ≤ mersenne 31)
    (htwo : flippedBits (crc32Fed x) (crc32Fed y) = 2) : crcOf x ≠ crcOf y := by
  intro heq
  have hdvd := dvd_of_crcOf_eq hlength heq
  have hdegree :=
    degree_messagePolynomial_lt (List.zipWith (· ^^^ ·) (crc32Fed x) (crc32Fed y))
  rw [List.length_zipWith, length_crc32Fed, length_crc32Fed, ← hlength, Nat.min_self] at hdegree
  rw [flippedBits, ← card_support_messagePolynomial, Finset.card_eq_two] at htwo
  generalize messagePolynomial (List.zipWith (· ^^^ ·) (crc32Fed x) (crc32Fed y)) = p
    at hdvd hdegree htwo
  have hclose : ∀ i j, p.support = {i, j} → ¬ i < j := by
    intro i j hsupport hij
    have hp : p = X ^ j - X ^ i := by
      rw [eq_sum_X_pow p, hsupport, Finset.sum_pair hij.ne, CharTwo.sub_eq_add, add_comm]
    have hj : j < 8 * x.length := by
      have hmem : j ∈ p.support := by rw [hsupport]; exact Finset.mem_insert_of_mem (by simp)
      exact Nat.cast_lt.mp ((le_degree_of_mem_supp j hmem).trans_lt hdegree)
    rw [hp, crc32Generator_dvd_iff hij.le] at hdvd
    have hle := Nat.le_of_dvd (Nat.sub_pos_of_lt hij) hdvd
    omega
  obtain ⟨i, j, hne, hsupport⟩ := htwo
  rcases Nat.lt_or_gt_of_ne hne with hlt | hgt
  · exact hclose i j hsupport hlt
  · exact hclose j i (hsupport.trans (Finset.pair_comm i j)) hgt

/-- In buffers of at most `2 ^ 31 - 1` bits the checksum detects every change of
one, two or three of the bits that are fed. -/
theorem crcOf_ne_of_few_flips (hlength : x.length = y.length)
    (hsize : 8 * x.length ≤ 2 ^ 31 - 1) (hpos : 0 < flippedBits (crc32Fed x) (crc32Fed y))
    (hfew : flippedBits (crc32Fed x) (crc32Fed y) ≤ 3) : crcOf x ≠ crcOf y := by
  have hcases : Odd (flippedBits (crc32Fed x) (crc32Fed y)) ∨
      flippedBits (crc32Fed x) (crc32Fed y) = 2 := by
    generalize flippedBits (crc32Fed x) (crc32Fed y) = count at hpos hfew
    interval_cases count <;> decide
  rcases hcases with hodd | htwo
  · exact crcOf_ne_of_odd hlength hodd
  · exact crcOf_ne_of_two hlength hsize htwo

end Flips

/-- The first bit and the last of two words. -/
theorem crcOf_ne_of_few_flips_far_apart :
    crcOf [1, 0, 0, 0, 0, 0, 0, 0] ≠ crcOf [0, 0, 0, 0, 0, 0, 0, 128] :=
  crcOf_ne_of_few_flips (by decide) (by decide) (by decide) (by decide)

/-! ## Forging -/

theorem exists_crc32Bytes {bytes : List Byte} (h : bytes.length = 4) :
    ∃ word, crc32Bytes word = bytes := by
  obtain ⟨b₀, b₁, b₂, b₃, rfl⟩ := List.length_eq_four.mp h
  exact ⟨loadU32 [b₀, b₁, b₂, b₃], crc32Bytes_loadU32 b₀ b₁ b₂ b₃⟩

/-- Whatever comes before and after, one word gives the checksum that is wanted. -/
theorem existsUnique_crcOf {before rest : List Byte}
    (h : before.length + 4 ≤ 4 * ((before.length + 4 + rest.length) / 4)) (crc : Crc32) :
    ∃! bytes : List Byte, bytes.length = 4 ∧ crcOf (before ++ bytes ++ rest) = crc := by
  have hinjective : Function.Injective fun word => crcOf (before ++ crc32Bytes word ++ rest) := by
    intro word word' heq
    have hheads : (before ++ crc32Bytes word).length = (before ++ crc32Bytes word').length := by
      rw [List.length_append, List.length_append, length_crc32Bytes, length_crc32Bytes]
    have hcovered : (before ++ crc32Bytes word).length ≤
        4 * ((before ++ crc32Bytes word ++ rest).length / 4) := by
      simpa only [List.length_append, length_crc32Bytes] using h
    obtain ⟨later, hfed, hfed'⟩ := crc32Fed_append hheads hcovered
    have hfold : (before ++ crc32Bytes word).foldl mmCrc32U8 0 =
        (before ++ crc32Bytes word').foldl mmCrc32U8 0 := by
      apply foldl_mmCrc32U8_injective later
      simpa only [crcOf_eq_foldl_fed, hfed, hfed', List.foldl_append] using heq
    rw [List.foldl_append, List.foldl_append] at hfold
    exact crc32Bytes_injective (foldl_mmCrc32U8_word _ rfl rfl hfold)
  have hfinite : Finite Crc32 := Finite.of_injective BitVec.toFin fun _ _ => BitVec.toFin_inj.mp
  obtain ⟨word, hword⟩ := Finite.surjective_of_injective hinjective crc
  refine ⟨crc32Bytes word, ⟨length_crc32Bytes word, hword⟩, ?_⟩
  rintro bytes ⟨hlength, hcrc⟩
  obtain ⟨word', rfl⟩ := exists_crc32Bytes hlength
  rw [hinjective (hcrc.trans hword.symm)]

theorem existsUnique_crcOf_unaligned :
    ∃! bytes : List Byte, bytes.length = 4 ∧ crcOf ([1] ++ bytes ++ [2, 3, 4]) = 0xCAFE :=
  existsUnique_crcOf (by decide) 0xCAFE

end VeeamSignature
