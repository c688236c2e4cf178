import Mathlib.Logic.Function.Iterate

/-!
# Division of polynomials over GF(2)

A bit vector stands for the polynomial whose highest coefficient is its most
significant bit.  The divisor has degree `w` and leading coefficient one, which
is left out of `poly`.
-/

namespace VeeamSignature.Gf2

variable {w : ℕ}

/-- Append one coefficient to the dividend read so far, and reduce. -/
def feed (poly remainder : BitVec w) (bit : Bool) : BitVec w :=
  let shifted := (remainder.concat bit).setWidth w
  if remainder.msb then shifted ^^^ poly else shifted

def coefficients {n : ℕ} (dividend : BitVec n) : List Bool :=
  (List.range n).map dividend.getMsbD

/-- The remainder of the dividend by `x ^ w + poly`. -/
def mod2 (poly : BitVec w) {n : ℕ} (dividend : BitVec n) : BitVec w :=
  (coefficients dividend).foldl (feed poly) 0

/-- Multiply the remainder by `x ^ n`. -/
def advance (poly : BitVec w) (n : ℕ) : BitVec w → BitVec w :=
  (fun remainder => feed poly remainder false)^[n]

theorem feed_of_not_msb (poly : BitVec w) {r : BitVec w} (h : r.msb = false) (bit : Bool) :
    feed poly r bit = (r.concat bit).setWidth w := by
  simp [feed, h]

theorem feed_xor (poly r r' : BitVec w) (bit bit' : Bool) :
    feed poly (r ^^^ r') (bit ^^ bit') = feed poly r bit ^^^ feed poly r' bit' := by
  have hshift : ((r ^^^ r').concat (bit ^^ bit')).setWidth w =
      (r.concat bit).setWidth w ^^^ (r'.concat bit').setWidth w := by
    rw [← BitVec.setWidth_xor, BitVec.concat_xor_concat]
  simp only [feed, hshift, BitVec.msb_xor]
  generalize (r.concat bit).setWidth w = shifted
  generalize (r'.concat bit').setWidth w = shifted'
  cases r.msb <;> cases r'.msb
  · rfl
  · show (shifted ^^^ shifted') ^^^ poly = shifted ^^^ (shifted' ^^^ poly)
    ac_rfl
  · show (shifted ^^^ shifted') ^^^ poly = (shifted ^^^ poly) ^^^ shifted'
    ac_rfl
  · show shifted ^^^ shifted' = (shifted ^^^ poly) ^^^ (shifted' ^^^ poly)
    have hcancel : poly ^^^ poly = 0#w := BitVec.xor_self
    calc
      shifted ^^^ shifted' = shifted ^^^ shifted' ^^^ (poly ^^^ poly) := by
        rw [hcancel, BitVec.xor_zero]
      _ = (shifted ^^^ poly) ^^^ (shifted' ^^^ poly) := by ac_rfl

/-- A divisor with a constant term loses no coefficient of the remainder. -/
theorem feed_injective {poly : BitVec w} (hpoly : poly.getLsbD 0 = true) :
    Function.Injective fun remainder => feed poly remainder false := by
  intro r r' h
  have hxor : feed poly (r ^^^ r') false = 0#w := by
    have hlinear := feed_xor poly r r' false false
    rw [show feed poly r false = feed poly r' false from h, BitVec.xor_self] at hlinear
    exact hlinear
  have hw : 0 < w := BitVec.lt_of_getLsbD hpoly
  have hmsb : (r ^^^ r').msb = false := by
    by_contra hset
    have hset : (r ^^^ r').msb = true := by simpa using hset
    have hbit := congrArg (fun x => x.getLsbD 0) hxor
    simp only [feed, hset, if_true, BitVec.getLsbD_xor, BitVec.getLsbD_setWidth, hpoly] at hbit
    simp [hw] at hbit
  rw [feed_of_not_msb poly hmsb] at hxor
  apply BitVec.xor_eq_zero_iff.mp
  apply BitVec.eq_of_getLsbD_eq
  intro i hi
  rcases Nat.lt_or_ge (i + 1) w with hlt | hge
  · have hbit := congrArg (fun x => x.getLsbD (i + 1)) hxor
    simpa [hlt] using hbit
  · have hlast : i = w - 1 := by omega
    rw [BitVec.msb_eq_getLsbD_last] at hmsb
    rw [hlast, hmsb, BitVec.getLsbD_zero]

@[simp] theorem advance_zero (poly r : BitVec w) : advance poly 0 r = r := rfl

theorem advance_succ (poly : BitVec w) (n : ℕ) (r : BitVec w) :
    advance poly (n + 1) r = feed poly (advance poly n r) false :=
  Function.iterate_succ_apply' _ n r

theorem advance_add (poly : BitVec w) (m n : ℕ) (r : BitVec w) :
    advance poly (m + n) r = advance poly m (advance poly n r) :=
  Function.iterate_add_apply _ m n r

theorem advance_xor (poly : BitVec w) (n : ℕ) (r r' : BitVec w) :
    advance poly n (r ^^^ r') = advance poly n r ^^^ advance poly n r' := by
  induction n with
  | zero => rfl
  | succ n ih =>
      rw [advance_succ, advance_succ, advance_succ, ih]
      exact feed_xor poly (advance poly n r) (advance poly n r') false false

theorem advance_injective {poly : BitVec w} (hpoly : poly.getLsbD 0 = true) (n : ℕ) :
    Function.Injective (advance poly n) :=
  (feed_injective hpoly).iterate n

/-- Coefficients that have not reached the top only move. -/
theorem advance_shiftLeft (poly : BitVec w) {m : ℕ} (x : BitVec m) {k n : ℕ}
    (h : m + k + n ≤ w) :
    advance poly n (x.setWidth w <<< k) = x.setWidth w <<< (k + n) := by
  induction n with
  | zero => rfl
  | succ n ih =>
      have hmsb : (x.setWidth w <<< (k + n)).msb = false := by
        rw [BitVec.msb_eq_getLsbD_last, BitVec.getLsbD_shiftLeft, BitVec.getLsbD_setWidth,
          BitVec.getLsbD_of_ge x _ (by omega)]
        simp
      rw [advance_succ, ih (by omega), feed_of_not_msb poly hmsb]
      apply BitVec.eq_of_getLsbD_eq
      intro i hi
      cases i with
      | zero => simp
      | succ i =>
          have hlt : i < w := by omega
          simp [hi, hlt, ← Nat.add_assoc]

theorem coefficients_concat {n : ℕ} (d : BitVec n) (bit : Bool) :
    coefficients (d.concat bit) = coefficients d ++ [bit] := by
  have hinit : (List.range n).map (d.concat bit).getMsbD = coefficients d := by
    apply List.map_congr_left
    intro i hi
    have hlt : i < n := List.mem_range.mp hi
    simp [BitVec.getMsbD_concat, hlt]
  have hlast : (d.concat bit).getMsbD n = bit := by
    simp [BitVec.getMsbD_concat]
  rw [coefficients, List.range_succ, List.map_append, hinit, List.map_singleton, hlast]

theorem mod2_concat (poly : BitVec w) {n : ℕ} (d : BitVec n) (bit : Bool) :
    mod2 poly (d.concat bit) = feed poly (mod2 poly d) bit := by
  rw [mod2, coefficients_concat, List.foldl_append]
  rfl

theorem exists_concat {n : ℕ} (d : BitVec (n + 1)) : ∃ x : BitVec n, ∃ bit, d = x.concat bit :=
  ⟨_, _, BitVec.concat_extractLsb'_getLsb.symm⟩

theorem mod2_xor (poly : BitVec w) {n : ℕ} (d d' : BitVec n) :
    mod2 poly (d ^^^ d') = mod2 poly d ^^^ mod2 poly d' := by
  induction n with
  | zero => exact BitVec.xor_zero.symm
  | succ n ih =>
      obtain ⟨x, bit, rfl⟩ := exists_concat d
      obtain ⟨x', bit', rfl⟩ := exists_concat d'
      rw [BitVec.concat_xor_concat, mod2_concat, mod2_concat, mod2_concat, ih, feed_xor]

/-- A dividend that fits the register is its own remainder. -/
theorem mod2_of_le (poly : BitVec w) {n : ℕ} (d : BitVec n) (h : n ≤ w) :
    mod2 poly d = d.setWidth w := by
  induction n with
  | zero =>
      rw [BitVec.of_length_zero (x := d)]
      simp [mod2, coefficients]
  | succ n ih =>
      obtain ⟨x, bit, rfl⟩ := exists_concat d
      have hmsb : (x.setWidth w).msb = false := by
        rw [BitVec.msb_setWidth, BitVec.getLsbD_of_ge x _ (Nat.le_sub_one_of_lt h)]
        exact Bool.and_false _
      rw [mod2_concat, ih x (Nat.le_of_succ_le h), feed_of_not_msb poly hmsb]
      apply BitVec.eq_of_getLsbD_eq
      intro i hi
      cases i with
      | zero => simp [hi]
      | succ i =>
          have hlt : i < w := by omega
          simp [hi, hlt]

theorem mod2_shiftLeft (poly : BitVec w) {m : ℕ} (d : BitVec m) (n : ℕ) :
    mod2 poly (d.setWidth (m + n) <<< n) = advance poly n (mod2 poly d) := by
  induction n with
  | zero => simp
  | succ n ih =>
      have hconcat : d.setWidth (m + (n + 1)) <<< (n + 1) =
          ((d.setWidth (m + n) <<< n).concat false : BitVec (m + n + 1)) := by
        apply BitVec.eq_of_getLsbD_eq
        intro i hi
        cases i with
        | zero => rw [BitVec.getLsbD_concat, if_pos rfl]; simp
        | succ i => simp [hi]
      rw [hconcat, mod2_concat, ih, advance_succ]

/-- A dividend that is reduced already is only multiplied. -/
theorem mod2_shiftLeft_self (poly r : BitVec w) (n : ℕ) :
    mod2 poly (r.setWidth (w + n) <<< n) = advance poly n r := by
  rw [mod2_shiftLeft, mod2_of_le _ _ (Nat.le_refl w), BitVec.setWidth_eq]

end VeeamSignature.Gf2
