import Mathlib.Data.Int.Notation
import Mathlib.Data.List.Basic

/-!
# Signed decimal numerals

A numeral is a non-empty string of digits; a signed numeral may have a sign in
front.  A text that continues with something other than a digit is read in one
way only.
-/

namespace VeeamSignature.Decimal

def IsNumeral (digits : List Char) : Prop := digits ≠ [] ∧ digits.all Char.isDigit = true

instance (digits : List Char) : Decidable (IsNumeral digits) :=
  inferInstanceAs (Decidable (_ ∧ _))

def value (digits : List Char) : ℕ :=
  digits.foldl (fun n c => 10 * n + (c.toNat - '0'.toNat)) 0

inductive Sign
  | none
  | plus
  | minus
  deriving DecidableEq

def Sign.text : Sign → List Char
  | .none => []
  | .plus => ['+']
  | .minus => ['-']

def Sign.signed : Sign → ℕ → ℤ
  | .minus, n => -(n : ℤ)
  | _, n => n

theorem takeWhile_isDigit {digits suffix : List Char} (h : IsNumeral digits)
    (hsuffix : suffix.head?.any Char.isDigit = false) :
    (digits ++ suffix).takeWhile Char.isDigit = digits := by
  rw [List.takeWhile_append_of_pos (List.all_eq_true.mp h.2)]
  cases suffix with
  | nil => rw [List.takeWhile_nil, List.append_nil]
  | cons c suffix =>
      have hc : c.isDigit = false := hsuffix
      rw [List.takeWhile_cons_of_neg (by simp [hc]), List.append_nil]

theorem numeral_append {digits : List Char} (h : IsNumeral digits) (suffix : List Char) :
    ∃ c rest, digits ++ suffix = c :: rest ∧ c ≠ '+' ∧ c ≠ '-' := by
  obtain ⟨hne, hall⟩ := h
  cases digits with
  | nil => exact absurd rfl hne
  | cons c rest =>
      have hdigit : c.isDigit = true := List.all_eq_true.mp hall c List.mem_cons_self
      refine ⟨c, rest ++ suffix, rfl, ?_, ?_⟩
      · rintro rfl
        exact absurd hdigit (by decide)
      · rintro rfl
        exact absurd hdigit (by decide)

theorem sign_unique {sign sign' : Sign} {digits digits' suffix suffix' : List Char}
    (h : IsNumeral digits) (h' : IsNumeral digits')
    (heq : sign.text ++ (digits ++ suffix) = sign'.text ++ (digits' ++ suffix')) :
    sign = sign' ∧ digits ++ suffix = digits' ++ suffix' := by
  obtain ⟨c, rest, hhead, hplus, hminus⟩ := numeral_append h suffix
  obtain ⟨c', rest', hhead', hplus', hminus'⟩ := numeral_append h' suffix'
  rw [hhead, hhead'] at heq ⊢
  cases sign <;> cases sign' <;>
    simp [Sign.text, hplus, hminus, hplus'.symm, hminus'.symm] at heq ⊢ <;> exact heq

/-- A signed numeral and what follows it are told apart in one way. -/
theorem signed_unique {sign sign' : Sign} {digits digits' suffix suffix' : List Char}
    (h : IsNumeral digits) (h' : IsNumeral digits')
    (hsuffix : suffix.head?.any Char.isDigit = false)
    (hsuffix' : suffix'.head?.any Char.isDigit = false)
    (heq : sign.text ++ digits ++ suffix = sign'.text ++ digits' ++ suffix') :
    sign = sign' ∧ digits = digits' ∧ suffix = suffix' := by
  rw [List.append_assoc, List.append_assoc] at heq
  obtain ⟨hsign, hrest⟩ := sign_unique h h' heq
  have hdigits : digits = digits' := by
    rw [← takeWhile_isDigit h hsuffix, ← takeWhile_isDigit h' hsuffix', hrest]
  subst hdigits
  exact ⟨hsign, rfl, List.append_cancel_left hrest⟩

end VeeamSignature.Decimal
