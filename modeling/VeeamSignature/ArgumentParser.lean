import VeeamSignature.Arguments
import VeeamSignature.Library.Decimal

/-!
# The parser of the arguments

`parser_t`, which is the same in both versions.  What `boost::program_options`
finds on the command line is its input, and `boost::lexical_cast` a parameter.
The chunk size is a signed numeral with a suffix; the product with the
multiplier of the suffix is taken modulo `2 ^ 64`, before the range check.
-/

namespace VeeamSignature

open Decimal Files

/-- `opt::variables_map`, with the paths that the values of `input` and `output`
name. -/
structure VariablesMap where
  input : Option PathName
  output : Option PathName
  chunkSize : Option (List Char)

inductive ParserError
  | inputMissing
  | outputMissing
  | invalidChunkSize (string : List Char) (what : String)
  | arguments (error : ArgumentsError)

def ParserError.what : ParserError → String
  | .inputMissing => "'input' argument missing"
  | .outputMissing => "'output' argument missing"
  | .invalidChunkSize string what => s!"invalid chunk size '{String.ofList string}': {what} "
  | .arguments error => error.what

def gMultipliers : List (List Char × ℕ) :=
  [(['k', 'b'], 1000), (['k', 'i', 'b'], 1024), (['m', 'b'], 1000 ^ 2), (['m', 'i', 'b'], 1024 ^ 2),
    (['g', 'b'], 1000 ^ 3), (['g', 'i', 'b'], 1024 ^ 3)]

/-- `boost::algorithm::to_lower` in the classic locale. -/
def toLower (string : List Char) : List Char := string.map Char.toLower

section Parser

-- `boost::lexical_cast< std::size_t >`, or the text of its exception
variable (lexicalCast : List Char → Except String ℕ)

def parseDigits (string : List Char) (suffixSize : ℕ) : Except ParserError ℕ :=
  let digits := string.take (string.length - suffixSize)
  match lexicalCast digits with
  | .ok size => .ok size
  | .error what => .error (.invalidChunkSize string what)

def parseChunkSize (string : List Char) : Except ParserError ℕ :=
  match gMultipliers.find? fun entry => entry.1.isSuffixOf string with
  | some found => (parseDigits lexicalCast string found.1.length).map fun digits =>
      SizeT.mul found.2 digits
  | none => parseDigits lexicalCast string 0

/-- `parser_t::operator()` from the lookups in `variables` on. -/
def parser (fs : FileSystem (List Byte)) (faults : Faults) (current : Path)
    (options : VariablesMap) : Except ParserError Arguments := do
  let some input := options.input | throw .inputMissing
  let some output := options.output | throw .outputMissing
  let chunkSize ← match options.chunkSize with
    | some chunkSize => parseChunkSize lexicalCast (toLower chunkSize)
    | none => pure (1000 * 1000)
  (Arguments.construct fs faults current input output chunkSize).mapError .arguments

/-- The conversion accepts a numeral below `2 ^ 64` with an optional sign,
negates modulo `2 ^ 64`, and throws on everything else. -/
structure CastsDecimals : Prop where
  accepts : ∀ (sign : Sign) (digits : List Char), IsNumeral digits →
    value digits < SizeT.modulus →
      lexicalCast (sign.text ++ digits) = .ok (SizeT.ofInt (sign.signed (value digits)))
  rejects : ∀ (string : List Char) (size : ℕ), lexicalCast string = .ok size →
    ∃ (sign : Sign) (digits : List Char), string = sign.text ++ digits ∧ IsNumeral digits ∧
      value digits < SizeT.modulus

end Parser

/-! ## How a string is read -/

/-- The string, in lower case, is a signed numeral with the suffix of the
multiplier. -/
structure Reads (string : List Char) (sign : Sign) (digits suffix : List Char)
    (multiplier : ℕ) : Prop where
  numeral : IsNumeral digits
  known : (suffix, multiplier) ∈ ([], 1) :: gMultipliers
  text : toLower string = sign.text ++ digits ++ suffix

def sizeInRange (size : ℤ) : Prop := gMinChunkSize ≤ size ∧ size ≤ gMaxChunkSize

theorem gMultipliers_suffix :
    ∀ e ∈ gMultipliers, ∀ e' ∈ gMultipliers, e.1 <:+ e'.1 → e = e' := by
  decide

theorem gMultipliers_last : ∀ e ∈ gMultipliers, e.1.getLast? = some 'b' := by
  decide

theorem gMultipliers_head :
    ∀ e ∈ ([], 1) :: gMultipliers, e.1.head?.any Char.isDigit = false := by
  decide

theorem gMultipliers_pos : ∀ e ∈ ([], 1) :: gMultipliers, 0 < e.2 := by
  decide

section Suffix

variable {string front : List Char} {e : List Char × ℕ}

theorem find_multiplier (he : e ∈ gMultipliers) :
    gMultipliers.find? (fun entry => entry.1.isSuffixOf (front ++ e.1)) = some e := by
  have hmatch : e.1.isSuffixOf (front ++ e.1) = true := by simp
  cases hfind : gMultipliers.find? fun entry => entry.1.isSuffixOf (front ++ e.1) with
  | none => exact absurd hmatch (List.find?_eq_none.mp hfind e he)
  | some found =>
      have hfound := List.mem_of_find?_eq_some hfind
      have hsuffix : found.1 <:+ front ++ e.1 := by simpa using List.find?_some hfind
      rcases List.suffix_or_suffix_of_suffix hsuffix (List.suffix_append front e.1) with h | h
      · rw [gMultipliers_suffix found hfound e he h]
      · rw [gMultipliers_suffix e he found hfound h]

theorem find_none {digits : List Char} (h : IsNumeral digits) :
    gMultipliers.find? (fun entry => entry.1.isSuffixOf (front ++ digits)) = none := by
  apply List.find?_eq_none.mpr
  intro e he hmatch
  obtain ⟨before, hbefore⟩ : e.1 <:+ front ++ digits := by simpa using hmatch
  have hlast : (front ++ digits).getLast? = some 'b' := by
    rw [← hbefore, List.getLast?_append, gMultipliers_last e he, Option.some_or]
  have hd : digits.getLast? = some (digits.getLast h.1) := List.getLast?_eq_some_getLast h.1
  rw [List.getLast?_append, hd, Option.some_or] at hlast
  rw [hlast] at hd
  exact absurd (List.all_eq_true.mp h.2 'b' (List.mem_of_getLast? hd)) (by decide)

end Suffix

section Accepted

variable {lexicalCast : List Char → Except String ℕ} {string front suffix : List Char}
  {size multiplier : ℕ}

theorem parseDigits_eq (lexicalCast : List Char → Except String ℕ) (front suffix : List Char) :
    parseDigits lexicalCast (front ++ suffix) suffix.length =
      (lexicalCast front).mapError (.invalidChunkSize (front ++ suffix)) := by
  have htake : (front ++ suffix).take ((front ++ suffix).length - suffix.length) = front := by
    rw [List.length_append, Nat.add_sub_cancel, List.take_left]
  rw [parseDigits, htake]
  cases lexicalCast front <;> rfl

theorem parseChunkSize_suffix {e : List Char × ℕ} (he : e ∈ gMultipliers) :
    parseChunkSize lexicalCast (front ++ e.1) =
      ((lexicalCast front).mapError (.invalidChunkSize (front ++ e.1))).map (SizeT.mul e.2) := by
  simp only [parseChunkSize, find_multiplier he, parseDigits_eq]

theorem parseChunkSize_plain
    (h : gMultipliers.find? (fun entry => entry.1.isSuffixOf string) = none) :
    parseChunkSize lexicalCast string =
      (lexicalCast string).mapError (.invalidChunkSize string) := by
  have hdigits := parseDigits_eq lexicalCast string []
  rw [List.append_nil] at hdigits
  simp only [parseChunkSize, h]
  exact hdigits

theorem of_mapError {α ε ε' : Type} {x : Except ε α} {f : ε → ε'} {a : α}
    (h : x.mapError f = .ok a) : x = .ok a := by
  cases x with
  | error error => cases h
  | ok a' => exact congrArg _ (Except.ok.inj h)

/-- `parse_chunk_size` of a string that is read with a multiplier. -/
theorem Reads.parseChunkSize {sign : Sign} {digits : List Char}
    (hcast : CastsDecimals lexicalCast) (h : Reads string sign digits suffix multiplier)
    (hlt : value digits < SizeT.modulus) :
    parseChunkSize lexicalCast (toLower string) =
      .ok (SizeT.ofInt (multiplier * sign.signed (value digits))) := by
  have haccepts := hcast.accepts sign digits h.numeral hlt
  rw [h.text]
  rcases List.mem_cons.mp h.known with hnone | hknown
  · obtain ⟨rfl, rfl⟩ := Prod.mk.inj hnone
    rw [List.append_nil, parseChunkSize_plain (find_none h.numeral), haccepts, Nat.cast_one,
      one_mul]
    rfl
  · rw [parseChunkSize_suffix hknown, haccepts, ← SizeT.mul_ofInt]
    rfl

theorem reads_of_parseChunkSize (hcast : CastsDecimals lexicalCast)
    (h : parseChunkSize lexicalCast (toLower string) = .ok size) :
    ∃ sign digits suffix multiplier, Reads string sign digits suffix multiplier ∧
      value digits < SizeT.modulus := by
  cases hfind : gMultipliers.find? fun entry => entry.1.isSuffixOf (toLower string) with
  | none =>
      rw [parseChunkSize_plain hfind] at h
      obtain ⟨sign, digits, htext, hnumeral, hlt⟩ := hcast.rejects _ _ (of_mapError h)
      refine ⟨sign, digits, [], 1, ⟨hnumeral, List.mem_cons_self, ?_⟩, hlt⟩
      rw [htext, List.append_nil]
  | some e =>
      have he := List.mem_of_find?_eq_some hfind
      obtain ⟨front, hfront⟩ : e.1 <:+ toLower string := by simpa using List.find?_some hfind
      rw [← hfront, parseChunkSize_suffix he] at h
      cases hdigits : lexicalCast front with
      | error what =>
          rw [hdigits] at h
          cases h
      | ok digits =>
          obtain ⟨sign, digits, rfl, hnumeral, hlt⟩ := hcast.rejects _ _ hdigits
          exact ⟨sign, digits, e.1, e.2, ⟨hnumeral, List.mem_cons_of_mem _ he, hfront.symm⟩, hlt⟩

theorem Reads.unique {sign sign' : Sign} {digits digits' suffix' : List Char} {multiplier' : ℕ}
    (h : Reads string sign digits suffix multiplier)
    (h' : Reads string sign' digits' suffix' multiplier') :
    sign = sign' ∧ digits = digits' ∧ multiplier = multiplier' := by
  obtain ⟨hsign, hdigits, hsuffix⟩ := signed_unique h.numeral h'.numeral
    (gMultipliers_head _ h.known) (gMultipliers_head _ h'.known) (h.text.symm.trans h'.text)
  have hmultiplier : ∀ e ∈ ([], 1) :: gMultipliers, ∀ e' ∈ ([], 1) :: gMultipliers,
      e.1 = e'.1 → e.2 = e'.2 := by
    decide
  exact ⟨hsign, hdigits, hmultiplier _ h.known _ h'.known hsuffix⟩

end Accepted

/-! ## Which sizes are accepted -/

section Exact

variable {lexicalCast : List Char → Except String ℕ} {fs : FileSystem (List Byte)}
  {faults : Faults} {current : Path} {input output : PathName} {string : List Char} {size : ℕ}

/-- The parser accepts the string as this chunk size. -/
def Accepts (lexicalCast : List Char → Except String ℕ) (fs : FileSystem (List Byte))
    (faults : Faults) (current : Path) (input output : PathName) (string : List Char)
    (size : ℕ) : Prop :=
  ∃ args, parser lexicalCast fs faults current ⟨some input, some output, some string⟩ = .ok args ∧
    args.chunkSize.value = size

/-- The string is a numeral without a minus sign, and the exact product with
its multiplier is this size. -/
def ReadsAs (string : List Char) (size : ℕ) : Prop :=
  ∃ sign digits suffix multiplier, Reads string sign digits suffix multiplier ∧ sign ≠ .minus ∧
    size = multiplier * value digits

/-- No reading of the string has a product outside the range that wraps into it. -/
def NeverWrapsIntoRange (string : List Char) : Prop :=
  ∀ sign digits suffix multiplier, Reads string sign digits suffix multiplier →
    value digits < SizeT.modulus →
      sizeInRange (SizeT.ofInt (multiplier * sign.signed (value digits))) →
        sizeInRange (multiplier * sign.signed (value digits))

theorem parser_eq :
    parser lexicalCast fs faults current ⟨some input, some output, some string⟩ =
      match parseChunkSize lexicalCast (toLower string) with
      | .error error => .error error
      | .ok size =>
          (Arguments.construct fs faults current input output size).mapError .arguments := by
  cases h : parseChunkSize lexicalCast (toLower string) with
  | error error => simp [parser, h]; rfl
  | ok size => simp [parser, h]; rfl

/-- What the parser accepts, `arguments_t` has accepted. -/
theorem construct_of_parsed {options : VariablesMap} {args : Arguments}
    (h : parser lexicalCast fs faults current options = .ok args) :
    ∃ input output chunkSize,
      Arguments.construct fs faults current input output chunkSize = .ok args := by
  obtain ⟨input, output, chunkSize⟩ := options
  cases input with
  | none => cases h
  | some input =>
      cases output with
      | none => cases h
      | some output =>
          cases chunkSize with
          | none => exact ⟨input, output, 1000 * 1000, of_mapError h⟩
          | some string =>
              rw [parser_eq] at h
              cases hsize : parseChunkSize lexicalCast (toLower string) with
              | error error =>
                  rw [hsize] at h
                  cases h
              | ok size =>
                  rw [hsize] at h
                  exact ⟨input, output, size, of_mapError h⟩

/-- The input path of accepted arguments names a regular file. -/
theorem regular_of_parsed {options : VariablesMap} {args : Arguments}
    (h : parser lexicalCast fs faults current options = .ok args) :
    (status fs (faults .inputStatus) args.inputPath).1 = .regularFile := by
  obtain ⟨input, output, chunkSize, hargs⟩ := construct_of_parsed h
  exact (Arguments.construct_eq_ok hargs).2.2.2

theorem accepts_iff (hinput : InputAccepted fs faults current input) :
    Accepts lexicalCast fs faults current input output string size ↔
      parseChunkSize lexicalCast (toLower string) = .ok size ∧ sizeInRange size := by
  rw [Accepts, parser_eq]
  constructor
  · rintro ⟨args, hargs, rfl⟩
    cases hparse : parseChunkSize lexicalCast (toLower string) with
    | error error =>
        rw [hparse] at hargs
        cases hargs
    | ok parsed =>
        rw [hparse] at hargs
        obtain ⟨-, -, rfl, -⟩ := Arguments.construct_eq_ok (of_mapError hargs)
        exact ⟨rfl, Int.ofNat_le.mpr args.chunkSize.min_le, Int.ofNat_le.mpr args.chunkSize.le_max⟩
  · rintro ⟨hparse, hmin, hmax⟩
    have hrange : gMinChunkSize ≤ size ∧ size ≤ gMaxChunkSize :=
      ⟨Int.ofNat_le.mp hmin, Int.ofNat_le.mp hmax⟩
    rw [hparse]
    simp only [hinput.construct, dif_pos hrange]
    exact ⟨_, rfl, rfl⟩

theorem signed_of_ne_minus {sign : Sign} (h : sign ≠ .minus) (n : ℕ) : sign.signed n = n := by
  cases sign with
  | none => rfl
  | plus => rfl
  | minus => exact absurd rfl h

theorem ne_minus_of_inRange {sign : Sign} {m n : ℕ} (h : sizeInRange (m * sign.signed n)) :
    sign ≠ .minus := by
  rintro rfl
  have hmin : (gMinChunkSize : ℤ) ≤ m * -(n : ℤ) := h.1
  have hpos : (0 : ℤ) < gMinChunkSize := by decide
  have hproduct : (m : ℤ) * -(n : ℤ) = -((m * n : ℕ) : ℤ) := by
    rw [mul_neg, Int.natCast_mul]
  omega

theorem lt_modulus_of_inRange {n : ℕ} (h : sizeInRange n) : n < SizeT.modulus := by
  have hmax : n ≤ gMaxChunkSize := Int.ofNat_le.mp h.2
  exact Nat.lt_of_le_of_lt hmax (by decide)

/-- A string is accepted as exactly the sizes it stands for, if and only if no
reading of it wraps into the range. -/
theorem chunk_size_exact_iff (hcast : CastsDecimals lexicalCast)
    (hinput : InputAccepted fs faults current input) (output : PathName) (string : List Char) :
    (∀ size : ℕ, Accepts lexicalCast fs faults current input output string size ↔
      ReadsAs string size ∧ sizeInRange size) ↔ NeverWrapsIntoRange string := by
  constructor
  · intro hexact sign digits suffix multiplier hreads hlt hwraps
    have hparse := hreads.parseChunkSize hcast hlt
    obtain ⟨⟨sign', digits', suffix', multiplier', hreads', hsign, hsize⟩, hrange⟩ :=
      (hexact _).mp ((accepts_iff hinput).mpr ⟨hparse, hwraps⟩)
    obtain ⟨rfl, rfl, rfl⟩ := hreads.unique hreads'
    rw [signed_of_ne_minus hsign, ← Int.natCast_mul, ← hsize]
    exact hwraps
  · intro hnever size
    rw [accepts_iff hinput]
    constructor
    · rintro ⟨hparse, hrange⟩
      obtain ⟨sign, digits, suffix, multiplier, hreads, hlt⟩ := reads_of_parseChunkSize hcast hparse
      rw [hreads.parseChunkSize hcast hlt] at hparse
      obtain rfl := Except.ok.inj hparse
      have hexact := hnever sign digits suffix multiplier hreads hlt hrange
      have hsign := ne_minus_of_inRange hexact
      refine ⟨⟨sign, digits, suffix, multiplier, hreads, hsign, ?_⟩, hrange⟩
      rw [signed_of_ne_minus hsign, ← Int.natCast_mul] at hexact ⊢
      exact SizeT.ofInt_of_lt (lt_modulus_of_inRange hexact)
    · rintro ⟨⟨sign, digits, suffix, multiplier, hreads, hsign, rfl⟩, hrange⟩
      have hproduct := lt_modulus_of_inRange hrange
      have hvalue : value digits ≤ multiplier * value digits :=
        Nat.le_mul_of_pos_left _ (gMultipliers_pos _ hreads.known)
      refine ⟨?_, hrange⟩
      rw [hreads.parseChunkSize hcast (Nat.lt_of_le_of_lt hvalue hproduct),
        signed_of_ne_minus hsign, ← Int.natCast_mul, SizeT.ofInt_of_lt hproduct]

end Exact

/-! ## A conversion -/

/-- The sign and the digits of a decimal text. -/
def splitSign : List Char → Sign × List Char
  | '+' :: digits => (.plus, digits)
  | '-' :: digits => (.minus, digits)
  | digits => (.none, digits)

def decimalCast (string : List Char) : Except String ℕ :=
  let (sign, digits) := splitSign string
  if IsNumeral digits ∧ value digits < SizeT.modulus then
    .ok (SizeT.ofInt (sign.signed (value digits)))
  else .error "bad lexical cast: source type value could not be interpreted as target"

theorem splitSign_text {sign : Sign} {digits : List Char} (h : IsNumeral digits) :
    splitSign (sign.text ++ digits) = (sign, digits) := by
  cases sign with
  | none =>
      obtain ⟨c, rest, hhead, hplus, hminus⟩ := numeral_append h []
      rw [List.append_nil] at hhead
      subst hhead
      simp [splitSign, Sign.text, hplus, hminus]
  | plus => rfl
  | minus => rfl

theorem text_splitSign (string : List Char) :
    (splitSign string).1.text ++ (splitSign string).2 = string := by
  unfold splitSign
  split <;> rfl

theorem decimalCast_castsDecimals : CastsDecimals decimalCast where
  accepts := by
    intro sign digits hnumeral hlt
    simp only [decimalCast, splitSign_text hnumeral]
    rw [if_pos ⟨hnumeral, hlt⟩]
  rejects := by
    intro string size h
    simp only [decimalCast] at h
    split_ifs at h with hvalid
    exact ⟨_, _, (text_splitSign string).symm, hvalid.1, hvalid.2⟩

theorem chunk_size_exact_iff_sixty_four_kb :
    (∀ size : ℕ, Accepts decimalCast twoFiles noFaults [] dataPath signaturePath
      ['6', '4', 'k', 'b'] size ↔ ReadsAs ['6', '4', 'k', 'b'] size ∧ sizeInRange size) ↔
        NeverWrapsIntoRange ['6', '4', 'k', 'b'] :=
  chunk_size_exact_iff decimalCast_castsDecimals inputAccepted_twoFiles signaturePath
    ['6', '4', 'k', 'b']

/-- The command line with the two files and a chunk size of 64000 bytes. -/
def twoFilesOptions : VariablesMap := ⟨some dataPath, some signaturePath, some ['6', '4', 'k', 'b']⟩

def twoFilesArguments : Arguments := ⟨["data"], ["signature"], ⟨64000, by decide, by decide⟩⟩

theorem parser_twoFiles : parser decimalCast twoFiles noFaults [] twoFilesOptions =
    .ok twoFilesArguments := rfl

/-- `(2 ^ 64 + 65536) / 1024`. -/
def wrappingDigits : List Char :=
  ['1', '8', '0', '1', '4', '3', '9', '8', '5', '0', '9', '4', '8', '2', '0', '4', '8']

theorem reads_wrappingDigits :
    Reads (wrappingDigits ++ ['k', 'i', 'b']) .none wrappingDigits ['k', 'i', 'b'] 1024 :=
  ⟨by decide, by decide, rfl⟩

/-- A product of `2 ^ 64 + 65536` bytes is accepted as `65536`. -/
theorem wrapped_product_accepted :
    Accepts decimalCast twoFiles noFaults [] dataPath signaturePath
      (wrappingDigits ++ ['k', 'i', 'b']) 65536 ∧
    ¬ ReadsAs (wrappingDigits ++ ['k', 'i', 'b']) 65536 := by
  constructor
  · apply (accepts_iff inputAccepted_twoFiles).mpr
    refine ⟨?_, by decide, by decide⟩
    exact reads_wrappingDigits.parseChunkSize decimalCast_castsDecimals (by decide)
  · rintro ⟨sign, digits, suffix, multiplier, hreads, -, hsize⟩
    obtain ⟨-, rfl, rfl⟩ := reads_wrappingDigits.unique hreads
    exact absurd hsize (by decide)

end VeeamSignature
