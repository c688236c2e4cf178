import Mathlib.Data.List.Basic
import VeeamSignature.Crc32

/-!
# Word steps and byte steps of the CRC32 register

In reversed bit order a step adds its input to the high end of the register and
multiplies by a power of `x`.  Four byte steps are therefore one word step, and
every step is injective in the register.  The loop over whole words agrees with
the byte steps; the loop over the tail does so only where the tail repeats one
byte, because it never moves past the first.
-/

namespace VeeamSignature

open Slices

theorem crc32Polynomial_getLsbD_zero : crc32Polynomial.getLsbD 0 = true := by
  decide

theorem reverse_mmCrc32U8 (crc : Crc32) (value : Byte) :
    (mmCrc32U8 crc value).reverse =
      Gf2.advance crc32Polynomial 8 (crc.reverse ^^^ value.reverse.setWidth 32 <<< 24) := by
  have hvalue : Gf2.mod2 crc32Polynomial (value.reverse.setWidth 40 <<< 32) =
      Gf2.advance crc32Polynomial 8 (value.reverse.setWidth 32 <<< 24) := by
    have hmove := Gf2.advance_shiftLeft crc32Polynomial value.reverse
      (show 8 + 0 + 24 ≤ 32 by decide)
    rw [BitVec.shiftLeft_zero, Nat.zero_add] at hmove
    calc
      Gf2.mod2 crc32Polynomial (value.reverse.setWidth (8 + 32) <<< 32) =
          Gf2.advance crc32Polynomial (8 + 24) (value.reverse.setWidth 32) := by
        rw [Gf2.mod2_shiftLeft, Gf2.mod2_of_le _ _ (by decide)]
      _ = Gf2.advance crc32Polynomial 8 (value.reverse.setWidth 32 <<< 24) := by
        rw [Gf2.advance_add, hmove]
  have hcrc : Gf2.mod2 crc32Polynomial (crc.reverse.setWidth 40 <<< 8) =
      Gf2.advance crc32Polynomial 8 crc.reverse :=
    Gf2.mod2_shiftLeft_self _ _ 8
  rw [mmCrc32U8, BitVec.reverse_reverse_eq, Gf2.mod2_xor, hvalue, hcrc, Gf2.advance_xor,
    BitVec.xor_comm]

theorem reverse_mmCrc32U32 (crc : Crc32) (value : BitVec 32) :
    (mmCrc32U32 crc value).reverse =
      Gf2.advance crc32Polynomial 32 (crc.reverse ^^^ value.reverse) := by
  have hshift (x : BitVec 32) : Gf2.mod2 crc32Polynomial (x.setWidth 64 <<< 32) =
      Gf2.advance crc32Polynomial 32 x :=
    Gf2.mod2_shiftLeft_self _ x 32
  rw [mmCrc32U32, BitVec.reverse_reverse_eq, Gf2.mod2_xor, hshift, hshift, Gf2.advance_xor,
    BitVec.xor_comm]

theorem reverse_injective {w : ℕ} : Function.Injective (BitVec.reverse : BitVec w → BitVec w) :=
  Function.LeftInverse.injective fun _ => BitVec.reverse_reverse_eq

theorem mmCrc32U8_injective (value : Byte) :
    Function.Injective fun crc => mmCrc32U8 crc value := by
  intro crc crc' h
  have hrev := congrArg BitVec.reverse h
  rw [reverse_mmCrc32U8, reverse_mmCrc32U8] at hrev
  have hadvance := Gf2.advance_injective crc32Polynomial_getLsbD_zero 8 hrev
  exact reverse_injective ((BitVec.xor_left_inj _).mp hadvance)

theorem mmCrc32U32_injective (crc : Crc32) : Function.Injective (mmCrc32U32 crc) := by
  intro value value' h
  have hrev := congrArg BitVec.reverse h
  rw [reverse_mmCrc32U32, reverse_mmCrc32U32] at hrev
  have hadvance := Gf2.advance_injective crc32Polynomial_getLsbD_zero 32 hrev
  exact reverse_injective ((BitVec.xor_right_inj _).mp hadvance)

theorem foldl_mmCrc32U8_injective (bytes : List Byte) :
    Function.Injective fun crc => bytes.foldl mmCrc32U8 crc := by
  induction bytes with
  | nil => exact Function.injective_id
  | cons byte bytes ih => exact ih.comp (mmCrc32U8_injective byte)

theorem reverse_loadU32 (b₀ b₁ b₂ b₃ : Byte) :
    (loadU32 [b₀, b₁, b₂, b₃]).reverse =
      b₀.reverse.setWidth 32 <<< 24 ^^^ b₁.reverse.setWidth 32 <<< 16 ^^^
        b₂.reverse.setWidth 32 <<< 8 ^^^ b₃.reverse.setWidth 32 := by
  apply BitVec.eq_of_getLsbD_eq
  intro i hi
  simp only [loadU32, List.getD_cons_zero, List.getD_cons_succ, BitVec.getLsbD_reverse,
    BitVec.getMsbD_eq_getLsbD, BitVec.getLsbD_append, BitVec.getLsbD_xor,
    BitVec.getLsbD_shiftLeft, BitVec.getLsbD_setWidth]
  grind

/-- One word step is four byte steps. -/
theorem mmCrc32U32_loadU32 (crc : Crc32) (b₀ b₁ b₂ b₃ : Byte) :
    mmCrc32U32 crc (loadU32 [b₀, b₁, b₂, b₃]) = [b₀, b₁, b₂, b₃].foldl mmCrc32U8 crc := by
  -- a byte that enters below the top is there when its own step comes
  have hmove (b : Byte) {k : ℕ} (h : 8 + k + 8 ≤ 32) :
      Gf2.advance crc32Polynomial 8 (b.reverse.setWidth 32 <<< k) =
        b.reverse.setWidth 32 <<< (k + 8) :=
    Gf2.advance_shiftLeft crc32Polynomial b.reverse h
  have hfirst (b : Byte) : Gf2.advance crc32Polynomial 8 (b.reverse.setWidth 32) =
      b.reverse.setWidth 32 <<< 8 := by
    simpa using hmove b (k := 0) (by decide)
  have hfour (r : BitVec 32) : Gf2.advance crc32Polynomial 32 r =
      Gf2.advance crc32Polynomial 8 (Gf2.advance crc32Polynomial 8
        (Gf2.advance crc32Polynomial 8 (Gf2.advance crc32Polynomial 8 r))) := by
    rw [← Gf2.advance_add, ← Gf2.advance_add, ← Gf2.advance_add]
  apply reverse_injective
  rw [reverse_mmCrc32U32, reverse_loadU32, hfour]
  simp only [List.foldl_cons, List.foldl_nil, reverse_mmCrc32U8, Gf2.advance_xor,
    hfirst, hmove _ (show 8 + 8 + 8 ≤ 32 by decide), hmove _ (show 8 + 16 + 8 ≤ 32 by decide)]
  ac_rfl

theorem crc32Bytes_loadU32 (b₀ b₁ b₂ b₃ : Byte) :
    crc32Bytes (loadU32 [b₀, b₁, b₂, b₃]) = [b₀, b₁, b₂, b₃] := by
  simp only [crc32Bytes, loadU32, List.getD_cons_zero, List.getD_cons_succ, List.cons.injEq,
    and_true]
  refine ⟨?_, ?_, ?_, ?_⟩ <;> apply BitVec.eq_of_getLsbD_eq <;> intro i hi <;>
    simp only [BitVec.getLsbD_extractLsb', BitVec.getLsbD_append] <;> grind

/-- Four bytes can be read off the register they were fed to. -/
theorem foldl_mmCrc32U8_word (crc : Crc32) {bytes bytes' : List Byte} (h : bytes.length = 4)
    (h' : bytes'.length = 4) (heq : bytes.foldl mmCrc32U8 crc = bytes'.foldl mmCrc32U8 crc) :
    bytes = bytes' := by
  obtain ⟨b₀, b₁, b₂, b₃, rfl⟩ := List.length_eq_four.mp h
  obtain ⟨b₀', b₁', b₂', b₃', rfl⟩ := List.length_eq_four.mp h'
  rw [← mmCrc32U32_loadU32, ← mmCrc32U32_loadU32] at heq
  rw [← crc32Bytes_loadU32, mmCrc32U32_injective crc heq, crc32Bytes_loadU32]

theorem foldl_mmCrc32U8_short (crc : Crc32) {bytes bytes' : List Byte} (h : bytes.length ≤ 4)
    (hlength : bytes'.length = bytes.length)
    (heq : bytes.foldl mmCrc32U8 crc = bytes'.foldl mmCrc32U8 crc) : bytes = bytes' := by
  have hpadded : bytes ++ List.replicate (4 - bytes.length) 0 =
      bytes' ++ List.replicate (4 - bytes.length) 0 := by
    apply foldl_mmCrc32U8_word crc
    · simp [h]
    · simp [hlength, h]
    · rw [List.foldl_append, List.foldl_append, heq]
  exact List.append_cancel_right hpadded

/-- The bytes that the tail loop is there for. -/
def crc32TailOf (bytes : List Byte) : List Byte := bytes.drop (4 * (bytes.length / 4))

/-- The bytes that the two loops feed, in order. -/
def crc32Fed (bytes : List Byte) : List Byte :=
  bytes.take (4 * (bytes.length / 4)) ++
    List.replicate (bytes.length % 4) (loadU8 (crc32TailOf bytes))

theorem crc32Words_eq (count : ℕ) (crc : Crc32) {chunk : List Byte}
    (h : 4 * count ≤ chunk.length) :
    crc32Words count crc chunk =
      ((chunk.take (4 * count)).foldl mmCrc32U8 crc, chunk.drop (4 * count)) := by
  induction count generalizing crc chunk with
  | zero => rfl
  | succ count ih =>
      have hword : (chunk.take 4).length = 4 := by
        rw [List.length_take]
        omega
      have hload : mmCrc32U32 crc (loadU32 chunk) = (chunk.take 4).foldl mmCrc32U8 crc := by
        obtain ⟨b₀, b₁, b₂, b₃, hfour⟩ := List.length_eq_four.mp hword
        rw [hfour, ← mmCrc32U32_loadU32, ← List.take_append_drop 4 chunk, hfour]
        rfl
      have hrest : 4 * count ≤ (chunk.drop 4).length := by
        rw [List.length_drop]
        omega
      have hcount : 4 * (count + 1) = 4 + 4 * count := by omega
      rw [crc32Words, ih _ hrest, hload, ← List.foldl_append, List.drop_drop, hcount,
        List.take_add]

theorem crc32Tail_eq (count : ℕ) (crc : Crc32) (chunk : List Byte) :
    crc32Tail count crc chunk = (List.replicate count (loadU8 chunk)).foldl mmCrc32U8 crc := by
  induction count generalizing crc with
  | zero => rfl
  | succ count ih => exact ih _

theorem crcOf_eq_foldl_fed (bytes : List Byte) :
    crcOf bytes = (crc32Fed bytes).foldl mmCrc32U8 0 := by
  have hwords : 4 * (bytes.length / 4) ≤ bytes.length := Nat.mul_div_le _ 4
  rw [crcOf, computeCrc32, crc32Words_eq _ _ hwords, crc32Tail_eq, crc32Fed, List.foldl_append]
  rfl

/-- The register after every byte has been fed once. -/
def crc32c (bytes : List Byte) : Crc32 := bytes.foldl mmCrc32U8 0

theorem crc32Fed_eq_iff (bytes : List Byte) :
    crc32Fed bytes = bytes ↔
      crc32TailOf bytes = List.replicate (bytes.length % 4) (loadU8 (crc32TailOf bytes)) := by
  have hsplit : bytes.take (4 * (bytes.length / 4)) ++ crc32TailOf bytes = bytes :=
    List.take_append_drop _ bytes
  constructor
  · intro h
    exact List.append_cancel_left (hsplit.trans h.symm)
  · intro h
    rw [crc32Fed, ← h, hsplit]

theorem eq_replicate_loadU8_iff (bytes : List Byte) :
    bytes = List.replicate bytes.length (loadU8 bytes) ↔ ∀ a ∈ bytes, ∀ b ∈ bytes, a = b := by
  cases bytes with
  | nil => simp
  | cons first bytes =>
      have hload : loadU8 (first :: bytes) = first := rfl
      rw [hload, List.eq_replicate_iff]
      constructor
      · intro h a ha b hb
        rw [h.2 a ha, h.2 b hb]
      · intro h
        exact ⟨rfl, fun a ha => h a ha first List.mem_cons_self⟩

/-- `compute_crc32` is the byte at a time computation exactly where the last
`size % 4` bytes are all the same. -/
theorem crcOf_eq_crc32c_iff (bytes : List Byte) :
    crcOf bytes = crc32c bytes ↔
      ∀ a ∈ crc32TailOf bytes, ∀ b ∈ crc32TailOf bytes, a = b := by
  have hlength : (crc32TailOf bytes).length = bytes.length % 4 := by
    rw [crc32TailOf, List.length_drop]
    omega
  rw [← eq_replicate_loadU8_iff, hlength, ← crc32Fed_eq_iff, crcOf_eq_foldl_fed]
  constructor
  · intro h
    rw [crc32Fed_eq_iff]
    apply foldl_mmCrc32U8_short ((bytes.take (4 * (bytes.length / 4))).foldl mmCrc32U8 0)
    · omega
    · rw [List.length_replicate, hlength]
    · rw [← List.foldl_append, ← List.foldl_append, crc32TailOf, List.take_append_drop]
      exact h.symm
  · intro h
    rw [h, crc32c]

/-- On the bytes `00 01` the loop reads `00` twice. -/
theorem crcOf_zero_one_ne_crc32c : crcOf [0, 1] ≠ crc32c [0, 1] := by
  decide +kernel

/-- Bytes that whole words cover come first in what the loops feed. -/
theorem crc32Fed_append {head head' : List Byte} (hlength : head.length = head'.length)
    {rest : List Byte} (h : head.length ≤ 4 * ((head ++ rest).length / 4)) :
    ∃ later, crc32Fed (head ++ rest) = head ++ later ∧
      crc32Fed (head' ++ rest) = head' ++ later := by
  have htotal : (head' ++ rest).length = (head ++ rest).length := by
    rw [List.length_append, List.length_append, hlength]
  refine ⟨rest.take (4 * ((head ++ rest).length / 4) - head.length) ++
    List.replicate ((head ++ rest).length % 4)
      (loadU8 (rest.drop (4 * ((head ++ rest).length / 4) - head.length))), ?_, ?_⟩
  · rw [crc32Fed, crc32TailOf, List.take_append, List.drop_append, List.take_of_length_le h,
      List.drop_of_length_le h, List.nil_append, List.append_assoc]
  · rw [crc32Fed, crc32TailOf, htotal, hlength, List.take_append, List.drop_append,
      List.take_of_length_le (hlength ▸ h), List.drop_of_length_le (hlength ▸ h),
      List.nil_append, List.append_assoc]

theorem eq_append_of_window {x y : List Byte} {start : ℕ} (hlength : x.length = y.length)
    (hwindow : start + 4 ≤ x.length)
    (hsame : ∀ i, x[i]? ≠ y[i]? → start ≤ i ∧ i < start + 4) :
    ∃ before u v rest, x = before ++ u ++ rest ∧ y = before ++ v ++ rest ∧
      before.length = start ∧ u.length = 4 ∧ v.length = 4 := by
  have hsplit (z : List Byte) : z.take start ++ slice z start 4 ++ z.drop (start + 4) = z := by
    rw [slice, ← List.take_add, List.take_append_drop]
  have hbefore : y.take start = x.take start := by
    apply List.ext_getElem?
    intro i
    rw [List.getElem?_take, List.getElem?_take]
    split
    · next hlt =>
        by_contra hdiff
        have hle := (hsame i (Ne.symm hdiff)).1
        omega
    · rfl
  have hrest : y.drop (start + 4) = x.drop (start + 4) := by
    apply List.ext_getElem?
    intro i
    rw [List.getElem?_drop, List.getElem?_drop]
    by_contra hdiff
    have hlt := (hsame (start + 4 + i) (Ne.symm hdiff)).2
    omega
  refine ⟨x.take start, slice x start 4, slice y start 4, x.drop (start + 4),
    (hsplit x).symm, ?_, ?_, length_slice_of_le hwindow, length_slice_of_le (hlength ▸ hwindow)⟩
  · rw [← hbefore, ← hrest, hsplit]
  · rw [List.length_take]
    omega

/-- Two buffers that differ only inside one window of four bytes, among those
that whole words cover. -/
theorem crcOf_ne_of_window {x y : List Byte} {start : ℕ} (hlength : x.length = y.length)
    (hne : x ≠ y) (hwindow : start + 4 ≤ 4 * (x.length / 4))
    (hsame : ∀ i, x[i]? ≠ y[i]? → start ≤ i ∧ i < start + 4) : crcOf x ≠ crcOf y := by
  intro heq
  have hle : start + 4 ≤ x.length := hwindow.trans (Nat.mul_div_le _ 4)
  obtain ⟨before, u, v, rest, hx, hy, hbefore, hu, hv⟩ := eq_append_of_window hlength hle hsame
  have hhead : (before ++ u).length = (before ++ v).length := by
    rw [List.length_append, List.length_append, hu, hv]
  have hcovered : (before ++ u).length ≤ 4 * ((before ++ u ++ rest).length / 4) := by
    rw [← hx, List.length_append, hbefore, hu]
    exact hwindow
  obtain ⟨later, hfedX, hfedY⟩ := crc32Fed_append hhead hcovered
  have hfold : (before ++ u).foldl mmCrc32U8 0 = (before ++ v).foldl mmCrc32U8 0 := by
    apply foldl_mmCrc32U8_injective later
    show later.foldl mmCrc32U8 _ = later.foldl mmCrc32U8 _
    rw [← List.foldl_append, ← List.foldl_append, ← hfedX, ← hfedY, ← hx, ← hy,
      ← crcOf_eq_foldl_fed, ← crcOf_eq_foldl_fed, heq]
  rw [List.foldl_append, List.foldl_append] at hfold
  have huv : u = v := foldl_mmCrc32U8_word _ hu hv hfold
  apply hne
  rw [hx, hy, huv]

/-- The window starts inside one word and ends in the next. -/
theorem crcOf_ne_of_window_straddling :
    crcOf [1, 2, 3, 4, 5, 6, 7, 8, 9] ≠ crcOf [1, 2, 0, 4, 5, 0, 7, 8, 9] := by
  apply @crcOf_ne_of_window _ _ 2 (by decide) (by decide) (by decide)
  intro i hdiff
  rcases Nat.lt_or_ge i 9 with hlt | hge
  · have hall : ∀ i < 9, ([1, 2, 3, 4, 5, 6, 7, 8, 9] : List Byte)[i]? ≠
        ([1, 2, 0, 4, 5, 0, 7, 8, 9] : List Byte)[i]? → 2 ≤ i ∧ i < 2 + 4 := by
      decide
    exact hall i hlt hdiff
  · rw [List.getElem?_eq_none hge, List.getElem?_eq_none hge] at hdiff
    exact absurd rfl hdiff

end VeeamSignature
