import Mathlib.Logic.Function.Basic
import VeeamSignature.Library.Gf2
import VeeamSignature.Library.Slices

/-!
# CRC32 of a chunk

The two SSE 4.2 intrinsics as the instruction set manual defines them, and
`compute_crc32`, which is the same function in both versions of the program.
-/

namespace VeeamSignature

open Slices

/-- `byte_t`. -/
abbrev Byte := BitVec 8

/-- `crc32_t`. -/
abbrev Crc32 := BitVec 32

/-- The divisor `0x11EDC6F41` without its leading coefficient. -/
def crc32Polynomial : BitVec 32 := 0x1EDC6F41

/-- `_mm_crc32_u8`. -/
def mmCrc32U8 (crc : Crc32) (value : Byte) : Crc32 :=
  let temp1 := value.reverse
  let temp2 := crc.reverse
  let temp3 : BitVec 40 := temp1.setWidth 40 <<< 32
  let temp4 : BitVec 40 := temp2.setWidth 40 <<< 8
  (Gf2.mod2 crc32Polynomial (temp3 ^^^ temp4)).reverse

/-- `_mm_crc32_u32`. -/
def mmCrc32U32 (crc : Crc32) (value : BitVec 32) : Crc32 :=
  let temp1 := value.reverse
  let temp2 := crc.reverse
  let temp3 : BitVec 64 := temp1.setWidth 64 <<< 32
  let temp4 : BitVec 64 := temp2.setWidth 64 <<< 32
  (Gf2.mod2 crc32Polynomial (temp3 ^^^ temp4)).reverse

/-- `*reinterpret_cast< const uint8_t * >( chunk )`. -/
def loadU8 (chunk : List Byte) : Byte := chunk.headD 0

/-- `*reinterpret_cast< const uint32_t * >( chunk )` on a little-endian machine. -/
def loadU32 (chunk : List Byte) : BitVec 32 :=
  (chunk.getD 3 0 ++ chunk.getD 2 0 ++ chunk.getD 1 0 ++ chunk.getD 0 0 : BitVec (8 + 8 + 8 + 8))

/-- The loop over whole words; it hands the pointer on. -/
def crc32Words : ℕ → Crc32 → List Byte → Crc32 × List Byte
  | 0, crc, chunk => (crc, chunk)
  | count + 1, crc, chunk => crc32Words count (mmCrc32U32 crc (loadU32 chunk)) (chunk.drop 4)

/-- The loop over the tail.  The source does not advance `chunk` here. -/
def crc32Tail : ℕ → Crc32 → List Byte → Crc32
  | 0, crc, _ => crc
  | count + 1, crc, chunk => crc32Tail count (mmCrc32U8 crc (loadU8 chunk)) chunk

/-- `compute_crc32` of the first `size` bytes of `memory`. -/
def computeCrc32 (memory : List Byte) (size : ℕ) : Crc32 :=
  let words := crc32Words (size / 4) 0 memory
  crc32Tail (size % 4) words.1 words.2

def crcOf (bytes : List Byte) : Crc32 := computeCrc32 bytes bytes.length

/-- Reading `size` bytes of an allocation or a mapping from `start`; outside it
the read has no value. -/
def load (memory : List Byte) (start size : ℕ) : Option (List Byte) :=
  if start + size ≤ memory.length then some (slice memory start size) else none

/-- `compute_crc32` called on a part of the memory. -/
def crcAt (memory : List Byte) (start size : ℕ) : Option Crc32 :=
  (load memory start size).map fun bytes => computeCrc32 bytes size

theorem crcAt_eq {memory : List Byte} {start size : ℕ} (h : start + size ≤ memory.length) :
    crcAt memory start size = some (crcOf (slice memory start size)) := by
  have hlen : (slice memory start size).length = size := length_slice_of_le h
  simp [crcAt, load, crcOf, hlen, h]

theorem le_of_crcAt {memory : List Byte} {start size : ℕ} {crc : Crc32}
    (h : crcAt memory start size = some crc) : start + size ≤ memory.length := by
  by_contra hout
  have hload : load memory start size = none := if_neg hout
  simp [crcAt, hload] at h

/-- The four bytes of a `crc32_t` in memory. -/
def crc32Bytes (crc : Crc32) : List Byte :=
  [crc.extractLsb' 0 8, crc.extractLsb' 8 8, crc.extractLsb' 16 8, crc.extractLsb' 24 8]

@[simp] theorem length_crc32Bytes (crc : Crc32) : (crc32Bytes crc).length = 4 := rfl

theorem getLsbD_eq_byte (crc : Crc32) {start i : ℕ} (hlow : start ≤ i) (hhigh : i < start + 8) :
    crc.getLsbD i = (crc.extractLsb' start 8).getLsbD (i - start) := by
  have hlt : i - start < 8 := by omega
  have hi : start + (i - start) = i := by omega
  simp [hlt, hi]

theorem crc32Bytes_injective : Function.Injective crc32Bytes := by
  intro a b h
  simp only [crc32Bytes, List.cons.injEq, and_true] at h
  obtain ⟨h₀, h₁, h₂, h₃⟩ := h
  apply BitVec.eq_of_getLsbD_eq
  intro i hi
  have hcases : i < 8 ∨ 8 ≤ i ∧ i < 16 ∨ 16 ≤ i ∧ i < 24 ∨ 24 ≤ i := by omega
  rcases hcases with hlt | ⟨hle, hlt⟩ | ⟨hle, hlt⟩ | hle
  · rw [getLsbD_eq_byte a (Nat.zero_le i) hlt, getLsbD_eq_byte b (Nat.zero_le i) hlt, h₀]
  · rw [getLsbD_eq_byte a hle hlt, getLsbD_eq_byte b hle hlt, h₁]
  · rw [getLsbD_eq_byte a hle hlt, getLsbD_eq_byte b hle hlt, h₂]
  · rw [getLsbD_eq_byte a hle hi, getLsbD_eq_byte b hle hi, h₃]

theorem flatMap_crc32Bytes_injective :
    Function.Injective fun crcs : List Crc32 => crcs.flatMap crc32Bytes := by
  intro xs
  induction xs with
  | nil =>
      intro ys h
      cases ys with
      | nil => rfl
      | cons y ys => cases h
  | cons x xs ih =>
      intro ys h
      cases ys with
      | nil => cases h
      | cons y ys =>
          obtain ⟨hhead, htail⟩ := List.append_inj h rfl
          rw [crc32Bytes_injective hhead, ih htail]

end VeeamSignature
