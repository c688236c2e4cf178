import Mathlib.Data.List.Basic
import VeeamSignature.Crc32
import VeeamSignature.Library.SizeT

/-!
# Blocks

The data both versions share: the input file, the chunk size that
`arguments_t` accepts and `block_t`.  A block of the first version keeps a
pointer into the mapping; it is modelled by its distance from the start of
the mapping, so that one type serves both.
-/

namespace VeeamSignature

/-- The content of a regular file; its size is an `off_t`. -/
@[ext] structure FileContent where
  bytes : List Byte
  size_lt : bytes.length < 2 ^ 63

def FileContent.size (F : FileContent) : ℕ := F.bytes.length

theorem FileContent.size_lt_modulus (F : FileContent) : F.size < SizeT.modulus :=
  Nat.lt_trans F.size_lt (by decide)

def zeroFile (size : ℕ) (h : size < 2 ^ 63) : FileContent :=
  ⟨List.replicate size 0, by rwa [List.length_replicate]⟩

@[simp] theorem zeroFile_size (size : ℕ) (h : size < 2 ^ 63) : (zeroFile size h).size = size :=
  List.length_replicate

def gMaxChunkSize : ℕ := 1000 * 1000 * 1000 * 1

def gMinChunkSize : ℕ := 64000

/-- A chunk size that passed the range check of `arguments_t`. -/
@[ext] structure ChunkSize where
  value : ℕ
  min_le : gMinChunkSize ≤ value
  le_max : value ≤ gMaxChunkSize

theorem ChunkSize.pos (c : ChunkSize) : 0 < c.value :=
  Nat.lt_of_lt_of_le (by decide) c.min_le

theorem ChunkSize.fits_of_lt (c : ChunkSize) {size : ℕ} (h : size < 2 ^ 63) :
    size + c.value < SizeT.modulus := by
  have hmax := c.le_max
  unfold gMaxChunkSize at hmax
  unfold SizeT.modulus
  omega

theorem ChunkSize.fits (c : ChunkSize) (F : FileContent) : F.size + c.value < SizeT.modulus :=
  c.fits_of_lt F.size_lt

/-- `block_t`. -/
structure Block where
  blockId : ℕ
  offset : ℕ
  size : ℕ
  chunkSize : ℕ
  size_lt : size < SizeT.modulus
  chunkSize_pos : 0 < chunkSize
  deriving DecidableEq

namespace Block

def chunksCount (b : Block) : ℕ := b.size / b.chunkSize

def tailSize (b : Block) : ℕ := b.size % b.chunkSize

def Inside (b : Block) (fileSize : ℕ) : Prop := b.offset + b.size ≤ fileSize

instance (b : Block) (fileSize : ℕ) : Decidable (b.Inside fileSize) :=
  inferInstanceAs (Decidable (_ ≤ _))

theorem chunksCount_mul_add_tailSize (b : Block) :
    b.chunksCount * b.chunkSize + b.tailSize = b.size := by
  rw [chunksCount, tailSize, Nat.mul_comm]
  exact Nat.div_add_mod b.size b.chunkSize

theorem tailSize_lt (b : Block) : b.tailSize < b.chunkSize :=
  Nat.mod_lt _ b.chunkSize_pos

end Block

def smallBlock : Block := ⟨0, 0, 3, 2, by decide, by decide⟩

end VeeamSignature
