import VeeamSignature.BlockLayout
import VeeamSignature.Library.Slices

/-!
# When the blocks tile the file

The layout loop starts each block one byte after the end of its predecessor.
A file of one block is tiled; with a second block the byte between the two is
in neither.
-/

namespace VeeamSignature

open Slices

namespace Signature

/-- `storage` of `mapped_file_t`. -/
def mappedFileBlocks (fileSize blockCount : ℕ) (c : ChunkSize) : Option (List Block) :=
  layout fileSize blockCount c.value c.pos

end Signature

namespace Signature2

/-- `storage` of `block_file_t`. -/
def blockFileBlocks (fileSize blockCount : ℕ) (c : ChunkSize) : Option (List Block) :=
  layout fileSize blockCount c.value c.pos

end Signature2

def Block.span (b : Block) : Span := ⟨b.offset, b.size⟩

/-- The blocks follow one another from the start of the file to its end, cut
at multiples of the chunk size. -/
structure TilesFile (fileSize chunkSize : ℕ) (blocks : List Block) : Prop where
  first : ∀ b ∈ blocks.head?, b.offset = 0
  contiguous : blocks.IsChain fun a b => b.offset = a.offset + a.size
  offset_dvd : ∀ b ∈ blocks, chunkSize ∣ b.offset
  size_dvd : ∀ b ∈ blocks.dropLast, chunkSize ∣ b.size
  last : ∃ b, blocks.getLast? = some b ∧ b.offset + b.size = fileSize
  covered : ∀ p < fileSize, blocks.countP (fun b => b.span.Contains p) = 1

theorem tilesFile_single {s c : ℕ} {b : Block} (hoffset : b.offset = 0) (hsize : b.size = s) :
    TilesFile s c [b] where
  first := by simpa using hoffset
  contiguous := by simp
  offset_dvd := by simp [hoffset]
  size_dvd := by simp
  last := ⟨b, by simp, by omega⟩
  covered := by
    intro p hp
    have hin : b.span.Contains p := by
      constructor
      · simp [Block.span, hoffset]
      · simpa [Block.span, Span.stop, hoffset, hsize] using hp
    simp [hin]

theorem layout_cons_cons {s n c : ℕ} (hc : 0 < c) (hn : 1 ≤ n) (hk : reducedCount s n c ≠ 1) :
    ∃ a b rest, layout s n c hc = some (a :: b :: rest) ∧ a.offset = 0 ∧
      a.size = blockSize (s / reducedCount s n c) c ∧
      b.offset = (blockSize (s / reducedCount s n c) c + 1) % SizeT.modulus := by
  have hpos := reducedCount_pos s n c
  obtain ⟨k, hk'⟩ : ∃ k, reducedCount s n c = k + 2 := ⟨reducedCount s n c - 2, by omega⟩
  rw [layout_eq hc hn, hk']
  cases k with
  | zero =>
      refine ⟨_, _, [], rfl, ?_, rfl, ?_⟩
      · simp [innerBlock]
      · simp [tailBlock]
  | succ k =>
      have hrange : List.range (k + 1 + 2 - 1) = 0 :: 1 :: (List.range k).map (· + 2) := by
        simp [List.range_succ_eq_map, Function.comp_def]
      rw [hrange]
      refine ⟨_, _, _, rfl, ?_, rfl, ?_⟩
      · simp [innerBlock]
      · simp [innerBlock]

theorem layout_not_tilesFile {s n c : ℕ} (hc : 0 < c) (hn : 1 ≤ n)
    (hk : reducedCount s n c ≠ 1) {blocks : List Block} (h : layout s n c hc = some blocks)
    (fileSize chunkSize : ℕ) : ¬ TilesFile fileSize chunkSize blocks := by
  intro htiles
  obtain ⟨a, b, rest, hlayout, ha, hsize, hb⟩ := layout_cons_cons hc hn hk
  obtain rfl := Option.some.inj (hlayout.symm.trans h)
  have hstart : b.offset = a.offset + a.size := (List.isChain_cons_cons.mp htiles.contiguous).1
  have hlt := a.size_lt
  rw [ha, hb, ← hsize, Nat.zero_add] at hstart
  by_cases hwrap : a.size + 1 < SizeT.modulus
  · rw [Nat.mod_eq_of_lt hwrap] at hstart
    omega
  · have hmod : a.size + 1 = SizeT.modulus := by omega
    rw [hmod, Nat.mod_self] at hstart
    exact absurd hmod (by rw [← hstart]; decide)

/-- In a layout of several blocks inside the file some byte is in no block. -/
theorem layout_gap {s n c : ℕ} (hc : 0 < c) (hn : 1 ≤ n) (hs : s < 2 ^ 63)
    (hk : reducedCount s n c ≠ 1) {blocks : List Block} (h : layout s n c hc = some blocks)
    (hinside : ∀ b ∈ blocks, b.Inside s) :
    ∃ p < s, ∀ b ∈ blocks, ¬ b.span.Contains p := by
  have hpos := reducedCount_pos s n c
  rw [layout_eq hc hn] at h
  obtain rfl := Option.some.inj h
  generalize reducedCount s n c = k at hk hpos hinside ⊢
  have hinner : ∀ i < k - 1, (innerBlock (s / k) c hc i).Inside s := by
    intro i hi
    exact hinside _ (List.mem_append_left _ (List.mem_map.mpr ⟨i, List.mem_range.mpr hi, rfl⟩))
  have htail : (tailBlock s k c hc).Inside s := hinside _ (by simp)
  have hoffset : ∀ i < k - 1,
      (innerBlock (s / k) c hc i).offset = i * (blockSize (s / k) c + 1) := by
    intro i hi
    exact inner_offset hc hs hinner (Nat.le_of_lt hi)
  have hlast : (tailBlock s k c hc).offset = (k - 1) * (blockSize (s / k) c + 1) :=
    inner_offset hc hs hinner (le_refl _)
  have hafter : ∀ i, 1 ≤ i → blockSize (s / k) c + 1 ≤ i * (blockSize (s / k) c + 1) :=
    fun i hi => Nat.le_mul_of_pos_left _ hi
  have htailStart := hafter (k - 1) (by omega)
  refine ⟨blockSize (s / k) c, ?_, ?_⟩
  · have hle : (tailBlock s k c hc).offset ≤ s := (Nat.le_add_right _ _).trans htail
    omega
  · intro b hb hcontains
    have hlow : b.offset ≤ blockSize (s / k) c := hcontains.1
    have hhigh : blockSize (s / k) c < b.offset + b.size := hcontains.2
    rcases List.mem_append.mp hb with hb | hb
    · obtain ⟨i, hi, rfl⟩ := List.mem_map.mp hb
      have hi := hoffset i (List.mem_range.mp hi)
      have hsize : (innerBlock (s / k) c hc i).size = blockSize (s / k) c := rfl
      rcases Nat.eq_zero_or_pos i with rfl | hpos
      · omega
      · have := hafter i hpos
        omega
    · obtain rfl := List.mem_singleton.mp hb
      omega

def LayoutInside (fileSize blockCount : ℕ) (c : ChunkSize) : Prop :=
  ∀ b ∈ (Signature2.blockFileBlocks fileSize blockCount c).getD [], b.Inside fileSize

instance (fileSize blockCount : ℕ) (c : ChunkSize) :
    Decidable (LayoutInside fileSize blockCount c) :=
  inferInstanceAs (Decidable (∀ b ∈ _, Block.Inside b _))

theorem layout_tilesFile_iff {s n : ℕ} (c : ChunkSize) (hs : s < SizeT.modulus) (hn : 1 ≤ n) :
    (∃ blocks, layout s n c.value c.pos = some blocks ∧ TilesFile s c.value blocks) ↔
      n = 1 ∨ s < 2 * c.value := by
  rw [← reducedCount_eq_one_iff c.pos hn]
  constructor
  · rintro ⟨blocks, hblocks, htiles⟩
    by_contra hk
    exact layout_not_tilesFile c.pos hn hk hblocks _ _ htiles
  · intro hk
    exact ⟨_, layout_single c.pos hn hs hk, tilesFile_single rfl rfl⟩

/-- The blocks of both versions tile the file exactly when there is one core
or the file is shorter than two chunks, so that there is one block. -/
theorem blocks_tile_file_iff (s n : ℕ) (c : ChunkSize) (hs : s < SizeT.modulus) (hn : 1 ≤ n) :
    ((∃ blocks, Signature.mappedFileBlocks s n c = some blocks ∧ TilesFile s c.value blocks) ↔
      n = 1 ∨ s < 2 * c.value) ∧
    ((∃ blocks, Signature2.blockFileBlocks s n c = some blocks ∧ TilesFile s c.value blocks) ↔
      n = 1 ∨ s < 2 * c.value) :=
  ⟨layout_tilesFile_iff c hs hn, layout_tilesFile_iff c hs hn⟩

def smallestChunk : ChunkSize := ⟨gMinChunkSize, le_refl _, by decide⟩

/-- A file of five chunks, and its blocks on two cores. -/
def fiveChunks : FileContent := zeroFile 320000 (by decide)

def leftBlock : Block := ⟨0, 0, 192000, 64000, by decide, by decide⟩

def rightBlock : Block := ⟨1, 192001, 127999, 64000, by decide, by decide⟩

theorem size_fiveChunks : fiveChunks.size = 320000 :=
  zeroFile_size 320000 _

theorem fiveChunks_layout :
    Signature2.blockFileBlocks fiveChunks.size 2 smallestChunk = some [leftBlock, rightBlock] := by
  rw [size_fiveChunks]
  decide

theorem fiveChunks_inside : ∀ b ∈ [leftBlock, rightBlock], b.Inside fiveChunks.size := by
  rw [size_fiveChunks]
  decide

theorem blocks_tile_file_at_five_chunks :
    ((∃ blocks, Signature.mappedFileBlocks 320000 2 smallestChunk = some blocks ∧
      TilesFile 320000 smallestChunk.value blocks) ↔ 2 = 1 ∨ 320000 < 2 * smallestChunk.value) ∧
    ((∃ blocks, Signature2.blockFileBlocks 320000 2 smallestChunk = some blocks ∧
      TilesFile 320000 smallestChunk.value blocks) ↔ 2 = 1 ∨ 320000 < 2 * smallestChunk.value) :=
  blocks_tile_file_iff 320000 2 smallestChunk (by decide) (by decide)

/-- Five chunks on two cores: both blocks lie inside the file and do not tile it. -/
theorem five_chunks_on_two_cores_not_tiled :
    LayoutInside 320000 2 smallestChunk ∧
      ∀ blocks, (Signature.mappedFileBlocks 320000 2 smallestChunk = some blocks ∨
        Signature2.blockFileBlocks 320000 2 smallestChunk = some blocks) →
          ¬ TilesFile 320000 smallestChunk.value blocks := by
  refine ⟨by decide, fun blocks hblocks => ?_⟩
  have hlayout : layout 320000 2 smallestChunk.value smallestChunk.pos = some blocks :=
    hblocks.elim id id
  exact layout_not_tilesFile smallestChunk.pos (by decide) (by decide) hlayout _ _

end VeeamSignature
