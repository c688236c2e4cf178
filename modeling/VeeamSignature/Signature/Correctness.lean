import VeeamSignature.Library.OptionMapM
import VeeamSignature.Signature.Program

/-!
# What the first version writes

The signature of a file is the sequence of the checksums of its chunks.  The
first version writes it exactly when the layout has one block; otherwise the
byte between the first two blocks is in no record.
-/

namespace VeeamSignature.Signature

open Slices OptionMapM

/-! ## One block -/

theorem map_slice_chunkSpans {M : List Byte} {b : Block} (h : b.Inside M.length) :
    (chunkSpans b).map (fun s => slice M s.start s.length) =
      chunks b.chunkSize (slice M b.offset b.size) := by
  have hlen : (slice M b.offset b.size).length = b.size := length_slice_of_le h
  have hsize := b.chunksCount_mul_add_tailSize
  have hwhole : (List.range b.chunksCount).map
      (fun i => slice M (b.offset + i * b.chunkSize) b.chunkSize) =
      (List.range b.chunksCount).map
        (fun i => slice (slice M b.offset b.size) (i * b.chunkSize) b.chunkSize) := by
    refine List.map_congr_left fun i hi => (slice_slice M ?_).symm
    have hi : (i + 1) * b.chunkSize ≤ b.chunksCount * b.chunkSize :=
      Nat.mul_le_mul_right _ (List.mem_range.mp hi)
    rw [Nat.add_mul, Nat.one_mul] at hi
    omega
  rw [chunks, hlen, chunkCount_eq b.chunkSize_pos, chunkSpans]
  by_cases htail : b.tailSize = 0
  · rw [if_pos htail, if_pos (show b.size % b.chunkSize = 0 from htail)]
    simp only [List.append_nil, Nat.add_zero, List.map_map, Function.comp_def]
    exact hwhole
  · rw [if_neg htail, if_neg (show ¬ b.size % b.chunkSize = 0 from htail)]
    have hrest : slice (slice M b.offset b.size) (b.chunksCount * b.chunkSize) b.chunkSize =
        slice M (b.offset + b.chunksCount * b.chunkSize) b.tailSize := by
      have hle := b.tailSize_lt
      rw [slice_of_le _ (by rw [hlen]; omega), hlen,
        show b.size - b.chunksCount * b.chunkSize = b.tailSize by omega]
      exact slice_slice M (by omega)
    rw [List.range_succ, List.map_append, List.map_append, List.map_map]
    apply congrArg₂ _ hwhole
    simpa [Block.chunksCount] using hrest.symm

theorem blockHasher_inside {M : List Byte} {b : Block} (h : b.Inside M.length) :
    blockHasher (crcAt M) b =
      some ((chunks b.chunkSize (slice M b.offset b.size)).map crcOf) := by
  have hspans : ∀ s ∈ chunkSpans b,
      crcAt M s.start s.length = some (crcOf (slice M s.start s.length)) := by
    intro s hs
    exact crcAt_eq ((chunkSpans_bounds hs).2.trans h)
  rw [blockHasher_eq, mapM_eq_some_map hspans, ← map_slice_chunkSpans h, List.map_map]
  rfl

theorem inside_of_blockHasher {M : List Byte} {b : Block} (hb : 0 < b.size) {hash : List Crc32}
    (h : blockHasher (crcAt M) b = some hash) : b.Inside M.length := by
  rw [blockHasher_eq] at h
  have htiles := chunkSpans_tiles b
  have hne : chunkSpans b ≠ [] := by
    intro hnil
    rw [hnil] at htiles
    simp only [Tiles] at htiles
    omega
  obtain ⟨spans, last, hspans⟩ : ∃ spans last, chunkSpans b = spans ++ [last] :=
    ⟨_, _, (List.dropLast_append_getLast hne).symm⟩
  obtain ⟨crc, hcrc⟩ := exists_of_mapM_eq_some h last (by simp [hspans])
  have hstop : last.stop = b.offset + b.size := by
    rw [hspans] at htiles
    exact htiles.last_stop
  rw [Block.Inside, ← hstop]
  exact le_of_crcAt hcrc

/-! ## The whole file -/

def fileChunk (F : List Byte) (c i : ℕ) : List Byte :=
  slice F (i * c) (min ((i + 1) * c) F.length - i * c)

def recordCount (fileSize c : ℕ) : ℕ := (fileSize + c - 1) / c

/-- The signature of a file: the checksums of its chunks in increasing order. -/
def expectedSignature (F : List Byte) (c : ℕ) : List Byte :=
  (List.range (recordCount F.length c)).flatMap fun i =>
    crc32Bytes (computeCrc32 (fileChunk F c i) (fileChunk F c i).length)

theorem fileChunk_eq (F : List Byte) (c i : ℕ) : fileChunk F c i = slice F (i * c) c := by
  unfold fileChunk
  by_cases h : (i + 1) * c ≤ F.length
  · rw [Nat.min_eq_left h, Nat.add_mul, Nat.one_mul, Nat.add_sub_cancel_left]
  · rw [Nat.add_mul, Nat.one_mul] at h ⊢
    have hle : F.length ≤ i * c + c := by omega
    rw [Nat.min_eq_right (by omega), slice_of_le F hle]

theorem expectedSignature_eq (F : List Byte) (c : ℕ) :
    expectedSignature F c = ((chunks c F).map crcOf).flatMap crc32Bytes := by
  simp only [expectedSignature, fileChunk_eq, chunks, recordCount, chunkCount, List.flatMap_map,
    crcOf]

/-! ## Runs that end well -/

theorem recordSpans_eq {s n : ℕ} {c : ChunkSize} {blocks : List Block}
    (h : mappedFileBlocks s n c = some blocks) :
    recordSpans s n c = blocks.flatMap chunkSpans := by
  have hblock : ∀ b ∈ blocks,
      blockHasher (fun memory size => some (⟨memory, size⟩ : Span)) b = some (chunkSpans b) := by
    intro b _
    have hid : ∀ s ∈ chunkSpans b, some (⟨s.start, s.length⟩ : Span) = some (id s) :=
      fun _ _ => rfl
    rw [blockHasher_eq, mapM_eq_some_map hid, List.map_id]
  rw [recordSpans, h, Option.bind_some, hasher, mapM_eq_some_map hblock, Option.getD_some,
    List.flatMap_def]

theorem run_eq_success {F : FileContent} {n : ℕ} {c : ChunkSize} {written : List Byte}
    (h : run F n c = .success written) :
    F.size ≠ 0 ∧ ∃ blocks signature, mappedFileBlocks F.size n c = some blocks ∧
      hasher (crcAt F.bytes) blocks = some signature ∧
      written = writerBytes signature := by
  unfold run at h
  split at h
  · cases h
  case isFalse hne =>
    split at h
    · cases h
    case h_2 blocks hblocks =>
      split at h
      · cases h
      case h_2 signature hsignature =>
        exact ⟨hne, blocks, signature, hblocks, hsignature, (Outcome.success.inj h).symm⟩

/-- A run that ends well read no byte outside the mapping. -/
theorem inside_of_hasher {F : FileContent} {n : ℕ} {c : ChunkSize} (hn : 1 ≤ n)
    {blocks : List Block} {signature : List (List Crc32)}
    (hblocks : mappedFileBlocks F.size n c = some blocks)
    (h : hasher (crcAt F.bytes) blocks = some signature) :
    ∀ b ∈ blocks, b.Inside F.size := by
  intro b hb
  obtain ⟨hash, hhash⟩ := exists_of_mapM_eq_some h b hb
  rcases Nat.eq_zero_or_pos b.size with hsize | hsize
  · have hoffset := offset_of_size_eq_zero c.pos hn (c.fits F) hblocks hb hsize
    rw [Block.Inside, hoffset, hsize, Nat.add_zero]
  · exact inside_of_blockHasher hsize hhash

theorem hasher_inside {F : FileContent} {blocks : List Block}
    (h : ∀ b ∈ blocks, b.Inside F.size) :
    hasher (crcAt F.bytes) blocks = some (blocks.map fun b =>
      (chunks b.chunkSize (slice F.bytes b.offset b.size)).map crcOf) :=
  mapM_eq_some_map fun b hb => blockHasher_inside (h b hb)

theorem run_single {F : FileContent} (hF : F.size ≠ 0) {n : ℕ} (hn : 1 ≤ n) {c : ChunkSize}
    (hone : reducedCount F.size n c.value = 1) :
    run F n c = .success (expectedSignature F.bytes c.value) := by
  have hblocks : mappedFileBlocks F.size n c = some _ :=
    layout_single c.pos hn F.size_lt_modulus hone
  have hinside : Block.Inside ⟨0, 0, F.size, c.value, F.size_lt_modulus, c.pos⟩ F.size := by
    simp [Block.Inside]
  have hhash := hasher_inside (F := F) (List.forall_mem_singleton.mpr hinside)
  have hslice : slice F.bytes 0 F.size = F.bytes := slice_all F.bytes
  rw [run, if_neg hF, hblocks]
  simp only [hhash, writerBytes, expectedSignature_eq, List.map_cons, List.map_nil,
    List.flatMap_cons, List.flatMap_nil, List.append_nil, hslice]

theorem length_written {F : FileContent} (hF : F.size ≠ 0) {n : ℕ} {c : ChunkSize}
    {blocks : List Block} (hblocks : mappedFileBlocks F.size n c = some blocks)
    (hinside : ∀ b ∈ blocks, b.Inside F.size) : ∃ written, run F n c = .success written ∧
      written.length = (blocks.map fun b => chunkCount b.chunkSize b.size * 4).sum := by
  refine ⟨_, by rw [run, if_neg hF, hblocks]; simp only [hasher_inside hinside]; rfl, ?_⟩
  rw [writerBytes, List.flatMap_map, List.length_flatMap]
  congr 1
  refine List.map_congr_left fun b hb => ?_
  have hsize : (slice F.bytes b.offset b.size).length = b.size :=
    length_slice_of_le (hinside b hb)
  simp [List.length_flatMap, Function.comp_def, List.map_const', length_chunks, hsize]

/-- What the first version should do for a file: write the checksums of its
chunks, one record for each, with every byte of the file in one record. -/
structure SignatureCorrect (F : FileContent) (blockCount : ℕ) (c : ChunkSize) : Prop where
  written : run F blockCount c = .success (expectedSignature F.bytes c.value)
  records : (recordSpans F.size blockCount c).length = recordCount F.size c.value
  hashed_once : ∀ p < F.size, (recordSpans F.size blockCount c).countP (·.Contains p) = 1

theorem signatureCorrect_single {F : FileContent} (hF : F.size ≠ 0) {n : ℕ} (hn : 1 ≤ n)
    {c : ChunkSize} (hone : reducedCount F.size n c.value = 1) : SignatureCorrect F n c := by
  have hblocks : mappedFileBlocks F.size n c = some _ :=
    layout_single c.pos hn F.size_lt_modulus hone
  let b : Block := ⟨0, 0, F.size, c.value, F.size_lt_modulus, c.pos⟩
  have hspans : recordSpans F.size n c = chunkSpans b := by
    rw [recordSpans_eq hblocks, List.flatMap_singleton]
  have hinside : b.Inside F.bytes.length := by simp [Block.Inside, b, FileContent.size]
  refine ⟨run_single hF hn hone, ?_, ?_⟩
  · have hlength := congrArg List.length (map_slice_chunkSpans hinside)
    have hslice : slice F.bytes b.offset b.size = F.bytes := slice_all F.bytes
    rw [List.length_map, length_chunks, hslice] at hlength
    rw [hspans, hlength]
    rfl
  · intro p hp
    rw [hspans]
    apply (chunkSpans_tiles b).countP_contains (Nat.zero_le p)
    simpa [b] using hp

theorem not_signatureCorrect {F : FileContent} {n : ℕ} (hn : 1 ≤ n) {c : ChunkSize}
    (hk : reducedCount F.size n c.value ≠ 1) : ¬ SignatureCorrect F n c := by
  intro hcorrect
  obtain ⟨-, blocks, signature, hblocks, hhash, -⟩ := run_eq_success hcorrect.written
  have hinside := inside_of_hasher hn hblocks hhash
  obtain ⟨p, hp, hgap⟩ := layout_gap c.pos hn F.size_lt hk hblocks hinside
  have honce := hcorrect.hashed_once p hp
  rw [recordSpans_eq hblocks] at honce
  have hzero : (blocks.flatMap chunkSpans).countP (·.Contains p) = 0 := by
    apply List.countP_eq_zero.mpr
    intro s hs
    obtain ⟨b, hb, hs⟩ := List.mem_flatMap.mp hs
    have hout : ¬ s.Contains p := by
      intro hcontains
      obtain ⟨hlow, hhigh⟩ := chunkSpans_bounds hs
      exact hgap b hb ⟨hlow.trans hcontains.1, Nat.lt_of_lt_of_le hcontains.2 hhigh⟩
    simpa using hout
  omega

/-- The first version writes the signature of a non-empty file exactly when
there is one core or the file is shorter than two chunks; two such core counts
give the same signature. -/
theorem signature_correct_iff (F : FileContent) (hF : F.size ≠ 0) (n : ℕ) (hn : 1 ≤ n)
    (c : ChunkSize) :
    (SignatureCorrect F n c ↔ n = 1 ∨ F.size < 2 * c.value) ∧
      ∀ m, 1 ≤ m → (m = 1 ∨ F.size < 2 * c.value) → (n = 1 ∨ F.size < 2 * c.value) →
        run F m c = run F n c := by
  constructor
  · rw [← reducedCount_eq_one_iff c.pos hn]
    constructor
    · intro hcorrect
      by_contra hk
      exact not_signatureCorrect hn hk hcorrect
    · exact signatureCorrect_single hF hn
  · intro m hm hone hone'
    rw [← reducedCount_eq_one_iff c.pos hm] at hone
    rw [← reducedCount_eq_one_iff c.pos hn] at hone'
    rw [run_single hF hm hone, run_single hF hn hone']

theorem signature_correct_iff_one_chunk :
    (SignatureCorrect (zeroFile 64000 (by decide)) 8 smallestChunk ↔
      8 = 1 ∨ (zeroFile 64000 (by decide)).size < 2 * smallestChunk.value) ∧
      ∀ m, 1 ≤ m → (m = 1 ∨ (zeroFile 64000 (by decide)).size < 2 * smallestChunk.value) →
        (8 = 1 ∨ (zeroFile 64000 (by decide)).size < 2 * smallestChunk.value) →
          run (zeroFile 64000 (by decide)) m smallestChunk =
            run (zeroFile 64000 (by decide)) 8 smallestChunk :=
  signature_correct_iff _ (by simp) 8 (by decide) smallestChunk

/-- A file of five chunks and a byte, and its blocks on two cores and on one. -/
def fiveChunksAndByte : FileContent := zeroFile 320001 (by decide)

theorem size_fiveChunksAndByte : fiveChunksAndByte.size = 320001 := zeroFile_size 320001 _

theorem lt_modulus_of_le_size {s : ℕ} (h : s ≤ 320001) : s < SizeT.modulus :=
  Nat.lt_of_le_of_lt (size_fiveChunksAndByte ▸ h) fiveChunksAndByte.size_lt_modulus

def evenBlocks : List Block :=
  [leftBlock, ⟨1, 192001, 128000, 64000, lt_modulus_of_le_size (by omega), smallestChunk.pos⟩]

def wholeBlocks : List Block :=
  [⟨0, 0, 320001, 64000, lt_modulus_of_le_size (le_refl _), smallestChunk.pos⟩]

theorem fiveChunksAndByte_layouts :
    mappedFileBlocks fiveChunksAndByte.size 2 smallestChunk = some evenBlocks ∧
      mappedFileBlocks fiveChunksAndByte.size 1 smallestChunk = some wholeBlocks ∧
      ∀ b ∈ evenBlocks ++ wholeBlocks, b.Inside fiveChunksAndByte.size := by
  rw [size_fiveChunksAndByte]
  decide

/-- Five chunks on two cores: the byte after the first block is in no record.
With one byte more, two cores write five records and one core writes six. -/
theorem five_chunks_on_two_cores_incorrect :
    ¬ SignatureCorrect (zeroFile 320000 (by decide)) 2 smallestChunk ∧
      (recordSpans 320000 2 smallestChunk).countP (·.Contains 192000) = 0 ∧
      (∃ written, run fiveChunksAndByte 2 smallestChunk = .success written ∧
        written.length = 20) ∧
      ∃ written, run fiveChunksAndByte 1 smallestChunk = .success written ∧
        written.length = 24 := by
  obtain ⟨hlayout, hlayout', hinside⟩ := fiveChunksAndByte_layouts
  have hne : fiveChunksAndByte.size ≠ 0 := by
    rw [size_fiveChunksAndByte]
    decide
  refine ⟨?_, by decide, ?_, ?_⟩
  · apply not_signatureCorrect (by decide)
    rw [zeroFile_size]
    decide
  · exact length_written hne hlayout fun b hb => hinside b (List.mem_append_left _ hb)
  · exact length_written hne hlayout' fun b hb => hinside b (List.mem_append_right _ hb)

end VeeamSignature.Signature
