import VeeamSignature.Signature.Correctness
import VeeamSignature.Signature2.BlockReader

/-!
# When the blocks stay inside the file

Every block but the last is rounded up to whole chunks and followed by a byte
that is skipped, so the start of the last block can pass the end of the file;
the subtraction that gives its size then wraps.  The sums, products and
differences of the two constructors are listed with the operands they have on
the machine.
-/

namespace VeeamSignature

inductive ArithmeticStep
  | add (a b : ℕ)
  | mul (a b : ℕ)
  | sub (a b : ℕ)

/-- The result is the one over the integers. -/
def ArithmeticStep.Exact : ArithmeticStep → Prop
  | .add a b => a + b < SizeT.modulus
  | .mul a b => a * b < SizeT.modulus
  | .sub a b => b ≤ a

section Steps

-- what the versions do differently: moving `current_block_start` past a block,
-- and the size of the last block
variable (advance : Block → List ArithmeticStep) (finish : ℕ → List ArithmeticStep)

def reductionSteps (fileSize chunkSize : ℕ) : ℕ → ℕ → List ArithmeticStep
  | approximateBlockSize, blockCount + 2 =>
      if approximateBlockSize < chunkSize then
        .sub (blockCount + 2) 1 ::
          reductionSteps fileSize chunkSize (fileSize / (blockCount + 1)) (blockCount + 1)
      else []
  | _, _ => []

def emplaceSteps (blockCount approximateBlockSize : ℕ) (b : Block) : List ArithmeticStep :=
  [.sub blockCount 1, .add 1 (approximateBlockSize / b.chunkSize),
    .mul (SizeT.add 1 (approximateBlockSize / b.chunkSize)) b.chunkSize] ++
    advance b ++ [.add b.blockId 1]

def layoutSteps (fileSize blockCount chunkSize : ℕ) (hc : 0 < chunkSize) :
    Option (List ArithmeticStep) := do
  let quotient ← SizeT.div fileSize blockCount
  let (approximateBlockSize, reduced) ← reductionLoop fileSize chunkSize quotient blockCount
  let (storage, currentBlockStart) :=
    emplaceBlocks approximateBlockSize chunkSize hc (reduced - 1) 0 0
  some (reductionSteps fileSize chunkSize quotient blockCount ++
    storage.flatMap (emplaceSteps advance reduced approximateBlockSize) ++
    .sub reduced 1 :: finish currentBlockStart ++ [.sub reduced 1])

end Steps

/-- No step wraps, and every block is a non-empty part of the file. -/
structure StaysInside (fileSize : ℕ) (blocks : List Block) (steps : List ArithmeticStep) :
    Prop where
  exact : ∀ step ∈ steps, step.Exact
  start_lt : ∀ b ∈ blocks, b.offset < fileSize
  size_pos : ∀ b ∈ blocks, 0 < b.size
  inside : ∀ b ∈ blocks, b.Inside fileSize

namespace Signature

/-- The steps of `mapped_file_t` for a mapping at the given address. -/
def mappedFileSteps (memory fileSize blockCount : ℕ) (c : ChunkSize) :
    Option (List ArithmeticStep) :=
  layoutSteps
    (fun b =>
      let start := SizeT.add memory b.offset
      [.add start b.size, .add (SizeT.add start b.size) 1])
    (fun start => [.add memory fileSize,
      .sub (SizeT.add memory fileSize) (SizeT.add memory start)])
    fileSize blockCount c.value c.pos

/-- The blocks stay inside the file, and the hasher reads mapped bytes only. -/
def BlocksInside (memory fileSize blockCount : ℕ) (c : ChunkSize) : Prop :=
  ∃ blocks steps, mappedFileBlocks fileSize blockCount c = some blocks ∧
    mappedFileSteps memory fileSize blockCount c = some steps ∧
    StaysInside fileSize blocks steps ∧
    ∀ F : FileContent, F.size = fileSize →
      ∀ b ∈ blocks, ∃ hash, blockHasher (crcAt F.bytes) b = some hash

end Signature

namespace Signature2

/-- The steps of `block_file_t`. -/
def blockFileSteps (fileSize blockCount : ℕ) (c : ChunkSize) : Option (List ArithmeticStep) :=
  layoutSteps (fun b => [.add b.size 1, .add b.offset (SizeT.add b.size 1)])
    (fun start => [.sub fileSize start]) fileSize blockCount c.value c.pos

/-- The blocks stay inside the file, and the assertion of `do_read` holds of a
new reader. -/
def BlocksInside (fileSize blockCount : ℕ) (c : ChunkSize) : Prop :=
  ∃ blocks steps, blockFileBlocks fileSize blockCount c = some blocks ∧
    blockFileSteps fileSize blockCount c = some steps ∧
    StaysInside fileSize blocks steps ∧
    ∀ b ∈ blocks, (BlockReader.start b).offset < b.size

end Signature2

/-! ## The steps in closed form -/

variable {advance : Block → List ArithmeticStep} {finish : ℕ → List ArithmeticStep}

theorem reductionSteps_exact (s c a n : ℕ) : ∀ step ∈ reductionSteps s c a n, step.Exact := by
  induction n generalizing a with
  | zero => simp [reductionSteps]
  | succ n ih =>
      cases n with
      | zero => simp [reductionSteps]
      | succ n =>
          rw [reductionSteps]
          split_ifs
          · intro step hstep
            rcases List.mem_cons.mp hstep with rfl | hstep
            · exact Nat.le_add_left 1 (n + 1)
            · exact ih _ step hstep
          · simp

theorem layoutSteps_eq {s n c : ℕ} (hc : 0 < c) (hn : 1 ≤ n) {k a : ℕ}
    (hk : reducedCount s n c = k) (ha : s / k = a) :
    layoutSteps advance finish s n c hc = some (reductionSteps s c (s / n) n ++
      ((List.range (k - 1)).map (innerBlock a c hc)).flatMap (emplaceSteps advance k a) ++
      .sub k 1 :: finish ((k - 1) * (blockSize a c + 1) % SizeT.modulus) ++ [.sub k 1]) := by
  subst hk ha
  have hloop := emplaceBlocks_eq (s / reducedCount s n c) c hc (reducedCount s n c - 1) 0
  rw [Nat.zero_mul, Nat.zero_mod, Nat.zero_add] at hloop
  simp only [layoutSteps, SizeT.div_of_pos hn, reductionLoop_eq hc hn, hloop,
    Option.bind_eq_bind, Option.bind_some, List.range_eq_range']

/-- Where the last block starts if nothing wraps. -/
def tailStart (fileSize blockCount chunkSize : ℕ) : ℕ :=
  let k := reducedCount fileSize blockCount chunkSize
  (k - 1) * ((1 + fileSize / k / chunkSize) * chunkSize + 1)

theorem innerBlock_before {s a c count i : ℕ} (hc : 0 < c)
    (hbefore : count * (blockSize a c + 1) < s) (hi : i < count) :
    (innerBlock a c hc i).offset + (innerBlock a c hc i).size < s := by
  have hnext : (i + 1) * (blockSize a c + 1) ≤ count * (blockSize a c + 1) :=
    Nat.mul_le_mul_right _ hi
  have hoffset : (innerBlock a c hc i).offset ≤ i * (blockSize a c + 1) := Nat.mod_le _ _
  have hsize : (innerBlock a c hc i).size = blockSize a c := rfl
  rw [Nat.add_mul, Nat.one_mul] at hnext
  omega

theorem tailBlock_before {s c k : ℕ} (hc : 0 < c) (hs : s < SizeT.modulus)
    (hbefore : (k - 1) * (blockSize (s / k) c + 1) < s) :
    (tailBlock s k c hc).offset < s ∧
      (tailBlock s k c hc).offset + (tailBlock s k c hc).size = s := by
  have hstart : (tailBlock s k c hc).offset < s := Nat.lt_of_le_of_lt (Nat.mod_le _ _) hbefore
  have hrest : (tailBlock s k c hc).size = s - (tailBlock s k c hc).offset :=
    SizeT.sub_of_le (Nat.le_of_lt hstart) hs
  exact ⟨hstart, by omega⟩

theorem emplaceSteps_exact {s a c k i : ℕ} (hc : 0 < c) (hs : s < SizeT.modulus)
    (hk : 1 ≤ k) (hfit : a + c < SizeT.modulus) (hbefore : (k - 1) * (blockSize a c + 1) < s)
    (hadvance : ∀ b, b.offset + b.size < s → ∀ step ∈ advance b, step.Exact) (hi : i < k - 1) :
    ∀ step ∈ emplaceSteps advance k a (innerBlock a c hc i), step.Exact := by
  intro step hstep
  have hcount : k - 1 ≤ (k - 1) * (blockSize a c + 1) := Nat.le_mul_of_pos_right _ (Nat.succ_pos _)
  simp only [emplaceSteps, List.mem_append, List.mem_cons, List.not_mem_nil, or_false] at hstep
  obtain ((rfl | rfl | rfl) | hstep) | rfl := hstep
  · exact hk
  · exact chunksInBlock_lt hfit
  · show SizeT.add 1 (a / c) * c < SizeT.modulus
    rw [SizeT.add_of_lt (chunksInBlock_lt hfit)]
    exact chunksInBlock_mul_lt hfit
  · exact hadvance _ (innerBlock_before hc hbefore hi) step hstep
  · show i + 1 < SizeT.modulus
    omega

theorem staysInside_iff {s n c : ℕ} (hc : 0 < c) (hn : 1 ≤ n) (hs : s < 2 ^ 63)
    (hfit : s + c < SizeT.modulus)
    (hadvance : ∀ b, b.offset + b.size < s → ∀ step ∈ advance b, step.Exact)
    (hfinish : ∀ start < s, ∀ step ∈ finish start, step.Exact) :
    (∃ blocks steps, layout s n c hc = some blocks ∧
      layoutSteps advance finish s n c hc = some steps ∧ StaysInside s blocks steps) ↔
    tailStart s n c < s := by
  simp only [layout_eq hc hn, layoutSteps_eq hc hn rfl rfl, Option.some.injEq,
    exists_and_left, exists_eq_left']
  have hk := reducedCount_pos s n c
  simp only [tailStart]
  generalize reducedCount s n c = k at hk ⊢
  have hsize : s / k + c < SizeT.modulus :=
    Nat.lt_of_le_of_lt (Nat.add_le_add_right (Nat.div_le_self s k) c) hfit
  have hmod : s < SizeT.modulus := Nat.lt_of_le_of_lt (Nat.le_add_right s c) hfit
  rw [← blockSize_eq hsize]
  constructor
  · intro h
    have hinner : ∀ i < k - 1, (innerBlock (s / k) c hc i).Inside s := fun i hi =>
      h.inside _ (List.mem_append_left _ (List.mem_map.mpr ⟨i, List.mem_range.mpr hi, rfl⟩))
    have hstart : (tailBlock s k c hc).offset < s := h.start_lt _ (by simp)
    rwa [tailBlock, inner_offset hc hs hinner (Nat.le_refl _)] at hstart
  · intro hbefore
    obtain ⟨hstart, hstop⟩ := tailBlock_before hc hmod hbefore
    have hblock : ∀ b ∈ (List.range (k - 1)).map (innerBlock (s / k) c hc) ++
        [tailBlock s k c hc], b.offset < s ∧ 0 < b.size ∧ b.Inside s := by
      intro b hb
      rcases List.mem_append.mp hb with hb | hb
      · obtain ⟨i, hi, rfl⟩ := List.mem_map.mp hb
        have hlt := innerBlock_before hc hbefore (List.mem_range.mp hi)
        exact ⟨by omega, blockSize_pos hc hsize, Nat.le_of_lt hlt⟩
      · obtain rfl := List.mem_singleton.mp hb
        exact ⟨hstart, by omega, Nat.le_of_eq hstop⟩
    refine ⟨?_, fun b hb => (hblock b hb).1, fun b hb => (hblock b hb).2.1,
      fun b hb => (hblock b hb).2.2⟩
    intro step hstep
    simp only [List.mem_append, List.mem_flatMap, List.mem_map, List.mem_range, List.mem_cons,
      List.not_mem_nil, or_false] at hstep
    obtain ((hstep | ⟨-, ⟨i, hi, rfl⟩, hstep⟩) | rfl | hstep) | rfl := hstep
    · exact reductionSteps_exact s c _ n step hstep
    · exact emplaceSteps_exact hc hmod hk hsize hbefore hadvance hi step hstep
    · exact hk
    · exact hfinish _ hstart step hstep
    · exact hk

namespace Signature

theorem blocksInside_iff {memory s n : ℕ} {c : ChunkSize} (hn : 1 ≤ n) (hs : s < 2 ^ 63)
    (hmap : memory + s < SizeT.modulus) (hfit : s + c.value < SizeT.modulus) :
    BlocksInside memory s n c ↔ tailStart s n c.value < s := by
  have hadvance : ∀ b : Block, b.offset + b.size < s →
      ∀ step ∈ ([.add (SizeT.add memory b.offset) b.size,
        .add (SizeT.add (SizeT.add memory b.offset) b.size) 1] : List ArithmeticStep),
        step.Exact := by
    intro b hb step hstep
    have hstart : SizeT.add memory b.offset = memory + b.offset := SizeT.add_of_lt (by omega)
    have hstop : SizeT.add (memory + b.offset) b.size = memory + b.offset + b.size :=
      SizeT.add_of_lt (by omega)
    rw [hstart, hstop] at hstep
    obtain rfl | rfl : step = _ ∨ step = _ := by simpa using hstep
    · show memory + b.offset + b.size < SizeT.modulus
      omega
    · show memory + b.offset + b.size + 1 < SizeT.modulus
      omega
  have hfinish : ∀ start < s, ∀ step ∈ ([.add memory s,
      .sub (SizeT.add memory s) (SizeT.add memory start)] : List ArithmeticStep), step.Exact := by
    intro start hlt step hstep
    rw [SizeT.add_of_lt hmap, SizeT.add_of_lt (by omega)] at hstep
    obtain rfl | rfl : step = _ ∨ step = _ := by simpa using hstep
    · exact hmap
    · exact Nat.add_le_add_left (Nat.le_of_lt hlt) memory
  rw [← staysInside_iff c.pos hn hs hfit hadvance hfinish]
  constructor
  · rintro ⟨blocks, steps, hblocks, hsteps, hstays, -⟩
    exact ⟨blocks, steps, hblocks, hsteps, hstays⟩
  · rintro ⟨blocks, steps, hblocks, hsteps, hstays⟩
    refine ⟨blocks, steps, hblocks, hsteps, hstays, fun F hF b hb => ⟨_, blockHasher_inside ?_⟩⟩
    subst hF
    exact hstays.inside b hb

end Signature

namespace Signature2

theorem blocksInside_iff {s n : ℕ} {c : ChunkSize} (hn : 1 ≤ n) (hs : s < 2 ^ 63)
    (hfit : s + c.value < SizeT.modulus) :
    BlocksInside s n c ↔ tailStart s n c.value < s := by
  have hmod : s < SizeT.modulus := Nat.lt_of_le_of_lt (Nat.le_add_right s c.value) hfit
  have hadvance : ∀ b : Block, b.offset + b.size < s →
      ∀ step ∈ ([.add b.size 1, .add b.offset (SizeT.add b.size 1)] : List ArithmeticStep),
        step.Exact := by
    intro b hb step hstep
    rw [SizeT.add_of_lt (by omega)] at hstep
    obtain rfl | rfl : step = _ ∨ step = _ := by simpa using hstep
    · show b.size + 1 < SizeT.modulus
      omega
    · show b.offset + (b.size + 1) < SizeT.modulus
      omega
  have hfinish : ∀ start < s, ∀ step ∈ ([.sub s start] : List ArithmeticStep), step.Exact := by
    intro start hlt step hstep
    obtain rfl := List.mem_singleton.mp hstep
    exact Nat.le_of_lt hlt
  rw [← staysInside_iff c.pos hn hs hfit hadvance hfinish]
  constructor
  · rintro ⟨blocks, steps, hblocks, hsteps, hstays, -⟩
    exact ⟨blocks, steps, hblocks, hsteps, hstays⟩
  · rintro ⟨blocks, steps, hblocks, hsteps, hstays⟩
    exact ⟨blocks, steps, hblocks, hsteps, hstays, hstays.size_pos⟩

end Signature2

/-- The layouts of both versions stay inside the file exactly when the rounded
blocks leave at least one byte for the last.  A mapping ends below `2 ^ 64`. -/
theorem blocks_inside_iff (memory s n : ℕ) (c : ChunkSize) (hs : s < 2 ^ 63) (hn : 1 ≤ n)
    (hmap : memory + s < SizeT.modulus) :
    (Signature.BlocksInside memory s n c ↔ tailStart s n c.value < s) ∧
      (Signature2.BlocksInside s n c ↔ tailStart s n c.value < s) := by
  have hfit : s + c.value < SizeT.modulus := c.fits_of_lt hs
  exact ⟨Signature.blocksInside_iff hn hs hmap hfit, Signature2.blocksInside_iff hn hs hfit⟩

theorem blocks_inside_at_five_chunks :
    (Signature.BlocksInside 65536 320000 2 smallestChunk ↔
      tailStart 320000 2 smallestChunk.value < 320000) ∧
    (Signature2.BlocksInside 320000 2 smallestChunk ↔
      tailStart 320000 2 smallestChunk.value < 320000) :=
  blocks_inside_iff 65536 320000 2 smallestChunk (by decide) (by decide) (by decide)

/-- Two chunks on two cores: the first block takes the whole file, and the
second starts one byte after its end. -/
theorem two_chunks_on_two_cores_outside :
    ¬ Signature.BlocksInside 65536 128000 2 smallestChunk ∧
      ¬ Signature2.BlocksInside 128000 2 smallestChunk := by
  have houtside : ¬ LayoutInside 128000 2 smallestChunk := by decide
  constructor
  · rintro ⟨blocks, steps, hblocks, -, hstays, -⟩
    apply houtside
    have hlayout : Signature2.blockFileBlocks 128000 2 smallestChunk = some blocks := hblocks
    rw [LayoutInside, hlayout]
    exact hstays.inside
  · rintro ⟨blocks, steps, hblocks, -, hstays, -⟩
    apply houtside
    rw [LayoutInside, hblocks]
    exact hstays.inside

end VeeamSignature
