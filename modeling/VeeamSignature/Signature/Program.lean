import VeeamSignature.BlockTiling

/-!
# The first version of the program

The input file is mapped, every block is hashed by a thread of its own and the
hashes are written in the order of the blocks.  The threads share nothing, so
the hasher is a map over the blocks.  What a block's hash consists of is a
parameter of the loop: the program hashes the bytes it reads, and the same loop
run with the calls themselves as results tells which bytes a record covers.
-/

namespace VeeamSignature.Signature

open Slices

section Hasher

variable {ρ : Type*} (compute : ℕ → ℕ → Option ρ)

/-- The loop over whole chunks of `block_hasher_t::operator()`; it hands
`current_chunk` on. -/
def hashChunks (chunkSize : ℕ) : ℕ → ℕ → Option (List ρ × ℕ)
  | 0, currentChunk => some ([], currentChunk)
  | count + 1, currentChunk => do
      let crc ← compute currentChunk chunkSize
      let rest ← hashChunks chunkSize count (currentChunk + chunkSize)
      some (crc :: rest.1, rest.2)

/-- `block_hasher_t::operator()`. -/
def blockHasher (b : Block) : Option (List ρ) := do
  let chunksCount := b.chunksCount
  let tailSize := b.tailSize
  let hash ← hashChunks compute b.chunkSize chunksCount b.offset
  if tailSize ≠ 0 then
    let crc ← compute hash.2 tailSize
    some (hash.1 ++ [crc])
  else
    some hash.1

/-- `hasher_t::operator()`: the entry of each core is the hash of its block. -/
def hasher (blocks : List Block) : Option (List (List ρ)) :=
  blocks.mapM (blockHasher compute)

end Hasher

def writerBytes (signature : List (List Crc32)) : List Byte :=
  signature.flatMap fun hash => hash.flatMap crc32Bytes

/-- The exceptions of `mapped_file_t` and `writer_t`, each with the text of the
error code it reports. -/
inductive Error
  | retrieveSize (message : String)
  | openInput
  | mapInput (message : String)
  | deleteOutput (message : String)
  | writeOutput (message : String)
  deriving DecidableEq

def Error.what (inputPath outputPath : String) : Error → String
  | .retrieveSize message => s!"failed to retrieve input file '{inputPath}' size: {message}"
  | .openInput => s!"failed to open input file '{inputPath}'"
  | .mapInput message => s!"failed to mmap input file '{inputPath}': {message}"
  | .deleteOutput message => s!"failed to delete existing output file '{outputPath}': {message}"
  | .writeOutput message => s!"failed to write file '{outputPath}': {message}"

/-- How a run ends: with the signature written, with an exception that `main`
reports, or with a signal. -/
inductive Outcome
  | success (written : List Byte)
  | failure (error : Error)
  | crash
  deriving DecidableEq

/-- `main` after the arguments are parsed and up to the write.  A mapping of
length zero fails with `EINVAL`; a division by zero and a read outside the
mapping end the process. -/
def run (F : FileContent) (blockCount : ℕ) (c : ChunkSize) : Outcome :=
  if F.size = 0 then .failure (.mapInput "Invalid argument")
  else
    match mappedFileBlocks F.size blockCount c with
    | none => .crash
    | some blocks =>
        match hasher (crcAt F.bytes) blocks with
        | none => .crash
        | some signature => .success (writerBytes signature)

/-- The bytes each call of `compute_crc32` covers, in the order of the records. -/
def recordSpans (fileSize blockCount : ℕ) (c : ChunkSize) : List Span :=
  (((mappedFileBlocks fileSize blockCount c).bind
    (hasher fun memory size => some ⟨memory, size⟩)).getD []).flatten

/-! ## The hasher in closed form -/

def chunkSpans (b : Block) : List Span :=
  (List.range b.chunksCount).map (fun i => ⟨b.offset + i * b.chunkSize, b.chunkSize⟩) ++
    if b.tailSize = 0 then [] else [⟨b.offset + b.chunksCount * b.chunkSize, b.tailSize⟩]

theorem hashChunks_eq {ρ : Type*} (compute : ℕ → ℕ → Option ρ) (chunkSize count start : ℕ) :
    hashChunks compute chunkSize count start =
      ((List.range count).mapM fun i => compute (start + i * chunkSize) chunkSize).map
        fun hash => (hash, start + count * chunkSize) := by
  induction count generalizing start with
  | zero => simp [hashChunks]
  | succ count ih =>
      have hshift : ∀ i, start + chunkSize + i * chunkSize = start + (i + 1) * chunkSize := by
        intro i
        rw [Nat.add_mul, Nat.one_mul]
        omega
      rw [hashChunks, ih, List.range_succ_eq_map, List.mapM_cons, List.mapM_map]
      simp only [hshift, Function.comp_def, Nat.zero_mul, Nat.add_zero, Nat.succ_eq_add_one]
      generalize (List.range count).mapM
        (fun i => compute (start + (i + 1) * chunkSize) chunkSize) = rest
      cases compute start chunkSize with
      | none => rfl
      | some crc =>
          cases rest with
          | none => rfl
          | some hash => simp [Nat.add_mul]

theorem blockHasher_eq {ρ : Type} (compute : ℕ → ℕ → Option ρ) (b : Block) :
    blockHasher compute b = (chunkSpans b).mapM fun s => compute s.start s.length := by
  rw [blockHasher, hashChunks_eq, chunkSpans, List.mapM_append, List.mapM_map]
  simp only [Function.comp_def]
  generalize (List.range b.chunksCount).mapM
    (fun i => compute (b.offset + i * b.chunkSize) b.chunkSize) = hash
  cases hash with
  | none => rfl
  | some hash =>
      by_cases htail : b.tailSize = 0
      · simp [htail]
      · cases hcrc : compute (b.offset + b.chunksCount * b.chunkSize) b.tailSize with
        | none => simp [htail, hcrc]
        | some crc => simp [htail, hcrc]

theorem chunkSpans_tiles (b : Block) :
    Tiles b.offset (chunkSpans b) (b.offset + b.size) := by
  have hchunks : ∀ count, Tiles b.offset
      ((List.range count).map fun i => ⟨b.offset + i * b.chunkSize, b.chunkSize⟩)
      (b.offset + count * b.chunkSize) := by
    intro count
    induction count with
    | zero => simp [Tiles]
    | succ count ih =>
        rw [List.range_succ, List.map_append]
        refine ih.append ⟨rfl, ?_⟩
        simp only [List.map_nil, Tiles, Span.stop, Nat.add_mul, Nat.one_mul, Nat.add_assoc]
  have hsize := b.chunksCount_mul_add_tailSize
  apply (hchunks b.chunksCount).append
  split_ifs with htail
  · simp only [Tiles]
    omega
  · refine ⟨rfl, ?_⟩
    simp only [Tiles, Span.stop]
    omega

theorem chunkSpans_bounds {b : Block} {s : Span} (hs : s ∈ chunkSpans b) :
    b.offset ≤ s.start ∧ s.stop ≤ b.offset + b.size :=
  ⟨(chunkSpans_tiles b).start_le hs, (chunkSpans_tiles b).stop_le hs⟩

end VeeamSignature.Signature
