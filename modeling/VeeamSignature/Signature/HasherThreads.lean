import VeeamSignature.Library.ForkJoin
import VeeamSignature.Signature.Correctness

/-!
# The threads of the first version

`hasher_t::operator()` creates a thread for every block; the thread hashes the
block chunk by chunk into a vector of its own and stores the vector in the
entry of its core.  A read outside the mapping ends the process, whatever the
other threads do.
-/

namespace VeeamSignature.Signature

open Slices LabelledSystem ForkJoin

/-- `expected_result_length`. -/
def expectedResultLength (b : Block) : ℕ := b.chunksCount + if b.tailSize ≠ 0 then 1 else 0

/-- The variables of `block_hasher_t::operator()`. -/
structure BlockHasher where
  block : Block
  index : ℕ
  currentChunk : ℕ
  hash : List Crc32
  index_le : index ≤ block.chunksCount
  currentChunk_eq : currentChunk = block.offset + index * block.chunkSize
  length_hash : hash.length = expectedResultLength block

namespace BlockHasher

def start (b : Block) : BlockHasher where
  block := b
  index := 0
  currentChunk := b.offset
  hash := List.replicate (expectedResultLength b) 0
  index_le := Nat.zero_le _
  currentChunk_eq := by simp
  length_hash := List.length_replicate

/-- The body of the loop, with the checksum it has computed. -/
def next (h : BlockHasher) (crc : Crc32) (hindex : h.index < h.block.chunksCount) :
    BlockHasher where
  block := h.block
  index := h.index + 1
  currentChunk := h.currentChunk + h.block.chunkSize
  hash := h.hash.set h.index crc
  index_le := hindex
  currentChunk_eq := by rw [h.currentChunk_eq, Nat.add_mul, Nat.one_mul, Nat.add_assoc]
  length_hash := List.length_set.trans h.length_hash

/-- Up to the next call of `compute_crc32`, or to the end. -/
def advance (M : List Byte) (h : BlockHasher) : Progress BlockHasher (List Crc32) :=
  if hindex : h.index < h.block.chunksCount then
    match crcAt M h.currentChunk h.block.chunkSize with
    | none => .crashed
    | some crc => .running (h.next crc hindex)
  else if h.block.tailSize ≠ 0 then
    match crcAt M h.currentChunk h.block.tailSize with
    | none => .crashed
    | some crc => .returned (h.hash.set h.block.chunksCount crc)
  else .returned h.hash

/-- What the hasher returns if it goes on from here. -/
def value (M : List Byte) (h : BlockHasher) : Option (List Crc32) :=
  (((chunkSpans h.block).drop h.index).mapM fun s => crcAt M s.start s.length).map
    fun rest => h.hash.take h.index ++ rest

def remaining (h : BlockHasher) : ℕ := h.block.chunksCount - h.index

end BlockHasher

section Value

variable {M : List Byte} {h : BlockHasher}

theorem value_start (M : List Byte) (b : Block) :
    (BlockHasher.start b).value M = blockHasher (crcAt M) b := by
  rw [blockHasher_eq]
  simp [BlockHasher.value, BlockHasher.start]

theorem drop_chunkSpans {b : Block} {i : ℕ} (hi : i < b.chunksCount) :
    (chunkSpans b).drop i =
      ⟨b.offset + i * b.chunkSize, b.chunkSize⟩ :: (chunkSpans b).drop (i + 1) := by
  have hlt : i < (chunkSpans b).length := by
    simp only [chunkSpans, List.length_append, List.length_map, List.length_range]
    omega
  rw [List.drop_eq_getElem_cons hlt]
  congr 1
  simp [chunkSpans, List.getElem_append_left, hi]

theorem drop_chunkSpans_chunksCount (b : Block) : (chunkSpans b).drop b.chunksCount =
    if b.tailSize = 0 then [] else [⟨b.offset + b.chunksCount * b.chunkSize, b.tailSize⟩] := by
  rw [chunkSpans, List.drop_append_of_le_length (by simp), List.drop_of_length_le (by simp),
    List.nil_append]

theorem BlockHasher.index_eq (hdone : ¬ h.index < h.block.chunksCount) :
    h.index = h.block.chunksCount :=
  le_antisymm h.index_le (Nat.le_of_not_lt hdone)

theorem BlockHasher.length_hash_of_tail (htail : h.block.tailSize ≠ 0) :
    h.hash.length = h.block.chunksCount + 1 := by
  rw [h.length_hash, expectedResultLength, if_pos htail]

theorem BlockHasher.value_next (crc : Crc32) (hindex : h.index < h.block.chunksCount)
    (hcrc : crcAt M h.currentChunk h.block.chunkSize = some crc) :
    (h.next crc hindex).value M = h.value M := by
  have hlt : h.index < h.hash.length := by
    rw [h.length_hash, expectedResultLength]
    omega
  have htake : (h.hash.set h.index crc).take (h.index + 1) = h.hash.take h.index ++ [crc] := by
    rw [List.take_add_one, List.getElem?_set_self hlt, List.take_set_of_le (le_refl _)]
    rfl
  rw [h.currentChunk_eq] at hcrc
  simp only [BlockHasher.value, BlockHasher.next, drop_chunkSpans hindex, List.mapM_cons, hcrc,
    htake]
  cases ((chunkSpans h.block).drop (h.index + 1)).mapM fun s => crcAt M s.start s.length with
  | none => rfl
  | some rest => simp

theorem BlockHasher.value_tail (hdone : ¬ h.index < h.block.chunksCount)
    (htail : h.block.tailSize ≠ 0) : h.value M =
      (crcAt M h.currentChunk h.block.tailSize).map (h.hash.set h.block.chunksCount) := by
  have hlength := length_hash_of_tail htail
  have hset : ∀ crc, h.hash.set h.block.chunksCount crc =
      h.hash.take h.block.chunksCount ++ [crc] := by
    intro crc
    rw [List.set_eq_take_append_cons_drop, if_pos (by omega), List.drop_of_length_le (by omega)]
  rw [BlockHasher.value, h.currentChunk_eq, h.index_eq hdone, drop_chunkSpans_chunksCount,
    if_neg htail]
  cases hcrc : crcAt M (h.block.offset + h.block.chunksCount * h.block.chunkSize)
      h.block.tailSize with
  | none => simp [hcrc]
  | some crc => simp [hcrc, hset]

theorem BlockHasher.value_end (hdone : ¬ h.index < h.block.chunksCount)
    (htail : h.block.tailSize = 0) : h.value M = some h.hash := by
  have hlength : h.hash.length = h.block.chunksCount := by
    rw [h.length_hash, expectedResultLength, if_neg (not_not.mpr htail), Nat.add_zero]
  rw [BlockHasher.value, h.index_eq hdone, drop_chunkSpans_chunksCount, if_pos htail,
    List.take_of_length_le hlength.le]
  simp

theorem computes (M : List Byte) :
    Computes (BlockHasher.advance M) (BlockHasher.value M) BlockHasher.remaining where
  running := by
    intro h h' hadvance
    unfold BlockHasher.advance at hadvance
    split_ifs at hadvance with hindex htail
    · cases hcrc : crcAt M h.currentChunk h.block.chunkSize with
      | none => simp [hcrc] at hadvance
      | some crc =>
          simp only [hcrc] at hadvance
          obtain rfl := Progress.running.inj hadvance
          refine ⟨BlockHasher.value_next crc hindex hcrc, ?_⟩
          simp only [BlockHasher.remaining, BlockHasher.next]
          omega
    · cases hcrc : crcAt M h.currentChunk h.block.tailSize with
      | none => simp [hcrc] at hadvance
      | some crc => simp [hcrc] at hadvance
  returned := by
    intro h hash hadvance
    unfold BlockHasher.advance at hadvance
    split_ifs at hadvance with hindex htail
    · cases hcrc : crcAt M h.currentChunk h.block.chunkSize with
      | none => simp [hcrc] at hadvance
      | some crc => simp [hcrc] at hadvance
    · cases hcrc : crcAt M h.currentChunk h.block.tailSize with
      | none => simp [hcrc] at hadvance
      | some crc =>
          simp only [hcrc] at hadvance
          obtain rfl := Progress.returned.inj hadvance
          rw [BlockHasher.value_tail hindex htail, hcrc]
          rfl
    · obtain rfl := Progress.returned.inj hadvance
      exact BlockHasher.value_end hindex (not_not.mp htail)
  crashed := by
    intro h hadvance
    unfold BlockHasher.advance at hadvance
    split_ifs at hadvance with hindex htail
    · cases hcrc : crcAt M h.currentChunk h.block.chunkSize with
      | none =>
          rw [h.currentChunk_eq] at hcrc
          simp [BlockHasher.value, drop_chunkSpans hindex, hcrc]
      | some crc => simp [hcrc] at hadvance
    · cases hcrc : crcAt M h.currentChunk h.block.tailSize with
      | none => rw [BlockHasher.value_tail hindex htail, hcrc, Option.map_none]
      | some crc => simp [hcrc] at hadvance

end Value

/-! ## The interleavings -/

def hasherStart (blocks : List Block) : State BlockHasher (List Crc32) :=
  State.start (blocks.map BlockHasher.start) []

def hasherStep (M : List Byte) (blocks : List Block) :
    State BlockHasher (List Crc32) → Action → Option (State BlockHasher (List Crc32)) :=
  State.step (BlockHasher.advance M) (blocks.map BlockHasher.start)

theorem mapM_value (M : List Byte) (blocks : List Block) :
    (blocks.map BlockHasher.start).mapM (BlockHasher.value M) = hasher (crcAt M) blocks := by
  simp only [List.mapM_map, Function.comp_def, value_start, hasher]

/-- However the threads are scheduled, they take a bounded number of steps, and
the first version ends as it does without threads. -/
theorem run_of_threads {F : FileContent} {n : ℕ} {c : ChunkSize} {blocks : List Block}
    (hF : F.size ≠ 0) (hblocks : mappedFileBlocks F.size n c = some blocks) {xs : List Action}
    {s : State BlockHasher (List Crc32)}
    (h : Run (hasherStep F.bytes blocks) (fun _ => True) (hasherStart blocks) xs s) :
    xs.length ≤ (blocks.map fun b => b.chunksCount + 3).sum + 1 ∧
    ((∀ a, hasherStep F.bytes blocks s a = none) →
      (∃ signature, s.joined = some signature ∧ s.crashed = false ∧
        run F n c = .success (writerBytes signature)) ∨
      (s.joined = none ∧ s.crashed = true ∧ run F n c = .crash)) := by
  obtain ⟨hlength, hjoined, hcrashed, hend⟩ := outcome (computes F.bytes) h
  rw [mapM_value] at hjoined hcrashed
  refine ⟨by simpa [Function.comp_def, BlockHasher.remaining, BlockHasher.start] using hlength, ?_⟩
  intro hstuck
  cases hresult : s.joined with
  | none =>
      have hcrash : s.crashed = true := (hend hstuck).resolve_right (by simp [hresult])
      refine .inr ⟨rfl, hcrash, ?_⟩
      rw [run, if_neg hF, hblocks]
      simp only [hcrashed hcrash]
  | some signature =>
      have hhasher := hjoined signature hresult
      refine .inl ⟨signature, rfl, ?_, ?_⟩
      · by_contra hcrash
        rw [hcrashed (by simpa using hcrash)] at hhasher
        cases hhasher
      · rw [run, if_neg hF, hblocks]
        simp only [hhasher]

theorem advance_start {M : List Byte} {b : Block} (hchunks : 0 < b.chunksCount)
    (hinside : b.offset + b.chunkSize ≤ M.length) :
    ∃ h, BlockHasher.advance M (.start b) = .running h := by
  have hindex : (BlockHasher.start b).index < (BlockHasher.start b).block.chunksCount := hchunks
  have hcrc : crcAt M (BlockHasher.start b).currentChunk (BlockHasher.start b).block.chunkSize =
      some (crcOf (slice M b.offset b.chunkSize)) := crcAt_eq hinside
  refine ⟨(BlockHasher.start b).next (crcOf (slice M b.offset b.chunkSize)) hindex, ?_⟩
  rw [BlockHasher.advance, dif_pos hindex, hcrc]

/-- Two threads, the second of which takes the first step. -/
def secondFirst : List Action := [.create, .create, .advance 1, .advance 0]

theorem exists_secondFirst {M : List Byte} {b b' : Block} (hchunks : 0 < b.chunksCount)
    (hchunks' : 0 < b'.chunksCount) (hinside : b.offset + b.chunkSize ≤ M.length)
    (hinside' : b'.offset + b'.chunkSize ≤ M.length) :
    ∃ s, Run (hasherStep M [b, b']) (fun _ => True) (hasherStart [b, b']) secondFirst s := by
  obtain ⟨h, hadvance⟩ := advance_start hchunks hinside
  obtain ⟨h', hadvance'⟩ := advance_start hchunks' hinside'
  have hsome : ∃ s, secondFirst.foldlM (hasherStep M [b, b']) (hasherStart [b, b']) = some s := by
    simp [secondFirst, hasherStep, hasherStart, State.step, State.act, State.start, hadvance,
      hadvance']
  obtain ⟨s, hs⟩ := hsome
  exact ⟨s, Run.iff_foldlM.mpr ⟨fun _ _ => trivial, hs⟩⟩

theorem run_of_threads_fiveChunks : ∃ (ys : List Action) (s : State BlockHasher (List Crc32)),
    Run (hasherStep fiveChunks.bytes [leftBlock, rightBlock]) (fun _ => True)
      (hasherStart [leftBlock, rightBlock]) (secondFirst ++ ys) s ∧
    ∃ signature, s.joined = some signature ∧
      run fiveChunks 2 smallestChunk = .success (writerBytes signature) := by
  have hlength : fiveChunks.bytes.length = 320000 := size_fiveChunks
  obtain ⟨s, hs⟩ : ∃ s, Run (hasherStep fiveChunks.bytes [leftBlock, rightBlock]) (fun _ => True)
      (hasherStart [leftBlock, rightBlock]) secondFirst s := by
    apply exists_secondFirst (by decide) (by decide)
    · rw [hlength]
      decide
    · rw [hlength]
      decide
  obtain ⟨ys, s', hrun, hend⟩ := exists_end (computes fiveChunks.bytes) hs
  have hne : fiveChunks.size ≠ 0 := by
    rw [size_fiveChunks]
    decide
  refine ⟨ys, s', hrun, ?_⟩
  rcases (run_of_threads hne fiveChunks_layout hrun).2 hend with
    ⟨signature, hjoined, -, hsuccess⟩ | ⟨-, -, hcrash⟩
  · exact ⟨signature, hjoined, hsuccess⟩
  · obtain ⟨written, hsuccess, -⟩ := length_written hne fiveChunks_layout fiveChunks_inside
    rw [hsuccess] at hcrash
    cases hcrash

end VeeamSignature.Signature
