import VeeamSignature.Signature.Correctness
import VeeamSignature.Signature2.Output
import VeeamSignature.Signature2.ReadChain

/-!
# Hashing by segments

Where every read completes, the segments of a block hashed one by one give the
records that the first version computes in one pass over the block.
-/

namespace VeeamSignature.Signature2

open Slices BlockReader OptionMapM

section Chain

variable {file : List Byte} {b : Block} {j : ℕ} {r : BlockReader} {results : List ReadResult}

theorem callAt_complete (hj : j ≤ b.fullSegments) (hsize : b.size ≤ file.length) :
    (callAt file b j (b.segmentSpan j).start .complete).answer =
        .ok (segmentAt file b (b.segmentSpan j)) ∧
      (callAt file b j (b.segmentSpan j).start .complete).moved = (b.segmentSpan j).length := by
  have hstop := (b.segmentSpan_stop_le hj).trans hsize
  exact ⟨rfl, length_slice_of_le hstop⟩

/-- The segments of completed reads, from the one with the given number on. -/
theorem AtRead.segments_complete (h : AtRead b j r)
    (hposition : r.position = (b.segmentSpan j).start) (hsize : b.size ≤ file.length)
    (hcomplete : ∀ result ∈ results, result = .complete) :
    chainSegments (readChain file results r).calls =
      ((b.segmentSpans.drop j).take results.length).map (segmentAt file b) := by
  induction results generalizing j r with
  | nil => simp [readChain]
  | cons result results ih =>
      obtain ⟨rfl, hrest⟩ := List.forall_mem_cons.mp hcomplete
      obtain ⟨hanswer, hmoved⟩ := callAt_complete h.le hsize
      rw [h.readChain_cons, hposition, callAt_posts, b.segmentSpans_drop h.le]
      by_cases hlt : j < b.fullSegments
      · have hnext : (r.readOnce file .complete).2.position = (b.segmentSpan (j + 1)).start := by
          rw [(h.readOnce_snd file .complete).2.2, hposition, hmoved]
          exact b.segmentSpan_stop hlt
        simp only [hlt, decide_true, ReadResult.isFailed, Bool.not_false, Bool.and_true, if_true,
          chainSegments_cons hanswer, ih (h.next hlt file .complete) hnext hrest,
          List.length_cons, List.take_succ_cons, List.map_cons]
      · have hnone := b.segmentSpans_drop_of_lt (Nat.lt_succ_of_le (Nat.le_of_not_lt hlt))
        simp [hlt, chainSegments_cons hanswer, hnone]

/-- With a result for every read the chain ends. -/
theorem readChain_ended (hcomplete : ∀ result ∈ results, result = .complete)
    (hlong : b.fullSegments < results.length) :
    (readChain file results (.start b)).posted = false := by
  have hok : ∀ result ∈ results, result.isFailed = false := by
    intro result hmem
    rw [hcomplete result hmem]
    rfl
  rw [← Bool.not_eq_true, ((AtRead.start b).posted_iff file hok).1, Nat.zero_add]
  exact Nat.not_le_of_lt hlong

theorem chainSegments_complete (hsize : b.size ≤ file.length)
    (hcomplete : ∀ result ∈ results, result = .complete)
    (hlong : b.fullSegments < results.length) :
    chainSegments (readChain file results (.start b)).calls =
      b.segmentSpans.map (segmentAt file b) := by
  rw [(AtRead.start b).segments_complete (Nat.zero_mul _).symm hsize hcomplete, List.drop_zero,
    List.take_of_length_le]
  rw [b.length_segmentSpans]
  exact hlong

end Chain

/-- The block of a byte string in memory. -/
def memoryBlock (M : List Byte) (c : ChunkSize) (blockId : ℕ) (hM : M.length < SizeT.modulus) :
    Block :=
  ⟨blockId, 0, M.length, c.value, hM, c.pos⟩

/-- With a result for every read of the chain, the chain ends; its segments
hashed one by one give what the first version computes in one pass, and no
access of either leaves its memory. -/
theorem segmented_hashing (M : List Byte) (c : ChunkSize) (blockId : ℕ)
    (hM : M.length < SizeT.modulus) (results : List ReadResult)
    (hcomplete : ∀ result ∈ results, result = .complete)
    (hlong : (memoryBlock M c blockId hM).fullSegments < results.length) :
    (readChain M results (.start (memoryBlock M c blockId hM))).posted = false ∧
    ∃ hashed crcs,
      (chainSegments (readChain M results (.start (memoryBlock M c blockId hM))).calls).mapM
        segmentHasher = some hashed ∧
      Signature.blockHasher (crcAt M) (memoryBlock M c blockId hM) = some crcs ∧
      hashed.Pairwise (fun h h' => h.firstChunkId < h'.firstChunkId) ∧
      (∀ h ∈ hashed, h.memory.length = h.size) ∧
      hashed.flatMap (fun h => h.memory.take h.size) = Signature.writerBytes [crcs] := by
  generalize hb : memoryBlock M c blockId hM = b at hlong ⊢
  have hsize : b.size ≤ M.length := by
    rw [← hb]
    exact Nat.le_refl _
  have hinside : b.Inside M.length := by
    rw [← hb]
    exact Nat.le_of_eq (Nat.zero_add _)
  have hoffset : b.offset = 0 := by rw [← hb, memoryBlock]
  have hhashed : ∀ s ∈ b.segmentSpans.map (segmentAt M b), segmentHasher s = some (hashOf s) := by
    intro s hs
    obtain ⟨span, -, rfl⟩ := List.mem_map.mp hs
    exact segmentHasher_eq (wellFormed_segmentAt span)
  rw [chainSegments_complete hsize hcomplete hlong]
  refine ⟨readChain_ended hcomplete hlong, _, _, mapM_eq_some_map hhashed,
    Signature.blockHasher_inside hinside, ?_, ?_, ?_⟩
  · rw [List.map_map, List.pairwise_map]
    exact b.segmentSpans_increasing
  · rw [List.map_map]
    intro h hh
    obtain ⟨span, -, rfl⟩ := List.mem_map.mp hh
    exact (wellFormed_segmentAt span).length_hash
  · calc ((b.segmentSpans.map (segmentAt M b)).map hashOf).flatMap HashedSegment.record
        = b.segmentSpans.flatMap fun s => (hashOf (segmentAt M b s)).record := by
          rw [List.map_map, List.flatMap_map]
          rfl
      _ = records b.chunkSize (slice M 0 b.size) := flatMap_record_segmentSpans hsize
      _ = Signature.writerBytes [(chunks b.chunkSize (slice M b.offset b.size)).map crcOf] := by
          rw [hoffset, records, Signature.writerBytes, List.flatMap_singleton]

/-- `2 ^ 27 + 1` zeros in chunks of `2 ^ 27` bytes are read as one full segment
and a tail of one byte. -/
def tailedZeros : List Byte := List.replicate (gSegmentSizeHint + 1) 0

theorem length_tailedZeros : tailedZeros.length = gSegmentSizeHint + 1 :=
  List.length_replicate

theorem tailedZeros_lt : tailedZeros.length < SizeT.modulus := by
  rw [length_tailedZeros]
  decide

theorem segmented_hashing_tailedZeros :
    (readChain tailedZeros [.complete, .complete]
      (.start (memoryBlock tailedZeros segmentChunk 0 tailedZeros_lt))).posted = false ∧
    ∃ hashed crcs,
      (chainSegments (readChain tailedZeros [.complete, .complete]
        (.start (memoryBlock tailedZeros segmentChunk 0 tailedZeros_lt))).calls).mapM
          segmentHasher = some hashed ∧
      Signature.blockHasher (crcAt tailedZeros)
        (memoryBlock tailedZeros segmentChunk 0 tailedZeros_lt) = some crcs ∧
      hashed.Pairwise (fun h h' => h.firstChunkId < h'.firstChunkId) ∧
      (∀ h ∈ hashed, h.memory.length = h.size) ∧
      hashed.flatMap (fun h => h.memory.take h.size) = Signature.writerBytes [crcs] := by
  have hsegments : (memoryBlock tailedZeros segmentChunk 0 tailedZeros_lt).fullSegments = 1 := by
    simp only [Block.fullSegments, memoryBlock, length_tailedZeros]
    decide
  refine segmented_hashing tailedZeros segmentChunk 0 tailedZeros_lt [.complete, .complete]
    (by simp) ?_
  rw [hsegments]
  decide

end VeeamSignature.Signature2
