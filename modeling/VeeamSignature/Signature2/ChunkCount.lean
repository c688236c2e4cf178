import Mathlib.Algebra.BigOperators.Group.Multiset.Basic
import VeeamSignature.BlockTiling
import VeeamSignature.Signature2.Arrivals

/-!
# What the writer counts

The chunks of the segments that have arrived, that are in flight and whose
read has failed are at most the chunks of the blocks; when nothing is pending
and no read has failed, they are all of them.
-/

namespace VeeamSignature.Signature2

open Slices BlockReader LabelledSystem

def chunkSum (headers : Multiset Header) : ℕ := (headers.map Header.chunkCount).sum

def hashedSum (segments : Multiset HashedSegment) : ℕ :=
  (segments.map HashedSegment.chunkCount).sum

theorem chunkSum_add (s t : Multiset Header) : chunkSum (s + t) = chunkSum s + chunkSum t := by
  rw [chunkSum, Multiset.map_add, Multiset.sum_add]
  rfl

theorem hashedSum_add (s t : Multiset HashedSegment) :
    hashedSum (s + t) = hashedSum s + hashedSum t := by
  rw [hashedSum, Multiset.map_add, Multiset.sum_add]
  rfl

theorem hashedSum_coe (segments : List HashedSegment) :
    hashedSum segments = (segments.map HashedSegment.chunkCount).sum := by
  rw [hashedSum, Multiset.map_coe, Multiset.sum_coe]

theorem hashedSum_map_hashOf (segments : Multiset Segment) :
    hashedSum (segments.map hashOf) = chunkSum (segments.map Segment.header) := by
  rw [hashedSum, chunkSum, Multiset.map_map, Multiset.map_map]
  rfl

theorem sum_headers_chunkCount (b : Block) :
    ((headers b).map Header.chunkCount).sum = b.chunksCount := by
  rw [← b.sum_segmentSpans_chunks, headers, List.map_map]
  rfl

theorem chunkSum_allHeaders (blocks : List Block) :
    chunkSum (allHeaders blocks) = (blocks.map Block.chunksCount).sum := by
  rw [chunkSum, Multiset.map_coe, Multiset.sum_coe]
  induction blocks with
  | nil => rfl
  | cons b blocks ih =>
      rw [allHeaders, List.flatMap_cons, List.map_append, List.sum_append,
        sum_headers_chunkCount, List.map_cons, List.sum_cons, ← ih]
      rfl

/-- `chunks_total` is the number of chunks of the segments, wrapped. -/
theorem totalChunks_eq (blocks : List Block) :
    totalChunks blocks = chunkSum (allHeaders blocks) % SizeT.modulus := by
  have hfold : ∀ (blocks : List Block) (total : ℕ),
      blocks.foldl (fun total b => SizeT.add total b.chunksCount) (total % SizeT.modulus) =
        (total + (blocks.map Block.chunksCount).sum) % SizeT.modulus := by
    intro blocks
    induction blocks with
    | nil => simp
    | cons b blocks ih =>
        intro total
        rw [List.foldl_cons, SizeT.add_mod_modulus, ih, List.map_cons, List.sum_cons,
          Nat.add_assoc]
  rw [chunkSum_allHeaders, totalChunks]
  exact (hfold blocks 0).trans (by rw [Nat.zero_add])

/-- The blocks of a file have distinct ids and a total that does not wrap. -/
theorem blockFileBlocks_fit {F : FileContent} {n : ℕ} (hn : 1 ≤ n) {c : ChunkSize}
    {blocks : List Block} (hblocks : blockFileBlocks F.size n c = some blocks) :
    (blocks.map Block.blockId).Nodup ∧ chunkSum (allHeaders blocks) < SizeT.modulus := by
  constructor
  · exact Indexed.nodup fun k b hb => layout_blockId hn hblocks hb
  · rw [chunkSum_allHeaders]
    exact layout_chunksCount_lt hn F.size_lt (le_trans (by decide) c.min_le) (c.fits F) hblocks

section Pool

variable {file : List Byte} {blocks : List Block} {p p' : Pool} {t : Task} {e : Environment}
  {signal : Signal}

/-- What is in flight, has arrived or has failed is part of the blocks. -/
theorem PoolInvariant.hashedSum_le (hp : PoolInvariant blocks p) :
    hashedSum (inFlight p.tasks) + hashedSum p.writer.arrived + chunkSum (failures p.readers) ≤
      chunkSum (allHeaders blocks) := by
  obtain ⟨rest, hrest⟩ := Multiset.le_iff_exists_add.mp hp.readers.headers_le
  rw [hrest, chunkSum_add, chunkSum_add, ← hashedSum_map_hashOf, hp.conservation.conserved,
    hashedSum_add]
  exact Nat.le_add_right _ _

/-- No task of a reader, of the hasher or of the writer is pending. -/
def Idle (p : Pool) : Prop := ∀ t ∈ p.tasks, t.reader? = none ∧ t.hashed? = none

theorem Idle.inFlight (h : Idle p) : inFlight p.tasks = 0 := by
  apply Multiset.eq_zero_of_forall_notMem
  intro s hs
  obtain ⟨t, ht, hhashed⟩ := (Multiset.mem_filterMap _ _).mp hs
  rw [(h t ht).2] at hhashed
  cases hhashed

theorem Idle.readerTasks (h : Idle p) (k : ℕ) : p.readerTasks k = 0 := by
  apply Multiset.eq_zero_of_forall_notMem
  intro t ht
  obtain ⟨hmem, hk⟩ := Multiset.mem_filter.mp ht
  rw [(h t hmem).1] at hk
  cases hk

theorem PoolInvariant.arrived_of_idle (hp : PoolInvariant blocks p) (hidle : Idle p)
    (hfailures : ∀ r ∈ p.readers, r.failures = []) :
    (p.writer.arrived : Multiset HashedSegment) = (delivered p.readers).map hashOf ∧
      (delivered p.readers).map Segment.header = allHeaders blocks := by
  refine ⟨?_, hp.readers.headers_eq hidle.readerTasks hfailures⟩
  rw [hp.conservation.conserved, hidle.inFlight, Multiset.zero_add]

end Pool

end VeeamSignature.Signature2
