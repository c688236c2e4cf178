import VeeamSignature.Signature2.Delivery
import VeeamSignature.Signature2.Termination

/-!
# Which bytes a segment holds

The constructor of a reader passes the offset of the block to
`posix_fadvise` only; no read and no seek uses it.  A segment therefore holds
the bytes at its chunk numbers from the start of the file, which are those of
the block when the block is the first.
-/

namespace VeeamSignature.Signature2

open Slices BlockReader LabelledSystem

/-- The bytes of the block at the chunk numbers of a segment. -/
def blockBytes (file : List Byte) (b : Block) (s : Segment) : List Byte :=
  slice file (b.offset + s.firstChunkId * b.chunkSize) (s.chunkCount * b.chunkSize + s.tailSize)

/-- In every reachable state the reader of the block has delivered the bytes of
the block. -/
def DeliversBlock (file : List Byte) (blocks : List Block) (k : ℕ) (b : Block) : Prop :=
  ∀ p r, Reachable (Pool.next file) ReadsComplete (Pool.start blocks) p →
    p.readers[k]? = some r → ∀ s ∈ r.delivered, s.memory = blockBytes file b s

/-- In every reachable state a pending read of the reader finds its descriptor
at the offset of the block plus the bytes requested so far. -/
def ReadsInBlock (file : List Byte) (blocks : List Block) (k : ℕ) (b : Block) : Prop :=
  ∀ p r operation, Reachable (Pool.next file) ReadsComplete (Pool.start blocks) p →
    p.readers[k]? = some r → .read k operation ∈ p.tasks →
      r.position = b.offset + r.requests.sum

section SegmentAt

variable {file : List Byte} {b : Block} {s : Span}

theorem blockBytes_segmentAt (hs : s ∈ b.segmentSpans) :
    blockBytes file b (segmentAt file b s) = slice file (b.offset + s.start) s.length := by
  obtain ⟨j, -, rfl⟩ := List.mem_map.mp hs
  have hdvd : b.chunkSize ∣ (b.segmentSpan j).start := b.chunkSize_dvd_segmentSize.mul_left j
  simp only [blockBytes, segmentAt, headerOf, Nat.div_mul_cancel hdvd, Nat.div_add_mod']

theorem segmentAt_memory (hs : s ∈ b.segmentSpans) (hsize : b.size ≤ file.length) :
    (segmentAt file b s).memory = slice file s.start s.length := by
  have hstop : s.start + s.length ≤ b.size := b.segmentSpans_tile.stop_le hs
  have hlength := length_slice_of_le (hstop.trans hsize)
  rw [segmentAt, buffer, hlength, Nat.sub_self, List.replicate_zero, List.append_nil]

end SegmentAt

section Pool

variable {file : List Byte} {blocks : List Block} {p : Pool} {k : ℕ} {b : Block} {r : BlockReader}

/-- The reader of the block can finish while all others wait. -/
theorem exists_finished (file : List Byte) (hb : blocks[k]? = some b) :
    ∃ p r, Reachable (Pool.next file) ReadsComplete (Pool.start blocks) p ∧
      p.readers[k]? = some r ∧ r.delivered = b.segmentSpans.map (segmentAt file b) := by
  obtain ⟨p, hreachable, hp, -, hidle⟩ := (PoolInvariant.start blocks).exists_drained file
    (fun _ => complete) (fun t => t.reader? ≠ some k) (fun _ => True)
    (fun _ _ _ _ _ _ _ _ _ => trivial) trivial
  have hcomplete : Reachable (Pool.next file) ReadsComplete (Pool.start blocks) p := by
    apply hreachable.mono
    rintro ⟨t, e⟩ ⟨rfl, -⟩
    rfl
  obtain ⟨r, hr, hstate⟩ := hp.readers.reader hb
  have hfetched := FetchedInvariant.reachable hcomplete k b r hb hr
  have hfailures := failures_eq_nil (hcomplete.mono ReadsComplete.succeed) r
    (List.mem_of_getElem? hr)
  have hnone : p.readerTasks k = 0 := by
    apply Multiset.eq_zero_of_forall_notMem
    intro t ht
    obtain ⟨hmem, hk⟩ := Multiset.mem_filter.mp ht
    exact hidle t hmem hk
  rw [hnone] at hstate
  have hheaders := congrArg Multiset.card (hstate.headers_eq hfailures)
  have hlength : r.delivered.length = b.fullSegments + 1 := by simpa using hheaders
  refine ⟨p, r, hcomplete, hr, ?_⟩
  rw [hfetched.delivered, hlength, List.take_of_length_le b.length_segmentSpans.le]

theorem deliversBlock_iff (hb : blocks[k]? = some b) (hinside : b.Inside file.length) :
    DeliversBlock file blocks k b ↔ slice file 0 b.size = slice file b.offset b.size := by
  have hsize : b.size ≤ file.length := (Nat.le_add_left _ _).trans hinside
  constructor
  · intro hdelivers
    obtain ⟨p, r, hreachable, hr, hdelivered⟩ := exists_finished file hb
    have hspans : ∀ s ∈ b.segmentSpans,
        slice file s.start s.length = slice file (b.offset + s.start) s.length := by
      intro s hs
      have hmem : segmentAt file b s ∈ r.delivered :=
        hdelivered ▸ List.mem_map.mpr ⟨s, hs, rfl⟩
      rw [← segmentAt_memory hs hsize, hdelivers p r hreachable hr _ hmem,
        blockBytes_segmentAt hs]
    have hblock : ∀ s ∈ b.segmentSpans, slice file (b.offset + s.start) s.length =
        slice (slice file b.offset b.size) s.start s.length := fun s hs =>
      (slice_slice file (b.segmentSpans_tile.stop_le hs)).symm
    calc slice file 0 b.size
        = b.segmentSpans.flatMap fun s => slice file s.start s.length :=
          (b.segmentSpans_tile.flatMap_slice file).symm
      _ = b.segmentSpans.flatMap fun s =>
            slice (slice file b.offset b.size) s.start s.length :=
          List.flatMap_congr fun s hs => (hspans s hs).trans (hblock s hs)
      _ = slice (slice file b.offset b.size) 0 b.size :=
          b.segmentSpans_tile.flatMap_slice _
      _ = slice file b.offset b.size := slice_slice file (by simp)
  · intro hsame p r hreachable hr s hs
    have hfetched := FetchedInvariant.reachable hreachable k b r hb hr
    rw [hfetched.delivered] at hs
    obtain ⟨span, hspan, rfl⟩ := List.mem_map.mp hs
    have hspan := List.mem_of_mem_take hspan
    have hstop : span.start + span.length ≤ b.size := b.segmentSpans_tile.stop_le hspan
    calc (segmentAt file b span).memory
        = slice file span.start span.length := segmentAt_memory hspan hsize
      _ = slice (slice file 0 b.size) span.start span.length := by
          rw [slice_slice file hstop, Nat.zero_add]
      _ = slice file (b.offset + span.start) span.length := by
          rw [hsame, slice_slice file hstop]
      _ = blockBytes file b (segmentAt file b span) := (blockBytes_segmentAt hspan).symm

theorem readsInBlock_iff (hb : blocks[k]? = some b) (hinside : b.Inside file.length) :
    ReadsInBlock file blocks k b ↔ b.offset = 0 := by
  have hsize : b.size ≤ file.length := (Nat.le_add_left _ _).trans hinside
  have hr : (Pool.start blocks).readers[k]? = some (BlockReader.start b) := by
    simp [Pool.start, hb]
  constructor
  · intro hreads
    have hmem : Task.doRead k ∈ (Pool.start blocks).tasks := by
      obtain ⟨hk, -⟩ := List.getElem?_eq_some_iff.mp hb
      exact Multiset.mem_map_of_mem _ (Multiset.mem_range.mpr hk)
    have htransition : Transition file complete (Pool.start blocks) (.doRead k) _ _ := .doRead hr
    have hnext := Pool.next_eq_some_iff.mpr ⟨_, hmem, htransition⟩
    have hcomplete : ReadsComplete (Task.doRead k, complete) := rfl
    have hreachable := Reachable.single hcomplete hnext
    obtain ⟨hk, -⟩ := List.getElem?_eq_some_iff.mp hr
    have hpending : Task.read k (BlockReader.start b).doRead.2 ∈
        Task.read k (BlockReader.start b).doRead.2 ::ₘ
          (Pool.start blocks).tasks.erase (.doRead k) :=
      Multiset.mem_cons_self _ _
    have hposition := hreads _ _ _ hreachable (List.getElem?_set_self hk) hpending
    rw [doRead_fst] at hposition
    exact hposition.symm
  · intro hoffset p r operation hreachable hr hmem
    have hreaders := ReadersInvariant.reachable hreachable
    have hfetched := FetchedInvariant.reachable hreachable k b r hb hr
    have hstate := hreaders.state k b r hb hr
    have hmine : Task.read k operation ∈ p.readerTasks k := Multiset.mem_filter.mpr ⟨hmem, rfl⟩
    rw [hstate.tasks_eq hmine] at hstate
    obtain ⟨j, hj, rfl, progress, -⟩ := hstate.of_read
    have hstart : (b.segmentSpan j).start ≤ file.length :=
      (Nat.le_add_right _ _).trans ((b.segmentSpan_stop_le hj).trans hsize)
    rw [hfetched.position, progress.length (Nat.le_succ_of_le hj), progress.requests,
      sum_requestsOf hj, Nat.min_eq_right hstart, hoffset, Nat.zero_add]

/-- A reader delivers the bytes of its block exactly when the file starts with
the same bytes, and it reads at the place of its block exactly when the block
starts the file. -/
theorem segments_carry_block_iff (file : List Byte) (blocks : List Block) (k : ℕ) (b : Block)
    (hb : blocks[k]? = some b) (hinside : b.Inside file.length) :
    (DeliversBlock file blocks k b ↔ slice file 0 b.size = slice file b.offset b.size) ∧
      (ReadsInBlock file blocks k b ↔ b.offset = 0) :=
  ⟨deliversBlock_iff hb hinside, readsInBlock_iff hb hinside⟩

end Pool

/-- A file of five chunks whose second block is all ones, after zeros. -/
def zerosThenOnes : List Byte := List.replicate 192001 0 ++ List.replicate 127999 1

theorem length_zerosThenOnes : zerosThenOnes.length = 320000 := by
  rw [zerosThenOnes, List.length_append, List.length_replicate, List.length_replicate]

theorem rightBlock_inside : rightBlock.Inside zerosThenOnes.length := by
  rw [length_zerosThenOnes]
  decide

theorem segments_carry_block_iff_rightBlock :
    (DeliversBlock zerosThenOnes [leftBlock, rightBlock] 1 rightBlock ↔
      slice zerosThenOnes 0 rightBlock.size =
        slice zerosThenOnes rightBlock.offset rightBlock.size) ∧
    (ReadsInBlock zerosThenOnes [leftBlock, rightBlock] 1 rightBlock ↔ rightBlock.offset = 0) :=
  segments_carry_block_iff zerosThenOnes [leftBlock, rightBlock] 1 rightBlock rfl
    rightBlock_inside

/-- The segments of the second block hold zeros. -/
theorem second_block_not_delivered :
    Signature2.blockFileBlocks zerosThenOnes.length 2 smallestChunk = some [leftBlock, rightBlock] ∧
      rightBlock.Inside zerosThenOnes.length ∧
      ¬ DeliversBlock zerosThenOnes [leftBlock, rightBlock] 1 rightBlock ∧
      ¬ ReadsInBlock zerosThenOnes [leftBlock, rightBlock] 1 rightBlock := by
  refine ⟨by rw [length_zerosThenOnes]; decide, rightBlock_inside, ?_, ?_⟩
  · rw [deliversBlock_iff rfl rightBlock_inside]
    intro hsame
    have hzeros : slice zerosThenOnes 0 127999 = List.replicate 127999 0 := by
      rw [zerosThenOnes, slice_append_left _ _ (by rw [List.length_replicate]; decide), slice,
        List.drop_zero, List.take_replicate]
      rfl
    have hones : slice zerosThenOnes 192001 127999 = List.replicate 127999 1 := by
      have hright := slice_append_right (List.replicate 192001 (0 : Byte))
        (List.replicate 127999 1) 0 127999
      rw [List.length_replicate] at hright
      rw [zerosThenOnes]
      apply hright.trans
      rw [slice, List.drop_zero, List.take_replicate]
      rfl
    have hreplicate : List.replicate 127999 (0 : Byte) = List.replicate 127999 1 :=
      hzeros.symm.trans (hsame.trans hones)
    have hbyte : (0 : Byte) = 1 := List.replicate_right_injective (by decide) hreplicate
    exact absurd hbyte (by decide)
  · rw [readsInBlock_iff rfl rightBlock_inside]
    decide

end VeeamSignature.Signature2
