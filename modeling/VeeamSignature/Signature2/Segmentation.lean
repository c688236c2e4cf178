import Mathlib.Algebra.BigOperators.Group.List.Basic
import Mathlib.Tactic.Ring
import VeeamSignature.Signature2.BlockReader

/-!
# The segments of a block

The reads of a block cut it into consecutive spans: full segments while more
than a segment is left, then the rest.  The three read paths of the reader are
the same cut, told apart by thresholds only.
-/

namespace VeeamSignature

open Slices

namespace Block

variable (b : Block)

def fullSegments : ℕ :=
  if b.size ≤ gSegmentSizeHint then 0 else (b.size - 1) / b.segmentSize

/-- The part of the block that the read with the given number covers. -/
def segmentSpan (j : ℕ) : Span :=
  ⟨j * b.segmentSize,
    if j < b.fullSegments then b.segmentSize else b.size - j * b.segmentSize⟩

def segmentSpans : List Span := (List.range (b.fullSegments + 1)).map b.segmentSpan

@[simp] theorem length_segmentSpans : b.segmentSpans.length = b.fullSegments + 1 := by
  simp [segmentSpans]

theorem chunkSize_dvd_segmentSize : b.chunkSize ∣ b.segmentSize := by
  unfold segmentSize
  split_ifs
  · exact dvd_refl _
  · exact dvd_mul_left _ _

theorem chunkSize_le_segmentSize : b.chunkSize ≤ b.segmentSize := by
  unfold segmentSize
  split_ifs with h
  · exact le_refl _
  · exact Nat.le_mul_of_pos_left _ (Nat.div_pos (Nat.le_of_not_lt h) b.chunkSize_pos)

theorem segmentSize_pos : 0 < b.segmentSize :=
  Nat.lt_of_lt_of_le b.chunkSize_pos b.chunkSize_le_segmentSize

theorem segmentSize_eq : b.segmentSize / b.chunkSize * b.chunkSize = b.segmentSize :=
  Nat.div_mul_cancel b.chunkSize_dvd_segmentSize

theorem segmentChunks_pos : 0 < b.segmentSize / b.chunkSize :=
  Nat.div_pos b.chunkSize_le_segmentSize b.chunkSize_pos

/-- A block within the hint is read at once. -/
theorem fullSegments_of_le_hint (h : b.size ≤ gSegmentSizeHint) : b.fullSegments = 0 :=
  if_pos h

theorem segment_lt_rest {j : ℕ} (hj : j < b.fullSegments) :
    (j + 1) * b.segmentSize < b.size := by
  unfold fullSegments at hj
  split_ifs at hj with hsize
  · omega
  · have hle : (j + 1) * b.segmentSize ≤ b.size - 1 :=
      (Nat.le_div_iff_mul_le b.segmentSize_pos).mp hj
    omega

theorem fullSegments_mul_le : b.fullSegments * b.segmentSize ≤ b.size := by
  unfold fullSegments
  split_ifs with hsize
  · simp
  · exact (Nat.div_mul_le_self _ _).trans (Nat.sub_le _ _)

/-- The last read covers at most a segment, unless the block is read at once. -/
theorem rest_le_segment (h : gSegmentSizeHint < b.size) :
    b.size - b.fullSegments * b.segmentSize ≤ b.segmentSize := by
  have hlt : b.size - 1 < (b.fullSegments + 1) * b.segmentSize := by
    rw [fullSegments, if_neg (Nat.not_le.mpr h)]
    exact Nat.lt_mul_of_div_lt (Nat.lt_succ_self _) b.segmentSize_pos
  rw [Nat.add_mul, Nat.one_mul] at hlt
  omega

theorem segmentSpan_stop {j : ℕ} (hj : j < b.fullSegments) :
    (b.segmentSpan j).stop = (b.segmentSpan (j + 1)).start := by
  simp [Span.stop, segmentSpan, hj, Nat.add_mul]

theorem segmentSpan_last_stop : (b.segmentSpan b.fullSegments).stop = b.size := by
  have hle := b.fullSegments_mul_le
  simp only [Span.stop, segmentSpan, Nat.lt_irrefl, if_false]
  omega

theorem segmentSpans_tile : Tiles 0 b.segmentSpans b.size := by
  have hfull : ∀ count ≤ b.fullSegments,
      Tiles 0 ((List.range count).map b.segmentSpan) (b.segmentSpan count).start := by
    intro count hcount
    induction count with
    | zero => simp [Tiles, segmentSpan]
    | succ count ih =>
        rw [List.range_succ, List.map_append]
        exact (ih (Nat.le_of_succ_le hcount)).append ⟨rfl, b.segmentSpan_stop hcount⟩
  rw [segmentSpans, List.range_succ, List.map_append]
  exact (hfull _ (le_refl _)).append ⟨rfl, b.segmentSpan_last_stop⟩

theorem segmentSpan_stop_le {j : ℕ} (hj : j ≤ b.fullSegments) :
    (b.segmentSpan j).stop ≤ b.size :=
  b.segmentSpans_tile.stop_le (List.mem_map.mpr ⟨j, List.mem_range.mpr (Nat.lt_succ_of_le hj), rfl⟩)

theorem chunkSize_dvd_length {j : ℕ} (hj : j < b.fullSegments) :
    b.chunkSize ∣ (b.segmentSpan j).length := by
  simp only [segmentSpan, hj, if_true]
  exact b.chunkSize_dvd_segmentSize

theorem segmentSpan_start_div (j : ℕ) :
    (b.segmentSpan j).start / b.chunkSize = j * (b.segmentSize / b.chunkSize) := by
  exact Nat.mul_div_assoc j b.chunkSize_dvd_segmentSize

theorem getElem?_segmentSpans {j : ℕ} (hj : j ≤ b.fullSegments) :
    b.segmentSpans[j]? = some (b.segmentSpan j) := by
  simp [segmentSpans, Nat.lt_succ_of_le hj]

theorem segmentSpans_drop {j : ℕ} (hj : j ≤ b.fullSegments) :
    b.segmentSpans.drop j = b.segmentSpan j :: b.segmentSpans.drop (j + 1) := by
  obtain ⟨hlt, hget⟩ := List.getElem?_eq_some_iff.mp (b.getElem?_segmentSpans hj)
  rw [List.drop_eq_getElem_cons hlt, hget]

theorem segmentSpans_drop_of_lt {j : ℕ} (hj : b.fullSegments < j) : b.segmentSpans.drop j = [] := by
  apply List.drop_of_length_le
  rw [b.length_segmentSpans]
  exact hj

/-- The first chunks of the reads come in their order. -/
theorem segmentSpans_increasing :
    b.segmentSpans.Pairwise fun s s' => s.start / b.chunkSize < s'.start / b.chunkSize := by
  rw [segmentSpans, List.pairwise_map]
  apply List.pairwise_lt_range.imp
  intro i j hij
  rw [b.segmentSpan_start_div, b.segmentSpan_start_div]
  exact Nat.mul_lt_mul_of_pos_right hij b.segmentChunks_pos

theorem sum_segmentSpans_chunks :
    (b.segmentSpans.map fun s => s.length / b.chunkSize).sum = b.chunksCount := by
  have hfull : ∀ count ≤ b.fullSegments,
      ((List.range count).map fun j => (b.segmentSpan j).length / b.chunkSize).sum =
        count * (b.segmentSize / b.chunkSize) := by
    intro count hcount
    induction count with
    | zero => simp
    | succ count ih =>
        have hlength : (b.segmentSpan count).length = b.segmentSize := by
          simp only [segmentSpan, if_pos (show count < b.fullSegments from hcount)]
        rw [List.range_succ, List.map_append, List.sum_append, ih (Nat.le_of_succ_le hcount)]
        simp [hlength, Nat.add_mul]
  have hlast : (b.segmentSpan b.fullSegments).length =
      b.size - b.chunkSize * (b.fullSegments * (b.segmentSize / b.chunkSize)) := by
    have hmul : b.chunkSize * (b.fullSegments * (b.segmentSize / b.chunkSize)) =
        b.fullSegments * b.segmentSize := by
      calc b.chunkSize * (b.fullSegments * (b.segmentSize / b.chunkSize)) =
          b.fullSegments * (b.segmentSize / b.chunkSize * b.chunkSize) := by ring
        _ = b.fullSegments * b.segmentSize := by rw [b.segmentSize_eq]
    rw [hmul]
    simp [segmentSpan]
  have hle : b.fullSegments * (b.segmentSize / b.chunkSize) ≤ b.chunksCount := by
    rw [chunksCount, Nat.le_div_iff_mul_le b.chunkSize_pos, Nat.mul_assoc, b.segmentSize_eq]
    exact b.fullSegments_mul_le
  rw [segmentSpans, List.map_map, List.range_succ, List.map_append, List.sum_append]
  simp only [Function.comp_def, hfull _ (le_refl _), List.map_cons, List.map_nil,
    List.sum_cons, List.sum_nil, Nat.add_zero, hlast, Nat.sub_mul_div]
  exact Nat.add_sub_cancel' hle

end Block

namespace Signature2

def headerOf (b : Block) (s : Span) : Header :=
  ⟨b.blockId, s.start / b.chunkSize, s.length / b.chunkSize, s.length % b.chunkSize⟩

def headers (b : Block) : List Header := b.segmentSpans.map (headerOf b)

@[simp] theorem length_headers (b : Block) : (headers b).length = b.fullSegments + 1 := by
  simp [headers]

theorem headers_drop {b : Block} {j : ℕ} (hj : j ≤ b.fullSegments) :
    (headers b).drop j = headerOf b (b.segmentSpan j) :: (headers b).drop (j + 1) := by
  rw [headers, ← List.map_drop, ← List.map_drop, b.segmentSpans_drop hj, List.map_cons]

theorem headers_drop_of_lt {b : Block} {j : ℕ} (hj : b.fullSegments < j) :
    (headers b).drop j = [] := by
  rw [headers, ← List.map_drop, b.segmentSpans_drop_of_lt hj, List.map_nil]

/-- The operation that `do_read` chooses for the read with the given number. -/
def operationAt (b : Block) (j : ℕ) : ReadOperation :=
  if b.size ≤ gSegmentSizeHint then .entireBlock
  else if j < b.fullSegments then .segment (j * b.segmentSize)
  else .tail (b.size - j * b.segmentSize)

/-- The offset of the reader after it has posted that read. -/
def offsetAfter (b : Block) (j : ℕ) : ℕ :=
  if j < b.fullSegments then (j + 1) * b.segmentSize else j * b.segmentSize

namespace BlockReader

/-- What `do_read` does at the offset of the read with the given number. -/
theorem doRead_eq {r : BlockReader} {j : ℕ} (hj : j ≤ r.block.fullSegments)
    (hoffset : r.offset = j * r.block.segmentSize) :
    r.doRead = ({ r with offset := offsetAfter r.block j }, operationAt r.block j) := by
  have hlt := r.block.size_lt
  by_cases hsize : r.block.size ≤ gSegmentSizeHint
  · have hzero := r.block.fullSegments_of_le_hint hsize
    have hoff : offsetAfter r.block j = r.offset := by
      rw [offsetAfter, if_neg (by omega), hoffset]
    rw [doRead, if_pos hsize, operationAt, if_pos hsize, hoff]
    rfl
  · rw [doRead, if_neg hsize, operationAt, if_neg hsize, offsetAfter]
    rcases Nat.lt_or_eq_of_le hj with hj | rfl
    · have hrest := r.block.segment_lt_rest hj
      rw [Nat.add_mul, Nat.one_mul] at hrest
      have hsub : SizeT.sub r.block.size r.offset = r.block.size - r.offset :=
        SizeT.sub_of_le (by omega) hlt
      have hadd : SizeT.add r.offset r.block.segmentSize = (j + 1) * r.block.segmentSize := by
        rw [SizeT.add_of_lt (by omega), hoffset, Nat.add_mul, Nat.one_mul]
      simp only [hsub, if_pos hj]
      rw [if_pos (by omega), readSegment, hadd, hoffset]
    · have hle := r.block.fullSegments_mul_le
      have hrest := r.block.rest_le_segment (Nat.lt_of_not_le hsize)
      have hsub : SizeT.sub r.block.size r.offset = r.block.size - r.offset :=
        SizeT.sub_of_le (by omega) hlt
      simp only [hsub, Nat.lt_irrefl, if_false]
      rw [if_neg (by omega), hoffset]
      cases r
      simp_all

theorem requested_operationAt {r : BlockReader} {j : ℕ} (hj : j ≤ r.block.fullSegments) :
    r.requested (operationAt r.block j) = (r.block.segmentSpan j).length := by
  unfold operationAt Block.segmentSpan
  split_ifs with hsize hfull hfull
  · rw [r.block.fullSegments_of_le_hint hsize] at hfull
    omega
  · rw [r.block.fullSegments_of_le_hint hsize] at hj
    obtain rfl : j = 0 := by omega
    simp [requested]
  · rfl
  · rfl

theorem header_operationAt {r : BlockReader} {j : ℕ} (hj : j ≤ r.block.fullSegments)
    (hoffset : r.offset = offsetAfter r.block j) :
    r.header (operationAt r.block j) = headerOf r.block (r.block.segmentSpan j) := by
  unfold operationAt Block.segmentSpan headerOf
  unfold offsetAfter at hoffset
  split_ifs with hsize hfull hfull
  · rw [r.block.fullSegments_of_le_hint hsize] at hfull
    omega
  · rw [r.block.fullSegments_of_le_hint hsize] at hj
    obtain rfl : j = 0 := by omega
    simp [header, Block.chunksCount, Block.tailSize]
  · simp [header, Nat.mod_eq_zero_of_dvd r.block.chunkSize_dvd_segmentSize]
  · rw [if_neg hfull] at hoffset
    simp [header, hoffset]

end BlockReader

theorem again_operationAt {b : Block} {j : ℕ} :
    (operationAt b j).again = decide (j < b.fullSegments) := by
  unfold operationAt
  split_ifs with hsize hfull
  · have hzero := b.fullSegments_of_le_hint hsize
    simp [ReadOperation.again, hzero]
  · simp [ReadOperation.again, hfull]
  · simp [ReadOperation.again, hfull]

/-! ## A block with a tail -/

def segmentChunk : ChunkSize := ⟨gSegmentSizeHint, by decide, by decide⟩

def tailedBlock : Block := ⟨0, 0, gSegmentSizeHint + 1, gSegmentSizeHint, by decide, by decide⟩

end Signature2

end VeeamSignature
