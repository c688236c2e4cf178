import VeeamSignature.Block

/-!
# Segments and their hashes

A segment is a part of a block that one `read(2)` fills; a hashed segment
carries the serialised checksums of its chunks.  The accesses of the hasher to
the segment's memory and to the hash buffer are checked: outside an allocation
they have no value.
-/

namespace VeeamSignature.Signature2

open Slices

structure Header where
  blockId : ℕ
  firstChunkId : ℕ
  chunkCount : ℕ
  tailSize : ℕ
  deriving DecidableEq

/-- `segment_t`. -/
structure Segment where
  blockId : ℕ
  chunkSize : ℕ
  chunkCount : ℕ
  tailSize : ℕ
  firstChunkId : ℕ
  memory : List Byte
  deriving DecidableEq

def Segment.header (s : Segment) : Header :=
  ⟨s.blockId, s.firstChunkId, s.chunkCount, s.tailSize⟩

/-- `hashed_segment_t`. -/
structure HashedSegment where
  blockId : ℕ
  firstChunkId : ℕ
  chunkCount : ℕ
  size : ℕ
  memory : List Byte
  deriving DecidableEq

/-- `std::memcpy` into an allocation. -/
def memcpy (memory : List Byte) (start : ℕ) (bytes : List Byte) : Option (List Byte) :=
  if start + bytes.length ≤ memory.length then
    some (memory.take start ++ bytes ++ memory.drop (start + bytes.length))
  else none

/-- The loop over whole chunks of `segment_hasher_t::operator()`; it hands
`current_chunk` and the hash buffer on. -/
def hashSegmentChunks (s : Segment) : ℕ → ℕ → ℕ → List Byte → Option (ℕ × List Byte)
  | 0, _, currentChunk, hash => some (currentChunk, hash)
  | count + 1, index, currentChunk, hash => do
      let crc ← crcAt s.memory currentChunk s.chunkSize
      let hash ← memcpy hash (index * 4) (crc32Bytes crc)
      hashSegmentChunks s count (index + 1) (currentChunk + s.chunkSize) hash

/-- `segment_hasher_t::operator()`. -/
def segmentHasher (s : Segment) : Option HashedSegment := do
  let hashSize := (s.chunkCount + if s.tailSize = 0 then 0 else 1) * 4
  let chunks ← hashSegmentChunks s s.chunkCount 0 0 (List.replicate hashSize 0)
  let hash ←
    if s.tailSize = 0 then some chunks.2
    else do
      let crc ← crcAt s.memory chunks.1 s.tailSize
      memcpy chunks.2 (s.chunkCount * 4) (crc32Bytes crc)
  some ⟨s.blockId, s.firstChunkId, s.chunkCount, hashSize, hash⟩

/-! ## The hasher in closed form -/

/-- The memory of a segment has the length its header says. -/
def Segment.WellFormed (s : Segment) : Prop :=
  0 < s.chunkSize ∧ s.tailSize < s.chunkSize ∧
    s.memory.length = s.chunkCount * s.chunkSize + s.tailSize

def records (chunkSize : ℕ) (bytes : List Byte) : List Byte :=
  ((chunks chunkSize bytes).map crcOf).flatMap crc32Bytes

/-- The hashed segment of a well-formed segment. -/
def hashOf (s : Segment) : HashedSegment :=
  ⟨s.blockId, s.firstChunkId, s.chunkCount,
    (s.chunkCount + if s.tailSize = 0 then 0 else 1) * 4, records s.chunkSize s.memory⟩

theorem length_flatMap_crc32Bytes (crcs : List Crc32) :
    (crcs.flatMap crc32Bytes).length = crcs.length * 4 := by
  simp [List.length_flatMap, crc32Bytes, List.map_const']

theorem memcpy_append (done rest bytes : List Byte) (h : bytes.length ≤ rest.length) :
    memcpy (done ++ rest) done.length bytes = some (done ++ bytes ++ rest.drop bytes.length) := by
  have hfits : done.length + bytes.length ≤ (done ++ rest).length := by simpa using h
  rw [memcpy, if_pos hfits, List.take_left, ← List.drop_drop, List.drop_left]

theorem hashSegmentChunks_eq {s : Segment} {count : ℕ} (done rest : List Byte) {index : ℕ}
    (hdone : done.length = index * 4) (hrest : count * 4 ≤ rest.length)
    (hmemory : (index + count) * s.chunkSize ≤ s.memory.length) :
    hashSegmentChunks s count index (index * s.chunkSize) (done ++ rest) =
      some ((index + count) * s.chunkSize, done ++
        ((List.range' index count).map fun i =>
          crcOf (slice s.memory (i * s.chunkSize) s.chunkSize)).flatMap crc32Bytes ++
        rest.drop (count * 4)) := by
  induction count generalizing index done rest with
  | zero => simp [hashSegmentChunks]
  | succ count ih =>
      let crc := crcOf (slice s.memory (index * s.chunkSize) s.chunkSize)
      have hnext : index * s.chunkSize + s.chunkSize = (index + 1) * s.chunkSize := by
        rw [Nat.add_mul, Nat.one_mul]
      have hsplit : index + (count + 1) = index + 1 + count := by omega
      have hin : index * s.chunkSize + s.chunkSize ≤ s.memory.length := by
        rw [hnext]
        exact (Nat.mul_le_mul_right _ (by omega)).trans hmemory
      have hcopy : memcpy (done ++ rest) (index * 4) (crc32Bytes crc) =
          some (done ++ crc32Bytes crc ++ rest.drop 4) := by
        rw [← hdone]
        apply memcpy_append done rest _
        rw [length_crc32Bytes]
        omega
      have hdone' : (done ++ crc32Bytes crc).length = (index + 1) * 4 := by
        rw [List.length_append, hdone, length_crc32Bytes, Nat.add_mul]
      have hrest' : count * 4 ≤ (rest.drop 4).length := by
        rw [List.length_drop]
        omega
      rw [hashSegmentChunks, crcAt_eq hin, Option.bind_eq_bind, Option.bind_some, hcopy,
        Option.bind_eq_bind, Option.bind_some, hnext,
        ih (done ++ crc32Bytes crc) (rest.drop 4) hdone' hrest' (hsplit ▸ hmemory),
        List.range'_succ, hsplit, List.drop_drop, Nat.add_mul count 1 4, Nat.add_comm 4]
      simp [crc]

theorem map_crcOf_chunks {c : ℕ} (hc : 0 < c) {bytes : List Byte} {count tail : ℕ}
    (htail : tail < c) (hlen : bytes.length = count * c + tail) :
    (chunks c bytes).map crcOf =
      ((List.range count).map fun i => crcOf (slice bytes (i * c) c)) ++
        if tail = 0 then [] else [crcOf (slice bytes (count * c) tail)] := by
  have hdiv : (count * c + tail) / c = count := by
    rw [Nat.mul_comm, Nat.mul_add_div hc, Nat.div_eq_of_lt htail, Nat.add_zero]
  have hmod : (count * c + tail) % c = tail := by
    rw [Nat.mul_comm, Nat.mul_add_mod, Nat.mod_eq_of_lt htail]
  rw [chunks, hlen, chunkCount_eq hc, hdiv, hmod]
  by_cases hzero : tail = 0
  · simp [hzero, Function.comp_def]
  · have hlast : slice bytes (count * c) c = slice bytes (count * c) tail := by
      rw [slice_of_le bytes (by omega), hlen, Nat.add_sub_cancel_left]
    simp [hzero, List.range_succ, Function.comp_def, hlast]

/-- On a well-formed segment every access of the hasher is inside its
allocation, and the hash is the records of the segment's bytes. -/
theorem segmentHasher_eq {s : Segment} (h : s.WellFormed) : segmentHasher s = some (hashOf s) := by
  obtain ⟨hc, htail, hlen⟩ := h
  have hchunks := map_crcOf_chunks hc htail hlen
  let crcs := (List.range s.chunkCount).map fun i =>
    crcOf (slice s.memory (i * s.chunkSize) s.chunkSize)
  let hashSize := (s.chunkCount + if s.tailSize = 0 then 0 else 1) * 4
  have hsize : s.chunkCount * 4 ≤ hashSize := by
    exact Nat.mul_le_mul_right 4 (Nat.le_add_right _ _)
  have hmemory : (0 + s.chunkCount) * s.chunkSize ≤ s.memory.length := by
    rw [Nat.zero_add, hlen]
    exact Nat.le_add_right _ _
  have hbuffer : s.chunkCount * 4 ≤ (List.replicate hashSize (0 : Byte)).length := by
    simpa using hsize
  have hloop := hashSegmentChunks_eq [] (List.replicate hashSize 0) (by simp) hbuffer hmemory
  simp only [Nat.zero_mul, Nat.zero_add, List.nil_append, List.drop_replicate,
    ← List.range_eq_range'] at hloop
  unfold segmentHasher
  by_cases hzero : s.tailSize = 0
  · simp only [hashSize, hzero, if_true, Nat.add_zero, Nat.sub_self] at hloop
    simp only [hzero, if_true, Nat.add_zero, hloop, Option.bind_eq_bind, Option.bind_some]
    simp [hashOf, records, hchunks, hzero]
  · have hin : s.chunkCount * s.chunkSize + s.tailSize ≤ s.memory.length := Nat.le_of_eq hlen.symm
    have hone : (s.chunkCount + 1) * 4 - s.chunkCount * 4 = 4 := by omega
    have hdone : (crcs.flatMap crc32Bytes).length = s.chunkCount * 4 := by
      rw [length_flatMap_crc32Bytes, List.length_map, List.length_range]
    have hcopy := memcpy_append (crcs.flatMap crc32Bytes) (List.replicate 4 0)
      (crc32Bytes (crcOf (slice s.memory (s.chunkCount * s.chunkSize) s.tailSize))) (by simp)
    rw [hdone] at hcopy
    simp only [hashSize, hzero, if_false, hone] at hloop
    simp only [hzero, if_false, hloop, Option.bind_eq_bind, Option.bind_some, crcAt_eq hin]
    rw [hcopy]
    simp [hashOf, records, hchunks, hzero, crcs]

end VeeamSignature.Signature2
