import VeeamSignature.Signature2.Segment

/-!
# The block reader

`block_reader_t` keeps the offset of the next segment of its block, and the
kernel keeps the position of its descriptor.  `do_read` chooses the next read
and posts it; the posted operation reads at the position of the descriptor and
hands a segment, or an error, to the callback.
-/

namespace VeeamSignature

open Slices

def gSegmentSizeHint : ℕ := 128 * 1024 * 1024

/-- `segment_size`, computed by the constructor of the reader. -/
def Block.segmentSize (b : Block) : ℕ :=
  if b.chunkSize > gSegmentSizeHint then b.chunkSize
  else gSegmentSizeHint / b.chunkSize * b.chunkSize

namespace Signature2

/-- `block_reader_t`.  The position is the kernel's, for `descriptor`; the last
three fields are history: the byte counts requested from the descriptor, the
segments delivered and the segments whose read failed. -/
structure BlockReader where
  block : Block
  offset : ℕ
  position : ℕ
  requests : List ℕ
  delivered : List Segment
  failures : List Header
  deriving DecidableEq

/-- The reads that `do_read` posts, with the values their lambdas capture. -/
inductive ReadOperation
  | entireBlock
  | segment (currentOffset : ℕ)
  | tail (rest : ℕ)
  deriving DecidableEq

/-- What `read(2)` answers: an error, all the bytes there are up to the count
requested, or at most the given number of them. -/
inductive ReadResult
  | failed (error : String)
  | complete
  | short (count : ℕ)
  deriving DecidableEq

/-- The bytes that `read(2)` delivers from the given position. -/
def read (file : List Byte) (position count : ℕ) : ReadResult → Except String (List Byte)
  | .failed error => .error error
  | .complete => .ok (slice file position count)
  | .short limit => .ok (slice file position (min limit count))

namespace BlockReader

/-- The constructor opens the file; the descriptor stays at its start. -/
def start (b : Block) : BlockReader := ⟨b, 0, 0, [], [], []⟩

def readEntireBlock (r : BlockReader) : BlockReader × ReadOperation :=
  (r, .entireBlock)

def readSegment (r : BlockReader) : BlockReader × ReadOperation :=
  let currentOffset := r.offset
  ({ r with offset := SizeT.add r.offset r.block.segmentSize }, .segment currentOffset)

def doRead (r : BlockReader) : BlockReader × ReadOperation :=
  if r.block.size ≤ gSegmentSizeHint then r.readEntireBlock
  else
    let rest := SizeT.sub r.block.size r.offset
    if rest > r.block.segmentSize then r.readSegment
    else (r, .tail rest)

theorem doRead_fst (r : BlockReader) : r.doRead.1 = { r with offset := r.doRead.1.offset } := by
  by_cases hsize : r.block.size ≤ gSegmentSizeHint
  · simp [doRead, readEntireBlock, hsize]
  · by_cases hrest : SizeT.sub r.block.size r.offset > r.block.segmentSize
    · simp [doRead, readSegment, hsize, hrest]
    · simp [doRead, hsize, hrest]

/-- The length of the buffer and the count passed to `read(2)`. -/
def requested (r : BlockReader) : ReadOperation → ℕ
  | .entireBlock => r.block.size
  | .segment _ => r.block.segmentSize
  | .tail rest => rest

def header (r : BlockReader) : ReadOperation → Header
  | .entireBlock => ⟨r.block.blockId, 0, r.block.chunksCount, r.block.tailSize⟩
  | .segment currentOffset => ⟨r.block.blockId, currentOffset / r.block.chunkSize,
      r.block.segmentSize / r.block.chunkSize, 0⟩
  | .tail rest => ⟨r.block.blockId, r.offset / r.block.chunkSize,
      rest / r.block.chunkSize, rest % r.block.chunkSize⟩

def segment (r : BlockReader) (operation : ReadOperation) (memory : List Byte) : Segment :=
  let header := r.header operation
  ⟨header.blockId, r.block.chunkSize, header.chunkCount, header.tailSize, header.firstChunkId,
    memory⟩

def buffer (count : ℕ) (bytes : List Byte) : List Byte :=
  bytes ++ List.replicate (count - bytes.length) 0

/-- After a read that delivered the given bytes. -/
def received (r : BlockReader) (operation : ReadOperation) (bytes : List Byte) : BlockReader :=
  let count := r.requested operation
  { r with
    position := r.position + bytes.length
    requests := r.requests ++ [count]
    delivered := r.delivered ++ [r.segment operation (buffer count bytes)] }

def rejected (r : BlockReader) (operation : ReadOperation) : BlockReader :=
  { r with
    requests := r.requests ++ [r.requested operation]
    failures := r.failures ++ [r.header operation] }

/-- The body of a posted read up to the callback, whose argument it returns.
A read that delivers fewer bytes than requested counts as a success. -/
def perform (file : List Byte) (r : BlockReader) (operation : ReadOperation)
    (result : ReadResult) : BlockReader × Except String Segment :=
  let count := r.requested operation
  match read file r.position count result with
  | .error error => (r.rejected operation, .error error)
  | .ok bytes => (r.received operation bytes, .ok (r.segment operation (buffer count bytes)))

end BlockReader

/-- Only the read of a full segment posts `do_read` again. -/
def ReadOperation.again : ReadOperation → Bool
  | .segment _ => true
  | _ => false

/-- The sequential loop for one block: each read completes before the next
`do_read`. -/
def sequentialLoop (file : List Byte) : ℕ → BlockReader → BlockReader
  | 0, r => r
  | fuel + 1, r =>
      let (r, operation) := r.doRead
      let (r, _) := r.perform file operation .complete
      if operation.again then sequentialLoop file fuel r else r

end Signature2

end VeeamSignature
