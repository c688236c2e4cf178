import Mathlib.Data.List.Basic
import VeeamSignature.Signature2.Readers

/-!
# The chain of reads of a block

A reader that is alone with its descriptor: every `do_read` posts one read, and
the read of a full segment that succeeds posts the next `do_read`.  The
environment answers each `read(2)`.  A call records where the reader and the
descriptor were, what `read(2)` delivered and what the callback was handed.
-/

namespace VeeamSignature.Signature2

open Slices BlockReader

def ReadResult.isFailed : ReadResult → Bool
  | .failed _ => true
  | _ => false

structure ReadCall where
  /-- `offset` when `do_read` was entered. -/
  offset : ℕ
  operation : ReadOperation
  /-- The position of the descriptor before `read(2)`. -/
  position : ℕ
  count : ℕ
  bytes : Except String (List Byte)
  answer : Except String Segment

/-- The read posts `do_read` again. -/
def ReadCall.posts (call : ReadCall) : Bool := call.operation.again && call.answer.isOk

/-- How many bytes the descriptor moved. -/
def ReadCall.moved (call : ReadCall) : ℕ :=
  match call.bytes with
  | .ok bytes => bytes.length
  | .error _ => 0

/-- `do_read` and the read it posts. -/
def BlockReader.readOnce (file : List Byte) (r : BlockReader) (result : ReadResult) :
    ReadCall × BlockReader :=
  let (posted, operation) := r.doRead
  let count := posted.requested operation
  let (reader, answer) := posted.perform file operation result
  (⟨r.offset, operation, posted.position, count, read file posted.position count result, answer⟩,
    reader)

/-- The calls so far, the reader after them and whether `do_read` is posted. -/
structure ReadChain where
  calls : List ReadCall
  reader : BlockReader
  posted : Bool

def readChain (file : List Byte) : List ReadResult → BlockReader → ReadChain
  | [], r => ⟨[], r, true⟩
  | result :: results, r =>
      let (call, reader) := r.readOnce file result
      if call.posts then
        let rest := readChain file results reader
        { rest with calls := call :: rest.calls }
      else ⟨[call], reader, false⟩

def chainSegments (calls : List ReadCall) : List Segment :=
  calls.filterMap fun call => call.answer.toOption

/-! ## One call -/

/-- The reader is about to enter `do_read` for the read with the given number. -/
structure AtRead (b : Block) (j : ℕ) (r : BlockReader) : Prop where
  block : r.block = b
  offset : r.offset = j * b.segmentSize
  le : j ≤ b.fullSegments

/-- The call for the read with the given number, made at a position of the
descriptor. -/
def callAt (file : List Byte) (b : Block) (j position : ℕ) (result : ReadResult) : ReadCall :=
  let s := b.segmentSpan j
  let bytes := read file position s.length result
  ⟨s.start, operationAt b j, position, s.length, bytes,
    bytes.map fun bytes => ⟨b.blockId, b.chunkSize, s.length / b.chunkSize,
      s.length % b.chunkSize, s.start / b.chunkSize, buffer s.length bytes⟩⟩

section Call

variable {file : List Byte} {b : Block} {j : ℕ} {r : BlockReader} {result : ReadResult}

theorem AtRead.start (b : Block) : AtRead b 0 (BlockReader.start b) :=
  ⟨rfl, (Nat.zero_mul _).symm, Nat.zero_le _⟩

theorem AtRead.readOnce_fst (h : AtRead b j r) :
    (r.readOnce file result).1 = callAt file b j r.position result := by
  obtain ⟨rfl, hoffset, hj⟩ := h
  have hcount := requested_operationAt (r := { r with offset := offsetAfter r.block j }) hj
  have hheader := header_operationAt (r := { r with offset := offsetAfter r.block j }) hj rfl
  rw [BlockReader.readOnce, doRead_eq hj hoffset]
  simp only [perform, hcount, callAt]
  cases read file r.position (r.block.segmentSpan j).length result with
  | error error => simp [hoffset, Block.segmentSpan, Except.map]
  | ok bytes =>
      simp only [BlockReader.segment, hheader]
      simp [hoffset, Block.segmentSpan, headerOf, Except.map]

theorem AtRead.readOnce_snd (h : AtRead b j r) (file : List Byte) (result : ReadResult) :
    (r.readOnce file result).2.block = b ∧
      (r.readOnce file result).2.offset = offsetAfter b j ∧
      (r.readOnce file result).2.position =
        r.position + (callAt file b j r.position result).moved := by
  obtain ⟨rfl, hoffset, hj⟩ := h
  have hcount := requested_operationAt (r := { r with offset := offsetAfter r.block j }) hj
  rw [BlockReader.readOnce, doRead_eq hj hoffset]
  simp only [perform, hcount, callAt]
  cases read file r.position (r.block.segmentSpan j).length result with
  | error error => simp [rejected, ReadCall.moved]
  | ok bytes => simp [received, ReadCall.moved]

theorem AtRead.next (h : AtRead b j r) (hlt : j < b.fullSegments) (file : List Byte)
    (result : ReadResult) :
    AtRead b (j + 1) (r.readOnce file result).2 := by
  obtain ⟨hblock, hoffset, -⟩ := h.readOnce_snd file result
  exact ⟨hblock, hoffset.trans (if_pos hlt), hlt⟩

theorem isOk_read (file : List Byte) (position count : ℕ) (result : ReadResult) :
    (read file position count result).isOk = !result.isFailed := by
  cases result <;> rfl

theorem isOk_callAt_answer {position : ℕ} :
    (callAt file b j position result).answer.isOk = !result.isFailed := by
  rw [← isOk_read file position (b.segmentSpan j).length, callAt]
  cases read file position (b.segmentSpan j).length result <;> rfl

theorem callAt_posts {position : ℕ} :
    (callAt file b j position result).posts =
      (decide (j < b.fullSegments) && !result.isFailed) := by
  rw [ReadCall.posts, isOk_callAt_answer, callAt, again_operationAt]

end Call

/-! ## The calls of a chain -/

section Chain

variable {file : List Byte} {b : Block} {j : ℕ} {r : BlockReader} {results : List ReadResult}

theorem AtRead.readChain_cons (h : AtRead b j r) (result : ReadResult) :
    readChain file (result :: results) r =
      if (callAt file b j r.position result).posts then
        let rest := readChain file results (r.readOnce file result).2
        { rest with calls := callAt file b j r.position result :: rest.calls }
      else ⟨[callAt file b j r.position result], (r.readOnce file result).2, false⟩ := by
  rw [← h.readOnce_fst]
  rfl

theorem AtRead.exists_callAt (h : AtRead b j r) {i : ℕ} {call : ReadCall}
    (hcall : (readChain file results r).calls[i]? = some call) :
    j + i ≤ b.fullSegments ∧ ∃ position, ∃ result ∈ results,
      call = callAt file b (j + i) position result := by
  induction results generalizing i j r with
  | nil => simp [readChain] at hcall
  | cons result results ih =>
      rw [h.readChain_cons] at hcall
      split_ifs at hcall with hposts
      · cases i with
        | zero =>
            obtain rfl := Option.some.inj hcall
            exact ⟨h.le, _, result, List.mem_cons_self, rfl⟩
        | succ i =>
            have hlt : j < b.fullSegments := by
              rw [callAt_posts, Bool.and_eq_true, decide_eq_true_eq] at hposts
              exact hposts.1
            obtain ⟨hle, position, result', hmem, hcall⟩ := ih (h.next hlt file result) hcall
            rw [Nat.add_right_comm] at hle hcall
            exact ⟨hle, position, result', List.mem_cons_of_mem _ hmem, hcall⟩
      · cases i with
        | zero =>
            obtain rfl := Option.some.inj hcall
            exact ⟨h.le, _, result, List.mem_cons_self, rfl⟩
        | succ i => simp at hcall

/-- While no read fails, the chain goes on to the end of the block. -/
theorem AtRead.posted_iff (h : AtRead b j r) (file : List Byte)
    (hok : ∀ result ∈ results, result.isFailed = false) :
    ((readChain file results r).posted = true ↔ j + results.length ≤ b.fullSegments) ∧
      (readChain file results r).calls.length = min results.length (b.fullSegments + 1 - j) := by
  have hle := h.le
  induction results generalizing j r with
  | nil => simp [readChain, hle]
  | cons result results ih =>
      have hresult := hok result List.mem_cons_self
      rw [h.readChain_cons, callAt_posts, hresult]
      by_cases hlt : j < b.fullSegments
      · obtain ⟨hposted, hlength⟩ :=
          ih (h.next hlt file result) (List.forall_mem_of_forall_mem_cons hok) hlt
        simp only [hlt, decide_true, Bool.not_false, Bool.and_true, if_true, hposted,
          List.length_cons, hlength]
        omega
      · simp [hlt]
        omega

end Chain

/-! ## The segments tile the block -/

def Segment.byteCount (s : Segment) : ℕ := s.chunkCount * s.chunkSize + s.tailSize

structure ReadCall.InBounds (b : Block) (call : ReadCall) : Prop where
  offset_lt : call.offset < b.size
  no_wrap : ∀ currentOffset, call.operation = .segment currentOffset →
    call.offset + b.segmentSize < SizeT.modulus
  count_le : call.count ≤ max gSegmentSizeHint b.chunkSize
  segment : ∃ s, call.answer = .ok s ∧ s.byteCount = call.count ∧ s.memory.length = call.count

/-- The segments follow one another through the block, in whole chunks but for
the last. -/
structure TilesBlock (b : Block) (segments : List Segment) : Prop where
  chunkSize : ∀ s ∈ segments, s.chunkSize = b.chunkSize
  first : ∀ i s, segments[i]? = some s →
    s.firstChunkId * b.chunkSize = ((segments.take i).map Segment.byteCount).sum
  whole : ∀ s ∈ segments.dropLast, s.tailSize = 0 ∧ 1 ≤ s.chunkCount
  last : ∃ s, segments.getLast? = some s ∧ 0 < s.byteCount ∧ s.tailSize = b.tailSize
  total : (segments.map Segment.byteCount).sum = b.size

section Tiling

variable {file : List Byte} {b : Block} {j : ℕ} {r : BlockReader} {results : List ReadResult}

theorem segmentSpan_start_lt (hb : 0 < b.size) (hj : j ≤ b.fullSegments) :
    (b.segmentSpan j).start < b.size := by
  rcases Nat.lt_or_eq_of_le hj with hlt | rfl
  · exact Nat.lt_of_le_of_lt (Nat.mul_le_mul_right _ (Nat.le_succ j)) (b.segment_lt_rest hlt)
  · show b.fullSegments * b.segmentSize < b.size
    unfold Block.fullSegments
    split_ifs with hsize
    · rwa [Nat.zero_mul]
    · have hle := Nat.div_mul_le_self (b.size - 1) b.segmentSize
      omega

theorem segmentSize_le : b.segmentSize ≤ max gSegmentSizeHint b.chunkSize := by
  unfold Block.segmentSize
  split_ifs
  · exact Nat.le_max_right _ _
  · exact le_max_of_le_left (Nat.div_mul_le_self _ _)

theorem segmentSpan_length_le (hj : j ≤ b.fullSegments) :
    (b.segmentSpan j).length ≤ max gSegmentSizeHint b.chunkSize := by
  simp only [Block.segmentSpan]
  split_ifs with hlt
  · exact segmentSize_le
  · obtain rfl : j = b.fullSegments := Nat.le_antisymm hj (Nat.le_of_not_lt hlt)
    rcases Nat.lt_or_ge gSegmentSizeHint b.size with hsize | hsize
    · exact (b.rest_le_segment hsize).trans segmentSize_le
    · exact le_max_of_le_left ((Nat.sub_le _ _).trans hsize)

theorem length_buffer {count : ℕ} {bytes : List Byte} (h : bytes.length ≤ count) :
    (buffer count bytes).length = count := by
  rw [buffer, List.length_append, List.length_replicate]
  omega

theorem callAt_answer (file : List Byte) (b : Block) (j position : ℕ) {result : ReadResult}
    (hok : result.isFailed = false) :
    ∃ s, (callAt file b j position result).answer = .ok s ∧
      s.header = headerOf b (b.segmentSpan j) ∧ s.chunkSize = b.chunkSize ∧
      s.memory.length = (b.segmentSpan j).length := by
  cases hread : read file position (b.segmentSpan j).length result with
  | error error =>
      have hisOk := isOk_read file position (b.segmentSpan j).length result
      rw [hread, hok] at hisOk
      cases hisOk
  | ok bytes =>
      have hlength := length_buffer (length_read_le hread)
      refine ⟨⟨b.blockId, b.chunkSize, (b.segmentSpan j).length / b.chunkSize,
        (b.segmentSpan j).length % b.chunkSize, (b.segmentSpan j).start / b.chunkSize,
        buffer (b.segmentSpan j).length bytes⟩, ?_, rfl, rfl, hlength⟩
      simp only [callAt, hread]
      rfl

theorem byteCount_eq {s : Segment} (hheader : s.header = headerOf b (b.segmentSpan j))
    (hchunk : s.chunkSize = b.chunkSize) : s.byteCount = (b.segmentSpan j).length := by
  have hcount : s.chunkCount = (b.segmentSpan j).length / b.chunkSize :=
    congrArg Header.chunkCount hheader
  have htail : s.tailSize = (b.segmentSpan j).length % b.chunkSize :=
    congrArg Header.tailSize hheader
  rw [Segment.byteCount, hcount, htail, hchunk, Nat.mul_comm, Nat.div_add_mod]

theorem callAt_inBounds (hb : 0 < b.size) (hj : j ≤ b.fullSegments) {position : ℕ}
    {result : ReadResult} (hok : result.isFailed = false) :
    (callAt file b j position result).InBounds b where
  offset_lt := segmentSpan_start_lt hb hj
  no_wrap := by
    intro currentOffset hoperation
    have hsegment : operationAt b j = .segment currentOffset := hoperation
    have hlt : j < b.fullSegments := by
      have hagain := again_operationAt (b := b) (j := j)
      rw [hsegment] at hagain
      exact of_decide_eq_true hagain.symm
    have hrest := b.segment_lt_rest hlt
    have hsize := b.size_lt
    rw [Nat.add_mul, Nat.one_mul] at hrest
    show j * b.segmentSize + b.segmentSize < SizeT.modulus
    omega
  count_le := segmentSpan_length_le hj
  segment := by
    obtain ⟨s, hanswer, hheader, hchunk, hlength⟩ := callAt_answer file b j position hok
    exact ⟨s, hanswer, byteCount_eq hheader hchunk, hlength⟩

theorem map_byteCount {segments : List Segment} (hheaders : segments.map Segment.header = headers b)
    (hchunk : ∀ s ∈ segments, s.chunkSize = b.chunkSize) :
    segments.map Segment.byteCount = b.segmentSpans.map Span.length := by
  have hsegments : segments.map Segment.byteCount =
      (segments.map Segment.header).map fun h => h.chunkCount * b.chunkSize + h.tailSize := by
    rw [List.map_map]
    apply List.map_congr_left
    intro s hs
    rw [Segment.byteCount, hchunk s hs]
    rfl
  rw [hsegments, hheaders, headers, List.map_map]
  apply List.map_congr_left
  intro s _
  show s.length / b.chunkSize * b.chunkSize + s.length % b.chunkSize = s.length
  rw [Nat.mul_comm, Nat.div_add_mod]

theorem segmentSpan_last_length_pos (hb : 0 < b.size) :
    0 < (b.segmentSpan b.fullSegments).length := by
  have hstart := segmentSpan_start_lt hb (Nat.le_refl b.fullSegments)
  have hstop := b.segmentSpan_last_stop
  unfold Span.stop at hstop
  omega

theorem segmentSpan_last_mod :
    (b.segmentSpan b.fullSegments).length % b.chunkSize = b.tailSize := by
  have hdvd : b.chunkSize ∣ (b.segmentSpan b.fullSegments).start :=
    Dvd.dvd.mul_left b.chunkSize_dvd_segmentSize _
  rw [Block.tailSize, ← b.segmentSpan_last_stop, Span.stop,
    Nat.add_mod, Nat.mod_eq_zero_of_dvd hdvd, Nat.zero_add, Nat.mod_mod]

theorem sum_segmentSpans_length : (b.segmentSpans.map Span.length).sum = b.size := by
  have hall : b.segmentSpans.map Span.length = requestsOf b (b.fullSegments + 1) := by
    rw [requestsOf, List.take_of_length_le (Nat.le_of_eq b.length_segmentSpans)]
  rw [hall, requestsOf_succ (Nat.le_refl _), List.sum_append, sum_requestsOf (Nat.le_refl _),
    List.sum_singleton]
  exact b.segmentSpan_last_stop

theorem header_of_getElem? {segments : List Segment}
    (hheaders : segments.map Segment.header = headers b) {i : ℕ} {s : Segment}
    (hs : segments[i]? = some s) :
    i ≤ b.fullSegments ∧ s.header = headerOf b (b.segmentSpan i) := by
  have hheader : (headers b)[i]? = some s.header := by
    rw [← hheaders, List.getElem?_map, hs, Option.map_some]
  obtain ⟨hlt, -⟩ := List.getElem?_eq_some_iff.mp hheader
  rw [length_headers] at hlt
  have hi : i ≤ b.fullSegments := Nat.le_of_lt_succ hlt
  rw [headers, List.getElem?_map, b.getElem?_segmentSpans hi] at hheader
  exact ⟨hi, (Option.some.inj hheader).symm⟩

theorem tilesBlock_of_headers {segments : List Segment} (hb : 0 < b.size)
    (hheaders : segments.map Segment.header = headers b)
    (hchunk : ∀ s ∈ segments, s.chunkSize = b.chunkSize) : TilesBlock b segments := by
  have hlength : segments.length = b.fullSegments + 1 := by
    rw [← List.length_map Segment.header, hheaders, length_headers]
  have hcounts := map_byteCount hheaders hchunk
  have hsum : ∀ i ≤ b.fullSegments,
      ((segments.take i).map Segment.byteCount).sum = (b.segmentSpan i).start := by
    intro i hi
    rw [List.map_take, hcounts, ← List.map_take]
    exact sum_requestsOf hi
  refine ⟨hchunk, ?_, ?_, ?_, ?_⟩
  · intro i s hs
    obtain ⟨hi, hheader⟩ := header_of_getElem? hheaders hs
    have hid : s.firstChunkId = (b.segmentSpan i).start / b.chunkSize :=
      congrArg Header.firstChunkId hheader
    rw [hsum i hi, hid]
    exact Nat.div_mul_cancel (Dvd.dvd.mul_left b.chunkSize_dvd_segmentSize i)
  · intro s hs
    obtain ⟨i, hs⟩ := List.mem_iff_getElem?.mp hs
    rw [List.getElem?_dropLast, hlength] at hs
    split_ifs at hs with hlt
    obtain ⟨hi, hheader⟩ := header_of_getElem? hheaders hs
    have hspanLength : (b.segmentSpan i).length = b.segmentSize := if_pos hlt
    have hcount : s.chunkCount = (b.segmentSpan i).length / b.chunkSize :=
      congrArg Header.chunkCount hheader
    have htail : s.tailSize = (b.segmentSpan i).length % b.chunkSize :=
      congrArg Header.tailSize hheader
    rw [hcount, htail, hspanLength]
    exact ⟨Nat.mod_eq_zero_of_dvd b.chunkSize_dvd_segmentSize, b.segmentChunks_pos⟩
  · obtain ⟨s, hs⟩ : ∃ s, segments[b.fullSegments]? = some s :=
      ⟨_, List.getElem?_eq_getElem (hlength ▸ Nat.lt_succ_self _)⟩
    obtain ⟨-, hheader⟩ := header_of_getElem? hheaders hs
    refine ⟨s, ?_, ?_, (congrArg Header.tailSize hheader).trans segmentSpan_last_mod⟩
    · rw [List.getLast?_eq_getElem?, hlength]
      exact hs
    · rw [byteCount_eq hheader (hchunk s (List.mem_of_getElem? hs))]
      exact segmentSpan_last_length_pos hb
  · rw [hcounts, sum_segmentSpans_length]

end Tiling

/-! ## The chain ends with the block -/

section Delivered

variable {file : List Byte} {b : Block} {j : ℕ} {r : BlockReader} {results : List ReadResult}

@[simp] theorem chainSegments_nil : chainSegments [] = [] := rfl

theorem chainSegments_cons {call : ReadCall} {s : Segment} (h : call.answer = .ok s)
    (calls : List ReadCall) : chainSegments (call :: calls) = s :: chainSegments calls := by
  have hoption : call.answer.toOption = some s := by
    rw [h]
    rfl
  simp [chainSegments, hoption]

/-- The segments of the reads from the one with the given number on. -/
theorem AtRead.segments (h : AtRead b j r) (file : List Byte)
    (hok : ∀ result ∈ results, result.isFailed = false) :
    (chainSegments (readChain file results r).calls).map Segment.header =
        ((headers b).drop j).take results.length ∧
      ∀ s ∈ chainSegments (readChain file results r).calls, s.chunkSize = b.chunkSize := by
  induction results generalizing j r with
  | nil => simp [readChain]
  | cons result results ih =>
      have hresult := hok result List.mem_cons_self
      obtain ⟨s, hanswer, hheader, hchunk, -⟩ := callAt_answer file b j r.position hresult
      rw [h.readChain_cons, callAt_posts, hresult, headers_drop h.le]
      by_cases hlt : j < b.fullSegments
      · obtain ⟨hheaders, hchunks⟩ :=
          ih (h.next hlt file result) (List.forall_mem_of_forall_mem_cons hok)
        simp only [hlt, decide_true, Bool.not_false, Bool.and_true, if_true,
          chainSegments_cons hanswer, List.map_cons, hheaders, hheader, List.length_cons,
          List.take_succ_cons, List.forall_mem_cons]
        exact ⟨trivial, hchunk, hchunks⟩
      · have hnone := headers_drop_of_lt (Nat.lt_succ_of_le (Nat.le_of_not_lt hlt))
        simp [hlt, chainSegments_cons hanswer, hheader, hnone, hchunk]

/-- While no read fails the chain ends after a number of reads that the block
decides, every call stays within bounds, and the segments tile the block. -/
theorem readChain_tiles (b : Block) (hb : 1 ≤ b.size) :
    ∃ reads, ∀ (file : List Byte) (results : List ReadResult),
      (∀ result ∈ results, result.isFailed = false) →
        ((readChain file results (.start b)).posted = false ↔ reads ≤ results.length) ∧
        (∀ call ∈ (readChain file results (.start b)).calls, call.InBounds b) ∧
        ((readChain file results (.start b)).posted = false →
          TilesBlock b (chainSegments (readChain file results (.start b)).calls)) := by
  refine ⟨b.fullSegments + 1, fun file results hok => ?_⟩
  have hstart := AtRead.start b
  have hposted := (hstart.posted_iff file hok).1
  have hended : (readChain file results (.start b)).posted = false ↔
      b.fullSegments + 1 ≤ results.length := by
    rw [← Bool.not_eq_true, hposted]
    omega
  refine ⟨hended, ?_, ?_⟩
  · intro call hcall
    obtain ⟨i, hcall⟩ := List.mem_iff_getElem?.mp hcall
    obtain ⟨hi, position, result, hmem, rfl⟩ := hstart.exists_callAt hcall
    exact callAt_inBounds hb hi (hok result hmem)
  · intro hdone
    obtain ⟨hheaders, hchunks⟩ := hstart.segments file hok
    apply tilesBlock_of_headers hb _ hchunks
    rw [hheaders, List.drop_zero, List.take_of_length_le]
    rw [length_headers]
    exact hended.mp hdone

/-- A block of two reads. -/
theorem readChain_tiles_tailedBlock : tailedBlock.fullSegments = 1 ∧
    ∃ reads, ∀ (file : List Byte) (results : List ReadResult),
      (∀ result ∈ results, result.isFailed = false) →
        ((readChain file results (.start tailedBlock)).posted = false ↔ reads ≤ results.length) ∧
        (∀ call ∈ (readChain file results (.start tailedBlock)).calls,
          call.InBounds tailedBlock) ∧
        ((readChain file results (.start tailedBlock)).posted = false →
          TilesBlock tailedBlock (chainSegments
            (readChain file results (.start tailedBlock)).calls)) :=
  ⟨by decide, readChain_tiles tailedBlock (by decide)⟩

end Delivered

end VeeamSignature.Signature2
