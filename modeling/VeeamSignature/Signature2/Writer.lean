import VeeamSignature.Arguments
import VeeamSignature.Library.OrderedMap
import VeeamSignature.Signature2.Segment

/-!
# The writer

`writer_t` keeps the hashed segments in a `flat_map` and counts their chunks;
the arrival that makes the count equal to the total writes all of them and
closes the stream.
-/

namespace VeeamSignature.Signature2

open OrderedMap Slices

/-- `writer_t::key_t`. -/
structure Key where
  blockId : ℕ
  chunkId : ℕ
  deriving DecidableEq

/-- `writer_t::key_t::operator<`. -/
def Key.less (lhs rhs : Key) : Bool :=
  if lhs.blockId < rhs.blockId then true
  else if rhs.blockId < lhs.blockId then false
  else lhs.chunkId < rhs.chunkId

def Key.lt (lhs rhs : Key) : Prop := lhs.less rhs = true

instance : DecidableRel Key.lt := fun lhs rhs =>
  inferInstanceAs (Decidable (lhs.less rhs = true))

def HashedSegment.key (s : HashedSegment) : Key := ⟨s.blockId, s.firstChunkId⟩

/-- The bytes that the writer passes to the stream for a segment. -/
def HashedSegment.record (s : HashedSegment) : List Byte := s.memory.take s.size

inductive StreamState
  | opened
  | closed
  | bad
  deriving DecidableEq

/-- `writer_t::result_t`. -/
inductive WriterResult
  | success
  | error (what : String)
  deriving DecidableEq

/-- `writer_t`.  Of the stream there are its state, the bytes that have reached
the file, and those that a failed call has left in its buffer for the
destructor.  The last two fields are history: the segments in the order of their
arrival and the calls of the callback. -/
structure Writer where
  chunksTotal : ℕ
  chunksCount : ℕ
  stream : StreamState
  written : List Byte
  buffered : List Byte
  segments : List (Key × HashedSegment)
  arrived : List HashedSegment
  callbacks : List WriterResult
  deriving DecidableEq

/-- `chunks_total`, as the constructor computes it. -/
def totalChunks (blocks : List Block) : ℕ :=
  blocks.foldl (fun total b => SizeT.add total b.chunksCount) 0

namespace Writer

def start (blocks : List Block) : Writer :=
  ⟨totalChunks blocks, 0, .opened, [], [], [], [], []⟩

def content (w : Writer) : List Byte := w.segments.flatMap fun entry => entry.2.record

/-- The loop over the segments, the flush and the close.  Once the stream is
closed or has failed, every further attempt throws and writes nothing. -/
def writeSegments (w : Writer) (result : StreamResult) : Writer × WriterResult :=
  match w.stream, result with
  | .opened, .complete =>
      ({ w with stream := .closed, written := w.written ++ w.content }, .success)
  | .opened, .failed after buffered =>
      ({ w with
          stream := .bad
          written := w.written ++ w.content.take after
          buffered := slice w.content buffered.start buffered.length },
        .error iostreamError)
  | _, _ => ({ w with stream := .bad }, .error iostreamError)

def insert (w : Writer) (segment : HashedSegment) : Writer :=
  let emplace := emplace Key.lt segment.key segment w.segments
  { w with segments := emplace.1,
           chunksCount := SizeT.add w.chunksCount emplace.2.1.chunkCount,
           arrived := w.arrived ++ [segment] }

/-- The lambda of `writer_t::operator()`; the answer is the argument of the
callback, if it is called. -/
def receive (w : Writer) (segment : HashedSegment) (result : StreamResult) :
    Writer × Option WriterResult :=
  let w := w.insert segment
  if w.chunksCount ≠ w.chunksTotal then (w, none)
  else
    let (w, answer) := w.writeSegments result
    ({ w with callbacks := w.callbacks ++ [answer] }, some answer)

theorem receive_of_eq {w : Writer} {segment : HashedSegment} (result : StreamResult)
    (h : (w.insert segment).chunksCount = w.chunksTotal) :
    w.receive segment result =
      ({ ((w.insert segment).writeSegments result).1 with
          callbacks := ((w.insert segment).writeSegments result).1.callbacks ++
            [((w.insert segment).writeSegments result).2] },
        some ((w.insert segment).writeSegments result).2) :=
  if_neg (not_not.mpr h)

theorem receive_of_ne {w : Writer} {segment : HashedSegment} (result : StreamResult)
    (h : (w.insert segment).chunksCount ≠ w.chunksTotal) :
    w.receive segment result = (w.insert segment, none) :=
  if_pos h

inductive Received (w : Writer) (segment : HashedSegment) (result : StreamResult) :
    Writer → Option WriterResult → Prop
  | counted (count : (w.insert segment).chunksCount ≠ w.chunksTotal) :
      Received w segment result (w.insert segment) none
  | wrote (count : (w.insert segment).chunksCount = w.chunksTotal) (opened : w.stream = .opened)
      (complete : result = .complete) :
      Received w segment result
        { w.insert segment with
          stream := .closed
          written := w.written ++ (w.insert segment).content
          callbacks := w.callbacks ++ [.success] } (some .success)
  | failed (count : (w.insert segment).chunksCount = w.chunksTotal)
      (failure : w.stream ≠ .opened ∨ result ≠ .complete) {written buffered : List Byte}
      (untouched : w.stream ≠ .opened → written = w.written ∧ buffered = w.buffered)
      (grows : w.written <+: written) :
      Received w segment result
        { w.insert segment with
          stream := .bad
          written := written
          buffered := buffered
          callbacks := w.callbacks ++ [.error iostreamError] } (some (.error iostreamError))

theorem received_of_eq {w w' : Writer} {segment : HashedSegment} {result : StreamResult}
    {answer : Option WriterResult} (h : w.receive segment result = (w', answer)) :
    w.Received segment result w' answer := by
  obtain rfl : w' = (w.receive segment result).1 := by rw [h]
  obtain rfl : answer = (w.receive segment result).2 := by rw [h]
  clear h
  by_cases hcount : (w.insert segment).chunksCount = w.chunksTotal
  · have hreceive := receive_of_eq result hcount
    have hstream : (w.insert segment).stream = w.stream := rfl
    cases hopened : w.stream with
    | opened =>
        cases result with
        | complete =>
            simp only [hreceive, writeSegments, hstream, hopened]
            exact .wrote hcount hopened rfl
        | failed after buffered =>
            simp only [hreceive, writeSegments, hstream, hopened]
            exact .failed hcount (Or.inr (by simp)) (fun h => absurd hopened h)
              (List.prefix_append _ _)
    | closed =>
        simp only [hreceive, writeSegments, hstream, hopened]
        exact .failed hcount (Or.inl (by simp [hopened])) (fun _ => ⟨rfl, rfl⟩)
          (List.prefix_refl _)
    | bad =>
        simp only [hreceive, writeSegments, hstream, hopened]
        exact .failed hcount (Or.inl (by simp [hopened])) (fun _ => ⟨rfl, rfl⟩)
          (List.prefix_refl _)
  · rw [receive_of_ne result hcount]
    exact .counted hcount

theorem Received.arrived {w w' : Writer} {segment : HashedSegment} {result : StreamResult}
    {answer : Option WriterResult} (h : w.Received segment result w' answer) :
    w'.arrived = w.arrived ++ [segment] := by
  cases h <;> rfl

theorem Received.written_prefix {w w' : Writer} {segment : HashedSegment}
    {result : StreamResult} {answer : Option WriterResult}
    (h : w.Received segment result w' answer) : w.written <+: w'.written := by
  cases h with
  | counted => exact List.prefix_refl _
  | wrote => exact List.prefix_append _ _
  | failed _ _ _ hgrows => exact hgrows

theorem Received.callbacks {w w' : Writer} {segment : HashedSegment} {result : StreamResult}
    {answer : Option WriterResult} (h : w.Received segment result w' answer) :
    w'.callbacks = w.callbacks ++ answer.toList := by
  cases h with
  | counted => exact (List.append_nil _).symm
  | wrote => rfl
  | failed => rfl

theorem Received.of_complete {w w' : Writer} {segment : HashedSegment} {result : StreamResult}
    {answer : Option WriterResult} (h : w.Received segment result w' answer)
    (hopened : w.stream = .opened) (hcomplete : result = .complete) :
    (w' = w.insert segment ∧ answer = none) ∨
      (w' = { w.insert segment with
          stream := .closed
          written := w.written ++ (w.insert segment).content
          callbacks := w.callbacks ++ [.success] } ∧ answer = some .success) := by
  cases h with
  | counted => exact Or.inl ⟨rfl, rfl⟩
  | wrote => exact Or.inr ⟨rfl, rfl⟩
  | failed _ hfailure =>
      rcases hfailure with hclosed | hfailed
      · exact absurd hopened hclosed
      · exact absurd hcomplete hfailed

/-- Only a failed call leaves anything in the buffer. -/
theorem Received.buffered {w w' : Writer} {segment : HashedSegment} {result : StreamResult}
    {answer : Option WriterResult} (h : w.Received segment result w' answer) :
    w'.buffered = w.buffered ∨ result ≠ .complete ∧ answer = some (.error iostreamError) := by
  cases h with
  | counted => exact Or.inl rfl
  | wrote => exact Or.inl rfl
  | failed _ hfailure huntouched =>
      by_cases hopened : w.stream = .opened
      · exact Or.inr ⟨hfailure.resolve_left (not_not.mpr hopened), rfl⟩
      · exact Or.inl (huntouched hopened).2

end Writer

end VeeamSignature.Signature2
