import VeeamSignature.Signature2.FullArrival
import VeeamSignature.Signature2.SegmentBytes
import VeeamSignature.Signature2.Scheduling

/-!
# What the second version writes

If every read counts, the success callback comes when all segments have
arrived, and the map of the writer holds them in the order of the blocks.  The
output is then the records of the first bytes of the file, as many as the block
has, for each block.
-/

namespace VeeamSignature.Signature2

open Slices OrderedMap BlockReader LabelledSystem

/-- The segments that completed reads of the blocks deliver, in the order of
the blocks and of the reads. -/
def allSegments (file : List Byte) (blocks : List Block) : List Segment :=
  blocks.flatMap fun b => b.segmentSpans.map (segmentAt file b)

/-! ## The order of the segments -/

section Order

variable {file : List Byte} {blocks : List Block}

theorem headers_sorted (b : Block) :
    (headers b).Pairwise fun h h' => Key.lt h.key h'.key := by
  rw [headers, List.pairwise_map]
  apply b.segmentSpans_increasing.imp
  intro s s' hlt
  exact Key.lt_iff.mpr (Or.inr ⟨rfl, hlt⟩)

theorem Indexed.pairwise (hids : Indexed blocks) :
    blocks.Pairwise fun b b' => b.blockId < b'.blockId := by
  apply List.pairwise_iff_getElem.mpr
  intro i j hi hj hij
  rw [hids i _ (List.getElem?_eq_getElem hi), hids j _ (List.getElem?_eq_getElem hj)]
  exact hij

theorem allHeaders_sorted (hids : Indexed blocks) :
    (allHeaders blocks).Pairwise fun h h' => Key.lt h.key h'.key := by
  refine List.pairwise_flatMap.mpr ⟨fun b _ => headers_sorted b, ?_⟩
  apply hids.pairwise.imp
  intro b b' hlt h hh h' hh'
  obtain ⟨s, -, rfl⟩ := List.mem_map.mp hh
  obtain ⟨s', -, rfl⟩ := List.mem_map.mp hh'
  exact Key.lt_iff.mpr (Or.inl hlt)

theorem map_header_allSegments (file : List Byte) (blocks : List Block) :
    (allSegments file blocks).map Segment.header = allHeaders blocks := by
  rw [allSegments, List.map_flatMap, allHeaders]
  apply List.flatMap_congr
  intro b _
  rw [List.map_map, headers]
  rfl

theorem sum_allSegments (file : List Byte) (blocks : List Block) :
    (blocks.map fun b => ((b.segmentSpans.map (segmentAt file b) : List Segment) :
      Multiset Segment)).sum = allSegments file blocks := by
  induction blocks with
  | nil => rfl
  | cons b blocks ih => rw [List.map_cons, List.sum_cons, ih, Multiset.coe_add]; rfl

theorem ordered_allSegments (hids : Indexed blocks) :
    Ordered Key.lt (((allSegments file blocks).map hashOf).map fun s => (s.key, s)) := by
  have hsorted := allHeaders_sorted hids
  rw [← map_header_allSegments file, List.pairwise_map] at hsorted
  rw [Ordered, List.map_map, List.pairwise_map]
  exact hsorted

end Order

/-! ## The records of the segments -/

section Records

variable {file : List Byte} {b : Block}

theorem Segment.WellFormed.length_hash {s : Segment} (h : s.WellFormed) :
    (hashOf s).memory.length = (hashOf s).size := by
  obtain ⟨hc, htail, hlength⟩ := h
  show (records s.chunkSize s.memory).length = (hashOf s).size
  rw [records, length_flatMap_crc32Bytes, map_crcOf_chunks hc htail hlength, hashOf]
  by_cases hzero : s.tailSize = 0
  · simp [hzero]
  · simp [hzero]

theorem Segment.WellFormed.record {s : Segment} (h : s.WellFormed) :
    (hashOf s).record = records s.chunkSize s.memory := by
  rw [HashedSegment.record, ← h.length_hash]
  exact List.take_length

theorem wellFormed_segmentAt (s : Span) : (segmentAt file b s).WellFormed := by
  refine ⟨b.chunkSize_pos, Nat.mod_lt _ b.chunkSize_pos, ?_⟩
  have hle : (slice file s.start s.length).length ≤ s.length := length_slice_le file _ _
  simp only [segmentAt, headerOf, buffer, List.length_append, List.length_replicate,
    Nat.add_sub_cancel' hle]
  exact (Nat.div_add_mod' _ _).symm

/-- The records of the segments of a block are those of as many bytes from the
start of the file. -/
theorem flatMap_record_segmentSpans (hsize : b.size ≤ file.length) :
    (b.segmentSpans.flatMap fun s => (hashOf (segmentAt file b s)).record) =
      records b.chunkSize (slice file 0 b.size) := by
  have hrecord : ∀ s ∈ b.segmentSpans, (hashOf (segmentAt file b s)).record =
      records b.chunkSize (slice file s.start s.length) := by
    intro s hs
    rw [(wellFormed_segmentAt s).record, segmentAt_memory hs hsize]
    rfl
  have hspans : b.segmentSpans = (List.range b.fullSegments).map b.segmentSpan ++
      [b.segmentSpan b.fullSegments] := by
    rw [Block.segmentSpans, List.range_succ, List.map_append, List.map_singleton]
  have hdvd : ∀ s ∈ (List.range b.fullSegments).map b.segmentSpan, b.chunkSize ∣ s.length := by
    intro s hs
    obtain ⟨j, hj, rfl⟩ := List.mem_map.mp hs
    exact b.chunkSize_dvd_length (List.mem_range.mp hj)
  have htiles := b.segmentSpans_tile
  rw [hspans] at htiles
  have hchunks := htiles.flatMap_chunks b.chunkSize_pos hdvd hsize
  rw [← hspans, Nat.sub_zero] at hchunks
  rw [List.flatMap_congr hrecord, records, ← hchunks, List.map_flatMap, List.flatMap_assoc]
  rfl

end Records

/-! ## The output -/

section Pool

variable {file : List Byte} {blocks : List Block} {p p' : Pool} {t : Task} {e : Environment}
  {signal : Signal}

theorem PoolInvariant.delivered_eq (hp : PoolInvariant blocks p)
    (hfetched : FetchedInvariant file blocks p)
    (hheaders : (delivered p.readers).map Segment.header = allHeaders blocks) :
    delivered p.readers = allSegments file blocks := by
  rw [delivered, ← sum_allSegments]
  apply ListSum.sum_eq_sum hp.readers.length
  intro k r b hr hb
  rw [(hfetched k b r hb hr).delivered, hp.length_delivered hheaders hr hb,
    List.take_of_length_le b.length_segmentSpans.le]

/-- The map of a writer that has called back holds the records of the first
bytes of the file, as many as each block has. -/
theorem content_eq (hids : Indexed blocks)
    (hfit : chunkSum (allHeaders blocks) < SizeT.modulus) (hcounts : EveryReadCounts blocks)
    (hinside : ∀ b ∈ blocks, b.Inside file.length) {ok : Task × Environment → Prop}
    (h : Reachable (Pool.next file) ok (Pool.start blocks) p)
    (hfetched : FetchedInvariant file blocks p) (hcallbacks : p.writer.callbacks ≠ []) :
    p.writer.content = blocks.flatMap fun b => records b.chunkSize (slice file 0 b.size) := by
  have hp := PoolInvariant.reachable h
  have hw := WriterInvariant.reachable hids.nodup h
  obtain ⟨hinFlight, hheaders⟩ := all_of_called hids.nodup hfit hcounts h hcallbacks
  have harrived : p.writer.arrived.Perm ((allSegments file blocks).map hashOf) := by
    have hconserved := hp.conservation.conserved
    rw [hinFlight, Multiset.zero_add, hp.delivered_eq hfetched hheaders, Multiset.map_coe]
      at hconserved
    exact (Multiset.coe_eq_coe.mp hconserved).symm
  have hsegments : p.writer.segments =
      ((allSegments file blocks).map hashOf).map fun s => (s.key, s) :=
    hw.ordered.eq_of_perm (ordered_allSegments hids) (hw.stored.trans (harrived.map _))
  rw [Writer.content, hsegments, List.flatMap_map, List.flatMap_map, allSegments,
    List.flatMap_assoc]
  apply List.flatMap_congr
  intro b hb
  rw [List.flatMap_map]
  exact flatMap_record_segmentSpans ((Nat.le_add_left _ _).trans (hinside b hb))

/-- The destructor of the stream finds nothing to write unless a call has failed. -/
theorem buffered_eq_nil {ok : Task × Environment → Prop}
    (hok : ∀ a, ok a → a.2.stream = .complete)
    (h : Reachable (Pool.next file) ok (Pool.start blocks) p) : p.writer.buffered = [] := by
  apply Pool.invariant (I := fun p => p.writer.buffered = []) _ rfl h
  intro p t e p' signal _ hempty he _ htransition
  rcases htransition.writer with hsame | ⟨s, answer, -, hreceived, -⟩
  · rwa [hsame]
  · rcases hreceived.buffered with hsame | ⟨hfailed, -⟩
    · rw [hsame, hempty]
    · exact absurd (hok _ he) hfailed

theorem written_eq_content (hids : (blocks.map Block.blockId).Nodup)
    (hfit : chunkSum (allHeaders blocks) < SizeT.modulus) (hcounts : EveryReadCounts blocks)
    (h : Reachable (Pool.next file) (fun a => a.2 = complete) (Pool.start blocks) p)
    (hcallbacks : p.writer.callbacks ≠ []) : p.writer.written = p.writer.content := by
  revert hcallbacks
  apply Pool.invariant
    (I := fun p => p.writer.callbacks ≠ [] → p.writer.written = p.writer.content) _ _ h
  · intro p t e p' signal hreachable hwritten he hmem htransition
    rcases htransition.writer with hsame | ⟨s, answer, rfl, hreceived, -⟩
    · rwa [hsame]
    · have hfirst := callbacks_eq_nil_of_write hids hfit hcounts hreachable hmem
      obtain ⟨hopened, hnone⟩ := (WriterInvariant.reachable hids hreachable).untouched hfirst
      intro hcallbacks
      rcases hreceived.of_complete hopened (congrArg Environment.stream he) with
        ⟨hcounted, -⟩ | ⟨hwrote, -⟩
      · rw [hcounted] at hcallbacks
        exact absurd hfirst hcallbacks
      · rw [hwrote, hnone, List.nil_append]
        rfl
  · intro hcallbacks
    exact absurd rfl hcallbacks

/-- If every read counts and the blocks are inside the file, the output is the
records of the first bytes of the file, as many as each block has. -/
theorem written_eq (hids : Indexed blocks)
    (hfit : chunkSum (allHeaders blocks) < SizeT.modulus) (hcounts : EveryReadCounts blocks)
    (hinside : ∀ b ∈ blocks, b.Inside file.length)
    (h : Reachable (Pool.next file) (fun a => a.2 = complete) (Pool.start blocks) p)
    (hcallbacks : p.writer.callbacks ≠ []) :
    p.writer.written = blocks.flatMap fun b => records b.chunkSize (slice file 0 b.size) := by
  have hcomplete : Reachable (Pool.next file) ReadsComplete (Pool.start blocks) p :=
    h.mono fun a ha => congrArg Environment.read ha
  rw [written_eq_content hids.nodup hfit hcounts h hcallbacks,
    content_eq hids hfit hcounts hinside h (.reachable hcomplete) hcallbacks]

end Pool

end VeeamSignature.Signature2
