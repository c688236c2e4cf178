import VeeamSignature.BlockTiling
import VeeamSignature.Signature2.Readers

/-!
# What the readers deliver

While every `read(2)` completes, a reader delivers the segments of the
sequential loop for its block, whatever the other tasks do in between.  Its
descriptor starts at the beginning of the file, not of the block, and so do
the bytes it delivers.
-/

namespace VeeamSignature.Signature2

open Slices BlockReader LabelledSystem

/-- The step admits only reads that complete. -/
def ReadsComplete (a : Task × Environment) : Prop := a.2.read = .complete

theorem ReadsComplete.succeed (a : Task × Environment) (h : ReadsComplete a) : ReadsSucceed a := by
  intro error heq
  rw [ReadsComplete, heq] at h
  cases h

/-- The segment that a completed read of a part of the block delivers. -/
def segmentAt (file : List Byte) (b : Block) (s : Span) : Segment :=
  let header := headerOf b s
  ⟨header.blockId, b.chunkSize, header.chunkCount, header.tailSize, header.firstChunkId,
    buffer s.length (slice file s.start s.length)⟩

/-- The descriptor and the segments after `j` completed reads. -/
structure Fetched (file : List Byte) (b : Block) (j : ℕ) (r : BlockReader) : Prop where
  position : r.position = min file.length (requestsOf b j).sum
  delivered : r.delivered = (b.segmentSpans.take j).map (segmentAt file b)

section Reader

variable {file : List Byte} {b : Block} {j k : ℕ} {r : BlockReader}

theorem Fetched.received (h : Fetched file b j r) (hprogress : Progress b j r)
    (hj : j ≤ b.fullSegments) (hoffset : r.offset = offsetAfter b j) :
    Fetched file b (j + 1) (r.received (operationAt b j)
      (slice file r.position (r.requested (operationAt b j)))) := by
  obtain rfl := hprogress.block
  have hheader := header_operationAt hj hoffset
  have hcount := requested_operationAt (r := r) hj
  have hposition := h.position
  rw [sum_requestsOf hj] at hposition
  have hbytes : slice file r.position (r.block.segmentSpan j).length =
      slice file (r.block.segmentSpan j).start (r.block.segmentSpan j).length := by
    rw [hposition]
    rcases Nat.le_total file.length (r.block.segmentSpan j).start with hle | hle
    · rw [Nat.min_eq_left hle, slice, slice, List.drop_of_length_le hle,
        List.drop_of_length_le (le_refl _)]
    · rw [Nat.min_eq_right hle]
  constructor
  · rw [requestsOf_succ hj, List.sum_append, sum_requestsOf hj, hcount]
    simp only [BlockReader.received, length_slice, hposition, List.sum_singleton]
    omega
  · rw [BlockReader.received, hcount, hbytes, h.delivered, take_succ_segmentSpans hj,
      List.map_append, List.map_singleton, BlockReader.segment, hheader]
    rfl

theorem Fetched.start (file : List Byte) (b : Block) : Fetched file b 0 (BlockReader.start b) := by
  constructor
  · simp [BlockReader.start, requestsOf]
  · rfl

theorem length_slice_le (xs : List Byte) (start length : ℕ) :
    (slice xs start length).length ≤ length := by
  rw [length_slice]
  exact Nat.min_le_left _ _

/-- With enough fuel the sequential loop carries out all the reads of the block. -/
theorem sequentialLoop_finished {fuel : ℕ} (hfuel : b.fullSegments < fuel + j)
    (hj : j ≤ b.fullSegments) (hprogress : Progress b j r) (hfetched : Fetched file b j r)
    (hoffset : r.offset = j * b.segmentSize) :
    Progress b (b.fullSegments + 1) (sequentialLoop file fuel r) ∧
      Fetched file b (b.fullSegments + 1) (sequentialLoop file fuel r) := by
  induction fuel generalizing j r with
  | zero => omega
  | succ fuel ih =>
      obtain rfl := hprogress.block
      have hread : Progress r.block j { r with offset := offsetAfter r.block j } :=
        ⟨rfl, hprogress.requests, hprogress.delivered, hprogress.wellFormed, hprogress.failures⟩
      have hfetch : Fetched file r.block j { r with offset := offsetAfter r.block j } :=
        ⟨hfetched.position, hfetched.delivered⟩
      have hprogress' := hread.received hj rfl (length_slice_le file r.position _)
      have hfetched' := hfetch.received hread hj rfl
      rw [sequentialLoop, BlockReader.doRead_eq hj hoffset]
      simp only [perform, read, again_operationAt, decide_eq_true_eq]
      split_ifs with hlt
      · exact ih (by omega) hlt hprogress' hfetched' (if_pos hlt)
      · obtain rfl : j = r.block.fullSegments := Nat.le_antisymm hj (Nat.le_of_not_lt hlt)
        exact ⟨hprogress', hfetched'⟩

end Reader

/-! ## The readers of a pool -/

section Pool

variable {file : List Byte} {blocks : List Block} {p p' : Pool} {t : Task} {e : Environment}
  {signal : Signal}

def FetchedInvariant (file : List Byte) (blocks : List Block) (p : Pool) : Prop :=
  ∀ (k : ℕ) (b : Block) (r : BlockReader), blocks[k]? = some b → p.readers[k]? = some r →
    Fetched file b r.delivered.length r

theorem FetchedInvariant.step (he : e.read = .complete) (hmem : t ∈ p.tasks)
    (h : Transition file e p t p' signal) (hreaders : ReadersInvariant blocks p)
    (hp : FetchedInvariant file blocks p) : FetchedInvariant file blocks p' := by
  intro k b r' hb hr'
  obtain ⟨r, hr, hstate⟩ := hreaders.reader hb
  have hfetched := hp k b r hb hr
  rcases h.readerMove hr hr' with rfl | ⟨hk, hmove⟩
  · exact hfetched
  · rw [hstate.tasks_eq (Multiset.mem_filter.mpr ⟨hmem, hk⟩)] at hstate
    cases hmove with
    | doRead =>
        rw [r.doRead_fst]
        exact ⟨hfetched.position, hfetched.delivered⟩
    | rejected hread =>
        rw [he] at hread
        cases hread
    | @received i operation bytes hread =>
        obtain rfl : i = k := Option.some.inj hk
        obtain ⟨j, hj, rfl, progress, offset⟩ := hstate.of_read
        rw [he] at hread
        obtain rfl := Except.ok.inj hread
        have hlength := (progress.received hj offset (length_slice_le file r.position _)).length
          (Nat.succ_le_succ hj)
        rw [progress.length (Nat.le_succ_of_le hj)] at hfetched
        rw [hlength]
        exact hfetched.received progress hj offset

theorem FetchedInvariant.start (file : List Byte) (blocks : List Block) :
    FetchedInvariant file blocks (Pool.start blocks) := by
  intro k b r hb hr
  obtain rfl : r = BlockReader.start b := by simpa [Pool.start, hb] using hr.symm
  exact .start file b

theorem FetchedInvariant.reachable
    (h : Reachable (Pool.next file) ReadsComplete (Pool.start blocks) p) :
    FetchedInvariant file blocks p := by
  apply Pool.invariant _ (.start file blocks) h
  intro p t e p' signal hreachable hp he hmem htransition
  exact hp.step he hmem htransition (.reachable hreachable)

/-- The reader with the given number is serialised: it owns at most one task, a
pending read finds it as `do_read` has left it, and it follows the given
sequential loop. -/
structure Serialised (file : List Byte) (k : ℕ) (p : Pool) (r loop : BlockReader) : Prop where
  one_task : (p.readerTasks k).card ≤ 1
  undisturbed : ∀ operation, .read k operation ∈ p.tasks → ∀ t e p', t ≠ .read k operation →
    p.next file (t, e) = some p' → p'.readers[k]? = some r
  delivered : r.delivered <+: loop.delivered
  requests : r.requests <+: loop.requests
  done_iff : p.readerTasks k = 0 ↔ r.delivered = loop.delivered ∧ r.requests = loop.requests

theorem ReadersInvariant.undisturbed (hp : ReadersInvariant blocks p) {k : ℕ} {b : Block}
    {r : BlockReader} (hb : blocks[k]? = some b) (hr : p.readers[k]? = some r) {t' : Task}
    (ht' : t' ∈ p.readerTasks k) (hne : t ≠ t') (hstep : p.next file (t, e) = some p') :
    p'.readers[k]? = some r := by
  obtain ⟨signal, hmem, htransition⟩ := Pool.next_eq_some_iff.mp hstep
  obtain ⟨posted, hposted⟩ := htransition.posts
  have hk : t.reader? ≠ some k := by
    intro hk
    have hsingle := (hp.state k b r hb hr).tasks_eq ht'
    have hin : t ∈ p.readerTasks k := Multiset.mem_filter.mpr ⟨hmem, hk⟩
    rw [hsingle] at hin
    exact hne (Multiset.mem_singleton.mp hin)
  rw [(hposted.other k hk).1, hr]

/-- In every reachable state of a pool whose reads complete, every reader is
serialised and follows the sequential loop for its block. -/
theorem readers_serialised (file : List Byte) (blocks : List Block) (p : Pool)
    (h : Reachable (Pool.next file) ReadsComplete (Pool.start blocks) p)
    (k : ℕ) (b : Block) (hb : blocks[k]? = some b) (fuel : ℕ) (hfuel : b.fullSegments < fuel) :
    ∃ r, p.readers[k]? = some r ∧
      Serialised file k p r (sequentialLoop file fuel (BlockReader.start b)) := by
  have hreaders := ReadersInvariant.reachable h
  obtain ⟨r, hr, hstate⟩ := hreaders.reader hb
  have hfetched := FetchedInvariant.reachable h k b r hb hr
  have hfailures := failures_eq_nil (h.mono ReadsComplete.succeed) r (List.mem_of_getElem? hr)
  obtain ⟨hprogress, hloop⟩ := sequentialLoop_finished hfuel (Nat.zero_le _) (.start b)
    (.start file b) (Nat.zero_mul _).symm
  have hprefix : ∀ j, Progress b j r → j ≤ b.fullSegments + 1 →
      r.delivered <+: (sequentialLoop file fuel (BlockReader.start b)).delivered ∧
      r.requests <+: (sequentialLoop file fuel (BlockReader.start b)).requests := by
    intro j progress hj
    rw [progress.length hj] at hfetched
    rw [hfetched.delivered, hloop.delivered, progress.requests, hprogress.requests]
    have htake := List.take_prefix_take_left (l := b.segmentSpans) hj
    exact ⟨htake.map _, htake.map _⟩
  have hshort : ∀ j, Progress b j r → j ≤ b.fullSegments →
      ¬ r.delivered = (sequentialLoop file fuel (BlockReader.start b)).delivered := by
    intro j progress hj heq
    have hlength := congrArg List.length heq
    rw [progress.length (Nat.le_succ_of_le hj), hprogress.length (le_refl _)] at hlength
    omega
  refine ⟨r, hr, ?_⟩
  have hundisturbed : ∀ operation, .read k operation ∈ p.tasks → ∀ t e p',
      t ≠ .read k operation → p.next file (t, e) = some p' → p'.readers[k]? = some r := by
    intro operation hmem t e p' hne hstep
    exact hreaders.undisturbed hb hr (Multiset.mem_filter.mpr ⟨hmem, rfl⟩) hne hstep
  generalize htasks : p.readerTasks k = tasks at hstate
  cases hstate with
  | ready hj progress offset =>
      obtain ⟨hdelivered, hrequests⟩ := hprefix _ progress (Nat.le_succ_of_le hj)
      refine ⟨by simp [htasks], hundisturbed, hdelivered, hrequests, ?_⟩
      simp [htasks, hshort _ progress hj]
  | reading hj progress offset =>
      obtain ⟨hdelivered, hrequests⟩ := hprefix _ progress (Nat.le_succ_of_le hj)
      refine ⟨by simp [htasks], hundisturbed, hdelivered, hrequests, ?_⟩
      simp [htasks, hshort _ progress hj]
  | finished progress =>
      obtain ⟨hdelivered, hrequests⟩ := hprefix _ progress (le_refl _)
      refine ⟨by simp [htasks], hundisturbed, hdelivered, hrequests, ?_⟩
      rw [progress.length (le_refl _)] at hfetched
      simp [htasks, hfetched.delivered, hloop.delivered, progress.requests, hprogress.requests]
  | failed hj progress offset =>
      simp [rejected] at hfailures

end Pool

/-- The second reader at the end of a run of two workers. -/
theorem readers_serialised_unevenly : ∃ p r,
    unevenly.foldlM (Pool.next [1, 2, 3]) (Pool.start neighbours) = some p ∧
    p.readers[1]? = some r ∧
    Serialised [1, 2, 3] 1 p r
      (sequentialLoop [1, 2, 3] 1 (BlockReader.start twoBytes)) := by
  have hend : (unevenly.foldlM (Pool.next [1, 2, 3]) (Pool.start neighbours)).isSome := by
    decide +kernel
  obtain ⟨p, hp⟩ := Option.isSome_iff_exists.mp hend
  have hcomplete : ∀ a ∈ unevenly, ReadsComplete a := by
    simp [unevenly, ReadsComplete, complete]
  obtain ⟨r, hr, hserialised⟩ := readers_serialised [1, 2, 3] neighbours p
    (.of_foldlM hcomplete hp) 1 twoBytes rfl 1 (by decide)
  exact ⟨p, r, hp, hr, hserialised⟩

end VeeamSignature.Signature2
