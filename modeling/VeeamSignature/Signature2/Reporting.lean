import VeeamSignature.Signature2.FullArrival
import VeeamSignature.Signature2.Scheduling

/-!
# Failed reads are reported

A read that fails never reaches the writer.  If its segment has a full chunk
the count stays below the total, the success callback is not called, and the
program cannot end with success; a read of a tail is not missed.
-/

namespace VeeamSignature.Signature2

open Slices OrderedMap BlockReader LabelledSystem

section Failures

variable {file : List Byte} {blocks : List Block} {p p' : Pool} {t : Task} {e : Environment}
  {signal : Signal}

theorem mem_failures {readers : List BlockReader} {h : Header} :
    h ∈ failures readers ↔ ∃ r ∈ readers, h ∈ r.failures := by
  induction readers with
  | nil => simp [failures]
  | cons r readers ih =>
      have hcons : failures (r :: readers) = r.failures + failures readers := by
        rw [failures, List.map_cons, List.sum_cons]
        rfl
      rw [hcons, Multiset.mem_add, ih]
      simp

/-- The writer does not call back once a read has failed whose chunks it waits for. -/
theorem callbacks_eq_nil_of_failure (hids : (blocks.map Block.blockId).Nodup)
    (hfit : chunkSum (allHeaders blocks) < SizeT.modulus)
    (hlone : totalChunks blocks = 0 → (allHeaders blocks).length = 1)
    {ok : Task × Environment → Prop}
    (hreachable : Reachable (Pool.next file) ok (Pool.start blocks) p)
    {h : Header} (hfailed : h ∈ failures p.readers)
    (hcounted : 0 < h.chunkCount ∨ totalChunks blocks = 0) : p.writer.callbacks = [] := by
  by_contra hcallbacks
  have hp := PoolInvariant.reachable hreachable
  obtain ⟨harrived, hsum⟩ := CalledInvariant.reachable hids hfit hreachable hcallbacks
  rcases hcounted with hpos | htotal
  · obtain ⟨others, hothers⟩ := Multiset.exists_cons_of_mem hfailed
    have hle := hp.hashedSum_le
    have hfailures : h.chunkCount ≤ chunkSum (failures p.readers) := by
      rw [hothers, chunkSum, Multiset.map_cons, Multiset.sum_cons]
      exact Nat.le_add_right _ _
    omega
  · have hcard := Multiset.card_le_card hp.readers.headers_le
    have hdelivered := congrArg Multiset.card hp.conservation.conserved
    have hlength := List.length_pos_of_ne_nil harrived
    have hfailures := Multiset.card_pos_iff_exists_mem.mpr ⟨h, hfailed⟩
    rw [Multiset.card_add, Multiset.card_map, Multiset.coe_card, hlone htotal] at hcard
    rw [Multiset.card_map, Multiset.card_add, Multiset.coe_card] at hdelivered
    omega

theorem fullSegments_of_lt {b : Block} (h : b.size < b.chunkSize) : b.fullSegments = 0 := by
  unfold Block.fullSegments
  split_ifs with hsize
  · rfl
  · apply Nat.div_eq_of_lt
    have hle := b.chunkSize_le_segmentSize
    omega

theorem EveryReadCounts.counted (hcounts : EveryReadCounts blocks) {h : Header}
    (hmem : h ∈ allHeaders blocks) : 0 < h.chunkCount ∨ totalChunks blocks = 0 := by
  rcases hcounts with hends | ⟨b, rfl, hb⟩
  · exact Or.inl (chunkCount_pos hends h hmem)
  · obtain ⟨h', hlone⟩ := List.length_eq_one_iff.mp (length_allHeaders_single hb)
    rw [hlone] at hmem
    obtain rfl := List.mem_singleton.mp hmem
    rcases Nat.eq_zero_or_pos h.chunkCount with hzero | hpos
    · rw [totalChunks_eq, hlone]
      simp [chunkSum, hzero]
    · exact Or.inl hpos

theorem layout_lone {F : FileContent} {n : ℕ} (hn : 1 ≤ n) {c : ChunkSize}
    (hblocks : blockFileBlocks F.size n c = some blocks)
    (hfit : chunkSum (allHeaders blocks) < SizeT.modulus) (htotal : totalChunks blocks = 0) :
    (allHeaders blocks).length = 1 := by
  rw [totalChunks_eq, Nat.mod_eq_of_lt hfit, chunkSum_allHeaders] at htotal
  obtain ⟨b, rfl, hsize⟩ := layout_eq_of_chunkless hn (c.fits F) hblocks htotal
  exact length_allHeaders_single (fullSegments_of_lt hsize)

theorem PoolInvariant.mem_allHeaders_of_failed (hp : PoolInvariant blocks p) {r : BlockReader}
    (hr : r ∈ p.readers) {h : Header} (hh : h ∈ r.failures) : h ∈ allHeaders blocks := by
  have hmem : h ∈ failures p.readers := mem_failures.mpr ⟨r, hr, hh⟩
  exact Multiset.mem_of_le hp.readers.headers_le (Multiset.mem_add.mpr (Or.inr hmem))

/-- If the last read of some block brings no full chunk and is not the only
one, the program can end with success although that read has failed. -/
theorem exists_unreported (file : List Byte) (hids : (blocks.map Block.blockId).Nodup)
    (hcounts : ¬ EveryReadCounts blocks) :
    ∃ s, Reachable (System.step file) (fun _ => True) (System.start blocks) s ∧
      (∃ r ∈ s.pool.readers, r.failures ≠ []) ∧ .success ∈ s.pool.writer.callbacks ∧
      s.exitCode = some .success := by
  obtain ⟨p, i, r, operation, hreachable, hr, hmem, -, -, -, hcallbacks⟩ :=
    exists_called_before file hids hcounts
  have hsucceeded := succeeded_of_called hids (fun a ha => congrArg Environment.stream ha.1)
    hreachable hcallbacks
  have hne : blocks ≠ [] := by
    rintro rfl
    exact hcounts (Or.inl fun b hb => absurd hb List.not_mem_nil)
  -- the first worker runs everything but the last read, which then fails
  obtain ⟨s, hs, rfl, hwaiting⟩ := exists_waiting hreachable hne
  let broken : Environment := ⟨.failed "Input/output error", .complete⟩
  have hfails : Transition file broken s.pool (.read i operation) _ .quiet :=
    .readFailed hr rfl
  obtain ⟨s', hs', hpool, hwaiting'⟩ := hwaiting.run hmem hfails fun exception heq => by cases heq
  have hreachable' : Reachable (System.step file) (fun _ => True) (System.start blocks) s' :=
    (hs.mono fun _ _ => trivial).tail trivial hs'
  have hsucceeded' : Succeeded s'.pool := hpool ▸ hsucceeded
  have hexit : ∃ s'', Reachable (System.step file) (fun _ => True) s' s'' ∧ s''.pool = s'.pool ∧
      s''.exitCode = some .success :=
    hwaiting'.exists_exit (.reachable hreachable') hsucceeded' ⟨trivial, trivial, trivial⟩
  obtain ⟨s'', hreach, hsame, hcode⟩ := hexit
  refine ⟨s'', hreachable'.trans hreach, ?_, hsame ▸ hsucceeded', hcode⟩
  rw [hsame, hpool]
  obtain ⟨hlt, -⟩ := List.getElem?_eq_some_iff.mp hr
  refine ⟨_, List.mem_of_getElem? (List.getElem?_set_self hlt), ?_⟩
  simp [rejected]

end Failures

/-- In this run `main` reports success, or the writer does, although a read has failed. -/
def Unreported (s : System) : Prop :=
  (∃ r ∈ s.pool.readers, r.failures ≠ []) ∧
    (s.exitCode = some .success ∨ .success ∈ s.pool.writer.callbacks)

/-- Failed reads are reported if one of them is of a full chunk at least, or if
there is no full chunk in the file; no run hides a failed read exactly when every
read counts. -/
theorem failed_reads_reported (F : FileContent) (n : ℕ) (hn : 1 ≤ n) (c : ChunkSize)
    (blocks : List Block) (hblocks : blockFileBlocks F.size n c = some blocks) :
    (∀ s, Reachable (System.step F.bytes) (fun _ => True) (System.start blocks) s →
      ((∃ r ∈ s.pool.readers, r.failures ≠ []) → ∃ r ∈ s.pool.readers, ∃ header ∈ r.failures,
        0 < header.chunkCount ∨ totalChunks blocks = 0) → ¬ Unreported s) ∧
    ((∀ s, Reachable (System.step F.bytes) (fun _ => True) (System.start blocks) s →
      ¬ Unreported s) ↔ EveryReadCounts blocks) := by
  obtain ⟨hids, hfit⟩ := blockFileBlocks_fit hn hblocks
  have hreported : ∀ s, Reachable (System.step F.bytes) (fun _ => True) (System.start blocks) s →
      ((∃ r ∈ s.pool.readers, r.failures ≠ []) → ∃ r ∈ s.pool.readers, ∃ header ∈ r.failures,
        0 < header.chunkCount ∨ totalChunks blocks = 0) → ¬ Unreported s := by
    intro s h hcounted hunreported
    obtain ⟨hfailed, hsuccess⟩ := hunreported
    obtain ⟨r, hr, header, hheader, hcounts⟩ := hcounted hfailed
    have hpool : Reachable (Pool.next F.bytes) (fun _ => True) (Pool.start blocks) s.pool :=
      System.pool_reachable (fun _ _ _ _ => trivial) h
    have hcallbacks := callbacks_eq_nil_of_failure hids hfit (layout_lone hn hblocks hfit) hpool
      (mem_failures.mpr ⟨r, hr, hheader⟩) hcounts
    have hsilent : ¬ Succeeded s.pool := by
      rw [Succeeded, hcallbacks]
      exact List.not_mem_nil
    rcases hsuccess with hexit | hcalled
    · exact hsilent ((ThreadsInvariant.reachable h).success hexit)
    · exact hsilent hcalled
  refine ⟨hreported, ?_, ?_⟩
  · intro hall
    by_contra hcounts
    obtain ⟨s, hs, hfailed, -, hexit⟩ := exists_unreported F.bytes hids hcounts
    exact hall s hs ⟨hfailed, Or.inl hexit⟩
  · intro hcounts s h
    have hpool : Reachable (Pool.next F.bytes) (fun _ => True) (Pool.start blocks) s.pool :=
      System.pool_reachable (fun _ _ _ _ => trivial) h
    apply hreported s h
    rintro ⟨r, hr, hne⟩
    obtain ⟨header, hheader⟩ := List.exists_mem_of_ne_nil _ hne
    have hmem := (PoolInvariant.reachable hpool).mem_allHeaders_of_failed hr hheader
    exact ⟨r, hr, header, hheader, hcounts.counted hmem⟩

theorem failed_reads_reported_fiveChunks :
    (∀ s, Reachable (System.step fiveChunks.bytes) (fun _ => True)
        (System.start [leftBlock, rightBlock]) s →
      ((∃ r ∈ s.pool.readers, r.failures ≠ []) → ∃ r ∈ s.pool.readers, ∃ header ∈ r.failures,
        0 < header.chunkCount ∨ totalChunks [leftBlock, rightBlock] = 0) → ¬ Unreported s) ∧
    ((∀ s, Reachable (System.step fiveChunks.bytes) (fun _ => True)
        (System.start [leftBlock, rightBlock]) s → ¬ Unreported s) ↔
      EveryReadCounts [leftBlock, rightBlock]) :=
  failed_reads_reported fiveChunks 2 (by decide) smallestChunk [leftBlock, rightBlock]
    fiveChunks_layout

/-- The last byte of a file of one full read and one byte is lost without a
report. -/
theorem tailedBlock_unreported :
    blockFileBlocks (gSegmentSizeHint + 1) 1 segmentChunk = some [tailedBlock] ∧
      ∃ s, Reachable (System.step (zeroFile (gSegmentSizeHint + 1) (by decide)).bytes)
          (fun _ => True) (System.start [tailedBlock]) s ∧
        (∃ r ∈ s.pool.readers, r.failures ≠ []) ∧ .success ∈ s.pool.writer.callbacks ∧
        s.exitCode = some .success :=
  ⟨by decide, exists_unreported _ (by decide) tailedBlock_not_counted⟩

end VeeamSignature.Signature2
