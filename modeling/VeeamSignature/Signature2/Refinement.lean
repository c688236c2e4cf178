import VeeamSignature.Signature.Correctness
import VeeamSignature.Signature2.Halting
import VeeamSignature.Signature2.Output

/-!
# The second version against the first

Both versions are to write the same signature.  They do exactly when every
read counts, so that the writer misses no segment, and when the chunks of each
block have the checksums of as many chunks from the start of the file, where
all readers of the second version read.
-/

namespace VeeamSignature

open Slices

/-- The chunks of the block have the checksums of as many chunks from the start
of the file. -/
def Block.StartsAlike (file : List Byte) (b : Block) : Prop :=
  (chunks b.chunkSize (slice file b.offset b.size)).map crcOf =
    (chunks b.chunkSize (slice file 0 b.size)).map crcOf

namespace Signature2

open OrderedMap BlockReader LabelledSystem

/-- While every call succeeds, every run of the second version ends, with
success exactly when the first version ends with success, and then with the
same bytes written.  The exit code is the decision of `main` after its `run`;
other workers may still be in theirs, and what becomes of them while the process
ends is not part of this. -/
structure Refines (F : FileContent) (blockCount : ℕ) (c : ChunkSize) (blocks : List Block) :
    Prop where
  bounded : ∃ bound, ∀ xs s,
    Run (System.step F.bytes) Action.Complete (System.start blocks) xs s → xs.length ≤ bound
  progress : ∀ s, Reachable (System.step F.bytes) Action.Complete (System.start blocks) s →
    s.exitCode = none → ∃ a s', a.Complete ∧ s.step F.bytes a = some s'
  agrees : ∀ s code, Reachable (System.step F.bytes) Action.Complete (System.start blocks) s →
    s.exitCode = some code →
      (code = .success ↔ ∃ written, Signature.run F blockCount c = .success written)
  written : ∀ s, Reachable (System.step F.bytes) Action.Complete (System.start blocks) s →
    s.exitCode = some .success →
      Signature.run F blockCount c = .success s.pool.writer.written

/-- What the second version relies on. -/
structure Agreeable (F : FileContent) (blocks : List Block) : Prop where
  nonempty : F.size ≠ 0
  inside : ∀ b ∈ blocks, b.Inside F.size
  counts : EveryReadCounts blocks
  alike : ∀ b ∈ blocks, b.StartsAlike F.bytes

/-! ## Runs to both ends -/

section Runs

variable {file : List Byte} {blocks : List Block} {s : System}

theorem exists_success (file : List Byte) (hne : blocks ≠ [])
    (hids : (blocks.map Block.blockId).Nodup) :
    ∃ s, Reachable (System.step file) Action.Complete (System.start blocks) s ∧
      s.exitCode = some .success := by
  obtain ⟨p, hdrained, hp, -, hidle⟩ := (PoolInvariant.start blocks).exists_drained file
    (fun _ => complete) (fun t => t.reader? = none ∧ t.hashed? = none) (fun _ => True)
    (fun _ _ _ _ _ _ _ _ _ => trivial) trivial
  have hbrings : Reachable (Pool.next file) Brings (Pool.start blocks) p := by
    apply hdrained.mono
    intro a ha
    exact .of_not_spare ha.1 ha.2
  have hcallbacks := callbacks_of_idle hne hp (WriterInvariant.reachable hids hbrings) hidle
    (failures_eq_nil (hbrings.mono Brings.succeed))
  have hsucceeded := succeeded_of_called hids (fun a ha => congrArg Environment.stream ha.1)
    hbrings hcallbacks
  obtain ⟨s, hs, rfl, hwaiting⟩ := exists_waiting hbrings hne
  have hexit : ∃ s', Reachable (System.step file) Action.Complete s s' ∧ s'.pool = s.pool ∧
      s'.exitCode = some .success :=
    hwaiting.exists_exit (.reachable hs) hsucceeded ⟨trivial, trivial, trivial⟩
  obtain ⟨s', hs', -, hcode⟩ := hexit
  exact ⟨s', hs.trans hs', hcode⟩

/-- If some last read does not count, the program can end with failure: the
segment of that read arrives when the stream is closed. -/
theorem exists_failure (file : List Byte) (hids : (blocks.map Block.blockId).Nodup)
    (hcounts : ¬ EveryReadCounts blocks) :
    ∃ s, Reachable (System.step file) Action.Complete (System.start blocks) s ∧
      s.exitCode = some .failure := by
  obtain ⟨p, i, r, operation, hreachable, hr, hmem, hagain, hzero, hcount, hcallbacks⟩ :=
    exists_called_before file hids hcounts
  have hne : blocks ≠ [] := by
    rintro rfl
    exact hcounts (Or.inl fun b hb => absurd hb List.not_mem_nil)
  obtain ⟨s, hs, rfl, hwaiting⟩ := exists_waiting hreachable hne
  let segment := r.segment operation
    (buffer (r.requested operation) (slice file r.position (r.requested operation)))
  -- the last read, the hash and the arrival, which calls back with an error
  have hread : Transition file complete s.pool (.read i operation) _ .quiet :=
    .readLast hr rfl hagain
  obtain ⟨s₁, hs₁, hpool₁, hwaiting₁⟩ := hwaiting.run hmem hread fun _ heq => by cases heq
  have hp₁ : PoolInvariant blocks s₁.pool :=
    hpool₁ ▸ (PoolInvariant.reachable hreachable).step hmem hread
  have hmem₁ : .hash segment ∈ s₁.pool.tasks := by
    rw [hpool₁]
    exact Multiset.mem_cons_self _ _
  have hhash : Transition file complete s₁.pool (.hash segment) _ .quiet :=
    .hash (segmentHasher_eq (hp₁.conservation.wellFormed segment hmem₁))
  obtain ⟨s₂, hs₂, hpool₂, hwaiting₂⟩ := hwaiting₁.run hmem₁ hhash fun _ heq => by cases heq
  have hp₂ : PoolInvariant blocks s₂.pool := hpool₂ ▸ hp₁.step hmem₁ hhash
  have hmem₂ : .write (hashOf segment) ∈ s₂.pool.tasks := by
    rw [hpool₂]
    exact Multiset.mem_cons_self _ _
  have hwriter : s₂.pool.writer = s.pool.writer := by rw [hpool₂, hpool₁]
  have hchunks : (hashOf segment).chunkCount = 0 := by
    rw [← hzero, ← header_segment operation]
    rfl
  obtain ⟨w, hreceive⟩ := (WriterInvariant.reachable hids hreachable).receive_late
    (hwriter ▸ hp₂.fresh hids hmem₂) hcallbacks hcount hchunks complete.stream
  have hwrite : Transition file complete s₂.pool (.write (hashOf segment)) _ .quiet :=
    .writeFailed (hwriter ▸ hreceive)
  obtain ⟨s₃, hs₃, hpool₃, hwaiting₃⟩ := hwaiting₂.run hmem₂ hwrite fun _ heq => by cases heq
  have hmem₃ : .throwException (.writeFailed iostreamError) ∈ s₃.pool.tasks := by
    rw [hpool₃]
    exact Multiset.mem_cons_self _ _
  have hend : ∃ s', Reachable (System.step file) Action.Complete s₃ s' ∧
      s'.exitCode = some .failure :=
    hwaiting₃.exists_failure hmem₃ complete ⟨rfl, trivial, trivial, trivial⟩
  obtain ⟨s', hs', hcode⟩ := hend
  have hcomplete : ∀ t, (Action.run 0 t complete).Complete := fun _ => rfl
  have hcalled := ((hs.tail (hcomplete _) hs₁).tail (hcomplete _) hs₂).tail (hcomplete _) hs₃
  exact ⟨s', hcalled.trans hs', hcode⟩

theorem System.called_of_success {ok : Action → Prop}
    (h : Reachable (System.step file) ok (System.start blocks) s)
    (hexit : s.exitCode = some .success) : s.pool.writer.callbacks ≠ [] :=
  List.ne_nil_of_mem ((ThreadsInvariant.reachable h).success hexit)

theorem no_exception {p : Pool} (hids : (blocks.map Block.blockId).Nodup)
    (hfit : chunkSum (allHeaders blocks) < SizeT.modulus) (hcounts : EveryReadCounts blocks)
    (h : Reachable (Pool.next file) (fun a => a.2 = complete) (Pool.start blocks) p)
    (exception : Exception) : .throwException exception ∉ p.tasks := by
  apply Pool.invariant (I := fun p => .throwException exception ∉ p.tasks) _ _ h
  · intro p t e p' signal hreachable hnone he hmem htransition
    have hrest : .throwException exception ∉ p.tasks.erase t := fun hin =>
      hnone (Multiset.mem_of_mem_erase hin)
    obtain rfl : e = complete := he
    cases htransition with
    | doRead => simpa using hrest
    | readFailed _ hread => cases hread
    | readAgain => simpa using hrest
    | readLast => simpa using hrest
    | hash => simpa using hrest
    | count => exact hrest
    | wrote => exact hrest
    | writeFailed hreceive =>
        have hfirst := callbacks_eq_nil_of_write hids hfit hcounts hreachable hmem
        obtain ⟨hopened, -⟩ := (WriterInvariant.reachable hids hreachable).untouched hfirst
        rcases (Writer.received_of_eq hreceive).of_complete hopened rfl with ⟨-, h⟩ | ⟨-, h⟩
        · cases h
        · cases h
    | throwException => exact hrest
  · simp [Pool.start]

structure Undisturbed (s : System) : Prop where
  caught : ∀ (worker : ℕ) (exception : Exception), s.workers[worker]? ≠ some (.caught exception)
  fine : s.occurredException = none
  exitCode : s.exitCode ≠ some .failure

theorem Undisturbed.step {s' : System} {a : Action} (hs : Undisturbed s)
    (hnone : ∀ exception, .throwException exception ∉ s.pool.tasks) (h : Step file s a s') :
    Undisturbed s' := by
  have hset : ∀ (i : ℕ) (x : Worker), (∀ exception, x ≠ .caught exception) →
      ∀ (j : ℕ) (exception : Exception), (s.workers.set i x)[j]? ≠ some (.caught exception) := by
    intro i x hx j exception hj
    rcases worker_of_set hj with heq | hj
    · exact hx exception heq
    · exact hs.caught j exception hj
  cases h with
  | @run worker task environment pool signal running going mem transition =>
      cases signal with
      | quiet => exact ⟨hs.caught, hs.fine, hs.exitCode⟩
      | shutdown => exact ⟨hs.caught, hs.fine, hs.exitCode⟩
      | raise exception =>
          cases transition with
          | throwException => exact absurd mem (hnone exception)
  | store caught => exact absurd caught (hs.caught _ _)
  | shutdown stored => exact ⟨hset _ _ (by simp), hs.fine, hs.exitCode⟩
  | stop thread => exact ⟨hs.caught, hs.fine, hs.exitCode⟩
  | leave running stopped => exact ⟨hset _ _ (by simp), hs.fine, hs.exitCode⟩
  | exit finished => exact ⟨hs.caught, hs.fine, by simp [hs.fine]⟩

theorem Undisturbed.start (blocks : List Block) : Undisturbed (System.start blocks) := by
  refine ⟨?_, rfl, by simp [System.start]⟩
  intro worker exception hworker
  have hmem := List.mem_of_getElem? hworker
  rw [System.start, List.mem_replicate] at hmem
  cases hmem.2

theorem Undisturbed.reachable (hids : (blocks.map Block.blockId).Nodup)
    (hfit : chunkSum (allHeaders blocks) < SizeT.modulus) (hcounts : EveryReadCounts blocks)
    (h : Reachable (System.step file) Action.Complete (System.start blocks) s) :
    Undisturbed s := by
  apply h.invariant_along _ (.start blocks)
  intro s a s' hreachable hs ha hstep
  have hpool : Reachable (Pool.next file) (fun a => a.2 = complete) (Pool.start blocks) s.pool :=
    System.pool_reachable (fun _ _ _ ha => ha) hreachable
  exact hs.step (no_exception hids hfit hcounts hpool) (System.step_eq_some_iff.mp hstep).2

end Runs

/-! ## The bytes of both versions -/

section Bytes

variable {F : FileContent} {blocks : List Block}

theorem run_inside {n : ℕ} {c : ChunkSize} (hF : F.size ≠ 0)
    (hblocks : Signature.mappedFileBlocks F.size n c = some blocks)
    (hinside : ∀ b ∈ blocks, b.Inside F.size) :
    Signature.run F n c = .success (blocks.flatMap fun b =>
      records b.chunkSize (slice F.bytes b.offset b.size)) := by
  rw [Signature.run, if_neg hF, hblocks]
  simp only [Signature.hasher_inside hinside, Signature.writerBytes, records, List.flatMap_map]

theorem records_eq_iff (hinside : ∀ b ∈ blocks, b.Inside F.size) :
    ((blocks.flatMap fun b => records b.chunkSize (slice F.bytes b.offset b.size)) =
      blocks.flatMap fun b => records b.chunkSize (slice F.bytes 0 b.size)) ↔
    ∀ b ∈ blocks, b.StartsAlike F.bytes := by
  have hlength : ∀ b ∈ blocks, (records b.chunkSize (slice F.bytes b.offset b.size)).length =
      (records b.chunkSize (slice F.bytes 0 b.size)).length := by
    intro b hb
    have hsize : 0 + b.size ≤ F.bytes.length := by
      rw [Nat.zero_add]
      exact (Nat.le_add_left _ _).trans (hinside b hb)
    simp only [records, length_flatMap_crc32Bytes, List.length_map, length_chunks,
      length_slice_of_le (hinside b hb), length_slice_of_le hsize]
  rw [flatMap_eq_iff hlength]
  exact forall₂_congr fun b _ => flatMap_crc32Bytes_injective.eq_iff

end Bytes

/-- With one block only the empty file and the count of the last read matter. -/
theorem agreeable_single {F : FileContent} {n : ℕ} (hn : 1 ≤ n) {c : ChunkSize}
    {blocks : List Block} (hblocks : blockFileBlocks F.size n c = some blocks)
    (hone : n = 1 ∨ F.size < 2 * c.value) :
    Agreeable F blocks ↔ F.size ≠ 0 ∧ EveryReadCounts blocks := by
  rw [← reducedCount_eq_one_iff c.pos hn] at hone
  obtain rfl := Option.some.inj (hblocks.symm.trans
    (layout_single c.pos hn F.size_lt_modulus hone))
  constructor
  · intro h
    exact ⟨h.nonempty, h.counts⟩
  · rintro ⟨hF, hcounts⟩
    refine ⟨hF, ?_, hcounts, ?_⟩
    · intro b hb
      obtain rfl := List.mem_singleton.mp hb
      exact (Nat.zero_add F.size).le
    · intro b hb
      obtain rfl := List.mem_singleton.mp hb
      exact Eq.refl _

theorem Agreeable.refines {F : FileContent} {n : ℕ} (hn : 1 ≤ n) {c : ChunkSize}
    {blocks : List Block} (hblocks : blockFileBlocks F.size n c = some blocks)
    (h : Agreeable F blocks) : Refines F n c blocks := by
  obtain ⟨hids, hfit⟩ := blockFileBlocks_fit hn hblocks
  have hindexed : Indexed blocks := fun k b hb => layout_blockId hn hblocks hb
  have hrun := run_inside h.nonempty hblocks h.inside
  have hwritten : ∀ s, Reachable (System.step F.bytes) Action.Complete (System.start blocks) s →
      s.exitCode = some .success →
      Signature.run F n c = .success s.pool.writer.written := by
    intro s hs hexit
    have hpool : Reachable (Pool.next F.bytes) (fun a => a.2 = complete) (Pool.start blocks)
        s.pool := System.pool_reachable (fun _ _ _ ha => ha) hs
    rw [hrun, written_eq hindexed hfit h.counts h.inside hpool (System.called_of_success hs hexit),
      (records_eq_iff h.inside).mpr h.alike]
  refine ⟨⟨_, fun xs s => System.run_length_le⟩, ?_, ?_, hwritten⟩
  · intro s hs hexit
    exact System.exists_step (layout_ne_nil hn hblocks) hids hs hexit
  · intro s code hs hexit
    cases code with
    | success => exact iff_of_true rfl ⟨_, hwritten s hs hexit⟩
    | failure => exact absurd hexit (Undisturbed.reachable hids hfit h.counts hs).exitCode

theorem Refines.agreeable {F : FileContent} {n : ℕ} (hn : 1 ≤ n) {c : ChunkSize}
    {blocks : List Block} (hblocks : blockFileBlocks F.size n c = some blocks)
    (h : Refines F n c blocks) : Agreeable F blocks := by
  obtain ⟨hids, hfit⟩ := blockFileBlocks_fit hn hblocks
  have hindexed : Indexed blocks := fun k b hb => layout_blockId hn hblocks hb
  obtain ⟨s, hs, hexit⟩ := exists_success F.bytes (layout_ne_nil hn hblocks) hids
  have hwritten := h.written s hs hexit
  obtain ⟨hF, blocks', signature, hblocks', hhash, -⟩ := Signature.run_eq_success hwritten
  obtain rfl : blocks = blocks' := Option.some.inj (hblocks.symm.trans hblocks')
  have hinside := Signature.inside_of_hasher hn hblocks' hhash
  have hcounts : EveryReadCounts blocks := by
    by_contra hcounts
    obtain ⟨s', hs', hfailure⟩ := exists_failure F.bytes hids hcounts
    cases (h.agrees s' _ hs' hfailure).mpr ⟨_, hwritten⟩
  refine ⟨hF, hinside, hcounts, (records_eq_iff hinside).mp ?_⟩
  have hpool : Reachable (Pool.next F.bytes) (fun a => a.2 = complete) (Pool.start blocks)
      s.pool := System.pool_reachable (fun _ _ _ ha => ha) hs
  rw [run_inside hF hblocks' hinside, written_eq hindexed hfit hcounts hinside hpool
    (System.called_of_success hs hexit)] at hwritten
  exact Signature.Outcome.success.inj hwritten

/-- The second version refines the first exactly on the files whose layout has
blocks inside the file, reads that all count, and blocks that start like the
file. -/
theorem refines_iff (F : FileContent) (n : ℕ) (hn : 1 ≤ n) (c : ChunkSize) (blocks : List Block)
    (hblocks : blockFileBlocks F.size n c = some blocks) :
    Refines F n c blocks ↔ Agreeable F blocks :=
  ⟨Refines.agreeable hn hblocks, Agreeable.refines hn hblocks⟩

theorem refines_iff_fiveChunks :
    Refines fiveChunks 2 smallestChunk [leftBlock, rightBlock] ↔
      Agreeable fiveChunks [leftBlock, rightBlock] :=
  refines_iff fiveChunks 2 (by decide) smallestChunk [leftBlock, rightBlock] fiveChunks_layout

theorem fiveChunks_agreeable : Agreeable fiveChunks [leftBlock, rightBlock] where
  nonempty := by
    rw [size_fiveChunks]
    decide
  inside := fiveChunks_inside
  counts := fiveChunks_counts
  alike := by
    intro b hb
    have hinside : b.offset + b.size ≤ 320000 := size_fiveChunks ▸ fiveChunks_inside b hb
    have hzeros : ∀ start, start + b.size ≤ 320000 →
        slice fiveChunks.bytes start b.size = List.replicate b.size 0 := by
      intro start hstart
      rw [fiveChunks, zeroFile, slice, List.drop_replicate, List.take_replicate,
        Nat.min_eq_left (by omega)]
    rw [Block.StartsAlike, hzeros _ hinside, hzeros 0 (by omega)]

def emptyBlock : Block := ⟨0, 0, 0, gMinChunkSize, SizeT.modulus_pos, smallestChunk.pos⟩

/-- The versions differ on a file with a tail for itself, and on the empty file. -/
theorem tailedBlock_not_refined :
    blockFileBlocks (gSegmentSizeHint + 1) 1 segmentChunk = some [tailedBlock] ∧
      ¬ Refines (zeroFile (gSegmentSizeHint + 1) (by decide)) 1 segmentChunk [tailedBlock] ∧
      blockFileBlocks 0 1 smallestChunk = some [emptyBlock] ∧
      ¬ Refines (zeroFile 0 (by decide)) 1 smallestChunk [emptyBlock] := by
  refine ⟨by decide, ?_, by decide, ?_⟩
  · intro h
    refine tailedBlock_not_counted (h.agreeable (le_refl 1) ?_).counts
    rw [zeroFile_size]
    decide
  · intro h
    refine (h.agreeable (le_refl 1) ?_).nonempty (zeroFile_size 0 _)
    rw [zeroFile_size]
    decide

end Signature2

end VeeamSignature
