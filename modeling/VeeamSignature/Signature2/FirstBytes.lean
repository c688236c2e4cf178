import VeeamSignature.Signature2.FullArrival
import VeeamSignature.Signature2.SegmentBytes
import VeeamSignature.Signature2.Threads

/-!
# What the second version looks at

All readers read from the start of the file, each no more bytes than its block
has.  Files that agree on as many bytes as the largest block has lead to the
same runs, step by step, whatever the environment answers.
-/

namespace VeeamSignature.Signature2

open Slices BlockReader LabelledSystem

section Reads

variable {file file' : List Byte} {m : ℕ}

theorem slice_congr (h : file.take m = file'.take m) {start length : ℕ} (hle : start + length ≤ m) :
    slice file start length = slice file' start length := by
  have hprefix : ∀ xs : List Byte, slice (xs.take m) start length = slice xs start length := by
    intro xs
    rw [slice, slice, List.drop_take, List.take_take, Nat.min_eq_left (by omega)]
  rw [← hprefix file, ← hprefix file', h]

theorem read_congr (h : file.take m = file'.take m) {position count : ℕ}
    (hle : position + count ≤ m) (result : ReadResult) :
    read file position count result = read file' position count result := by
  cases result with
  | failed error => rfl
  | complete => exact congrArg Except.ok (slice_congr h hle)
  | short limit =>
      have hmin : position + min limit count ≤ m :=
        (Nat.add_le_add_left (Nat.min_le_right _ _) _).trans hle
      exact congrArg Except.ok (slice_congr h hmin)

end Reads

section Pool

variable {file file' : List Byte} {blocks : List Block} {p p' : Pool} {t : Task} {e : Environment}
  {signal : Signal} {m : ℕ}

/-- No descriptor is beyond what has been requested from it. -/
def Behind (p : Pool) : Prop := ∀ r ∈ p.readers, r.position ≤ r.requests.sum

theorem Behind.step (hp : Behind p) (h : Transition file e p t p' signal) : Behind p' := by
  have hset : ∀ {k : ℕ} {r : BlockReader}, r.position ≤ r.requests.sum →
      ∀ r' ∈ p.readers.set k r, r'.position ≤ r'.requests.sum := by
    intro k r hr r' hmem
    rcases List.mem_or_eq_of_mem_set hmem with hmem | rfl
    · exact hp r' hmem
    · exact hr
  have hreceived : ∀ {k : ℕ} {operation : ReadOperation} {r : BlockReader} {bytes : List Byte},
      p.readers[k]? = some r → bytes.length ≤ r.requested operation →
        (r.received operation bytes).position ≤ (r.received operation bytes).requests.sum := by
    intro k operation r bytes hr hbytes
    have hle := hp r (List.mem_of_getElem? hr)
    simp only [received, List.sum_append, List.sum_singleton]
    omega
  cases h with
  | @doRead k r hr =>
      refine hset ?_
      rw [r.doRead_fst]
      exact hp r (List.mem_of_getElem? hr)
  | readFailed hr hread =>
      refine hset ?_
      simp only [rejected, List.sum_append]
      exact (hp _ (List.mem_of_getElem? hr)).trans (Nat.le_add_right _ _)
  | readAgain hr hread => exact hset (hreceived hr (length_read_le hread))
  | readLast hr hread => exact hset (hreceived hr (length_read_le hread))
  | hash => exact hp
  | count => exact hp
  | wrote => exact hp
  | writeFailed => exact hp
  | throwException => exact hp

theorem Behind.start (blocks : List Block) : Behind (Pool.start blocks) := by
  intro r hr
  obtain ⟨b, -, rfl⟩ := List.mem_map.mp hr
  exact Nat.zero_le _

/-- A pending read ends before its block would, were the block at the start. -/
theorem PoolInvariant.read_le (hp : PoolInvariant blocks p) (hbehind : Behind p) {k : ℕ}
    {operation : ReadOperation} (hmem : .read k operation ∈ p.tasks) {r : BlockReader}
    (hr : p.readers[k]? = some r) :
    ∃ b ∈ blocks, r.position + r.requested operation ≤ b.size := by
  obtain ⟨b, r', hb, hr'⟩ := hp.readers.exists_reader hmem rfl
  obtain rfl := Option.some.inj (hr.symm.trans hr')
  have hstate := hp.readers.state k b r hb hr
  rw [hstate.tasks_eq (Multiset.mem_filter.mpr ⟨hmem, rfl⟩)] at hstate
  obtain ⟨j, hj, rfl, progress, -⟩ := hstate.of_read
  have hposition := hbehind r (List.mem_of_getElem? hr)
  obtain rfl := progress.block
  rw [progress.requests, sum_requestsOf hj] at hposition
  have hstop := r.block.segmentSpan_stop_le hj
  rw [Span.stop] at hstop
  refine ⟨r.block, List.mem_of_getElem? hb, ?_⟩
  rw [requested_operationAt hj]
  omega

theorem Pool.step_congr (hp : PoolInvariant blocks p) (hbehind : Behind p)
    (hm : ∀ b ∈ blocks, b.size ≤ m) (hagree : file.take m = file'.take m)
    (a : Task × Environment) : p.step file a = p.step file' a := by
  obtain ⟨t, e⟩ := a
  cases t with
  | read k operation =>
      by_cases hmem : .read k operation ∈ p.tasks
      · obtain ⟨-, r, -, hr⟩ := hp.readers.exists_reader hmem rfl
        obtain ⟨b, hb, hle⟩ := hp.read_le hbehind hmem hr
        have hperform : r.perform file operation e.read = r.perform file' operation e.read := by
          rw [perform, perform, read_congr hagree (hle.trans (hm b hb)) e.read]
        simp only [Pool.step, Pool.exec, hmem, if_true, hr, Option.bind_eq_bind, Option.bind_some,
          hperform]
      · simp only [Pool.step, hmem, if_false]
  | doRead => rfl
  | hash => rfl
  | write => rfl
  | throwException => rfl

end Pool

section Runs

variable {file file' : List Byte} {blocks : List Block} {s s' : System} {a : Action} {m : ℕ}
  {ok : Action → Prop}

theorem System.step_congr_prefix (hp : PoolInvariant blocks s.pool) (hbehind : Behind s.pool)
    (hm : ∀ b ∈ blocks, b.size ≤ m) (hagree : file.take m = file'.take m) (a : Action) :
    s.step file a = s.step file' a := by
  cases a with
  | run worker task e =>
      simp only [System.step, System.act, Pool.step_congr hp hbehind hm hagree (task, e)]
  | store => rfl
  | shutdown => rfl
  | stop => rfl
  | leave => rfl
  | exit => rfl

theorem System.behind_step (hs : PoolInvariant blocks s.pool ∧ Behind s.pool)
    (h : s.step file a = some s') : PoolInvariant blocks s'.pool ∧ Behind s'.pool := by
  rcases (System.step_eq_some_iff.mp h).2.pool with hsame | ⟨_, _, _, -, hnext⟩
  · exact hsame ▸ hs
  · obtain ⟨signal, hmem, htransition⟩ := Pool.next_eq_some_iff.mp hnext
    exact ⟨hs.1.step hmem htransition, hs.2.step htransition⟩

theorem System.run_of_prefix (hm : ∀ b ∈ blocks, b.size ≤ m)
    (hagree : file.take m = file'.take m) {xs : List Action}
    (h : Run (System.step file) ok (System.start blocks) xs s) :
    Run (System.step file') ok (System.start blocks) xs s := by
  refine h.congr (I := fun s => PoolInvariant blocks s.pool ∧ Behind s.pool) ?_ ?_
    ⟨.start blocks, .start blocks⟩
  · exact fun s a s' hs _ hstep => System.behind_step hs hstep
  · exact fun s a hs => System.step_congr_prefix hs.1 hs.2 hm hagree a

end Runs

/-- The runs of the second version, whatever the calls answer, depend on the
size of the file and on as many of its first bytes as the largest block has. -/
theorem first_bytes_only {F F' : FileContent} (hsize : F.size = F'.size) {n : ℕ}
    {c : ChunkSize} {blocks : List Block} (hblocks : blockFileBlocks F.size n c = some blocks)
    {m : ℕ} (hm : ∀ b ∈ blocks, b.size ≤ m) (hagree : F.bytes.take m = F'.bytes.take m) :
    blockFileBlocks F'.size n c = some blocks ∧
    ∀ xs s, Run (System.step F.bytes) (fun _ => True) (System.start blocks) xs s ↔
      Run (System.step F'.bytes) (fun _ => True) (System.start blocks) xs s := by
  refine ⟨hsize ▸ hblocks, fun xs s => ⟨?_, ?_⟩⟩
  · exact System.run_of_prefix hm hagree
  · exact System.run_of_prefix hm hagree.symm

def zerosThenOnesFile : FileContent :=
  ⟨zerosThenOnes, by rw [length_zerosThenOnes]; exact Nat.lt_of_lt_of_le (by decide) (le_refl _)⟩

/-- The second block of five chunks on two cores could as well be all zeros. -/
theorem first_bytes_only_zerosThenOnes :
    blockFileBlocks (zeroFile 320000 (by decide)).size 2 smallestChunk =
      some [leftBlock, rightBlock] ∧
    ∀ xs s, Run (System.step zerosThenOnesFile.bytes) (fun _ => True)
        (System.start [leftBlock, rightBlock]) xs s ↔
      Run (System.step (zeroFile 320000 (by decide)).bytes) (fun _ => True)
        (System.start [leftBlock, rightBlock]) xs s := by
  have hsize : zerosThenOnesFile.size = 320000 := length_zerosThenOnes
  refine first_bytes_only ?_ ?_ (m := 192001) ?_ ?_
  · rw [hsize, zeroFile_size]
  · rw [hsize]
    decide
  · decide
  · have hzeros : (List.replicate 192001 (0 : Byte)).length = 192001 := List.length_replicate
    rw [zeroFile, List.take_replicate]
    exact List.take_left' hzeros

end VeeamSignature.Signature2
