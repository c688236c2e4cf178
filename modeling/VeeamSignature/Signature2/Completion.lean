import VeeamSignature.Signature2.ChunkCount
import VeeamSignature.Signature2.Termination

/-!
# When the writer calls back

The writer compares the chunks that have arrived with the chunks of the
blocks.  The last arrival makes them equal, so that an idle pool has called
back; but a segment without a full chunk does not change the count, and the
writer may call back before it arrives.
-/

namespace VeeamSignature.Signature2

open Slices OrderedMap BlockReader LabelledSystem

section Idle

variable {file : List Byte} {blocks : List Block} {p p' : Pool} {t : Task} {e : Environment}
  {signal : Signal}

theorem allHeaders_ne_nil (h : blocks ≠ []) : allHeaders blocks ≠ [] := by
  cases blocks with
  | nil => exact absurd rfl h
  | cons b blocks =>
      intro hnil
      have hlength := congrArg List.length hnil
      simp [allHeaders] at hlength

theorem chunksCount_le (hp : PoolInvariant blocks p) (hw : WriterInvariant blocks p.writer)
    (hfit : chunkSum (allHeaders blocks) < SizeT.modulus) :
    p.writer.chunksCount ≤ p.writer.chunksTotal := by
  have hle := hp.hashedSum_le
  rw [hw.count, hw.total, totalChunks_eq, ← hashedSum_coe, Nat.mod_eq_of_lt hfit]
  exact (Nat.mod_le _ _).trans (by omega)

theorem callbacks_of_idle (hne : blocks ≠ []) (hp : PoolInvariant blocks p)
    (hw : WriterInvariant blocks p.writer) (hidle : Idle p)
    (hfailures : ∀ r ∈ p.readers, r.failures = []) : p.writer.callbacks ≠ [] := by
  obtain ⟨harrived, hheaders⟩ := hp.arrived_of_idle hidle hfailures
  apply hw.called
  · intro hnil
    rw [hnil] at harrived
    have hcard := congrArg Multiset.card hheaders
    have hnone := congrArg Multiset.card harrived
    rw [Multiset.card_map] at hcard hnone
    rw [← hnone] at hcard
    exact allHeaders_ne_nil hne (List.eq_nil_of_length_eq_zero hcard.symm)
  · rw [hw.count, hw.total, totalChunks_eq, ← hashedSum_coe, harrived, hashedSum_map_hashOf,
      hheaders]

/-- The total is the number of chunks of the segments.  With distinct block ids
the count does not pass it, and an idle pool has called back. -/
theorem no_stuck_run (file : List Byte) (blocks : List Block) (hne : blocks ≠ []) :
    totalChunks blocks = chunkSum (allHeaders blocks) % SizeT.modulus ∧
      ((blocks.map Block.blockId).Nodup →
        ∀ p, Reachable (Pool.next file) ReadsSucceed (Pool.start blocks) p →
          (chunkSum (allHeaders blocks) < SizeT.modulus →
            p.writer.chunksCount ≤ p.writer.chunksTotal) ∧
          (Idle p → p.writer.callbacks ≠ [])) := by
  refine ⟨totalChunks_eq blocks, ?_⟩
  intro hids p hreachable
  have hp := PoolInvariant.reachable hreachable
  have hw := WriterInvariant.reachable hids hreachable
  refine ⟨chunksCount_le hp hw, ?_⟩
  intro hidle
  exact callbacks_of_idle hne hp hw hidle (failures_eq_nil hreachable)

theorem Idle.of_tasks (h : p.tasks = 0) : Idle p := by
  intro t ht
  rw [h] at ht
  exact absurd ht (Multiset.notMem_zero t)

end Idle

/-- Two readers, at the end of a run of two workers. -/
theorem no_stuck_run_unevenly :
    totalChunks neighbours = chunkSum (allHeaders neighbours) % SizeT.modulus ∧
      ∃ p, unevenly.foldlM (Pool.next [1, 2, 3]) (Pool.start neighbours) = some p ∧ Idle p ∧
        p.writer.chunksCount ≤ p.writer.chunksTotal ∧ p.writer.callbacks ≠ [] := by
  have hrun : (unevenly.foldlM (Pool.next [1, 2, 3]) (Pool.start neighbours)).map Pool.tasks =
      some 0 := by
    decide +kernel
  obtain ⟨p, hp, htasks⟩ := Option.map_eq_some_iff.mp hrun
  have hsucceed : ∀ a ∈ unevenly, ReadsSucceed a := by
    simp [unevenly, ReadsSucceed, complete]
  have hfit : chunkSum (allHeaders neighbours) < SizeT.modulus := by
    rw [chunkSum_allHeaders]
    decide
  obtain ⟨htotal, hreachable⟩ := no_stuck_run [1, 2, 3] neighbours (List.cons_ne_nil _ _)
  obtain ⟨hcount, hcalled⟩ := hreachable (by decide) p (.of_foldlM hsucceed hp)
  exact ⟨htotal, p, hp, .of_tasks htasks, hcount hfit, hcalled (.of_tasks htasks)⟩

def twins : List Block :=
  [oneByte, ⟨0, 1, 2, 1, SizeT.two_lt_modulus, Nat.one_pos⟩]

def firstTwin : Segment := ⟨0, 1, 1, 0, 0, [1]⟩

def secondTwin : Segment := ⟨0, 1, 2, 0, 0, [1, 2]⟩

def twinTasks : List (Task × Environment) :=
  [.doRead 0, .doRead 1, .read 0 .entireBlock, .read 1 .entireBlock, .hash firstTwin,
    .hash secondTwin, .write (hashOf firstTwin), .write (hashOf secondTwin)].map (·, complete)

/-- The second of two segments with one key is dropped: the count stops at two
of three chunks, and the pool idles for ever. -/
theorem twins_idle : ∃ p, Reachable (Pool.next [1, 2, 3]) ReadsSucceed (Pool.start twins) p ∧
    Idle p ∧ p.writer.callbacks = [] := by
  have hrun : (twinTasks.foldlM (Pool.next [1, 2, 3]) (Pool.start twins)).map
      (fun p => (p.tasks, p.writer.callbacks)) = some (0, []) := by
    decide +kernel
  obtain ⟨p, hp, hend⟩ := Option.map_eq_some_iff.mp hrun
  obtain ⟨htasks, hcallbacks⟩ := Prod.mk.inj hend
  refine ⟨p, .of_foldlM ?_ hp, .of_tasks htasks, hcallbacks⟩
  intro a ha error
  obtain ⟨t, -, rfl⟩ := List.mem_map.mp ha
  simp [complete]

def giants : List Block :=
  [⟨0, 0, 2 ^ 63, 1, by decide, by decide⟩, ⟨1, 0, 2 ^ 63, 1, by decide, by decide⟩]

/-- Two blocks with one id get stuck, and the total of two large blocks wraps.
The layout of a file is neither list. -/
theorem twins_stuck_and_giants_wrap :
    (∃ p, Reachable (Pool.next [1, 2, 3]) ReadsSucceed (Pool.start twins) p ∧
      Idle p ∧ p.writer.callbacks = []) ∧
    totalChunks giants ≠ chunkSum (allHeaders giants) ∧
    ∀ (F : FileContent) (n : ℕ) (c : ChunkSize), 1 ≤ n →
      blockFileBlocks F.size n c ≠ some twins ∧ blockFileBlocks F.size n c ≠ some giants := by
  refine ⟨twins_idle, ?_, ?_⟩
  · rw [chunkSum_allHeaders]
    decide
  · intro F n c hn
    constructor
    · intro htwins
      exact absurd (blockFileBlocks_fit hn htwins).1 (by decide)
    · intro hgiants
      have hfit := (blockFileBlocks_fit hn hgiants).2
      rw [chunkSum_allHeaders] at hfit
      exact absurd hfit (by decide)

end VeeamSignature.Signature2
