import VeeamSignature.Signature2.Faults

/-!
# Which threads `main` waits for

`main` runs the first worker in its own thread and returns when this one has
left `run()`.  The group that holds the other workers is never joined, and the
threads that stop the context are detached, so that `main` can return while
such a thread is still to use the context.
-/

namespace VeeamSignature.Signature2

open BlockReader LabelledSystem

/-- The calls succeed, and the other workers do not get to run. -/
def Action.ByFirst : Action → Prop
  | .run worker _ environment => worker = 0 ∧ environment = complete
  | .leave worker => worker = 0
  | .store _ => False
  | .shutdown _ => False
  | _ => True

theorem Action.ByFirst.complete {a : Action} (h : a.ByFirst) : a.Complete := by
  cases a with
  | run => exact h.2
  | _ => trivial

section Workers

variable {file : List Byte} {blocks : List Block} {s : System} {ok : Action → Prop}

theorem first_finished (h : Reachable (System.step file) ok (System.start blocks) s)
    (hexit : s.exitCode ≠ none) : s.workers[0]? = some .finished := by
  revert hexit
  refine h.invariant (I := fun s => s.exitCode ≠ none → s.workers[0]? = some .finished) ?_ ?_
  · intro s a s' _ _ hstep hexit
    obtain ⟨hnone, hstep⟩ := System.step_eq_some_iff.mp hstep
    cases hstep with
    | @run worker task environment pool signal =>
        cases signal <;> exact absurd hnone hexit
    | store => exact absurd hnone hexit
    | shutdown => exact absurd hnone hexit
    | stop => exact absurd hnone hexit
    | leave => exact absurd hnone hexit
    | exit hfinished => exact hfinished
  · intro hexit
    exact absurd rfl hexit

theorem others_running (h : Reachable (System.step file) Action.ByFirst (System.start blocks) s)
    {worker : ℕ} (hother : worker ≠ 0) (hlt : worker < blocks.length) :
    s.workers[worker]? = some .running := by
  refine h.invariant (I := fun s => s.workers[worker]? = some .running) ?_ ?_
  · intro s a s' hs ha hstep
    have hset : ∀ w, (s.workers.set 0 w)[worker]? = some .running := fun w => by
      rwa [List.getElem?_set_ne hother.symm]
    cases (System.step_eq_some_iff.mp hstep).2 with
    | @run first task environment pool signal =>
        obtain ⟨rfl, -⟩ := ha
        cases signal with
        | quiet => exact hs
        | shutdown => exact hs
        | raise exception => exact hset _
    | store => exact ha.elim
    | shutdown => exact ha.elim
    | stop => exact hs
    | leave =>
        obtain rfl := ha
        exact hset _
    | exit => exact hs
  · simp [System.start, hlt]

/-- The first worker alone can bring the program to its end. -/
theorem exists_success_byFirst (file : List Byte) (hne : blocks ≠ [])
    (hids : (blocks.map Block.blockId).Nodup) :
    ∃ s, Reachable (System.step file) Action.ByFirst (System.start blocks) s ∧
      s.exitCode = some .success := by
  obtain ⟨p, hdrained, hp, -, hidle⟩ := (PoolInvariant.start blocks).exists_drained file
    (fun _ => complete) (fun t => t.reader? = none ∧ t.hashed? = none) (fun _ => True)
    (fun _ _ _ _ _ _ _ _ _ => trivial) trivial
  have hbrings : Reachable (Pool.next file) Brings (Pool.start blocks) p :=
    hdrained.mono fun a ha => .of_not_spare ha.1 ha.2
  have hcallbacks := callbacks_of_idle hne hp (.reachable hids hbrings) hidle
    (failures_eq_nil (hbrings.mono Brings.succeed))
  have hsucceeded := succeeded_of_called hids (fun a ha => congrArg Environment.stream ha.1)
    hbrings hcallbacks
  have hlift : ∃ s, Reachable (System.step file) Action.ByFirst (System.start blocks) s ∧
      s.pool = p ∧ Waiting s :=
    (Waiting.start hne).lift (fun _ _ ha => ⟨rfl, ha.1⟩) (fun _ _ exception ha => ha.2 exception)
      hbrings
  obtain ⟨s, hs, rfl, hwaiting⟩ := hlift
  have hexit : ∃ s', Reachable (System.step file) Action.ByFirst s s' ∧ s'.pool = s.pool ∧
      s'.exitCode = some .success :=
    hwaiting.exists_exit (.reachable hs) hsucceeded ⟨trivial, rfl, trivial⟩
  obtain ⟨s', hs', -, hcode⟩ := hexit
  exact ⟨s', hs.trans hs', hcode⟩

/-- Whatever else the calls may answer, all workers have left `run()` when
`main` returns exactly if there is one block: with one core, or when the file
is shorter than two chunks. -/
theorem workers_joined_iff {F : FileContent} {n : ℕ} (hn : 1 ≤ n) {c : ChunkSize}
    (hblocks : blockFileBlocks F.size n c = some blocks) (hok : ∀ a, a.Complete → ok a) :
    (∀ s, Reachable (System.step F.bytes) ok (System.start blocks) s → s.exitCode ≠ none →
      ∀ worker ∈ s.workers, worker = .finished) ↔ n = 1 ∨ F.size < 2 * c.value := by
  have hne := layout_ne_nil hn hblocks
  have hids : (blocks.map Block.blockId).Nodup :=
    Indexed.nodup fun k b hb => layout_blockId hn hblocks hb
  have hlength : blocks.length = reducedCount F.size n c.value := by
    have hpos := reducedCount_pos F.size n c.value
    rw [blockFileBlocks, layout_eq c.pos hn] at hblocks
    obtain rfl := Option.some.inj hblocks
    simp only [List.length_append, List.length_map, List.length_range, List.length_singleton]
    omega
  rw [← reducedCount_eq_one_iff c.pos hn, ← hlength]
  constructor
  · intro hjoined
    by_contra hseveral
    have hpos := List.length_pos_of_ne_nil hne
    obtain ⟨s, hs, hcode⟩ := exists_success_byFirst F.bytes hne hids
    have hsecond := others_running hs Nat.one_ne_zero (by omega)
    have hfinished := hjoined s (hs.mono fun a ha => hok a ha.complete) (by simp [hcode])
      .running (List.mem_of_getElem? hsecond)
    cases hfinished
  · intro hone s hs hexit worker hworker
    obtain ⟨i, hi⟩ := List.mem_iff_getElem?.mp hworker
    obtain ⟨hlt, -⟩ := List.getElem?_eq_some_iff.mp hi
    rw [System.length_workers hs, hone, Nat.lt_one_iff] at hlt
    subst hlt
    exact Option.some.inj (hi.symm.trans (first_finished hs hexit))

end Workers

theorem workers_joined_iff_fiveChunks :
    (∀ s, Reachable (System.step fiveChunks.bytes) (fun _ => True)
      (System.start [leftBlock, rightBlock]) s → s.exitCode ≠ none →
        ∀ worker ∈ s.workers, worker = .finished) ↔
      2 = 1 ∨ fiveChunks.size < 2 * smallestChunk.value :=
  workers_joined_iff (by decide) fiveChunks_layout fun _ _ => trivial

section Stop

variable {file : List Byte} {blocks : List Block} {s s' : System} {a : Action}
  {ok : Action → Prop}

/-- No thread calls `stop()`, so that a worker has left `run()` by an exception only. -/
structure Unstopped (s : System) : Prop where
  going : s.stopped = false
  finished : .finished ∈ s.workers → 0 < s.shutdownThreads
  exitCode : s.exitCode ≠ none → 0 < s.shutdownThreads

theorem mem_of_mem_set {workers : List Worker} {i : ℕ} {x y : Worker} (hne : y ≠ x)
    (h : y ∈ workers.set i x) : y ∈ workers :=
  (List.mem_or_eq_of_mem_set h).resolve_right hne

theorem Unstopped.step (hs : Unstopped s) (h : Step file s a s') (hstop : a ≠ .stop) :
    Unstopped s' := by
  cases h with
  | @run worker task environment pool signal =>
      cases signal with
      | quiet => exact ⟨hs.going, hs.finished, hs.exitCode⟩
      | shutdown => exact ⟨hs.going, fun _ => Nat.succ_pos _, fun _ => Nat.succ_pos _⟩
      | raise exception =>
          exact ⟨hs.going, fun h => hs.finished (mem_of_mem_set (by simp) h), hs.exitCode⟩
  | store => exact ⟨hs.going, fun h => hs.finished (mem_of_mem_set (by simp) h), hs.exitCode⟩
  | shutdown => exact ⟨hs.going, fun _ => Nat.succ_pos _, fun _ => Nat.succ_pos _⟩
  | stop => exact absurd rfl hstop
  | leave _ hstopped =>
      rw [hs.going] at hstopped
      cases hstopped
  | exit hfinished =>
      have hthread := hs.finished (List.mem_of_getElem? hfinished)
      exact ⟨hs.going, hs.finished, fun _ => hthread⟩

theorem Unstopped.reachable
    (h : Reachable (System.step file) (fun a => ok a ∧ a ≠ .stop) (System.start blocks) s) :
    Unstopped s := by
  refine h.invariant (fun s a s' hs ha hstep => ?_) ⟨rfl, ?_, fun h => absurd rfl h⟩
  · exact hs.step (System.step_eq_some_iff.mp hstep).2 ha.2
  · intro hmem
    cases List.eq_of_mem_replicate hmem

/-- When an exception waits for the first worker, `main` can return before the
context is stopped. -/
theorem exists_late_stop {p : Pool} {okTask : Task × Environment → Prop} (hne : blocks ≠ [])
    (h : Reachable (Pool.next file) okTask (Pool.start blocks) p)
    (hok : ∀ t e, okTask (t, e) → ok (.run 0 t e))
    (hquiet : ∀ t e exception, okTask (t, e) → t ≠ .throwException exception)
    {exception : Exception} (hmem : .throwException exception ∈ p.tasks) (e : Environment)
    (hend : ok (.run 0 (.throwException exception) e) ∧ ok (.store 0) ∧ ok (.shutdown 0) ∧
      ok .exit) :
    ∃ s, Reachable (System.step file) ok (System.start blocks) s ∧
      s.exitCode = some .failure ∧ 0 < s.shutdownThreads := by
  have hlift : ∃ s, Reachable (System.step file) (fun a => ok a ∧ a ≠ .stop)
      (System.start blocks) s ∧ s.pool = p ∧ Waiting s :=
    (Waiting.start hne).lift (fun t e ha => ⟨hok t e ha, by simp⟩) hquiet h
  obtain ⟨s, hs, rfl, hwaiting⟩ := hlift
  have hfails : ∃ s', Reachable (System.step file) (fun a => ok a ∧ a ≠ .stop) s s' ∧
      s'.exitCode = some .failure := by
    obtain ⟨hthrow, hstore, hshutdown, hexit⟩ := hend
    exact hwaiting.exists_failure hmem e ⟨⟨hthrow, by simp⟩, ⟨hstore, by simp⟩,
      ⟨hshutdown, by simp⟩, ⟨hexit, by simp⟩⟩
  obtain ⟨s', hs', hcode⟩ := hfails
  exact ⟨s', (hs.trans hs').mono fun _ ha => ha.1, hcode,
    (Unstopped.reachable (hs.trans hs')).exitCode (by simp [hcode])⟩

/-- A run that fails although the calls succeed passes a pool in which the
exception waits. -/
theorem exists_waiting_exception
    (h : Reachable (System.step file) Action.Complete (System.start blocks) s)
    (hexit : s.exitCode = some .failure) :
    ∃ p exception, Reachable (Pool.next file) Brings (Pool.start blocks) p ∧
      .throwException exception ∈ p.tasks := by
  by_contra hnone
  have hquiet : ∀ p, Reachable (Pool.next file) Brings (Pool.start blocks) p →
      ∀ exception, .throwException exception ∉ p.tasks := fun p hp exception hmem =>
    hnone ⟨p, exception, hp, hmem⟩
  have hundisturbed : Undisturbed s ∧
      Reachable (Pool.next file) Brings (Pool.start blocks) s.pool := by
    refine h.invariant (I := fun s => Undisturbed s ∧
      Reachable (Pool.next file) Brings (Pool.start blocks) s.pool) ?_ ⟨.start blocks, .refl _⟩
    rintro s a s' ⟨hs, hpool⟩ ha hstep
    obtain ⟨-, hstep⟩ := System.step_eq_some_iff.mp hstep
    refine ⟨hs.step (hquiet _ hpool) hstep, ?_⟩
    rcases hstep.pool with hsame | ⟨worker, t, e, rfl, hnext⟩
    · rwa [hsame]
    · obtain ⟨signal, hmem, -⟩ := Pool.next_eq_some_iff.mp hnext
      have hbrings : Brings (t, e) := by
        refine ⟨ha, ?_⟩
        rintro exception rfl
        exact hquiet _ hpool exception hmem
      exact hpool.tail hbrings hnext
  exact hundisturbed.1.exitCode hexit

/-- Without an exception each thread that stops the context belongs to a
callback, and a worker leaves `run()` only when one of them has stopped it. -/
structure Stopping (s : System) : Prop where
  threads : s.shutdownThreads + (if s.stopped then 1 else 0) ≤ s.pool.writer.callbacks.length
  finished : .finished ∈ s.workers → s.stopped = true

theorem Stopping.step (hs : Stopping s) (hthreads : ThreadsInvariant s) (hfine : Undisturbed s)
    (h : Step file s a s') : Stopping s' := by
  cases h with
  | @run worker task environment pool signal running going mem transition =>
      have hmore := hs.threads.trans transition.callbacks_length_le
      cases signal with
      | quiet => exact ⟨hmore, hs.finished⟩
      | shutdown =>
          refine ⟨?_, hs.finished⟩
          cases transition with
          | @wrote segment w hreceive =>
              have hcallbacks := (Writer.received_of_eq hreceive).callbacks
              have hbefore := hs.threads
              simp only [System.react, going, hcallbacks, Option.toList_some,
                List.length_append, List.length_singleton, Bool.false_eq_true, if_false]
                at hbefore ⊢
              omega
      | raise exception =>
          exact ⟨hmore, fun h => hs.finished (mem_of_mem_set (by simp) h)⟩
  | store hcaught => exact absurd hcaught (hfine.caught _ _)
  | shutdown hstored =>
      have hsome := hthreads.stored _ hstored
      rw [hfine.fine] at hsome
      cases hsome
  | stop hthread =>
      refine ⟨?_, fun _ => rfl⟩
      have hbefore := hs.threads
      simp only [if_true]
      omega
  | leave _ hstopped => exact ⟨hs.threads, fun _ => hstopped⟩
  | exit => exact ⟨hs.threads, hs.finished⟩

theorem Stopping.reachable (hids : (blocks.map Block.blockId).Nodup)
    (hfit : chunkSum (allHeaders blocks) < SizeT.modulus) (hcounts : EveryReadCounts blocks)
    (h : Reachable (System.step file) Action.Complete (System.start blocks) s) : Stopping s := by
  refine h.invariant_along (fun s a s' hreachable hs _ hstep => ?_) ⟨Nat.zero_le _, ?_⟩
  · exact hs.step (.reachable hreachable) (.reachable hids hfit hcounts hreachable)
      (System.step_eq_some_iff.mp hstep).2
  · intro hmem
    cases List.eq_of_mem_replicate hmem

/-- The first read of the first block can fail before anything else happens. -/
theorem exists_failed_read (file : List Byte) (hne : blocks ≠ []) (error : String) :
    ∃ p, Reachable (Pool.next file) (fun a => ∀ exception, a.1 ≠ .throwException exception)
      (Pool.start blocks) p ∧ .throwException (.readFailed error) ∈ p.tasks := by
  have hlt : 0 < blocks.length := List.length_pos_of_ne_nil hne
  let r := BlockReader.start blocks[0]
  let broken : Environment := ⟨.failed error, .complete⟩
  have hr : (Pool.start blocks).readers[0]? = some r := by simp [Pool.start, hlt, r]
  have hmem : .doRead 0 ∈ (Pool.start blocks).tasks :=
    Multiset.mem_map_of_mem _ (Multiset.mem_range.mpr hlt)
  let p₁ : Pool := { Pool.start blocks with
    readers := (Pool.start blocks).readers.set 0 r.doRead.1
    tasks := .read 0 r.doRead.2 ::ₘ (Pool.start blocks).tasks.erase (.doRead 0) }
  let p₂ : Pool := { p₁ with
    readers := p₁.readers.set 0 (r.doRead.1.rejected r.doRead.2)
    tasks := .throwException (.readFailed error) ::ₘ p₁.tasks.erase (.read 0 r.doRead.2) }
  have hr₁ : p₁.readers[0]? = some r.doRead.1 :=
    List.getElem?_set_self (by simpa [Pool.start] using hlt)
  have hmem₁ : .read 0 r.doRead.2 ∈ p₁.tasks := by simp [p₁]
  have hmem₂ : .throwException (.readFailed error) ∈ p₂.tasks := by simp [p₂]
  have h₁ : (Pool.start blocks).next file (.doRead 0, broken) = some p₁ :=
    Pool.next_eq_some_iff.mpr ⟨_, hmem, .doRead hr⟩
  have h₂ : p₁.next file (.read 0 r.doRead.2, broken) = some p₂ :=
    Pool.next_eq_some_iff.mpr ⟨_, hmem₁, .readFailed hr₁ rfl⟩
  exact ⟨p₂, (Reachable.single (by simp) h₁).tail (by simp) h₂, hmem₂⟩

/-- While the calls succeed, no thread is left to stop the context when `main`
returns exactly if every read counts; a failed read can leave one in every
layout. -/
theorem late_stop_iff {F : FileContent} {n : ℕ} (hn : 1 ≤ n) {c : ChunkSize}
    (hblocks : blockFileBlocks F.size n c = some blocks) :
    ((∀ s, Reachable (System.step F.bytes) Action.Complete (System.start blocks) s →
      s.exitCode ≠ none → s.shutdownThreads = 0) ↔ EveryReadCounts blocks) ∧
    ∃ s, Reachable (System.step F.bytes) (fun _ => True) (System.start blocks) s ∧
      s.exitCode = some .failure ∧ 0 < s.shutdownThreads := by
  obtain ⟨hids, hfit⟩ := blockFileBlocks_fit hn hblocks
  have hne := layout_ne_nil hn hblocks
  refine ⟨⟨?_, ?_⟩, ?_⟩
  · intro hnone
    by_contra hcounts
    obtain ⟨s, hs, hcode⟩ := exists_failure F.bytes hids hcounts
    obtain ⟨p, exception, hp, hmem⟩ := exists_waiting_exception hs hcode
    have hlate : ∃ s, Reachable (System.step F.bytes) Action.Complete (System.start blocks) s ∧
        s.exitCode = some .failure ∧ 0 < s.shutdownThreads :=
      exists_late_stop hne hp (fun _ _ ha => ha.1) (fun _ _ exception ha => ha.2 exception) hmem
        complete ⟨rfl, trivial, trivial, trivial⟩
    obtain ⟨s, hs, hcode, hthread⟩ := hlate
    have hzero := hnone s hs (by simp [hcode])
    omega
  · intro hcounts s hs hexit
    have hstopping := Stopping.reachable hids hfit hcounts hs
    have hpool : Reachable (Pool.next F.bytes) (fun _ => True) (Pool.start blocks) s.pool :=
      System.pool_reachable (fun _ _ _ _ => trivial) hs
    have honce := callbacks_length_le hids hfit hcounts hpool
    have hstopped := hstopping.finished (List.mem_of_getElem? (first_finished hs hexit))
    have hthreads := hstopping.threads
    rw [hstopped, if_pos rfl] at hthreads
    omega
  · obtain ⟨p, hp, hmem⟩ := exists_failed_read F.bytes hne "Input/output error"
    exact exists_late_stop hne hp (fun _ _ _ => trivial) (fun t e exception ha => ha exception) hmem
      complete ⟨trivial, trivial, trivial, trivial⟩

end Stop

theorem late_stop_iff_fiveChunks :
    ((∀ s, Reachable (System.step fiveChunks.bytes) Action.Complete
      (System.start [leftBlock, rightBlock]) s → s.exitCode ≠ none → s.shutdownThreads = 0) ↔
        EveryReadCounts [leftBlock, rightBlock]) ∧
    ∃ s, Reachable (System.step fiveChunks.bytes) (fun _ => True)
      (System.start [leftBlock, rightBlock]) s ∧ s.exitCode = some .failure ∧
        0 < s.shutdownThreads :=
  late_stop_iff (by decide) fiveChunks_layout

end VeeamSignature.Signature2
