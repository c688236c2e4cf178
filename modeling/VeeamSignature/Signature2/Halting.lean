import VeeamSignature.Signature2.Completion
import VeeamSignature.Signature2.Scheduling

/-!
# Every run of the program ends

A step of the threads lowers a measure: the measure of the pool, how far the
workers are from their end, and the threads that are to stop the context.
While the calls succeed, some thread can take a step until `main` returns.
-/

namespace VeeamSignature.Signature2

open LabelledSystem

/-- How many steps a worker can still take outside `run()`, with the shutdown
thread it starts. -/
def Worker.weight : Worker → ℕ
  | .running => 4
  | .caught _ => 3
  | .stored => 2
  | .finished => 0

def System.measure (s : System) : ℕ :=
  2 * s.pool.measure + (s.workers.map Worker.weight).sum + s.shutdownThreads +
    if s.exitCode.isSome then 0 else 1

section Measure

variable {file : List Byte} {blocks : List Block} {s s' : System} {a : Action}

theorem weight_set {workers : List Worker} {i : ℕ} {x : Worker} (h : workers[i]? = some x)
    (y : Worker) :
    ((workers.set i y).map Worker.weight).sum + x.weight =
      (workers.map Worker.weight).sum + y.weight := by
  obtain ⟨rest, hsum, hset⟩ := ListSum.exists_sum_set Worker.weight h
  rw [hsum, hset]
  omega

theorem Step.measure_lt (h : Step file s a s') (hexit : s.exitCode = none)
    (hreaders : ReadersInvariant blocks s.pool) : s'.measure < s.measure := by
  cases h with
  | @run worker task environment pool signal running going mem transition =>
      have hlt := transition.measure_lt mem hreaders
      cases signal with
      | quiet =>
          simp only [System.measure, System.react, hexit]
          omega
      | shutdown =>
          simp only [System.measure, System.react, hexit]
          omega
      | raise exception =>
          have hset := weight_set running (.caught exception)
          simp only [Worker.weight] at hset
          simp only [System.measure, System.react, hexit]
          omega
  | @store worker exception caught =>
      have hset := weight_set caught .stored
      simp only [Worker.weight] at hset
      simp only [System.measure]
      omega
  | @shutdown worker stored =>
      have hset := weight_set stored .finished
      simp only [Worker.weight] at hset
      simp only [System.measure]
      omega
  | stop thread =>
      simp only [System.measure]
      omega
  | @leave worker running stopped =>
      have hset := weight_set running .finished
      simp only [Worker.weight] at hset
      simp only [System.measure]
      omega
  | exit finished => simp [System.measure, hexit]

/-- No run of the program is longer than the measure of its start. -/
theorem System.run_length_le {ok : Action → Prop} {xs : List Action}
    (h : Run (System.step file) ok (System.start blocks) xs s) :
    xs.length ≤ (System.start blocks).measure := by
  have hstep : ∀ (s : System) a s', ReadersInvariant blocks s.pool → ok a →
      s.step file a = some s' → ReadersInvariant blocks s'.pool := by
    intro s a s' hreaders _ hstep
    rcases (System.step_eq_some_iff.mp hstep).2.pool with hsame | ⟨_, _, _, _, hnext⟩
    · rwa [hsame]
    · obtain ⟨signal, hmem, htransition⟩ := Pool.next_eq_some_iff.mp hnext
      exact hreaders.step hmem htransition
  have hlt : ∀ (s : System) a s', ReadersInvariant blocks s.pool → ok a → s.step file a = some s' →
      s'.measure < s.measure := by
    intro s a s' hreaders _ hstep
    obtain ⟨hexit, hstep⟩ := System.step_eq_some_iff.mp hstep
    exact hstep.measure_lt hexit hreaders
  have hlength := h.length_le hstep System.measure hlt (.start blocks)
  omega

end Measure

section Progress

variable {file : List Byte} {blocks : List Block} {s s' : System} {a : Action}
  {ok : Action → Prop}

theorem System.length_workers (h : Reachable (System.step file) ok (System.start blocks) s) :
    s.workers.length = blocks.length := by
  refine h.invariant (I := fun s => s.workers.length = blocks.length) ?_ ?_
  · intro s a s' hlength _ hstep
    cases (System.step_eq_some_iff.mp hstep).2 with
    | @run worker task environment pool signal =>
        cases signal with
        | quiet => exact hlength
        | shutdown => exact hlength
        | raise exception => exact (List.length_set).trans hlength
    | store => exact (List.length_set).trans hlength
    | shutdown => exact (List.length_set).trans hlength
    | stop => exact hlength
    | leave => exact (List.length_set).trans hlength
    | exit => exact hlength
  · exact List.length_replicate

theorem System.exists_step (hne : blocks ≠ []) (hids : (blocks.map Block.blockId).Nodup)
    (h : Reachable (System.step file) Action.Complete (System.start blocks) s)
    (hexit : s.exitCode = none) : ∃ a s', a.Complete ∧ s.step file a = some s' := by
  have hpool : Reachable (Pool.next file) (fun a => a.2 = complete) (Pool.start blocks) s.pool :=
    System.pool_reachable (fun _ _ _ ha => ha) h
  have hp := PoolInvariant.reachable hpool
  have henabled : ∀ {a s'}, a.Complete → Step file s a s' →
      ∃ a s', a.Complete ∧ s.step file a = some s' := fun ha hstep =>
    ⟨_, _, ha, System.step_eq_some_iff.mpr ⟨hexit, hstep⟩⟩
  have hlt : 0 < s.workers.length := by
    rw [System.length_workers h]
    exact List.length_pos_of_ne_nil hne
  have hworker : s.workers[0]? = some s.workers[0] := List.getElem?_eq_getElem hlt
  cases hfirst : s.workers[0] with
  | running =>
      rw [hfirst] at hworker
      cases hstopped : s.stopped with
      | true => exact henabled (a := .leave 0) trivial (.leave hworker hstopped)
      | false =>
          by_cases hpending : ∃ t, t ∈ s.pool.tasks
          · obtain ⟨t, hmem⟩ := hpending
            obtain ⟨p, signal, htransition⟩ := hp.exists_transition file complete hmem
            exact henabled (a := .run 0 t complete) rfl (.run hworker hstopped hmem htransition)
          · -- an idle pool has called back, and a thread is about to stop the context
            have hidle : Idle s.pool := fun t ht => absurd ⟨t, ht⟩ hpending
            have hsucceed : Reachable (Pool.next file) ReadsSucceed (Pool.start blocks) s.pool :=
              hpool.mono fun a ha error => by simp [ha, complete]
            have hcallbacks := callbacks_of_idle hne hp (WriterInvariant.reachable hids hpool) hidle
              (failures_eq_nil hsucceed)
            have hsucceeded := succeeded_of_called hids
              (fun a ha => congrArg Environment.stream ha) hpool hcallbacks
            rcases (ThreadsInvariant.reachable h).effect hsucceeded with hstop | hthread
            · rw [hstopped] at hstop
              cases hstop
            · exact henabled (a := .stop) trivial (.stop hthread)
  | caught exception =>
      rw [hfirst] at hworker
      exact henabled (a := .store 0) trivial (.store hworker)
  | stored =>
      rw [hfirst] at hworker
      exact henabled (a := .shutdown 0) trivial (.shutdown hworker)
  | finished =>
      rw [hfirst] at hworker
      exact henabled (a := .exit) trivial (.exit hworker)

end Progress

end VeeamSignature.Signature2
