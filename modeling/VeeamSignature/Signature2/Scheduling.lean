import VeeamSignature.Signature2.Termination
import VeeamSignature.Signature2.Threads

/-!
# Runs of the threads from runs of the pool

The first worker can execute any run of the pool in which no task throws.  If
the writer has called its success callback by then, the program can end with
success whatever tasks are left.
-/

namespace VeeamSignature.Signature2

open LabelledSystem

def Action.Complete : Action → Prop
  | .run _ _ environment => environment = complete
  | _ => True

/-- `main` waits for its first worker, which is in `run()`. -/
structure Waiting (s : System) : Prop where
  exitCode : s.exitCode = none
  going : s.stopped = false
  running : s.workers[0]? = some .running
  fine : s.occurredException = none

section Lift

variable {file : List Byte} {okTask : Task × Environment → Prop} {ok : Action → Prop}

theorem Waiting.start {blocks : List Block} (hne : blocks ≠ []) :
    Waiting (System.start blocks) := by
  refine ⟨rfl, rfl, ?_, rfl⟩
  have hlength : 0 < blocks.length := List.length_pos_of_ne_nil hne
  simp [System.start, hlength]

theorem Waiting.run {s : System} (hs : Waiting s) {t : Task} {e : Environment} {p : Pool}
    {signal : Signal} (hmem : t ∈ s.pool.tasks) (h : Transition file e s.pool t p signal)
    (hquiet : ∀ exception, t ≠ .throwException exception) :
    ∃ s', s.step file (.run 0 t e) = some s' ∧ s'.pool = p ∧ Waiting s' := by
  refine ⟨_, System.step_eq_some_iff.mpr ⟨hs.exitCode, .run hs.running hs.going hmem h⟩, ?_, ?_⟩
  · exact System.react_pool _ _ _
  · cases signal with
    | quiet => exact ⟨hs.exitCode, hs.going, hs.running, hs.fine⟩
    | shutdown => exact ⟨hs.exitCode, hs.going, hs.running, hs.fine⟩
    | raise exception =>
        cases h with
        | throwException => exact absurd rfl (hquiet exception)

theorem Waiting.lift (hok : ∀ t e, okTask (t, e) → ok (.run 0 t e))
    (hquiet : ∀ t e exception, okTask (t, e) → t ≠ .throwException exception)
    {s : System} (hs : Waiting s) {p : Pool}
    (h : Reachable (Pool.next file) okTask s.pool p) :
    ∃ s', Reachable (System.step file) ok s s' ∧ s'.pool = p ∧ Waiting s' := by
  obtain ⟨xs, hrun⟩ := h
  generalize hpool : s.pool = q at hrun
  induction hrun generalizing s with
  | nil q => exact ⟨s, .refl s, hpool, hs⟩
  | @cons q q' p a xs ha hstep _ ih =>
      obtain ⟨t, e⟩ := a
      subst hpool
      obtain ⟨signal, hmem, htransition⟩ := Pool.next_eq_some_iff.mp hstep
      obtain ⟨s', hs', hpool', hwaiting⟩ :=
        hs.run hmem htransition fun exception => hquiet t e exception ha
      obtain ⟨s'', hreachable, hend⟩ := ih hwaiting hpool'
      exact ⟨s'', (Reachable.single (hok t e ha) hs').trans hreachable, hend⟩

/-- A run of the pool that brings everything to the writer is a run of the program. -/
theorem exists_waiting {blocks : List Block} {p : Pool}
    (h : Reachable (Pool.next file) Brings (Pool.start blocks) p) (hne : blocks ≠ []) :
    ∃ s, Reachable (System.step file) Action.Complete (System.start blocks) s ∧ s.pool = p ∧
      Waiting s := by
  refine (Waiting.start hne).lift ?_ ?_ h
  · intro t e ha
    exact ha.1
  · intro t e exception ha
    exact ha.2 exception

theorem Waiting.exists_exit {s : System} (hs : Waiting s) (hthreads : ThreadsInvariant s)
    (hsucceeded : Succeeded s.pool) (hok : ok .stop ∧ ok (.leave 0) ∧ ok .exit) :
    ∃ s', Reachable (System.step file) ok s s' ∧ s'.pool = s.pool ∧
      s'.exitCode = some .success := by
  have hthread : 0 < s.shutdownThreads := by
    rcases hthreads.effect hsucceeded with hstopped | hthread
    · rw [hs.going] at hstopped
      cases hstopped
    · exact hthread
  obtain ⟨hlt, -⟩ := List.getElem?_eq_some_iff.mp hs.running
  let s₁ : System := { s with stopped := true, shutdownThreads := s.shutdownThreads - 1 }
  let s₂ : System := { s₁ with workers := s₁.workers.set 0 .finished }
  have h₁ : s.step file .stop = some s₁ :=
    System.step_eq_some_iff.mpr ⟨hs.exitCode, .stop hthread⟩
  have h₂ : s₁.step file (.leave 0) = some s₂ :=
    System.step_eq_some_iff.mpr ⟨hs.exitCode, .leave hs.running rfl⟩
  have h₃ : s₂.step file .exit = some { s₂ with
      exitCode := some (if s₂.occurredException.isSome then .failure else .success) } :=
    System.step_eq_some_iff.mpr ⟨hs.exitCode, .exit (List.getElem?_set_self hlt)⟩
  refine ⟨_, ((Reachable.single hok.1 h₁).tail hok.2.1 h₂).tail hok.2.2 h₃, rfl, ?_⟩
  simp [s₂, s₁, hs.fine]

theorem Waiting.exists_failure {s : System} (hs : Waiting s) {exception : Exception}
    (hmem : .throwException exception ∈ s.pool.tasks) (e : Environment)
    (hok : ok (.run 0 (.throwException exception) e) ∧ ok (.store 0) ∧ ok (.shutdown 0) ∧
      ok .exit) :
    ∃ s', Reachable (System.step file) ok s s' ∧ s'.exitCode = some .failure := by
  obtain ⟨hlt, -⟩ := List.getElem?_eq_some_iff.mp hs.running
  have hset : ∀ (workers : List Worker) (x y : Worker), 0 < workers.length →
      ((workers.set 0 x).set 0 y)[0]? = some y := by
    intro workers x y hlt
    rw [List.set_set, List.getElem?_set_self hlt]
  let pool : Pool := { s.pool with tasks := s.pool.tasks.erase (.throwException exception) }
  let s₁ : System := { s with pool := pool, workers := s.workers.set 0 (.caught exception) }
  let s₂ : System := { s₁ with
    occurredException := some exception
    workers := s₁.workers.set 0 .stored }
  let s₃ : System := { s₂ with
    shutdownThreads := s₂.shutdownThreads + 1
    workers := s₂.workers.set 0 .finished }
  have h₁ : s.step file (.run 0 (.throwException exception) e) = some s₁ :=
    System.step_eq_some_iff.mpr ⟨hs.exitCode, .run hs.running hs.going hmem .throwException⟩
  have h₂ : s₁.step file (.store 0) = some s₂ :=
    System.step_eq_some_iff.mpr ⟨hs.exitCode, .store (List.getElem?_set_self hlt)⟩
  have h₃ : s₂.step file (.shutdown 0) = some s₃ :=
    System.step_eq_some_iff.mpr ⟨hs.exitCode, .shutdown (hset _ _ _ hlt)⟩
  have hfinished : s₃.workers[0]? = some .finished := hset _ _ _ (by simpa [s₁] using hlt)
  have h₄ : s₃.step file .exit = some { s₃ with
      exitCode := some (if s₃.occurredException.isSome then .failure else .success) } :=
    System.step_eq_some_iff.mpr ⟨hs.exitCode, .exit hfinished⟩
  exact ⟨_, (((Reachable.single hok.1 h₁).tail hok.2.1 h₂).tail hok.2.2.1 h₃).tail hok.2.2.2 h₄,
    rfl⟩

end Lift

end VeeamSignature.Signature2
