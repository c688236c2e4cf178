import VeeamSignature.Signature2.Main
import VeeamSignature.Signature2.Arrivals

/-!
# The threads of the second version

A worker leaves `run()` because the context is stopped or because a task has
thrown.  The context is stopped after a success callback or after an exception
has been stored, so that `main` reports success only if the writer did.
-/

namespace VeeamSignature.Signature2

open LabelledSystem

inductive Step (file : List Byte) (s : System) : Action → System → Prop
  | run {worker : ℕ} {task : Task} {environment : Environment} {pool : Pool} {signal : Signal}
      (running : s.workers[worker]? = some .running) (going : s.stopped = false)
      (mem : task ∈ s.pool.tasks)
      (transition : Transition file environment s.pool task pool signal) :
      Step file s (.run worker task environment) (({ s with pool := pool }).react worker signal)
  | store {worker : ℕ} {exception : Exception}
      (caught : s.workers[worker]? = some (.caught exception)) :
      Step file s (.store worker)
        { s with
          occurredException := some exception
          workers := s.workers.set worker .stored }
  | shutdown {worker : ℕ} (stored : s.workers[worker]? = some .stored) :
      Step file s (.shutdown worker)
        { s with
          shutdownThreads := s.shutdownThreads + 1
          workers := s.workers.set worker .finished }
  | stop (thread : 0 < s.shutdownThreads) :
      Step file s .stop { s with stopped := true, shutdownThreads := s.shutdownThreads - 1 }
  | leave {worker : ℕ} (running : s.workers[worker]? = some .running)
      (stopped : s.stopped = true) :
      Step file s (.leave worker) { s with workers := s.workers.set worker .finished }
  | exit (finished : s.workers[0]? = some .finished) :
      Step file s .exit
        { s with
          exitCode := some (if s.occurredException.isSome then .failure else .success) }

section System

variable {file : List Byte} {blocks : List Block} {s s' : System} {a : Action}
  {ok : Action → Prop}

theorem System.act_eq_some_iff : s.act file a = some s' ↔ Step file s a s' := by
  constructor
  · intro h
    cases a with
    | run worker task environment =>
        obtain ⟨⟨running, going⟩, h⟩ := Option.ite_none_right_eq_some.mp h
        obtain ⟨⟨pool, signal⟩, hpool, rfl⟩ := Option.map_eq_some_iff.mp h
        obtain ⟨hmem, htransition⟩ := Pool.step_eq_some_iff.mp hpool
        exact .run running going hmem htransition
    | store worker =>
        cases hworker : s.workers[worker]? with
        | none => simp [System.act, hworker] at h
        | some w =>
            cases w with
            | caught exception =>
                simp only [System.act, hworker] at h
                obtain rfl := Option.some.inj h
                exact .store hworker
            | running => simp [System.act, hworker] at h
            | stored => simp [System.act, hworker] at h
            | finished => simp [System.act, hworker] at h
    | shutdown worker =>
        obtain ⟨hstored, h⟩ := Option.ite_none_right_eq_some.mp h
        obtain rfl := Option.some.inj h
        exact .shutdown hstored
    | stop =>
        obtain ⟨hthread, h⟩ := Option.ite_none_right_eq_some.mp h
        obtain rfl := Option.some.inj h
        exact .stop hthread
    | leave worker =>
        obtain ⟨⟨running, stopped⟩, h⟩ := Option.ite_none_right_eq_some.mp h
        obtain rfl := Option.some.inj h
        exact .leave running stopped
    | exit =>
        obtain ⟨hfinished, h⟩ := Option.ite_none_right_eq_some.mp h
        obtain rfl := Option.some.inj h
        exact .exit hfinished
  · intro h
    cases h with
    | run running going mem transition =>
        simp [System.act, running, going, Pool.step_eq_some_iff.mpr ⟨mem, transition⟩]
    | store caught => simp [System.act, caught]
    | shutdown stored => simp [System.act, stored]
    | stop thread => simp [System.act, thread]
    | leave running stopped => simp [System.act, running, stopped]
    | exit finished => simp [System.act, finished]

theorem System.step_eq_some_iff :
    s.step file a = some s' ↔ s.exitCode = none ∧ Step file s a s' := by
  cases hexit : s.exitCode with
  | some code => simp [System.step, hexit]
  | none => simp [System.step, hexit, System.act_eq_some_iff]

@[simp] theorem System.react_pool (s : System) (worker : ℕ) (signal : Signal) :
    (s.react worker signal).pool = s.pool := by
  cases signal <;> rfl

theorem Step.pool (h : Step file s a s') :
    s'.pool = s.pool ∨ ∃ worker task environment, a = .run worker task environment ∧
      s.pool.next file (task, environment) = some s'.pool := by
  cases h with
  | run running going mem transition =>
      refine Or.inr ⟨_, _, _, rfl, ?_⟩
      rw [System.react_pool]
      exact Pool.next_eq_some_iff.mpr ⟨_, mem, transition⟩
  | store => exact Or.inl rfl
  | shutdown => exact Or.inl rfl
  | stop => exact Or.inl rfl
  | leave => exact Or.inl rfl
  | exit => exact Or.inl rfl

/-- A run of the threads is a run of the pool. -/
theorem System.pool_reachable {okTask : Task × Environment → Prop}
    (hok : ∀ worker task environment, ok (.run worker task environment) →
      okTask (task, environment))
    (h : Reachable (System.step file) ok (System.start blocks) s) :
    Reachable (Pool.next file) okTask (Pool.start blocks) s.pool := by
  apply h.project System.pool
  intro s a t ha hstep
  obtain ⟨-, hstep⟩ := System.step_eq_some_iff.mp hstep
  rcases hstep.pool with hsame | ⟨worker, task, environment, rfl, hnext⟩
  · exact Or.inl hsame
  · exact Or.inr ⟨_, hok worker task environment ha, hnext⟩

/-! ## Why the context is stopped -/

/-- The writer has called its success callback. -/
def Succeeded (p : Pool) : Prop := .success ∈ p.writer.callbacks

theorem Transition.succeeded {p p' : Pool} {t : Task} {e : Environment} {signal : Signal}
    (h : Transition file e p t p' signal) (hp : Succeeded p) : Succeeded p' := by
  rcases h.writer with hsame | ⟨segment, answer, -, hreceived, -⟩
  · rwa [Succeeded, hsame]
  · rw [Succeeded, hreceived.callbacks]
    exact List.mem_append_left _ hp

/-- The success callback is what starts a thread that stops the context. -/
theorem Transition.succeeded_of_shutdown {p p' : Pool} {t : Task} {e : Environment}
    (h : Transition file e p t p' .shutdown) : Succeeded p' := by
  cases h with
  | wrote hreceive =>
      rw [Succeeded, (Writer.received_of_eq hreceive).callbacks]
      simp

theorem Transition.shutdown_of_succeeded {p p' : Pool} {t : Task} {e : Environment}
    {signal : Signal} (h : Transition file e p t p' signal) (hp' : Succeeded p') :
    Succeeded p ∨ signal = .shutdown := by
  rcases h.writer with hsame | ⟨segment, answer, -, hreceived, hanswer⟩
  · rw [Succeeded, hsame] at hp'
    exact Or.inl hp'
  · rw [Succeeded, hreceived.callbacks] at hp'
    rcases List.mem_append.mp hp' with hp' | hp'
    · exact Or.inl hp'
    · exact Or.inr (hanswer.mp (Option.mem_toList.mp hp'))

theorem succeeded_of_called {okTask : Task × Environment → Prop} {p : Pool}
    (hids : (blocks.map Block.blockId).Nodup) (hok : ∀ a, okTask a → a.2.stream = .complete)
    (h : Reachable (Pool.next file) okTask (Pool.start blocks) p)
    (hcallbacks : p.writer.callbacks ≠ []) : Succeeded p := by
  revert hcallbacks
  apply Pool.invariant (I := fun p => p.writer.callbacks ≠ [] → Succeeded p) _ _ h
  · intro p t e p' signal hreachable hcalled ha hmem htransition hcallbacks
    by_cases hnone : p.writer.callbacks = []
    · obtain ⟨hopened, -⟩ := (WriterInvariant.reachable hids hreachable).untouched hnone
      rcases htransition.writer with hsame | ⟨segment, answer, -, hreceived, -⟩
      · rw [hsame] at hcallbacks
        exact absurd hnone hcallbacks
      · rcases hreceived.of_complete hopened (hok _ ha) with ⟨hcounted, -⟩ | ⟨hwrote, -⟩
        · rw [hcounted] at hcallbacks
          exact absurd hnone hcallbacks
        · rw [Succeeded, hwrote]
          simp
    · exact htransition.succeeded (hcalled hnone)
  · intro hcallbacks
    exact absurd rfl hcallbacks

/-- The context is stopped, and a worker done, after a success callback or an
exception that has been stored; and a success callback leads to a stop. -/
structure ThreadsInvariant (s : System) : Prop where
  cause : s.stopped = true ∨ 0 < s.shutdownThreads → Succeeded s.pool ∨ s.occurredException.isSome
  stored : ∀ w : ℕ, s.workers[w]? = some Worker.stored → s.occurredException.isSome
  finished : ∀ w : ℕ, s.workers[w]? = some Worker.finished →
    Succeeded s.pool ∨ s.occurredException.isSome
  success : s.exitCode = some .success → Succeeded s.pool
  effect : Succeeded s.pool → s.stopped = true ∨ 0 < s.shutdownThreads

theorem worker_of_set {workers : List Worker} {i j : ℕ} {x y : Worker}
    (h : (workers.set i x)[j]? = some y) : x = y ∨ workers[j]? = some y := by
  by_cases hij : i = j
  · subst hij
    obtain ⟨hlt, -⟩ := List.getElem?_eq_some_iff.mp h
    rw [List.length_set] at hlt
    rw [List.getElem?_set_self hlt] at h
    exact Or.inl (Option.some.inj h)
  · rw [List.getElem?_set_ne hij] at h
    exact Or.inr h

theorem ThreadsInvariant.step (hs : ThreadsInvariant s) (h : Step file s a s') :
    ThreadsInvariant s' := by
  cases h with
  | @run worker task environment pool signal running going mem transition =>
      have hkeep : Succeeded s.pool ∨ s.occurredException.isSome →
          Succeeded pool ∨ s.occurredException.isSome := Or.imp_left transition.succeeded
      have heffect : signal ≠ .shutdown → Succeeded pool →
          s.stopped = true ∨ 0 < s.shutdownThreads := by
        intro hsignal hpool
        exact hs.effect ((transition.shutdown_of_succeeded hpool).resolve_right hsignal)
      cases signal with
      | quiet =>
          exact ⟨fun h => hkeep (hs.cause h), hs.stored, fun w hw => hkeep (hs.finished w hw),
            fun h => transition.succeeded (hs.success h), heffect (by simp)⟩
      | shutdown =>
          have hpool := transition.succeeded_of_shutdown
          exact ⟨fun _ => Or.inl hpool, hs.stored, fun _ _ => Or.inl hpool, fun _ => hpool,
            fun _ => Or.inr (Nat.succ_pos _)⟩
      | raise exception =>
          refine ⟨fun h => hkeep (hs.cause h), ?_, ?_, fun h => transition.succeeded (hs.success h),
            heffect (by simp)⟩
          · intro w hw
            rcases worker_of_set hw with heq | hw
            · cases heq
            · exact hs.stored w hw
          · intro w hw
            rcases worker_of_set hw with heq | hw
            · cases heq
            · exact hkeep (hs.finished w hw)
  | store caught =>
      exact ⟨fun _ => Or.inr rfl, fun _ _ => rfl, fun _ _ => Or.inr rfl, hs.success, hs.effect⟩
  | shutdown stored =>
      have hsome := hs.stored _ stored
      exact ⟨fun _ => Or.inr hsome, fun _ _ => hsome, fun _ _ => Or.inr hsome, hs.success,
        fun _ => Or.inr (Nat.succ_pos _)⟩
  | stop thread =>
      exact ⟨fun _ => hs.cause (Or.inr thread), hs.stored, hs.finished, hs.success,
        fun _ => Or.inl rfl⟩
  | leave running stopped =>
      refine ⟨hs.cause, ?_, fun _ _ => hs.cause (Or.inl stopped), hs.success, hs.effect⟩
      intro w hw
      rcases worker_of_set hw with heq | hw
      · cases heq
      · exact hs.stored w hw
  | exit finished =>
      refine ⟨hs.cause, hs.stored, hs.finished, ?_, hs.effect⟩
      intro hcode
      rcases hs.finished 0 finished with hpool | hsome
      · exact hpool
      · simp [hsome] at hcode

theorem ThreadsInvariant.start (blocks : List Block) :
    ThreadsInvariant (System.start blocks) := by
  have hworker : ∀ (w : ℕ) (x : Worker), (System.start blocks).workers[w]? = some x →
      x = .running := by
    intro w x hx
    exact List.eq_of_mem_replicate (List.mem_of_getElem? hx)
  refine ⟨?_, ?_, ?_, ?_, ?_⟩
  · rintro (h | h)
    · cases h
    · cases h
  · intro w hw
    cases hworker w _ hw
  · intro w hw
    cases hworker w _ hw
  · intro h
    cases h
  · intro h
    cases h

theorem ThreadsInvariant.reachable
    (h : Reachable (System.step file) ok (System.start blocks) s) : ThreadsInvariant s := by
  refine h.invariant ?_ (.start blocks)
  intro s a s' hs _ hstep
  exact hs.step (System.step_eq_some_iff.mp hstep).2

end System

end VeeamSignature.Signature2
