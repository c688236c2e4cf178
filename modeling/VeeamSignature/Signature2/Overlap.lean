import VeeamSignature.Signature2.Executor

/-!
# The first version against overlapping handlers

Where the second version refines the first task by task, it does so with
handlers that overlap: while the calls succeed every execution ends, with
success, and has written what the first version writes.
-/

namespace VeeamSignature.Signature2

open BlockReader LabelledSystem

def Move.Complete : Move → Prop
  | .commit _ environment => environment = complete
  | _ => True

section Exit

variable {file : List Byte} {blocks : List Block} {x x' : Executor} {a : Move} {ok : Move → Prop}
  {workers : List Stage} {i : ℕ} {stage stage' : Stage}

/-- Some handler is about to start a thread that stops the context. -/
def Ending (workers : List Stage) : Prop :=
  ∃ (w : ℕ) (t : Task) (posts : List Task), workers[w]? = some (.posting t posts .shutdown)

theorem Ending.set (h : Ending workers) (hstage : workers[i]? = some stage)
    (hne : ∀ t posts, stage ≠ .posting t posts .shutdown) : Ending (workers.set i stage') := by
  obtain ⟨w, t, posts, hw⟩ := h
  refine ⟨w, t, posts, ?_⟩
  have hiw : i ≠ w := by
    rintro rfl
    exact hne t posts (Option.some.inj (hstage.symm.trans hw))
  rwa [List.getElem?_set_ne hiw]

theorem Ending.of_set (h : Ending (workers.set i stage'))
    (hne : ∀ t posts, stage' ≠ .posting t posts .shutdown) : Ending workers := by
  obtain ⟨w, t, posts, hw⟩ := h
  rcases ListSum.component_of_set hw with ⟨-, heq⟩ | ⟨-, hw⟩
  · exact absurd heq.symm (hne t posts)
  · exact ⟨w, t, posts, hw⟩

/-- Why a worker leaves `run()`, and what follows from success. -/
structure ExecutorInvariant (x : Executor) : Prop where
  ending : Ending x.workers → Succeeded x.memory
  cause : x.stopped = true ∨ 0 < x.shutdownThreads →
    Succeeded x.memory ∨ x.occurredException.isSome
  stored : ∀ w : ℕ, x.workers[w]? = some .stored → x.occurredException.isSome
  finished : ∀ w : ℕ, x.workers[w]? = some .finished →
    Succeeded x.memory ∨ x.occurredException.isSome
  success : x.exitCode = some .success → Succeeded x.memory
  effect : Succeeded x.memory → x.stopped = true ∨ 0 < x.shutdownThreads ∨ Ending x.workers

theorem ExecutorInvariant.step (hu : Undisputed x) (hx : ExecutorInvariant x)
    (h : Advance file x a x') : ExecutorInvariant x' := by
  have hstored : ∀ {i : ℕ} {stage : Stage}, stage ≠ .stored → ∀ w : ℕ,
      (x.workers.set i stage)[w]? = some .stored → x.occurredException.isSome := by
    intro i stage hne w hw
    rcases ListSum.component_of_set hw with ⟨-, heq⟩ | ⟨-, hw⟩
    · exact absurd heq.symm hne
    · exact hx.stored w hw
  have hfinished : ∀ {i : ℕ} {stage : Stage}, stage ≠ .finished → ∀ w : ℕ,
      (x.workers.set i stage)[w]? = some .finished →
        Succeeded x.memory ∨ x.occurredException.isSome := by
    intro i stage hne w hw
    rcases ListSum.component_of_set hw with ⟨-, heq⟩ | ⟨-, hw⟩
    · exact absurd heq.symm hne
    · exact hx.finished w hw
  have heffect : ∀ {i : ℕ} {stage stage' : Stage}, x.workers[i]? = some stage →
      (∀ t posts, stage ≠ .posting t posts .shutdown) → Succeeded x.memory →
        x.stopped = true ∨ 0 < x.shutdownThreads ∨ Ending (x.workers.set i stage') :=
    fun hstage hne hp => (hx.effect hp).imp id (Or.imp id fun hend => hend.set hstage hne)
  cases h with
  | enter hidle hmem hfree =>
      exact ⟨fun hend => hx.ending (hend.of_set (by simp)), hx.cause, hstored (by simp),
        hfinished (by simp), hx.success, heffect hidle (by simp)⟩
  | load hentered hview =>
      exact ⟨fun hend => hx.ending (hend.of_set (by simp)), hx.cause, hstored (by simp),
        hfinished (by simp), hx.success, heffect hentered (by simp)⟩
  | @commit worker environment task v update posts signal hloaded hhandle =>
      obtain ⟨-, htransition⟩ := Task.handle_transition (hu.current worker task v hloaded) hhandle
      have hkeep : Succeeded x.memory → Succeeded (x.memory.update update) :=
        htransition.succeeded
      refine ⟨?_, fun h => (hx.cause h).imp_left hkeep, hstored (by simp),
        fun w hw => (hfinished (by simp) w hw).imp_left hkeep, fun h => hkeep (hx.success h), ?_⟩
      · rintro ⟨w, t, posts', hw⟩
        rcases ListSum.component_of_set hw with ⟨-, heq⟩ | ⟨-, hw⟩
        · obtain ⟨-, -, rfl⟩ := Stage.posting.inj heq
          exact htransition.succeeded_of_shutdown
        · exact hkeep (hx.ending ⟨w, t, posts', hw⟩)
      · intro hp
        rcases htransition.shutdown_of_succeeded hp with hp | rfl
        · exact heffect hloaded (by simp) hp
        · obtain ⟨hlt, -⟩ := List.getElem?_eq_some_iff.mp hloaded
          exact .inr (.inr ⟨worker, task, posts, List.getElem?_set_self hlt⟩)
  | @post worker task post posts signal hposting =>
      obtain ⟨hlt, -⟩ := List.getElem?_eq_some_iff.mp hposting
      refine ⟨?_, hx.cause, hstored (by simp), hfinished (by simp), hx.success, ?_⟩
      · rintro ⟨w, t, posts', hw⟩
        rcases ListSum.component_of_set hw with ⟨rfl, heq⟩ | ⟨-, hw⟩
        · obtain ⟨rfl, rfl, rfl⟩ := Stage.posting.inj heq
          exact hx.ending ⟨worker, t, post :: posts', hposting⟩
        · exact hx.ending ⟨w, t, posts', hw⟩
      · intro hp
        cases signal with
        | shutdown => exact .inr (.inr ⟨worker, task, posts, List.getElem?_set_self hlt⟩)
        | quiet => exact heffect hposting (by simp) hp
        | raise exception => exact heffect hposting (by simp) hp
  | quiet hposting =>
      exact ⟨fun hend => hx.ending (hend.of_set (by simp)), hx.cause, hstored (by simp),
        hfinished (by simp), hx.success, heffect hposting (by simp)⟩
  | @success worker task hposting =>
      have hp : Succeeded x.memory := hx.ending ⟨worker, task, [], hposting⟩
      exact ⟨fun _ => hp, fun _ => .inl hp, hstored (by simp), hfinished (by simp), hx.success,
        fun _ => .inr (.inl (Nat.succ_pos _))⟩
  | raise hposting =>
      exact ⟨fun hend => hx.ending (hend.of_set (by simp)), hx.cause, hstored (by simp),
        hfinished (by simp), hx.success, heffect hposting (by simp)⟩
  | store hcaught =>
      exact ⟨fun hend => hx.ending (hend.of_set (by simp)), fun _ => .inr rfl, fun _ _ => rfl,
        fun _ _ => .inr rfl, hx.success, heffect hcaught (by simp)⟩
  | shutdown hstored' =>
      have hsome := hx.stored _ hstored'
      exact ⟨fun hend => hx.ending (hend.of_set (by simp)), fun _ => .inr hsome,
        hstored (by simp), fun _ _ => .inr hsome, hx.success,
        fun _ => .inr (.inl (Nat.succ_pos _))⟩
  | stop hthread =>
      exact ⟨hx.ending, fun _ => hx.cause (.inr hthread), hx.stored, hx.finished, hx.success,
        fun _ => .inl rfl⟩
  | leave hidle hstopped =>
      exact ⟨fun hend => hx.ending (hend.of_set (by simp)), hx.cause, hstored (by simp),
        fun _ _ => hx.cause (.inl hstopped), hx.success, heffect hidle (by simp)⟩
  | exit hfinished' =>
      refine ⟨hx.ending, hx.cause, hx.stored, hx.finished, ?_, hx.effect⟩
      intro hcode
      rcases hx.finished 0 hfinished' with hp | hsome
      · exact hp
      · simp [hsome] at hcode

theorem ExecutorInvariant.start (blocks : List Block) :
    ExecutorInvariant (Executor.start blocks) := by
  have hidle : ∀ {w : ℕ} {stage : Stage}, (Executor.start blocks).workers[w]? = some stage →
      stage = .idle := fun h => List.eq_of_mem_replicate (List.mem_of_getElem? h)
  refine ⟨?_, ?_, ?_, ?_, ?_, ?_⟩
  · rintro ⟨w, t, posts, hw⟩
    cases hidle hw
  · rintro (h | h)
    · cases h
    · cases h
  · intro w hw
    cases hidle hw
  · intro w hw
    cases hidle hw
  · intro h
    cases h
  · intro h
    cases h

theorem ExecutorInvariant.reachable
    (h : Reachable (Executor.step file) ok (Executor.start blocks) x) : ExecutorInvariant x := by
  refine h.invariant_along ?_ (.start blocks)
  intro x a x' hreachable hx _ hstep
  have hboth : Undisputed x ∧
      Reachable (Pool.next file) (fun _ => True) (Pool.start blocks) x.pool :=
    Executor.pool_reachable (fun _ _ _ _ => trivial) hreachable
  exact hx.step hboth.1 (Executor.advance_of_step hstep)

end Exit

/-! ## Every execution ends -/

section Progress

variable {file : List Byte} {blocks : List Block} {x x' : Executor} {a : Move} {ok : Move → Prop}

def Signal.weight : Signal → ℕ
  | .shutdown => 1
  | _ => 0

/-- How many steps a worker can still take before it enters the next handler. -/
def Stage.weight : Stage → ℕ
  | .idle => 4
  | .entered _ => 3
  | .loaded _ _ => 2
  | .posting _ posts signal => 5 + posts.length + signal.weight
  | .caught _ => 3
  | .stored => 2
  | .finished => 0

def Executor.measure (x : Executor) : ℕ :=
  8 * x.pool.measure + (x.workers.map Stage.weight).sum + x.shutdownThreads +
    if x.exitCode.isSome then 0 else 1

theorem Advance.measure_lt (hx : Undisputed x) (hreaders : ReadersInvariant blocks x.pool)
    (hexit : x.exitCode = none) (h : Advance file x a x') : x'.measure < x.measure := by
  have hpool : x'.pool.measure ≤ x.pool.measure := by
    rcases h.pool hx with hsame | ⟨worker, task, environment, -, hnext⟩
    · rw [hsame]
    · obtain ⟨signal, hmem, htransition⟩ := Pool.next_eq_some_iff.mp hnext
      exact (htransition.measure_lt hmem hreaders).le
  cases h with
  | @enter worker task hidle hmem hfree =>
      have hset := ListSum.sum_set Stage.weight hidle (.entered task)
      simp only [Stage.weight] at hset
      dsimp only at hpool
      simp only [Executor.measure]
      omega
  | @load worker task v hentered hview =>
      have hset := ListSum.sum_set Stage.weight hentered (.loaded task v)
      simp only [Stage.weight] at hset
      simp only [Executor.measure]
      omega
  | @commit worker environment task v update posts signal hloaded hhandle =>
      have hset := ListSum.sum_set Stage.weight hloaded (.posting task posts signal)
      have hlength := Task.length_posts_le hhandle
      obtain ⟨_, hmem, htransition⟩ := Pool.next_eq_some_iff.mp (hx.commit hloaded hhandle)
      have hlt := htransition.measure_lt hmem hreaders
      have hsignal : signal.weight ≤ 1 := by cases signal <;> simp [Signal.weight]
      simp only [Stage.weight] at hset
      simp only [Executor.measure]
      omega
  | @post worker task post posts signal hposting =>
      have hset := ListSum.sum_set Stage.weight hposting (.posting task posts signal)
      simp only [Stage.weight, List.length_cons] at hset
      simp only [Executor.measure]
      omega
  | @quiet worker task hposting =>
      have hset := ListSum.sum_set Stage.weight hposting .idle
      simp only [Stage.weight, List.length_nil] at hset
      simp only [Executor.measure]
      omega
  | @success worker task hposting =>
      have hset := ListSum.sum_set Stage.weight hposting .idle
      simp only [Stage.weight, List.length_nil, Signal.weight] at hset
      simp only [Executor.measure]
      omega
  | @raise worker task exception hposting =>
      have hset := ListSum.sum_set Stage.weight hposting (.caught exception)
      simp only [Stage.weight, List.length_nil] at hset
      simp only [Executor.measure]
      omega
  | @store worker exception hcaught =>
      have hset := ListSum.sum_set Stage.weight hcaught .stored
      simp only [Stage.weight] at hset
      simp only [Executor.measure]
      omega
  | @shutdown worker hstored =>
      have hset := ListSum.sum_set Stage.weight hstored .finished
      simp only [Stage.weight] at hset
      simp only [Executor.measure]
      omega
  | stop hthread =>
      simp only [Executor.measure]
      omega
  | @leave worker hidle hstopped =>
      have hset := ListSum.sum_set Stage.weight hidle .finished
      simp only [Stage.weight] at hset
      simp only [Executor.measure]
      omega
  | exit hfinished =>
      simp only [Executor.measure, hexit, Option.isSome_some, Option.isSome_none, if_true,
        Bool.false_eq_true, if_false]
      omega

theorem Executor.run_length_le {xs : List Move}
    (h : Run (Executor.step file) ok (Executor.start blocks) xs x) :
    xs.length ≤ (Executor.start blocks).measure := by
  have hstart : Undisputed (Executor.start blocks) ∧
      Reachable (Pool.next file) (fun _ => True) (Pool.start blocks) (Executor.start blocks).pool :=
    ⟨.start blocks, Executor.pool_start blocks ▸ .refl _⟩
  have hlength := h.length_le (I := fun x => Undisputed x ∧
    Reachable (Pool.next file) (fun _ => True) (Pool.start blocks) x.pool) ?_ Executor.measure ?_
    hstart
  · omega
  · exact fun x a x' hx ha hstep => Executor.pool_step (fun _ _ _ _ => trivial) hx ha hstep
  · rintro x a x' ⟨hx, hpool⟩ - hstep
    obtain ⟨hexit, -⟩ := Option.ite_none_left_eq_some.mp hstep
    exact (Executor.advance_of_step hstep).measure_lt hx (.reachable hpool) (by simpa using hexit)

theorem ReadersInvariant.view_isSome {p : Pool} (hp : ReadersInvariant blocks p) {t : Task}
    (hmem : t ∈ p.tasks) : (p.view t.lane).isSome := by
  cases t with
  | doRead k =>
      obtain ⟨b, r, -, hr⟩ := hp.exists_reader hmem rfl
      simp [Task.lane, Pool.view, hr]
  | read k operation =>
      obtain ⟨b, r, -, hr⟩ := hp.exists_reader hmem rfl
      simp [Task.lane, Pool.view, hr]
  | hash segment => rfl
  | write segment => rfl
  | throwException exception => rfl

theorem Task.handle_isSome {p : Pool} {t : Task} {v : View} (e : Environment)
    (hview : p.view t.lane = some v)
    (hwellFormed : ∀ segment, t = .hash segment → segment.WellFormed) :
    (t.handle file e v).isSome := by
  cases t with
  | doRead k =>
      obtain ⟨r, hr, rfl⟩ := Option.map_eq_some_iff.mp hview
      rfl
  | read k operation =>
      obtain ⟨r, hr, rfl⟩ := Option.map_eq_some_iff.mp hview
      cases hread : r.perform file operation e.read with
      | mk r' result =>
          cases result with
          | error error => simp [Task.handle, hread]
          | ok segment => simp [Task.handle, hread]
  | hash segment =>
      obtain rfl := Option.some.inj hview
      have hhash := segmentHasher_eq (hwellFormed segment rfl)
      simp [Task.handle, hhash]
  | write segment =>
      obtain rfl := Option.some.inj hview
      cases hreceive : p.writer.receive segment e.stream with
      | mk w answer =>
          cases answer with
          | none => simp [Task.handle, hreceive]
          | some result =>
              cases result with
              | success => simp [Task.handle, hreceive]
              | error error => simp [Task.handle, hreceive]
  | throwException exception =>
      obtain rfl := Option.some.inj hview
      rfl

/-- A worker in a handler or in its `catch` clause can go on. -/
theorem Executor.exists_worker_step (hexit : x.exitCode = none) (hp : PoolInvariant blocks x.pool)
    (hx : Undisputed x) {w : ℕ} {stage : Stage} (hw : x.workers[w]? = some stage)
    (hidle : stage ≠ .idle) (hfinished : stage ≠ .finished) :
    ∃ a, a.Complete ∧ (x.step file a).isSome := by
  cases stage with
  | idle => exact absurd rfl hidle
  | finished => exact absurd rfl hfinished
  | entered t =>
      have hmem : t ∈ x.pool.tasks := Executor.mem_pool hw (Multiset.mem_singleton_self t)
      obtain ⟨v, hv⟩ := Option.isSome_iff_exists.mp (hp.readers.view_isSome hmem)
      have hview : x.memory.view t.lane = some v := (Pool.view_tasks _ _ _).symm.trans hv
      exact ⟨.load w, trivial, by simp [Executor.step, hexit, Executor.act, hw, hview]⟩
  | loaded t v =>
      have hmem : t ∈ x.pool.tasks := Executor.mem_pool hw (Multiset.mem_singleton_self t)
      have hwellFormed : ∀ segment, t = .hash segment → segment.WellFormed := by
        rintro segment rfl
        exact hp.conservation.wellFormed segment hmem
      have hsome : (t.handle file complete v).isSome :=
        Task.handle_isSome complete (hx.current w t v hw) hwellFormed
      obtain ⟨⟨u, posts, signal⟩, hhandle⟩ := Option.isSome_iff_exists.mp hsome
      exact ⟨.commit w complete, rfl, by simp [Executor.step, hexit, Executor.act, hw, hhandle]⟩
  | posting t posts signal =>
      cases posts with
      | cons post posts =>
          exact ⟨.post w, trivial, by simp [Executor.step, hexit, Executor.act, hw]⟩
      | nil =>
          refine ⟨.finish w, trivial, ?_⟩
          cases signal <;> simp [Executor.step, hexit, Executor.act, hw]
  | caught exception =>
      exact ⟨.store w, trivial, by simp [Executor.step, hexit, Executor.act, hw]⟩
  | stored => exact ⟨.shutdown w, trivial, by simp [Executor.step, hexit, Executor.act, hw]⟩

theorem Executor.length_workers
    (h : Reachable (Executor.step file) ok (Executor.start blocks) x) :
    x.workers.length = blocks.length := by
  refine h.invariant (I := fun x => x.workers.length = blocks.length) ?_ List.length_replicate
  intro x a x' hlength _ hstep
  cases Executor.advance_of_step hstep with
  | stop => exact hlength
  | exit => exact hlength
  | enter => exact List.length_set.trans hlength
  | load => exact List.length_set.trans hlength
  | commit => exact List.length_set.trans hlength
  | post => exact List.length_set.trans hlength
  | quiet => exact List.length_set.trans hlength
  | success => exact List.length_set.trans hlength
  | raise => exact List.length_set.trans hlength
  | store => exact List.length_set.trans hlength
  | shutdown => exact List.length_set.trans hlength
  | leave => exact List.length_set.trans hlength

/-- Between two handlers a worker can leave, exit or enter the next handler. -/
theorem Executor.exists_idle_step (hexit : x.exitCode = none)
    (hresting : ∀ stage ∈ x.workers, stage = .idle ∨ stage = .finished)
    (hfirst : 0 < x.workers.length)
    (hend : (∀ t, t ∉ x.memory.tasks) → x.stopped = true ∨ 0 < x.shutdownThreads) :
    ∃ a, a.Complete ∧ (x.step file a).isSome := by
  have hworker : x.workers[0]? = some x.workers[0] := List.getElem?_eq_getElem hfirst
  have hstop : 0 < x.shutdownThreads → ∃ a, a.Complete ∧ (x.step file a).isSome := fun hthread =>
    ⟨.stop, trivial, by simp [Executor.step, hexit, Executor.act, hthread]⟩
  rcases hresting _ (List.getElem_mem hfirst) with hidle | hfinished
  · rw [hidle] at hworker
    cases hstopped : x.stopped with
    | true =>
        exact ⟨.leave 0, trivial, by simp [Executor.step, hexit, Executor.act, hworker, hstopped]⟩
    | false =>
        by_cases hpending : ∃ t, t ∈ x.memory.tasks
        · obtain ⟨t, hmem⟩ := hpending
          have hfree : x.free t = true := by
            refine List.all_eq_true.mpr fun stage hstage => ?_
            rcases hresting stage hstage with rfl | rfl <;> rfl
          exact ⟨.enter 0 t, trivial,
            by simp [Executor.step, hexit, Executor.act, hworker, hstopped, hmem, hfree]⟩
        · rcases hend fun t ht => hpending ⟨t, ht⟩ with hstop' | hthread
          · rw [hstopped] at hstop'
            cases hstop'
          · exact hstop hthread
  · rw [hfinished] at hworker
    exact ⟨.exit, trivial, by simp [Executor.step, hexit, Executor.act, hworker]⟩

/-- While the calls succeed, so do those of the pool. -/
theorem Executor.pool_complete
    (h : Reachable (Executor.step file) Move.Complete (Executor.start blocks) x) :
    Undisputed x ∧
      Reachable (Pool.next file) (fun a => a.2 = complete) (Pool.start blocks) x.pool :=
  Executor.pool_reachable (fun _ _ _ ha => ha) h

theorem Executor.exists_step (hne : blocks ≠ []) (hids : (blocks.map Block.blockId).Nodup)
    (h : Reachable (Executor.step file) Move.Complete (Executor.start blocks) x)
    (hexit : x.exitCode = none) : ∃ a, a.Complete ∧ (x.step file a).isSome := by
  obtain ⟨hx, hpool⟩ := Executor.pool_complete h
  have hp := PoolInvariant.reachable hpool
  by_cases hbusy : ∃ stage ∈ x.workers, stage ≠ .idle ∧ stage ≠ .finished
  · obtain ⟨stage, hmem, hidle, hfinished⟩ := hbusy
    obtain ⟨w, hw⟩ := List.mem_iff_getElem?.mp hmem
    exact Executor.exists_worker_step hexit hp hx hw hidle hfinished
  · have hresting : ∀ stage ∈ x.workers, stage = .idle ∨ stage = .finished := by
      intro stage hmem
      by_contra hnot
      exact hbusy ⟨stage, hmem, not_or.mp hnot⟩
    have hlength : 0 < x.workers.length := by
      rw [Executor.length_workers h]
      exact List.length_pos_of_ne_nil hne
    refine Executor.exists_idle_step hexit hresting hlength fun hempty => ?_
    have hnone : (x.workers.map Stage.pending).sum = 0 := by
      refine List.sum_eq_zero fun tasks htasks => ?_
      obtain ⟨stage, hmem, rfl⟩ := List.mem_map.mp htasks
      rcases hresting stage hmem with rfl | rfl <;> rfl
    have hidle : Idle x.pool := by
      intro t ht
      rw [Executor.pool, hnone, Multiset.add_zero] at ht
      exact absurd ht (hempty t)
    have hsucceed : Reachable (Pool.next file) ReadsSucceed (Pool.start blocks) x.pool :=
      hpool.mono fun a ha error => by simp [ha, complete]
    have hcallbacks := callbacks_of_idle hne hp (.reachable hids hpool) hidle
      (failures_eq_nil hsucceed)
    have hsucceeded : Succeeded x.pool :=
      succeeded_of_called hids (fun a ha => congrArg Environment.stream ha) hpool hcallbacks
    rcases (ExecutorInvariant.reachable h).effect hsucceeded with hstop | hthread | hending
    · exact .inl hstop
    · exact .inr hthread
    · obtain ⟨w, t, posts, hw⟩ := hending
      rcases hresting _ (List.mem_of_getElem? hw) with heq | heq
      · cases heq
      · cases heq

end Progress

/-! ## What is written -/

section Written

variable {file : List Byte} {blocks : List Block} {x x' : Executor} {a : Move}

/-- The exception that the handler throws or has thrown. -/
def Stage.exception? : Stage → Option Exception
  | .posting _ _ (.raise exception) => some exception
  | .caught exception => some exception
  | _ => none

/-- No exception is on its way. -/
structure Unharmed (x : Executor) : Prop where
  workers : ∀ stage ∈ x.workers, stage.exception? = none
  fine : x.occurredException = none
  exitCode : x.exitCode ≠ some .failure

theorem Unharmed.set (hx : Unharmed x) {i : ℕ} {stage : Stage} (hstage : stage.exception? = none) :
    ∀ stage' ∈ x.workers.set i stage, stage'.exception? = none := by
  intro stage' hmem
  rcases List.mem_or_eq_of_mem_set hmem with hmem | rfl
  · exact hx.workers stage' hmem
  · exact hstage

theorem Transition.task_of_raise {p p' : Pool} {t : Task} {e : Environment} {exception : Exception}
    (h : Transition file e p t p' (.raise exception)) : t = .throwException exception := by
  cases h
  rfl

theorem Unharmed.step (hu : Undisputed x) (hx : Unharmed x)
    (hnone : ∀ exception, .throwException exception ∉ x.pool.tasks)
    (h : Advance file x a x') : Unharmed x' := by
  cases h with
  | enter hidle => exact ⟨hx.set rfl, hx.fine, hx.exitCode⟩
  | load hentered => exact ⟨hx.set rfl, hx.fine, hx.exitCode⟩
  | @commit worker environment task v update posts signal hloaded hhandle =>
      refine ⟨hx.set ?_, hx.fine, hx.exitCode⟩
      cases signal with
      | quiet => rfl
      | shutdown => rfl
      | raise exception =>
          obtain ⟨-, htransition⟩ :=
            Task.handle_transition (hu.current worker task v hloaded) hhandle
          obtain rfl := htransition.task_of_raise
          exact absurd (Executor.mem_pool hloaded (Multiset.mem_singleton_self _)) (hnone exception)
  | @post worker task post posts signal hposting =>
      refine ⟨hx.set ?_, hx.fine, hx.exitCode⟩
      have hold := hx.workers _ (List.mem_of_getElem? hposting)
      cases signal with
      | quiet => rfl
      | shutdown => rfl
      | raise exception => cases hold
  | quiet hposting => exact ⟨hx.set rfl, hx.fine, hx.exitCode⟩
  | success hposting => exact ⟨hx.set rfl, hx.fine, hx.exitCode⟩
  | raise hposting => cases hx.workers _ (List.mem_of_getElem? hposting)
  | store hcaught => cases hx.workers _ (List.mem_of_getElem? hcaught)
  | shutdown hstored => exact ⟨hx.set rfl, hx.fine, hx.exitCode⟩
  | stop hthread => exact ⟨hx.workers, hx.fine, hx.exitCode⟩
  | leave hidle hstopped => exact ⟨hx.set rfl, hx.fine, hx.exitCode⟩
  | exit hfinished => exact ⟨hx.workers, hx.fine, by simp [hx.fine]⟩

theorem Unharmed.reachable (hids : (blocks.map Block.blockId).Nodup)
    (hfit : chunkSum (allHeaders blocks) < SizeT.modulus) (hcounts : EveryReadCounts blocks)
    (h : Reachable (Executor.step file) Move.Complete (Executor.start blocks) x) :
    Unharmed x := by
  refine h.invariant_along ?_ ⟨?_, rfl, by simp [Executor.start]⟩
  · intro x a x' hreachable hx _ hstep
    obtain ⟨hu, hpool⟩ := Executor.pool_complete hreachable
    exact hx.step hu (no_exception hids hfit hcounts hpool) (Executor.advance_of_step hstep)
  · intro stage hmem
    obtain rfl := List.eq_of_mem_replicate hmem
    rfl

/-- While the calls succeed, the handlers may overlap in any way: `main` comes to
its decision, which is success, and the writer has written what the first version
writes.  The end of the process, with workers still in `run`, is outside. -/
theorem executor_refines_first {F : FileContent} {n : ℕ} (hn : 1 ≤ n) {c : ChunkSize}
    (hblocks : blockFileBlocks F.size n c = some blocks) (hagree : Agreeable F blocks) :
    (∃ bound, ∀ xs x, Run (Executor.step F.bytes) Move.Complete (Executor.start blocks) xs x →
      xs.length ≤ bound) ∧
    (∀ x, Reachable (Executor.step F.bytes) Move.Complete (Executor.start blocks) x →
      x.exitCode = none → ∃ a, a.Complete ∧ (x.step F.bytes a).isSome) ∧
    ∀ x code, Reachable (Executor.step F.bytes) Move.Complete (Executor.start blocks) x →
      x.exitCode = some code →
        code = .success ∧ Signature.run F n c = .success x.memory.writer.written := by
  obtain ⟨hids, hfit⟩ := blockFileBlocks_fit hn hblocks
  have hindexed : Indexed blocks := fun k b hb => layout_blockId hn hblocks hb
  refine ⟨⟨_, fun xs x => Executor.run_length_le⟩, ?_, ?_⟩
  · intro x h hexit
    exact Executor.exists_step (layout_ne_nil hn hblocks) hids h hexit
  · intro x code h hexit
    have hsuccess : code = .success := by
      cases code with
      | success => rfl
      | failure => exact absurd hexit (Unharmed.reachable hids hfit hagree.counts h).exitCode
    subst hsuccess
    refine ⟨rfl, ?_⟩
    obtain ⟨-, hpool⟩ := Executor.pool_complete h
    have hsucceeded : Succeeded x.pool := (ExecutorInvariant.reachable h).success hexit
    have hwritten := written_eq hindexed hfit hagree.counts hagree.inside hpool
      (List.ne_nil_of_mem hsucceeded)
    rw [run_inside hagree.nonempty hblocks hagree.inside,
      (records_eq_iff hagree.inside).mpr hagree.alike, ← hwritten]
    rfl

end Written

/-- Two workers. -/
theorem executor_refines_first_fiveChunks :
    (∃ bound, ∀ xs x, Run (Executor.step fiveChunks.bytes) Move.Complete
      (Executor.start [leftBlock, rightBlock]) xs x → xs.length ≤ bound) ∧
    (∀ x, Reachable (Executor.step fiveChunks.bytes) Move.Complete
        (Executor.start [leftBlock, rightBlock]) x →
      x.exitCode = none → ∃ a, a.Complete ∧ (x.step fiveChunks.bytes a).isSome) ∧
    ∀ x code, Reachable (Executor.step fiveChunks.bytes) Move.Complete
        (Executor.start [leftBlock, rightBlock]) x →
      x.exitCode = some code →
        code = .success ∧
          Signature.run fiveChunks 2 smallestChunk = .success x.memory.writer.written :=
  executor_refines_first (by decide) fiveChunks_layout fiveChunks_agreeable

end VeeamSignature.Signature2
