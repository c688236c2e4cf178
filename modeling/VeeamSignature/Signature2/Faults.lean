import VeeamSignature.Signature2.Process
import VeeamSignature.Signature2.Refinement
import VeeamSignature.Signature2.Reporting

/-!
# The program when calls fail

Every failed read and every error of the writer posts one exception, and every
exception is thrown at most once.  A failure that is not reported yet is on its
way: an exception is pending, a worker is in its `catch` clause, or a thread is
about to stop the context.  So the program ends whatever the calls answer.
-/

namespace VeeamSignature.Signature2

open BlockReader LabelledSystem

def Task.exception? : Task → Option Exception
  | .throwException exception => some exception
  | _ => none

def exceptions (tasks : Multiset Task) : Multiset Exception := tasks.filterMap Task.exception?

def WriterResult.failed : WriterResult → Bool
  | .success => false
  | .error _ => true

/-- How many reads have failed and how many errors the writer has reported. -/
def Pool.faults (p : Pool) : ℕ :=
  (failures p.readers).card + p.writer.callbacks.countP WriterResult.failed

section Pool

variable {file : List Byte} {blocks : List Block} {p p' : Pool} {t : Task} {e : Environment}
  {signal : Signal}

theorem exceptions_cons_none (h : t.exception? = none) (tasks : Multiset Task) :
    exceptions (t ::ₘ tasks) = exceptions tasks :=
  Multiset.filterMap_cons_none _ _ h

theorem exceptions_cons_some {exception : Exception} (h : t.exception? = some exception)
    (tasks : Multiset Task) : exceptions (t ::ₘ tasks) = exception ::ₘ exceptions tasks :=
  Multiset.filterMap_cons_some _ _ _ h

theorem mem_exceptions {tasks : Multiset Task} {exception : Exception} :
    exception ∈ exceptions tasks ↔ .throwException exception ∈ tasks := by
  rw [exceptions, Multiset.mem_filterMap]
  constructor
  · rintro ⟨t, hmem, ht⟩
    cases t with
    | throwException exception' =>
        obtain rfl : exception' = exception := Option.some.inj ht
        exact hmem
    | doRead => cases ht
    | read => cases ht
    | hash => cases ht
    | write => cases ht
  · intro hmem
    exact ⟨_, hmem, rfl⟩

theorem failures_set_same {readers : List BlockReader} {k : ℕ} {r r' : BlockReader}
    (hr : readers[k]? = some r) (h : r'.failures = r.failures) :
    failures (readers.set k r') = failures readers := by
  obtain ⟨others, hsum, hset⟩ :=
    ListSum.exists_sum_set (fun r => (r.failures : Multiset Header)) hr
  rw [failures, failures, hsum, hset, h]

theorem failures_set_rejected {readers : List BlockReader} {k : ℕ} {r : BlockReader}
    (hr : readers[k]? = some r) (operation : ReadOperation) :
    failures (readers.set k (r.rejected operation)) = r.header operation ::ₘ failures readers := by
  obtain ⟨others, hsum, hset⟩ :=
    ListSum.exists_sum_set (fun r => (r.failures : Multiset Header)) hr
  rw [failures, failures, hsum, hset, rejected, ← Multiset.coe_add, Multiset.coe_singleton,
    Multiset.add_comm _ {_}, Multiset.singleton_add, Multiset.cons_add]

/-- Why an exception is posted: a read is answered with an error, or the writer
cannot write what it has collected. -/
inductive Fault (p p' : Pool) (e : Environment) : Task → Exception → Prop
  | read {k : ℕ} {operation : ReadOperation} {error : String} (failed : e.read = .failed error) :
      Fault p p' e (.read k operation) (.readFailed error)
  | write {segment : HashedSegment}
      (callbacks : p'.writer.callbacks.length = p.writer.callbacks.length + 1)
      (failed : p.writer.stream ≠ .opened ∨ e.stream ≠ .complete) :
      Fault p p' e (.write segment) (.writeFailed iostreamError)

/-- What a step does to the failures and the exceptions. -/
inductive Alert (p p' : Pool) (e : Environment) (t : Task) : Signal → Prop
  | none {signal : Signal} (silent : ∀ exception, signal ≠ .raise exception)
      (task : t.exception? = none) (faults : p'.faults = p.faults)
      (exceptions : exceptions p'.tasks = exceptions p.tasks) : Alert p p' e t signal
  | post {exception : Exception} (fault : Fault p p' e t exception)
      (faults : p'.faults = p.faults + 1)
      (exceptions : exceptions p'.tasks = exception ::ₘ exceptions p.tasks) : Alert p p' e t .quiet
  | throw {exception : Exception} (task : t = .throwException exception)
      (faults : p'.faults = p.faults)
      (exceptions : exceptions p.tasks = exception ::ₘ exceptions p'.tasks) :
      Alert p p' e t (.raise exception)

theorem read_eq_error {position count : ℕ} {result : ReadResult} {error : String}
    (h : read file position count result = .error error) : result = .failed error := by
  cases result with
  | failed error' =>
      obtain rfl : error' = error := Except.error.inj h
      rfl
  | complete => cases h
  | short limit => cases h

theorem Transition.alert (hmem : t ∈ p.tasks) (h : Transition file e p t p' signal) :
    Alert p p' e t signal := by
  obtain ⟨rest, hrest⟩ := Multiset.exists_cons_of_mem hmem
  cases h with
  | doRead hr =>
      refine .none (by simp) rfl ?_ ?_
      · rw [Pool.faults, failures_set_same hr (by rw [doRead_fst])]
        rfl
      · rw [hrest, Multiset.erase_cons_head, exceptions_cons_none rfl, exceptions_cons_none rfl]
  | readFailed hr hread =>
      refine .post (.read (read_eq_error hread)) ?_ ?_
      · rw [Pool.faults, failures_set_rejected hr, Multiset.card_cons]
        exact Nat.add_right_comm _ _ _
      · rw [hrest, Multiset.erase_cons_head, exceptions_cons_some rfl, exceptions_cons_none rfl]
  | @readAgain k operation r bytes hr =>
      have hfailures : (r.received operation bytes).failures = r.failures := rfl
      refine .none (by simp) rfl ?_ ?_
      · rw [Pool.faults, failures_set_same hr hfailures]
        rfl
      · rw [hrest, Multiset.erase_cons_head, exceptions_cons_none rfl, exceptions_cons_none rfl,
          exceptions_cons_none rfl]
  | @readLast k operation r bytes hr =>
      have hfailures : (r.received operation bytes).failures = r.failures := rfl
      refine .none (by simp) rfl ?_ ?_
      · rw [Pool.faults, failures_set_same hr hfailures]
        rfl
      · rw [hrest, Multiset.erase_cons_head, exceptions_cons_none rfl, exceptions_cons_none rfl]
  | hash =>
      refine .none (by simp) rfl rfl ?_
      rw [hrest, Multiset.erase_cons_head, exceptions_cons_none rfl, exceptions_cons_none rfl]
  | count hreceive =>
      refine .none (by simp) rfl ?_ ?_
      · simp [Pool.faults, (Writer.received_of_eq hreceive).callbacks]
      · rw [hrest, Multiset.erase_cons_head, exceptions_cons_none rfl]
  | wrote hreceive =>
      refine .none (by simp) rfl ?_ ?_
      · simp [Pool.faults, (Writer.received_of_eq hreceive).callbacks, WriterResult.failed]
      · rw [hrest, Multiset.erase_cons_head, exceptions_cons_none rfl]
  | writeFailed hreceive =>
      have hreceived := Writer.received_of_eq hreceive
      cases hreceived with
      | failed hcount hfailure =>
          refine .post (.write List.length_append hfailure) ?_ ?_
          · simp [Pool.faults, WriterResult.failed, ← Nat.add_assoc]
          · rw [hrest, Multiset.erase_cons_head, exceptions_cons_some rfl,
              exceptions_cons_none rfl]
  | throwException =>
      refine .throw rfl rfl ?_
      rw [hrest, Multiset.erase_cons_head, exceptions_cons_some rfl]

theorem faults_start (blocks : List Block) : (Pool.start blocks).faults = 0 := by
  have hreaders : ∀ blocks : List Block, failures (blocks.map BlockReader.start) = 0 := by
    intro blocks
    induction blocks with
    | nil => rfl
    | cons b blocks ih =>
        rw [failures, List.map_cons, List.map_cons, List.sum_cons, ← failures, ih]
        rfl
  rw [Pool.faults, Pool.start, hreaders]
  rfl

theorem Pool.faults_ne_zero_iff : p.faults ≠ 0 ↔
    (∃ r ∈ p.readers, r.failures ≠ []) ∨ ∃ error, .error error ∈ p.writer.callbacks := by
  rw [Pool.faults, ← Nat.pos_iff_ne_zero, Nat.add_pos_iff_pos_or_pos]
  refine or_congr ?_ ?_
  · rw [Multiset.card_pos_iff_exists_mem]
    constructor
    · rintro ⟨header, hheader⟩
      obtain ⟨r, hr, hmem⟩ := mem_failures.mp hheader
      exact ⟨r, hr, List.ne_nil_of_mem hmem⟩
    · rintro ⟨r, hr, hne⟩
      obtain ⟨header, hheader⟩ := List.exists_mem_of_ne_nil _ hne
      exact ⟨header, mem_failures.mpr ⟨r, hr, hheader⟩⟩
  · rw [List.countP_pos_iff]
    constructor
    · rintro ⟨result, hmem, hfailed⟩
      cases result with
      | success => cases hfailed
      | error error => exact ⟨error, hmem⟩
    · rintro ⟨error, hmem⟩
      exact ⟨_, hmem, rfl⟩

theorem exceptions_start (blocks : List Block) : exceptions (Pool.start blocks).tasks = 0 := by
  refine Multiset.eq_zero_of_forall_notMem fun exception hmem => ?_
  simp [mem_exceptions, Pool.start] at hmem

end Pool

section Threads

variable {file : List Byte} {blocks : List Block} {s s' : System} {a : Action} {xs : List Action}
  {ok : Action → Prop}

def Action.throws : Action → Bool
  | .run _ task _ => task.exception?.isSome
  | _ => false

/-- A failure is on its way to `main`. -/
inductive Alarmed (s : System) : Prop
  | pending (exceptions : exceptions s.pool.tasks ≠ 0)
  | caught {worker : ℕ} {exception : Exception}
      (caught : s.workers[worker]? = some (.caught exception))
  | stored {worker : ℕ} (stored : s.workers[worker]? = some .stored)
  | thread (thread : 0 < s.shutdownThreads)
  | stopped (stopped : s.stopped = true)

theorem Alarmed.step (hs : Alarmed s) (h : Step file s a s') : Alarmed s' := by
  cases h with
  | @run worker task environment pool signal running going mem transition =>
      cases signal with
      | raise exception =>
          obtain ⟨hlt, -⟩ := List.getElem?_eq_some_iff.mp running
          exact .caught (List.getElem?_set_self hlt)
      | quiet =>
          cases hs with
          | pending hpending =>
              refine .pending ?_
              cases transition.alert mem with
              | none _ _ _ hexceptions => exact hexceptions ▸ hpending
              | post _ _ hexceptions => exact hexceptions ▸ Multiset.cons_ne_zero
          | caught hcaught => exact .caught hcaught
          | stored hstored => exact .stored hstored
          | thread hthread => exact .thread hthread
          | stopped hstopped => exact .stopped hstopped
      | shutdown => exact .thread (Nat.succ_pos _)
  | store caught =>
      obtain ⟨hlt, -⟩ := List.getElem?_eq_some_iff.mp caught
      exact .stored (List.getElem?_set_self hlt)
  | shutdown stored => exact .thread (Nat.succ_pos _)
  | stop thread => exact .stopped rfl
  | leave running stopped => exact .stopped stopped
  | exit finished =>
      cases hs with
      | pending hpending => exact .pending hpending
      | caught hcaught => exact .caught hcaught
      | stored hstored => exact .stored hstored
      | thread hthread => exact .thread hthread
      | stopped hstopped => exact .stopped hstopped

/-- A failed call is on its way to `main`, or has reached it. -/
theorem alarmed_of_faults (h : Reachable (System.step file) ok (System.start blocks) s)
    (hfaults : s.pool.faults ≠ 0) : Alarmed s := by
  revert hfaults
  refine h.invariant (I := fun s => s.pool.faults ≠ 0 → Alarmed s) ?_ ?_
  · intro s a s' hs _ hstep hfaults
    obtain ⟨-, hstep⟩ := System.step_eq_some_iff.mp hstep
    by_cases hnew : s.pool.faults = 0
    · cases hstep with
      | @run worker task environment pool signal running going mem transition =>
          rw [System.react_pool] at hfaults
          cases transition.alert mem with
          | none _ _ hsame => exact absurd (hsame.trans hnew) hfaults
          | post _ _ hexceptions => exact .pending (hexceptions ▸ Multiset.cons_ne_zero)
          | throw _ hsame => exact absurd (hsame.trans hnew) hfaults
      | store => exact absurd hnew hfaults
      | shutdown => exact absurd hnew hfaults
      | stop => exact absurd hnew hfaults
      | leave => exact absurd hnew hfaults
      | exit => exact absurd hnew hfaults
    · exact (hs hnew).step hstep
  · intro hfaults
    exact absurd (faults_start blocks) hfaults

theorem Step.faults_le (h : Step file s a s') : s.pool.faults ≤ s'.pool.faults := by
  cases h with
  | @run worker task environment pool signal running going mem transition =>
      rw [System.react_pool]
      cases transition.alert mem with
      | none _ _ hfaults => exact hfaults.ge
      | post _ hfaults => exact hfaults ▸ Nat.le_succ _
      | throw _ hfaults => exact hfaults.ge
  | store => exact le_refl _
  | shutdown => exact le_refl _
  | stop => exact le_refl _
  | leave => exact le_refl _
  | exit => exact le_refl _

/-- A failed call posts one exception, and a throw takes one away. -/
theorem Step.faults_add (h : Step file s a s') :
    s'.pool.faults + (exceptions s.pool.tasks).card =
      s.pool.faults + (exceptions s'.pool.tasks).card + if a.throws then 1 else 0 := by
  cases h with
  | @run worker task environment pool signal running going mem transition =>
      rw [System.react_pool]
      cases transition.alert mem with
      | none _ htask hfaults hexceptions =>
          have hthrows : (Action.run worker task environment).throws = false := by
            rw [Action.throws, htask]
            rfl
          rw [hfaults, hexceptions, hthrows]
          rfl
      | post hfault hfaults hexceptions =>
          have hthrows : (Action.run worker task environment).throws = false := by
            cases hfault <;> rfl
          rw [hfaults, hexceptions, Multiset.card_cons, hthrows, if_neg (by simp)]
          exact Nat.add_right_comm _ _ _
      | throw htask hfaults hexceptions =>
          have hthrows : (Action.run worker task environment).throws = true := by
            rw [htask]
            rfl
          rw [hfaults, hexceptions, Multiset.card_cons, hthrows, if_pos rfl]
          exact (Nat.add_assoc _ _ _).symm
  | store => rfl
  | shutdown => rfl
  | stop => rfl
  | leave => rfl
  | exit => rfl

/-- Every failed call posts one exception; it is pending until it is thrown. -/
theorem faults_conserved (h : Run (System.step file) ok (System.start blocks) xs s) :
    s.pool.faults = (exceptions s.pool.tasks).card + xs.countP Action.throws := by
  refine h.trace (J := fun xs s =>
    s.pool.faults = (exceptions s.pool.tasks).card + xs.countP Action.throws) ?_ ?_
  · intro xs s a s' hs _ hstep
    obtain ⟨-, hstep⟩ := System.step_eq_some_iff.mp hstep
    have hadd := hstep.faults_add
    rw [List.countP_append, List.countP_singleton]
    omega
  · rw [System.start, faults_start, exceptions_start]
    rfl

/-! ## The program does not hang -/

/-- The calls of the task, if the step executes one, get the given answers. -/
def Action.Answered (e : Environment) : Action → Prop
  | .run _ _ environment => environment = e
  | _ => True

theorem Alarmed.exists_step (hs : Alarmed s) (hexit : s.exitCode = none)
    (hrunning : s.workers[0]? = some .running) (hidle : ∀ t, t ∉ s.pool.tasks) :
    ∃ a s', (∀ e, a.Answered e) ∧ s.step file a = some s' := by
  have henabled : ∀ {a s'}, (∀ e, a.Answered e) → Step file s a s' →
      ∃ a s', (∀ e, a.Answered e) ∧ s.step file a = some s' := fun ha hstep =>
    ⟨_, _, ha, System.step_eq_some_iff.mpr ⟨hexit, hstep⟩⟩
  cases hs with
  | pending hpending =>
      obtain ⟨exception, hmem⟩ := Multiset.exists_mem_of_ne_zero hpending
      exact absurd (mem_exceptions.mp hmem) (hidle _)
  | @caught worker _ hcaught =>
      exact henabled (a := .store worker) (fun _ => trivial) (.store hcaught)
  | @stored worker hstored =>
      exact henabled (a := .shutdown worker) (fun _ => trivial) (.shutdown hstored)
  | thread hthread => exact henabled (a := .stop) (fun _ => trivial) (.stop hthread)
  | stopped hstopped => exact henabled (a := .leave 0) (fun _ => trivial) (.leave hrunning hstopped)

/-- A pool without tasks has called back, or a call has failed. -/
theorem alarmed_of_idle (hne : blocks ≠ []) (hids : (blocks.map Block.blockId).Nodup)
    (h : Reachable (System.step file) ok (System.start blocks) s)
    (hidle : ∀ t, t ∉ s.pool.tasks) : Alarmed s := by
  by_cases hfaults : s.pool.faults = 0
  · have hpool : Reachable (Pool.next file) (fun _ => True) (Pool.start blocks) s.pool :=
      System.pool_reachable (fun _ _ _ _ => trivial) h
    have hnone := mt Pool.faults_ne_zero_iff.mpr (not_not.mpr hfaults)
    have hcallbacks := callbacks_of_idle hne (.reachable hpool) (.reachable hids hpool)
      (fun t ht => absurd ht (hidle t)) fun r hr => by_contra fun hne => hnone (.inl ⟨r, hr, hne⟩)
    obtain ⟨result, hresult⟩ := List.exists_mem_of_ne_nil _ hcallbacks
    cases result with
    | success =>
        rcases (ThreadsInvariant.reachable h).effect hresult with hstopped | hthread
        · exact .stopped hstopped
        · exact .thread hthread
    | error error => exact absurd (Or.inr ⟨error, hresult⟩) hnone
  · exact alarmed_of_faults h hfaults

theorem System.exists_answered_step (hne : blocks ≠ []) (hids : (blocks.map Block.blockId).Nodup)
    (h : Reachable (System.step file) ok (System.start blocks) s) (hexit : s.exitCode = none)
    (e : Environment) : ∃ a s', a.Answered e ∧ s.step file a = some s' := by
  have hpool : Reachable (Pool.next file) (fun _ => True) (Pool.start blocks) s.pool :=
    System.pool_reachable (fun _ _ _ _ => trivial) h
  have henabled : ∀ {a s'}, a.Answered e → Step file s a s' →
      ∃ a s', a.Answered e ∧ s.step file a = some s' := fun ha hstep =>
    ⟨_, _, ha, System.step_eq_some_iff.mpr ⟨hexit, hstep⟩⟩
  have hlt : 0 < s.workers.length := by
    rw [System.length_workers h]
    exact List.length_pos_of_ne_nil hne
  have hworker : s.workers[0]? = some s.workers[0] := List.getElem?_eq_getElem hlt
  cases hfirst : s.workers[0] with
  | running =>
      rw [hfirst] at hworker
      cases hstopped : s.stopped with
      | true => exact henabled (a := .leave 0) trivial (.leave hworker hstopped)
      | false =>
          by_cases hpending : ∃ t, t ∈ s.pool.tasks
          · obtain ⟨t, hmem⟩ := hpending
            obtain ⟨p, signal, htransition⟩ :=
              (PoolInvariant.reachable hpool).exists_transition file e hmem
            exact henabled (a := .run 0 t e) rfl (.run hworker hstopped hmem htransition)
          · have hidle : ∀ t, t ∉ s.pool.tasks := fun t ht => hpending ⟨t, ht⟩
            obtain ⟨a, s', ha, hstep⟩ :=
              (alarmed_of_idle hne hids h hidle).exists_step hexit hworker hidle
            exact ⟨a, s', ha e, hstep⟩
  | caught exception =>
      rw [hfirst] at hworker
      exact henabled (a := .store 0) trivial (.store hworker)
  | stored =>
      rw [hfirst] at hworker
      exact henabled (a := .shutdown 0) trivial (.shutdown hworker)
  | finished =>
      rw [hfirst] at hworker
      exact henabled (a := .exit) trivial (.exit hworker)

theorem System.measure_start (blocks : List Block) :
    (System.start blocks).measure = (blocks.map fun b => 10 * b.fullSegments + 18).sum + 1 := by
  have hreaders : ((Pool.start blocks).readers.map fun r => 5 * r.remaining) =
      blocks.map fun b => 5 * (b.fullSegments + 1) := by
    rw [Pool.start, List.map_map]
    rfl
  have htasks : ((Pool.start blocks).tasks.map Task.weight).sum = blocks.length * 2 := by
    simp [Pool.start, Function.comp_def, Task.weight]
  have hworkers : ((System.start blocks).workers.map Worker.weight).sum = blocks.length * 4 := by
    simp [System.start, Worker.weight]
  have hsum : (blocks.map fun b => 10 * b.fullSegments + 18).sum =
      2 * (blocks.map fun b => 5 * (b.fullSegments + 1)).sum + blocks.length * 8 := by
    clear hreaders htasks hworkers
    induction blocks with
    | nil => rfl
    | cons b blocks ih =>
        simp only [List.map_cons, List.sum_cons, List.length_cons, ih]
        omega
  have hpool : (System.start blocks).pool = Pool.start blocks := rfl
  have hthreads : (System.start blocks).shutdownThreads = 0 := rfl
  have hexit : (System.start blocks).exitCode = none := rfl
  rw [System.measure, hworkers, hsum, hpool, hthreads, hexit, Pool.measure, hreaders, htasks]
  simp only [Option.isSome_none, Bool.false_eq_true, if_false]
  omega

/-! ## What `main` reports -/

/-- The call of the run, or the repeated callback, that an exception reports. -/
inductive Cause (xs : List Action) (p : Pool) : Exception → Prop
  | read {worker k : ℕ} {operation : ReadOperation} {environment : Environment} {error : String}
      (performed : .run worker (.read k operation) environment ∈ xs)
      (failed : environment.read = .failed error) : Cause xs p (.readFailed error)
  | write {worker : ℕ} {segment : HashedSegment} {environment : Environment} {after : ℕ}
      {buffered : Slices.Span} (performed : .run worker (.write segment) environment ∈ xs)
      (failed : environment.stream = .failed after buffered) :
      Cause xs p (.writeFailed iostreamError)
  | again (callbacks : 2 ≤ p.writer.callbacks.length) : Cause xs p (.writeFailed iostreamError)

theorem Transition.callbacks_length_le {p p' : Pool} {t : Task} {e : Environment}
    {signal : Signal} (h : Transition file e p t p' signal) :
    p.writer.callbacks.length ≤ p'.writer.callbacks.length := by
  rcases h.writer with hsame | ⟨segment, answer, -, hreceived, -⟩
  · rw [hsame]
  · rw [hreceived.callbacks, List.length_append]
    exact Nat.le_add_right _ _

theorem Cause.mono {ys : List Action} {p p' : Pool} {exception : Exception}
    (h : Cause xs p exception) (hsub : xs ⊆ ys)
    (hcallbacks : p.writer.callbacks.length ≤ p'.writer.callbacks.length) :
    Cause ys p' exception := by
  cases h with
  | read performed failed => exact .read (hsub performed) failed
  | write performed failed => exact .write (hsub performed) failed
  | again hagain => exact .again (hagain.trans hcallbacks)

theorem Fault.cause {p p' : Pool} {t : Task} {e : Environment} {exception : Exception}
    (h : Fault p p' e t exception) (hw : WriterInvariant blocks p.writer) (worker : ℕ) :
    Cause (xs ++ [.run worker t e]) p' exception := by
  have hlast : Action.run worker t e ∈ xs ++ [.run worker t e] := List.mem_append_right _ (by simp)
  cases h with
  | read hfailed => exact .read hlast hfailed
  | write hcallbacks hfailed =>
      cases hstream : e.stream with
      | failed after buffered => exact .write hlast hstream
      | complete =>
          have hclosed := hfailed.resolve_right (not_not.mpr hstream)
          have hcalled : p.writer.callbacks ≠ [] := fun hnil => hclosed (hw.untouched hnil).1
          have hpos := List.length_pos_of_ne_nil hcalled
          exact .again (by omega)

/-- The exceptions on their way to `main` have a cause. -/
structure Caused (xs : List Action) (s : System) : Prop where
  pending : ∀ exception ∈ exceptions s.pool.tasks, Cause xs s.pool exception
  caught : ∀ (worker : ℕ) (exception : Exception),
    s.workers[worker]? = some (.caught exception) → Cause xs s.pool exception
  occurred : ∀ exception, s.occurredException = some exception → Cause xs s.pool exception
  failure : s.exitCode = some .failure → s.occurredException.isSome

theorem Caused.step (hw : WriterInvariant blocks s.pool.writer) (hs : Caused xs s)
    (h : Step file s a s') : Caused (xs ++ [a]) s' := by
  have hkeep : ∀ {p : Pool} {exception : Exception}, Cause xs s.pool exception →
      s.pool.writer.callbacks.length ≤ p.writer.callbacks.length →
        Cause (xs ++ [a]) p exception := fun hcause hle =>
    hcause.mono (List.subset_append_left _ _) hle
  have hsame : ∀ {exception : Exception}, Cause xs s.pool exception →
      Cause (xs ++ [a]) s.pool exception := fun hcause => hkeep hcause (le_refl _)
  have hset : ∀ {i : ℕ} {x : Worker}, (∀ exception, x ≠ .caught exception) →
      ∀ (j : ℕ) (exception : Exception), (s.workers.set i x)[j]? = some (.caught exception) →
        Cause (xs ++ [a]) s.pool exception := by
    intro i x hx j exception hj
    rcases worker_of_set hj with heq | hj
    · exact absurd heq (hx exception)
    · exact hsame (hs.caught j exception hj)
  cases h with
  | @run worker task environment pool signal running going mem transition =>
      have hle := transition.callbacks_length_le
      have hcaught : ∀ (w : ℕ) (x : Exception), s.workers[w]? = some (.caught x) →
          Cause (xs ++ [.run worker task environment]) pool x := fun w x hx =>
        hkeep (hs.caught w x hx) hle
      have hoccurred : ∀ x, s.occurredException = some x →
          Cause (xs ++ [.run worker task environment]) pool x := fun x hx =>
        hkeep (hs.occurred x hx) hle
      cases transition.alert mem with
      | none hsilent htask hfaults hexceptions =>
          have hpending : ∀ x ∈ exceptions pool.tasks,
              Cause (xs ++ [.run worker task environment]) pool x := fun x hx =>
            hkeep (hs.pending x (hexceptions ▸ hx)) hle
          cases signal with
          | quiet => exact ⟨hpending, hcaught, hoccurred, hs.failure⟩
          | shutdown => exact ⟨hpending, hcaught, hoccurred, hs.failure⟩
          | raise exception => exact absurd rfl (hsilent exception)
      | post hfault hfaults hexceptions =>
          refine ⟨fun x hx => ?_, hcaught, hoccurred, hs.failure⟩
          rcases Multiset.mem_cons.mp (hexceptions ▸ hx) with rfl | hx
          · exact hfault.cause hw worker
          · exact hkeep (hs.pending x hx) hle
      | @throw exception htask hfaults hexceptions =>
          have hmem : ∀ x ∈ exceptions pool.tasks, x ∈ exceptions s.pool.tasks := fun x hx =>
            hexceptions ▸ Multiset.mem_cons_of_mem hx
          refine ⟨fun x hx => hkeep (hs.pending x (hmem x hx)) hle, fun w x hx => ?_, hoccurred,
            hs.failure⟩
          rcases worker_of_set hx with heq | hx
          · obtain rfl := Worker.caught.inj heq
            exact hkeep (hs.pending exception (hexceptions ▸ Multiset.mem_cons_self _ _)) hle
          · exact hcaught w x hx
  | @store worker exception caught =>
      refine ⟨fun _ h => hsame (hs.pending _ h), hset (by simp), ?_, fun _ => rfl⟩
      rintro _ ⟨rfl⟩
      exact hsame (hs.caught worker exception caught)
  | @shutdown worker stored =>
      exact ⟨fun _ h => hsame (hs.pending _ h), hset (by simp),
        fun _ h => hsame (hs.occurred _ h), hs.failure⟩
  | stop thread =>
      exact ⟨fun _ h => hsame (hs.pending _ h), fun _ _ h => hsame (hs.caught _ _ h),
        fun _ h => hsame (hs.occurred _ h), hs.failure⟩
  | @leave worker running stopped =>
      exact ⟨fun _ h => hsame (hs.pending _ h), hset (by simp),
        fun _ h => hsame (hs.occurred _ h), hs.failure⟩
  | exit finished =>
      refine ⟨fun _ h => hsame (hs.pending _ h), fun _ _ h => hsame (hs.caught _ _ h),
        fun _ h => hsame (hs.occurred _ h), ?_⟩
      intro hcode
      by_contra hnone
      simp [hnone] at hcode

theorem Caused.run (hids : (blocks.map Block.blockId).Nodup)
    (h : Run (System.step file) ok (System.start blocks) xs s) : Caused xs s := by
  have hboth : Reachable (System.step file) ok (System.start blocks) s ∧ Caused xs s := by
    refine h.trace (J := fun xs s =>
      Reachable (System.step file) ok (System.start blocks) s ∧ Caused xs s) ?_ ?_
    · rintro xs s a s' ⟨hreachable, hs⟩ ha hstep
      have hpool : Reachable (Pool.next file) (fun _ => True) (Pool.start blocks) s.pool :=
        System.pool_reachable (fun _ _ _ _ => trivial) hreachable
      exact ⟨hreachable.tail ha hstep,
        hs.step (.reachable hids hpool) (System.step_eq_some_iff.mp hstep).2⟩
    · refine ⟨.refl _, ⟨?_, ?_, by simp [System.start], by simp [System.start]⟩⟩
      · intro exception hmem
        rw [System.start, exceptions_start] at hmem
        exact absurd hmem (Multiset.notMem_zero _)
      · intro worker exception hworker
        have hrunning := List.eq_of_mem_replicate (List.mem_of_getElem? hworker)
        cases hrunning
  exact hboth.2

theorem Caused.of_failure (hs : Caused xs s) (hexit : s.exitCode = some .failure) :
    ∃ exception, s.occurredException = some exception ∧ Cause xs s.pool exception := by
  obtain ⟨exception, hoccurred⟩ := Option.isSome_iff_exists.mp (hs.failure hexit)
  exact ⟨exception, hoccurred, hs.occurred exception hoccurred⟩

end Threads

section Results

variable {F : FileContent} {n : ℕ} {c : ChunkSize} {blocks : List Block} {s : System}

/-- Whatever the calls answer, the program takes a bounded number of steps, and
it can take one until `main` returns. -/
theorem never_hangs (hn : 1 ≤ n) (hblocks : blockFileBlocks F.size n c = some blocks) :
    (∀ xs s, Run (System.step F.bytes) (fun _ => True) (System.start blocks) xs s →
      xs.length ≤ (blocks.map fun b => 10 * b.fullSegments + 18).sum + 1) ∧
    ∀ s, Reachable (System.step F.bytes) (fun _ => True) (System.start blocks) s →
      s.exitCode = none → ∀ e, ∃ a s', a.Answered e ∧ s.step F.bytes a = some s' := by
  obtain ⟨hids, -⟩ := blockFileBlocks_fit hn hblocks
  constructor
  · intro xs s hrun
    rw [← System.measure_start]
    exact System.run_length_le hrun
  · intro s hreachable hexit e
    exact System.exists_answered_step (layout_ne_nil hn hblocks) hids hreachable hexit e

theorem never_hangs_fiveChunks :
    (∀ xs s, Run (System.step fiveChunks.bytes) (fun _ => True)
        (System.start [leftBlock, rightBlock]) xs s →
      xs.length ≤ ([leftBlock, rightBlock].map fun b => 10 * b.fullSegments + 18).sum + 1) ∧
    ∀ s, Reachable (System.step fiveChunks.bytes) (fun _ => True)
        (System.start [leftBlock, rightBlock]) s → s.exitCode = none →
      ∀ e, ∃ a s', a.Answered e ∧ s.step fiveChunks.bytes a = some s' :=
  never_hangs (by decide) fiveChunks_layout

/-- If `main` returns failure, the exception it reports is that of a call of
this run that failed, or of a writer that has called back twice. -/
theorem failure_has_cause (hn : 1 ≤ n) (hblocks : blockFileBlocks F.size n c = some blocks)
    {xs : List Action} (h : Run (System.step F.bytes) (fun _ => True) (System.start blocks) xs s)
    (hexit : s.exitCode = some .failure) :
    ∃ exception, s.occurredException = some exception ∧ Cause xs s.pool exception := by
  obtain ⟨hids, -⟩ := blockFileBlocks_fit hn hblocks
  exact (Caused.run hids h).of_failure hexit

/-- The text that `main` reports at the end is that of an exception that has
such a cause. -/
theorem reported_of_failure {lexicalCast : List Char → Except String ℕ}
    {fs : Files.FileSystem (List Byte)} {faults : Faults} {current : Files.Path}
    {options : VariablesMap} {args : Arguments} {p q : Process} {xs : List Action}
    (hargs : parser lexicalCast fs faults current options = .ok args)
    (hapart : Apart fs faults args.inputPath args.outputPath) (hn : 1 ≤ n)
    (hlaunch : launch lexicalCast fs faults current options n = .started p)
    (h : Run Process.step (fun _ => True) p xs q) (hexit : q.system.exitCode = some .failure) :
    ∃ exception, q.reported = some (exception.what (pathString args.outputPath)) ∧
      Cause xs q.system.pool exception := by
  obtain ⟨i, bytes, hinput⟩ := intact_of_status (regular_of_parsed hargs)
  rw [launch_of_parsed hargs] at hlaunch
  obtain ⟨F, blocks, rfl, hblocks, harguments, hstart⟩ := startThreads_started hinput hlaunch
  have hrun := hstart ▸ ((startThreads_intact hapart hinput).2 p hlaunch).system_run h
  obtain ⟨hids, -⟩ := blockFileBlocks_fit hn hblocks
  obtain ⟨exception, hoccurred, hcause⟩ := (Caused.run hids hrun).of_failure hexit
  refine ⟨exception, ?_, hcause⟩
  rw [Process.reported, hexit, hoccurred, Process.arguments_eq ⟨xs, h⟩, harguments]
  rfl

def broken : Environment := ⟨.failed "Input/output error", .complete⟩

/-- The second worker reports the read of the second reader, and the first one
leaves without having read. -/
def brokenRun : List Action :=
  [.run 0 (.doRead 0) complete, .run 1 (.doRead 1) complete, .run 1 (.read 1 .entireBlock) broken,
    .run 1 (.throwException (.readFailed "Input/output error")) complete, .store 1, .shutdown 1,
    .stop, .leave 0, .exit]

theorem run_brokenRun : ∃ s,
    Run (System.step fiveChunks.bytes) (fun _ => True) (System.start [leftBlock, rightBlock])
      brokenRun s ∧ s.exitCode = some .failure := by
  have hrun : (brokenRun.foldlM (System.step fiveChunks.bytes)
      (System.start [leftBlock, rightBlock])).map System.exitCode = some (some .failure) := by
    decide +kernel
  obtain ⟨s, hs, hexit⟩ := Option.map_eq_some_iff.mp hrun
  exact ⟨s, Run.iff_foldlM.mpr ⟨fun _ _ => trivial, hs⟩, hexit⟩

theorem failure_has_cause_brokenRun :
    ∃ (s : System) (exception : Exception),
      s.occurredException = some exception ∧ Cause brokenRun s.pool exception := by
  obtain ⟨s, hs, hexit⟩ := run_brokenRun
  exact ⟨s, failure_has_cause (by decide) fiveChunks_layout hs hexit⟩

theorem faults_conserved_brokenRun : ∃ s : System,
    s.pool.faults = (exceptions s.pool.tasks).card + brokenRun.countP Action.throws := by
  obtain ⟨s, hs, -⟩ := run_brokenRun
  exact ⟨s, faults_conserved hs⟩

/-- Without a failed call no exception is on its way. -/
theorem undisturbed_of_faults (h : Reachable (System.step F.bytes) (fun _ => True)
    (System.start blocks) s) (hfaults : s.pool.faults = 0) :
    Undisturbed s ∧ exceptions s.pool.tasks = 0 := by
  revert hfaults
  refine h.invariant
    (I := fun s => s.pool.faults = 0 → Undisturbed s ∧ exceptions s.pool.tasks = 0) ?_ ?_
  · intro s a s' hs _ hstep hfaults
    obtain ⟨-, hstep⟩ := System.step_eq_some_iff.mp hstep
    have hle := hstep.faults_le
    have hadd := hstep.faults_add
    obtain ⟨hundisturbed, hnone⟩ := hs (by omega)
    rw [hnone, Multiset.card_zero] at hadd
    refine ⟨hundisturbed.step (fun exception hmem => ?_) hstep,
      Multiset.card_eq_zero.mp (by omega)⟩
    have hin := mem_exceptions.mpr hmem
    rw [hnone] at hin
    exact Multiset.notMem_zero _ hin
  · exact fun _ => ⟨.start blocks, exceptions_start blocks⟩

/-- The exit code tells whether a call has failed in every run exactly when
every read counts. -/
theorem exit_code_exact_iff (hn : 1 ≤ n) (hblocks : blockFileBlocks F.size n c = some blocks) :
    (∀ s code, Reachable (System.step F.bytes) (fun _ => True) (System.start blocks) s →
      s.exitCode = some code → (code = .failure ↔ s.pool.faults ≠ 0)) ↔
    EveryReadCounts blocks := by
  obtain ⟨hids, hfit⟩ := blockFileBlocks_fit hn hblocks
  constructor
  · intro hexact
    by_contra hcounts
    obtain ⟨s, hs, hfailed, -, hexit⟩ := exists_unreported F.bytes hids hcounts
    cases (hexact s _ hs hexit).mpr (Pool.faults_ne_zero_iff.mpr (.inl hfailed))
  · intro hcounts s code hs hexit
    cases code with
    | failure =>
        refine iff_of_true rfl fun hfaults => ?_
        exact (undisturbed_of_faults hs hfaults).1.exitCode hexit
    | success =>
        refine iff_of_false (by simp) fun hfaults => ?_
        have hpool : Reachable (Pool.next F.bytes) (fun _ => True) (Pool.start blocks) s.pool :=
          System.pool_reachable (fun _ _ _ _ => trivial) hs
        have hsuccess : .success ∈ s.pool.writer.callbacks :=
          (ThreadsInvariant.reachable hs).success hexit
        rcases Pool.faults_ne_zero_iff.mp hfaults with ⟨r, hr, hne⟩ | ⟨error, herror⟩
        · obtain ⟨header, hheader⟩ := List.exists_mem_of_ne_nil _ hne
          have hmem := (PoolInvariant.reachable hpool).mem_allHeaders_of_failed hr hheader
          have hsilent := callbacks_eq_nil_of_failure hids hfit (layout_lone hn hblocks hfit) hpool
            (mem_failures.mpr ⟨r, hr, hheader⟩) (hcounts.counted hmem)
          rw [hsilent] at hsuccess
          exact List.not_mem_nil hsuccess
        · have honce := callbacks_length_le hids hfit hcounts hpool
          obtain ⟨answer, hanswer⟩ := List.length_eq_one_iff.mp
            (le_antisymm honce (List.length_pos_of_mem hsuccess))
          rw [hanswer, List.mem_singleton] at hsuccess herror
          cases hsuccess.trans herror.symm

theorem exit_code_exact_iff_fiveChunks :
    (∀ s code, Reachable (System.step fiveChunks.bytes) (fun _ => True)
        (System.start [leftBlock, rightBlock]) s →
      s.exitCode = some code → (code = .failure ↔ s.pool.faults ≠ 0)) ↔
    EveryReadCounts [leftBlock, rightBlock] :=
  exit_code_exact_iff (by decide) fiveChunks_layout

end Results

end VeeamSignature.Signature2
