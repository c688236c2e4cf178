import VeeamSignature.Signature2.Refinement
import VeeamSignature.Signature2.Schedules

/-!
# Handlers that overlap

In the pool a task is executed in one step.  Here a worker enters a handler,
reads what the handler acts on, changes it, posts the tasks one after another,
and returns; other workers go on in between.  Only the `do_read` of a reader
and the arrivals at the writer run on a strand, the reads and the hashes do
not.  Still no two handlers act on the same reader at the same time, so that
every such execution is one of the pool.
-/

namespace VeeamSignature.Signature2

open BlockReader LabelledSystem

/-- What a handler has read of what its task acts on. -/
inductive View
  | reader (r : BlockReader)
  | writer (w : Writer)
  | nothing

def Pool.view (p : Pool) : Lane → Option View
  | .reader k => p.readers[k]?.map .reader
  | .writer => some (.writer p.writer)
  | .own _ => some .nothing

/-- The strand a task is posted to; the others are posted to the context. -/
def Task.strand : Task → Option Lane
  | .doRead k => some (.reader k)
  | .write _ => some .writer
  | _ => none

/-- The body of a handler: what it changes, what it posts, in this order, and
how it ends. -/
def Task.handle (file : List Byte) (e : Environment) :
    Task → View → Option (Update × List Task × Signal)
  | .doRead k, .reader r =>
      let (r, operation) := r.doRead
      some (.reader k r, [.read k operation], .quiet)
  | .read k operation, .reader r =>
      match r.perform file operation e.read with
      | (r, .error error) => some (.reader k r, [.throwException (.readFailed error)], .quiet)
      | (r, .ok s) =>
          some (.reader k r, .hash s :: if operation.again then [.doRead k] else [], .quiet)
  | .hash s, .nothing => do
      let hashed ← segmentHasher s
      some (.none, [.write hashed], .quiet)
  | .write s, .writer w =>
      match w.receive s e.stream with
      | (w, none) => some (.writer w, [], .quiet)
      | (w, some .success) => some (.writer w, [], .shutdown)
      | (w, some (.error error)) =>
          some (.writer w, [.throwException (.writeFailed error)], .quiet)
  | .throwException exception, .nothing => some (.none, [], .raise exception)
  | _, _ => none

/-- Where a worker is: in `run()` between two handlers, in a handler before and
after it has read what it acts on, in a handler that still has to post tasks
and to end, or out of `run()`. -/
inductive Stage
  | idle
  | entered (task : Task)
  | loaded (task : Task) (view : View)
  | posting (task : Task) (posts : List Task) (signal : Signal)
  | caught (exception : Exception)
  | stored
  | finished

/-- The handler the worker is in. -/
def Stage.task? : Stage → Option Task
  | .entered task => some task
  | .loaded task _ => some task
  | .posting task _ _ => some task
  | _ => none

/-- The state of `main`; the tasks of the memory are those in the queue. -/
structure Executor where
  memory : Pool
  workers : List Stage
  occurredException : Option Exception
  shutdownThreads : ℕ
  stopped : Bool
  exitCode : Option ExitCode

inductive Move
  | enter (worker : ℕ) (task : Task)
  | load (worker : ℕ)
  | commit (worker : ℕ) (environment : Environment)
  | post (worker : ℕ)
  | finish (worker : ℕ)
  | store (worker : ℕ)
  | shutdown (worker : ℕ)
  | stop
  | leave (worker : ℕ)
  | exit

namespace Executor

def start (blocks : List Block) : Executor where
  memory := Pool.start blocks
  workers := List.replicate blocks.length .idle
  occurredException := none
  shutdownThreads := 0
  stopped := false
  exitCode := none

/-- No worker is in a handler of the strand of the task. -/
def free (x : Executor) (task : Task) : Bool :=
  x.workers.all fun stage =>
    match stage.task? with
    | none => true
    | some task' => task'.strand = none ∨ task'.strand ≠ task.strand

def act (file : List Byte) (x : Executor) : Move → Option Executor
  | .enter worker task =>
      match x.workers[worker]? with
      | some .idle =>
          if x.stopped = false ∧ task ∈ x.memory.tasks ∧ x.free task then
            some { x with
              memory := { x.memory with tasks := x.memory.tasks.erase task }
              workers := x.workers.set worker (.entered task) }
          else none
      | _ => none
  | .load worker =>
      match x.workers[worker]? with
      | some (.entered task) => do
          let view ← x.memory.view task.lane
          some { x with workers := x.workers.set worker (.loaded task view) }
      | _ => none
  | .commit worker environment =>
      match x.workers[worker]? with
      | some (.loaded task view) => do
          let (update, posts, signal) ← task.handle file environment view
          some { x with
            memory := x.memory.update update
            workers := x.workers.set worker (.posting task posts signal) }
      | _ => none
  | .post worker =>
      match x.workers[worker]? with
      | some (.posting task (post :: posts) signal) =>
          some { x with
            memory := x.memory.post post
            workers := x.workers.set worker (.posting task posts signal) }
      | _ => none
  | .finish worker =>
      match x.workers[worker]? with
      | some (.posting _ [] .quiet) => some { x with workers := x.workers.set worker .idle }
      | some (.posting _ [] .shutdown) =>
          some { x with
            shutdownThreads := x.shutdownThreads + 1
            workers := x.workers.set worker .idle }
      | some (.posting _ [] (.raise exception)) =>
          some { x with workers := x.workers.set worker (.caught exception) }
      | _ => none
  | .store worker =>
      match x.workers[worker]? with
      | some (.caught exception) =>
          some { x with
            occurredException := some exception
            workers := x.workers.set worker .stored }
      | _ => none
  | .shutdown worker =>
      match x.workers[worker]? with
      | some .stored =>
          some { x with
            shutdownThreads := x.shutdownThreads + 1
            workers := x.workers.set worker .finished }
      | _ => none
  | .stop =>
      if 0 < x.shutdownThreads then
        some { x with stopped := true, shutdownThreads := x.shutdownThreads - 1 }
      else none
  | .leave worker =>
      match x.workers[worker]? with
      | some .idle =>
          if x.stopped = true then some { x with workers := x.workers.set worker .finished }
          else none
      | _ => none
  | .exit =>
      match x.workers[0]? with
      | some Stage.finished =>
          let code := if x.occurredException.isSome then ExitCode.failure else .success
          some { x with exitCode := some code }
      | _ => none

def step (file : List Byte) (x : Executor) (a : Move) : Option Executor :=
  if x.exitCode.isSome then none else x.act file a

end Executor

/-- What a step of the executor can do. -/
inductive Advance (file : List Byte) (x : Executor) : Move → Executor → Prop
  | enter {worker : ℕ} {task : Task} (idle : x.workers[worker]? = some .idle)
      (mem : task ∈ x.memory.tasks) (free : x.free task = true) :
      Advance file x (.enter worker task)
        { x with
          memory := { x.memory with tasks := x.memory.tasks.erase task }
          workers := x.workers.set worker (.entered task) }
  | load {worker : ℕ} {task : Task} {view : View}
      (entered : x.workers[worker]? = some (.entered task))
      (current : x.memory.view task.lane = some view) :
      Advance file x (.load worker)
        { x with workers := x.workers.set worker (.loaded task view) }
  | commit {worker : ℕ} {environment : Environment} {task : Task} {view : View} {update : Update}
      {posts : List Task} {signal : Signal}
      (loaded : x.workers[worker]? = some (.loaded task view))
      (handle : task.handle file environment view = some (update, posts, signal)) :
      Advance file x (.commit worker environment)
        { x with
          memory := x.memory.update update
          workers := x.workers.set worker (.posting task posts signal) }
  | post {worker : ℕ} {task post : Task} {posts : List Task} {signal : Signal}
      (posting : x.workers[worker]? = some (.posting task (post :: posts) signal)) :
      Advance file x (.post worker)
        { x with
          memory := x.memory.post post
          workers := x.workers.set worker (.posting task posts signal) }
  | quiet {worker : ℕ} {task : Task}
      (posting : x.workers[worker]? = some (.posting task [] .quiet)) :
      Advance file x (.finish worker) { x with workers := x.workers.set worker .idle }
  | success {worker : ℕ} {task : Task}
      (posting : x.workers[worker]? = some (.posting task [] .shutdown)) :
      Advance file x (.finish worker)
        { x with
          shutdownThreads := x.shutdownThreads + 1
          workers := x.workers.set worker .idle }
  | raise {worker : ℕ} {task : Task} {exception : Exception}
      (posting : x.workers[worker]? = some (.posting task [] (.raise exception))) :
      Advance file x (.finish worker)
        { x with workers := x.workers.set worker (.caught exception) }
  | store {worker : ℕ} {exception : Exception}
      (caught : x.workers[worker]? = some (.caught exception)) :
      Advance file x (.store worker)
        { x with
          occurredException := some exception
          workers := x.workers.set worker .stored }
  | shutdown {worker : ℕ} (stored : x.workers[worker]? = some .stored) :
      Advance file x (.shutdown worker)
        { x with
          shutdownThreads := x.shutdownThreads + 1
          workers := x.workers.set worker .finished }
  | stop (thread : 0 < x.shutdownThreads) :
      Advance file x .stop { x with stopped := true, shutdownThreads := x.shutdownThreads - 1 }
  | leave {worker : ℕ} (idle : x.workers[worker]? = some .idle) (stopped : x.stopped = true) :
      Advance file x (.leave worker) { x with workers := x.workers.set worker .finished }
  | exit (finished : x.workers[0]? = some .finished) :
      Advance file x .exit
        { x with
          exitCode := some (if x.occurredException.isSome then .failure else .success) }

section Steps

variable {file : List Byte} {x x' : Executor} {a : Move}

theorem Executor.advance_of_step (h : x.step file a = some x') : Advance file x a x' := by
  obtain ⟨-, h⟩ := Option.ite_none_left_eq_some.mp h
  cases a with
  | enter worker task =>
      simp only [Executor.act] at h
      split at h
      · next hidle =>
          obtain ⟨⟨-, hmem, hfree⟩, h⟩ := Option.ite_none_right_eq_some.mp h
          obtain rfl := Option.some.inj h
          exact .enter hidle hmem hfree
      · cases h
  | load worker =>
      simp only [Executor.act] at h
      split at h
      · next task hentered =>
          obtain ⟨view, hview, h⟩ := Option.bind_eq_some_iff.mp h
          obtain rfl := Option.some.inj h
          exact .load hentered hview
      · cases h
  | commit worker environment =>
      simp only [Executor.act] at h
      split at h
      · next task view hloaded =>
          obtain ⟨⟨update, posts, signal⟩, hhandle, h⟩ := Option.bind_eq_some_iff.mp h
          obtain rfl := Option.some.inj h
          exact .commit hloaded hhandle
      · cases h
  | post worker =>
      simp only [Executor.act] at h
      split at h
      · next task post posts signal hposting =>
          obtain rfl := Option.some.inj h
          exact .post hposting
      · cases h
  | finish worker =>
      simp only [Executor.act] at h
      split at h
      · next task hposting =>
          obtain rfl := Option.some.inj h
          exact .quiet hposting
      · next task hposting =>
          obtain rfl := Option.some.inj h
          exact .success hposting
      · next task exception hposting =>
          obtain rfl := Option.some.inj h
          exact .raise hposting
      · cases h
  | store worker =>
      simp only [Executor.act] at h
      split at h
      · next exception hcaught =>
          obtain rfl := Option.some.inj h
          exact .store hcaught
      · cases h
  | shutdown worker =>
      simp only [Executor.act] at h
      split at h
      · next hstored =>
          obtain rfl := Option.some.inj h
          exact .shutdown hstored
      · cases h
  | stop =>
      obtain ⟨hthread, h⟩ := Option.ite_none_right_eq_some.mp h
      obtain rfl := Option.some.inj h
      exact .stop hthread
  | leave worker =>
      simp only [Executor.act] at h
      split at h
      · next hidle =>
          obtain ⟨hstopped, h⟩ := Option.ite_none_right_eq_some.mp h
          obtain rfl := Option.some.inj h
          exact .leave hidle hstopped
      · cases h
  | exit =>
      simp only [Executor.act] at h
      split at h
      · next hfinished =>
          obtain rfl := Option.some.inj h
          exact .exit hfinished
      · cases h

end Steps

/-! ## The pool of an executor -/

section Handlers

variable {file : List Byte} {p q : Pool} {t : Task} {e : Environment} {v : View} {u : Update}
  {posts : List Task} {signal : Signal} {lane lane' : Lane}

theorem Pool.view_of_agrees (h : q.Agrees p lane) : q.view lane = p.view lane := by
  cases lane with
  | reader k =>
      have hreader : q.readers[k]? = p.readers[k]? := h
      rw [Pool.view, Pool.view, hreader]
  | writer =>
      have hwriter : q.writer = p.writer := h
      rw [Pool.view, Pool.view, hwriter]
  | own t => rfl

theorem Update.Of.view_eq (hu : u.Of lane) (hne : lane ≠ lane') :
    (p.update u).view lane' = p.view lane' := by
  have hagrees : ((p.update u).replace (.doRead 0) 0).Agrees p lane' := hu.agrees hne
  exact Pool.view_of_agrees hagrees

/-- A handler that has read what its task acts on does what the task does. -/
theorem Task.handle_transition (hview : p.view t.lane = some v)
    (h : t.handle file e v = some (u, posts, signal)) :
    u.Of t.lane ∧ Transition file e p t ((p.update u).replace t posts) signal := by
  cases t with
  | doRead k =>
      obtain ⟨r, hr, rfl⟩ := Option.map_eq_some_iff.mp hview
      simp only [Task.handle, Option.some.injEq, Prod.mk.injEq] at h
      obtain ⟨rfl, rfl, rfl⟩ := h
      exact ⟨rfl, .doRead hr⟩
  | read k operation =>
      obtain ⟨r, hr, rfl⟩ := Option.map_eq_some_iff.mp hview
      cases hread : Signature2.read file r.position (r.requested operation) e.read with
      | error error =>
          simp only [Task.handle, perform, hread, Option.some.injEq, Prod.mk.injEq] at h
          obtain ⟨rfl, rfl, rfl⟩ := h
          exact ⟨rfl, .readFailed hr hread⟩
      | ok bytes =>
          cases hagain : operation.again with
          | true =>
              simp only [Task.handle, perform, hread, hagain, if_true, Option.some.injEq,
                Prod.mk.injEq] at h
              obtain ⟨rfl, rfl, rfl⟩ := h
              have hstep := Transition.readAgain hr hread hagain
              rw [Multiset.cons_swap] at hstep
              refine ⟨rfl, ?_⟩
              rw [Pool.replace, ← Multiset.cons_coe, Multiset.cons_add]
              exact hstep
          | false =>
              simp only [Task.handle, perform, hread, hagain, Option.some.injEq, Prod.mk.injEq] at h
              obtain ⟨rfl, rfl, rfl⟩ := h
              exact ⟨rfl, .readLast hr hread hagain⟩
  | hash segment =>
      obtain rfl := Option.some.inj hview
      obtain ⟨hashed, hhashed, h⟩ := Option.bind_eq_some_iff.mp h
      simp only [Option.some.injEq, Prod.mk.injEq] at h
      obtain ⟨rfl, rfl, rfl⟩ := h
      exact ⟨⟨_, rfl⟩, .hash hhashed⟩
  | write segment =>
      obtain rfl := Option.some.inj hview
      cases hreceive : p.writer.receive segment e.stream with
      | mk w answer =>
          cases answer with
          | none =>
              simp only [Task.handle, hreceive, Option.some.injEq, Prod.mk.injEq] at h
              obtain ⟨rfl, rfl, rfl⟩ := h
              have hstep : Transition file e p (.write segment) _ .quiet := .count hreceive
              exact ⟨rfl, by simpa [Pool.replace, Pool.update] using hstep⟩
          | some result =>
              cases result with
              | success =>
                  simp only [Task.handle, hreceive, Option.some.injEq, Prod.mk.injEq] at h
                  obtain ⟨rfl, rfl, rfl⟩ := h
                  have hstep : Transition file e p (.write segment) _ .shutdown := .wrote hreceive
                  exact ⟨rfl, by simpa [Pool.replace, Pool.update] using hstep⟩
              | error error =>
                  simp only [Task.handle, hreceive, Option.some.injEq, Prod.mk.injEq] at h
                  obtain ⟨rfl, rfl, rfl⟩ := h
                  exact ⟨rfl, .writeFailed hreceive⟩
  | throwException exception =>
      obtain rfl := Option.some.inj hview
      simp only [Task.handle, Option.some.injEq, Prod.mk.injEq] at h
      obtain ⟨rfl, rfl, rfl⟩ := h
      have hstep : Transition file e p (.throwException exception) _ (.raise exception) :=
        .throwException
      exact ⟨⟨_, rfl⟩, by simpa [Pool.replace, Pool.update] using hstep⟩

theorem Task.length_posts_le (h : t.handle file e v = some (u, posts, signal)) :
    posts.length ≤ 2 := by
  unfold Task.handle at h
  split at h
  · simp only [Option.some.injEq, Prod.mk.injEq] at h
    obtain ⟨-, rfl, -⟩ := h
    exact Nat.le_succ 1
  · split at h
    · simp only [Option.some.injEq, Prod.mk.injEq] at h
      obtain ⟨-, rfl, -⟩ := h
      exact Nat.le_succ 1
    · simp only [Option.some.injEq, Prod.mk.injEq] at h
      obtain ⟨-, rfl, -⟩ := h
      split <;> simp
  · obtain ⟨hashed, -, h⟩ := Option.bind_eq_some_iff.mp h
    simp only [Option.some.injEq, Prod.mk.injEq] at h
    obtain ⟨-, rfl, -⟩ := h
    exact Nat.le_succ 1
  · split at h
    all_goals
      simp only [Option.some.injEq, Prod.mk.injEq] at h
      obtain ⟨-, rfl, -⟩ := h
      simp
  · simp only [Option.some.injEq, Prod.mk.injEq] at h
    obtain ⟨-, rfl, -⟩ := h
    exact Nat.zero_le 2
  · cases h
end Handlers

/-- The tasks of a handler that the pool still holds: the handler counts as not
executed until it has changed what it acts on, its posts as posted by then. -/
def Stage.pending : Stage → Multiset Task
  | .entered task => {task}
  | .loaded task _ => {task}
  | .posting _ posts _ => posts
  | _ => 0

def Executor.pool (x : Executor) : Pool :=
  { x.memory with tasks := x.memory.tasks + (x.workers.map Stage.pending).sum }

section Abstraction

variable {file : List Byte} {blocks : List Block} {x x' : Executor} {a : Move} {ok : Move → Prop}
  {i j : ℕ} {stage stage' : Stage}

theorem Pool.view_tasks (p : Pool) (tasks : Multiset Task) (lane : Lane) :
    ({ p with tasks := tasks } : Pool).view lane = p.view lane := by
  cases lane <;> rfl

/-- The tasks of the pool, with those of one worker set apart. -/
theorem Executor.exists_rest (h : x.workers[i]? = some stage) :
    ∃ rest, x.pool = { x.memory with tasks := x.memory.tasks + (stage.pending + rest) } ∧
      ∀ (m : Pool) (stage' : Stage),
        ({ x with memory := m, workers := x.workers.set i stage' } : Executor).pool =
          { m with tasks := m.tasks + (stage'.pending + rest) } := by
  obtain ⟨rest, hsum, hset⟩ := ListSum.exists_sum_set Stage.pending h
  refine ⟨rest, by rw [Executor.pool, hsum], fun m stage' => ?_⟩
  rw [Executor.pool, hset]

theorem Executor.pool_eq_of_pending (h : x.workers[i]? = some stage)
    (hsame : stage'.pending = stage.pending) :
    ({ x with workers := x.workers.set i stage' } : Executor).pool = x.pool := by
  obtain ⟨rest, hpool, hset⟩ := Executor.exists_rest h
  rw [hpool, ← hsame]
  exact hset x.memory stage'

theorem Executor.mem_pool (h : x.workers[i]? = some stage) {t : Task} (ht : t ∈ stage.pending) :
    t ∈ x.pool.tasks := by
  obtain ⟨rest, hpool, -⟩ := Executor.exists_rest h
  rw [hpool]
  exact Multiset.mem_add.mpr (.inr (Multiset.mem_add.mpr (.inl ht)))

/-- Two workers hold different tasks of the pool. -/
theorem Executor.pair_le (hi : x.workers[i]? = some stage) (hj : x.workers[j]? = some stage')
    (hne : i ≠ j) : stage.pending + stage'.pending ≤ x.pool.tasks := by
  obtain ⟨rest, hsum, hset⟩ := ListSum.exists_sum_set Stage.pending hi
  have hj' : (x.workers.set i .idle)[j]? = some stage' := by
    rwa [List.getElem?_set_ne hne]
  obtain ⟨rest', hsum', -⟩ := ListSum.exists_sum_set Stage.pending hj'
  have hrest : rest = stage'.pending + rest' := by
    rw [← hsum', hset]
    exact (Multiset.zero_add rest).symm
  rw [Executor.pool, hsum, hrest, ← Multiset.add_assoc stage.pending]
  exact (Multiset.le_add_right _ _).trans (Multiset.le_add_left _ _)

/-- No two pending tasks belong to one reader. -/
theorem ReadersInvariant.not_pair {p : Pool} (hp : ReadersInvariant blocks p) {t t' : Task} {k : ℕ}
    (ht : t.reader? = some k) (ht' : t'.reader? = some k) : ¬ {t} + {t'} ≤ p.tasks := by
  intro hle
  obtain ⟨rest, hrest⟩ := Multiset.le_iff_exists_add.mp hle
  have hmem : t ∈ p.tasks := Multiset.mem_of_le hle (by simp)
  obtain ⟨b, r, hb, hr⟩ := hp.exists_reader hmem ht
  have hstate := hp.state k b r hb hr
  have hsingle := hstate.tasks_eq (Multiset.mem_filter.mpr ⟨hmem, ht⟩)
  have hpair : p.readerTasks k = t ::ₘ t' ::ₘ tasksOf k rest := by
    rw [Pool.readerTasks, hrest, Multiset.singleton_add, Multiset.cons_add, Multiset.singleton_add,
      tasksOf_cons_of_pos ht, tasksOf_cons_of_pos ht']
  rw [hpair] at hsingle
  have hcard := congrArg Multiset.card hsingle
  simp at hcard

/-! ## Workers do not get in each other's way -/

/-- The writer's strand has one worker at most, and what a worker has read is
what it will change. -/
structure Undisputed (x : Executor) : Prop where
  writer : ∀ (i j : ℕ) (stage stage' : Stage) (s s' : HashedSegment), x.workers[i]? = some stage →
    x.workers[j]? = some stage' → stage.task? = some (.write s) → stage'.task? = some (.write s') →
      i = j
  current : ∀ (i : ℕ) (t : Task) (v : View), x.workers[i]? = some (.loaded t v) →
    x.memory.view t.lane = some v

theorem Undisputed.start (blocks : List Block) : Undisputed (Executor.start blocks) := by
  have hidle : ∀ {i : ℕ} {stage : Stage}, (Executor.start blocks).workers[i]? = some stage →
      stage = .idle := fun h => List.eq_of_mem_replicate (List.mem_of_getElem? h)
  constructor
  · intro i j stage stage' s s' hi _ hstage
    rw [hidle hi] at hstage
    cases hstage
  · intro i t v hi
    cases hidle hi

/-- A worker that stays in its handler or leaves it does not enter the strand. -/
theorem Undisputed.writer_set (hx : Undisputed x) (hstage : x.workers[i]? = some stage)
    (hsame : ∀ t, stage'.task? = some t → stage.task? = some t) :
    ∀ (j k : ℕ) (s s' : Stage) (segment segment' : HashedSegment),
      (x.workers.set i stage')[j]? = some s → (x.workers.set i stage')[k]? = some s' →
        s.task? = some (.write segment) → s'.task? = some (.write segment') → j = k := by
  have hold : ∀ {j : ℕ} {s : Stage} {t : Task}, (x.workers.set i stage')[j]? = some s →
      s.task? = some t → ∃ s₀, x.workers[j]? = some s₀ ∧ s₀.task? = some t := by
    intro j s t hj ht
    rcases ListSum.component_of_set hj with ⟨rfl, rfl⟩ | ⟨-, hj⟩
    · exact ⟨stage, hstage, hsame t ht⟩
    · exact ⟨s, hj, ht⟩
  intro j k s s' segment segment' hj hk hs hs'
  obtain ⟨s₀, hj, hs⟩ := hold hj hs
  obtain ⟨s₁, hk, hs'⟩ := hold hk hs'
  exact hx.writer j k s₀ s₁ segment segment' hj hk hs hs'

theorem Executor.not_write_of_free {s s' : HashedSegment} (h : x.free (.write s) = true)
    (hstage : x.workers[i]? = some stage) : stage.task? ≠ some (.write s') := by
  intro htask
  have hall := List.all_eq_true.mp h stage (List.mem_of_getElem? hstage)
  simp [htask, Task.strand] at hall

theorem Task.reader?_of_lane {t : Task} {k : ℕ} (h : t.lane = .reader k) : t.reader? = some k := by
  cases t with
  | doRead k' =>
      obtain rfl := Lane.reader.inj h
      rfl
  | read k' operation =>
      obtain rfl := Lane.reader.inj h
      rfl
  | hash segment => cases h
  | write segment => cases h
  | throwException exception => cases h

theorem Task.exists_write_of_lane {t : Task} (h : t.lane = .writer) : ∃ s, t = .write s := by
  cases t with
  | write segment => exact ⟨segment, rfl⟩
  | doRead k => cases h
  | read k operation => cases h
  | hash segment => cases h
  | throwException exception => cases h

/-- The task that the handler of the worker may still act on. -/
def Stage.acting? : Stage → Option Task
  | .entered task => some task
  | .loaded task _ => some task
  | _ => none

theorem Stage.pending_of_acting {t : Task} (h : stage.acting? = some t) :
    stage.pending = {t} ∧ stage.task? = some t := by
  cases stage with
  | entered task =>
      obtain rfl := Option.some.inj h
      exact ⟨rfl, rfl⟩
  | loaded task v =>
      obtain rfl := Option.some.inj h
      exact ⟨rfl, rfl⟩
  | idle => cases h
  | posting task posts signal => cases h
  | caught exception => cases h
  | stored => cases h
  | finished => cases h

/-- Handlers that act on the same thing act on nothing shared. -/
theorem Undisputed.own_of_lane (hx : Undisputed x) (hreaders : ReadersInvariant blocks x.pool)
    {t t' : Task} (hi : x.workers[i]? = some stage) (hj : x.workers[j]? = some stage')
    (hacting : stage.acting? = some t) (hacting' : stage'.acting? = some t') (hne : i ≠ j)
    (hlane : t.lane = t'.lane) : ∃ t₀, t'.lane = .own t₀ := by
  obtain ⟨hpending, htask⟩ := Stage.pending_of_acting hacting
  obtain ⟨hpending', htask'⟩ := Stage.pending_of_acting hacting'
  cases hlane' : t'.lane with
  | reader k =>
      rw [hlane'] at hlane
      have hle := Executor.pair_le hi hj hne
      rw [hpending, hpending'] at hle
      exact absurd hle
        (hreaders.not_pair (Task.reader?_of_lane hlane) (Task.reader?_of_lane hlane'))
  | writer =>
      rw [hlane'] at hlane
      obtain ⟨s, rfl⟩ := Task.exists_write_of_lane hlane
      obtain ⟨s', rfl⟩ := Task.exists_write_of_lane hlane'
      exact absurd (hx.writer i j _ _ s s' hi hj htask htask') hne
  | own t₀ => exact ⟨t₀, rfl⟩

theorem Undisputed.step (hx : Undisputed x) (hreaders : ReadersInvariant blocks x.pool)
    (h : Advance file x a x') : Undisputed x' := by
  have hcurrent : ∀ {j : ℕ} {stage₀ : Stage}, (∀ t v, stage₀ ≠ .loaded t v) →
      ∀ (i : ℕ) (t : Task) (v : View), (x.workers.set j stage₀)[i]? = some (.loaded t v) →
        x.memory.view t.lane = some v := by
    intro j stage₀ hstage i t v hi
    rcases ListSum.component_of_set hi with ⟨-, heq⟩ | ⟨-, hi⟩
    · exact absurd heq.symm (hstage t v)
    · exact hx.current i t v hi
  cases h with
  | @enter worker task hidle hmem hfree =>
      refine ⟨?_, fun i t v hi => (Pool.view_tasks _ _ _).trans (hcurrent (by simp) i t v hi)⟩
      intro i j stage stage' s s' hi hj hs hs'
      rcases ListSum.component_of_set hi with ⟨rfl, rfl⟩ | ⟨-, hi₀⟩
      · rcases ListSum.component_of_set hj with ⟨rfl, rfl⟩ | ⟨-, hj₀⟩
        · rfl
        · obtain rfl := Option.some.inj hs
          exact absurd hs' (Executor.not_write_of_free hfree hj₀)
      · rcases ListSum.component_of_set hj with ⟨rfl, rfl⟩ | ⟨-, hj₀⟩
        · obtain rfl := Option.some.inj hs'
          exact absurd hs (Executor.not_write_of_free hfree hi₀)
        · exact hx.writer i j stage stage' s s' hi₀ hj₀ hs hs'
  | @load worker task v hentered hview =>
      refine ⟨hx.writer_set hentered fun t ht => ht, fun i t v' hi => ?_⟩
      rcases ListSum.component_of_set hi with ⟨rfl, heq⟩ | ⟨-, hi⟩
      · obtain ⟨rfl, rfl⟩ := Stage.loaded.inj heq
        exact hview
      · exact hx.current i t v' hi
  | @commit worker environment task v update posts signal hloaded hhandle =>
      refine ⟨hx.writer_set hloaded fun t ht => ht, fun i t v' hi => ?_⟩
      rcases ListSum.component_of_set hi with ⟨-, heq⟩ | ⟨hne, hi⟩
      · cases heq
      · have hview := hx.current i t v' hi
        obtain ⟨hu, -⟩ := Task.handle_transition (hx.current worker task v hloaded) hhandle
        by_cases hlane : task.lane = t.lane
        · obtain ⟨t', hown⟩ := hx.own_of_lane hreaders hloaded hi rfl rfl hne hlane
          rw [hown] at hview ⊢
          exact hview
        · exact (hu.view_eq hlane).trans hview
  | @post worker task post posts signal hposting =>
      refine ⟨hx.writer_set hposting fun t ht => ht, fun i t v hi => ?_⟩
      exact (Pool.view_tasks _ _ _).trans (hcurrent (by simp) i t v hi)
  | quiet hposting => exact ⟨hx.writer_set hposting (by simp [Stage.task?]), hcurrent (by simp)⟩
  | success hposting => exact ⟨hx.writer_set hposting (by simp [Stage.task?]), hcurrent (by simp)⟩
  | raise hposting => exact ⟨hx.writer_set hposting (by simp [Stage.task?]), hcurrent (by simp)⟩
  | store hcaught => exact ⟨hx.writer_set hcaught (by simp [Stage.task?]), hcurrent (by simp)⟩
  | shutdown hstored => exact ⟨hx.writer_set hstored (by simp [Stage.task?]), hcurrent (by simp)⟩
  | stop hthread => exact ⟨hx.writer, hx.current⟩
  | leave hidle hstopped => exact ⟨hx.writer_set hidle (by simp [Stage.task?]), hcurrent (by simp)⟩
  | exit hfinished => exact ⟨hx.writer, hx.current⟩

/-- The pool executes a task when its handler changes what it acts on. -/
theorem Undisputed.commit (hx : Undisputed x) {worker : ℕ} {e : Environment} {t : Task} {v : View}
    {u : Update} {posts : List Task} {signal : Signal}
    (hloaded : x.workers[worker]? = some (.loaded t v))
    (hhandle : t.handle file e v = some (u, posts, signal)) :
    x.pool.next file (t, e) = some ({ x with
      memory := x.memory.update u
      workers := x.workers.set worker (.posting t posts signal) } : Executor).pool := by
  obtain ⟨rest, hpool, hset⟩ := Executor.exists_rest hloaded
  have hview : x.pool.view t.lane = some v :=
    (Pool.view_tasks _ _ _).trans (hx.current worker t v hloaded)
  obtain ⟨-, htransition⟩ := Task.handle_transition hview hhandle
  have hsame : (x.pool.update u).replace t posts =
      { x.memory.update u with tasks := (x.memory.update u).tasks + (posts + rest) } := by
    have htasks : posts + (x.memory.tasks + ({t} + rest)).erase t =
        x.memory.tasks + (posts + rest) := by
      rw [Multiset.singleton_add, Multiset.add_cons, Multiset.erase_cons_head]
      exact add_left_comm _ _ _
    rw [Pool.replace, Pool.update_tasks, Pool.update_tasks, hpool, ← htasks]
    cases u <;> rfl
  refine Pool.next_eq_some_iff.mpr ⟨signal, ?_, ?_⟩
  · exact Executor.mem_pool hloaded (Multiset.mem_singleton_self _)
  · rw [hset]
    exact hsame ▸ htransition

/-- A step of the executor is a step of its pool, or none. -/
theorem Advance.pool (hx : Undisputed x) (h : Advance file x a x') :
    x'.pool = x.pool ∨ ∃ worker task environment, a = .commit worker environment ∧
      x.pool.next file (task, environment) = some x'.pool := by
  cases h with
  | @enter worker task hidle hmem hfree =>
      obtain ⟨rest, hpool, hset⟩ := Executor.exists_rest hidle
      obtain ⟨others, hothers⟩ := Multiset.exists_cons_of_mem hmem
      refine .inl ?_
      rw [hset, hpool]
      simp only [Stage.pending, hothers, Multiset.erase_cons_head, Multiset.zero_add,
        Multiset.singleton_add, Multiset.add_cons, Multiset.cons_add]
  | @load worker task v hentered hview =>
      exact .inl (Executor.pool_eq_of_pending hentered rfl)
  | @commit worker environment task v update posts signal hloaded hhandle =>
      exact .inr ⟨worker, task, environment, rfl, hx.commit hloaded hhandle⟩
  | @post worker task post posts signal hposting =>
      obtain ⟨rest, hpool, hset⟩ := Executor.exists_rest hposting
      refine .inl ?_
      rw [hset, hpool]
      simp only [Stage.pending, Pool.post, ← Multiset.cons_coe, Multiset.cons_add,
        Multiset.add_cons]
  | quiet hposting => exact .inl (Executor.pool_eq_of_pending hposting rfl)
  | success hposting => exact .inl (Executor.pool_eq_of_pending hposting rfl)
  | raise hposting => exact .inl (Executor.pool_eq_of_pending hposting rfl)
  | store hcaught => exact .inl (Executor.pool_eq_of_pending hcaught rfl)
  | shutdown hstored => exact .inl (Executor.pool_eq_of_pending hstored rfl)
  | stop hthread => exact .inl rfl
  | leave hidle hstopped => exact .inl (Executor.pool_eq_of_pending hidle rfl)
  | exit hfinished => exact .inl rfl

theorem Executor.pool_start (blocks : List Block) :
    (Executor.start blocks).pool = Pool.start blocks := by
  have hnone : ((List.replicate blocks.length Stage.idle).map Stage.pending).sum = 0 := by
    simp [Stage.pending]
  rw [Executor.pool, Executor.start, hnone, Multiset.add_zero]

theorem Executor.pool_step {okTask : Task × Environment → Prop}
    (hok : ∀ worker task environment, ok (.commit worker environment) →
      okTask (task, environment))
    (hx : Undisputed x ∧ Reachable (Pool.next file) okTask (Pool.start blocks) x.pool)
    (ha : ok a) (hstep : x.step file a = some x') :
    Undisputed x' ∧ Reachable (Pool.next file) okTask (Pool.start blocks) x'.pool := by
  obtain ⟨hx, hpool⟩ := hx
  have hadvance := Executor.advance_of_step hstep
  refine ⟨hx.step (.reachable hpool) hadvance, ?_⟩
  rcases hadvance.pool hx with hsame | ⟨worker, task, environment, rfl, hnext⟩
  · exact hsame ▸ hpool
  · exact hpool.tail (hok worker task environment ha) hnext

/-- Every execution with overlapping handlers is one of the pool. -/
theorem Executor.pool_reachable {okTask : Task × Environment → Prop}
    (hok : ∀ worker task environment, ok (.commit worker environment) →
      okTask (task, environment))
    (h : Reachable (Executor.step file) ok (Executor.start blocks) x) :
    Undisputed x ∧ Reachable (Pool.next file) okTask (Pool.start blocks) x.pool := by
  refine h.invariant (I := fun x =>
    Undisputed x ∧ Reachable (Pool.next file) okTask (Pool.start blocks) x.pool) ?_ ?_
  · exact fun x a x' hx ha hstep => Executor.pool_step hok hx ha hstep
  · exact ⟨.start blocks, Executor.pool_start blocks ▸ .refl _⟩

/-- Handlers may overlap, but not two that act on the same reader, though the
reads run on no strand, nor two that act on the writer; and every execution is
one of the pool, where each task is executed at once. -/
theorem executor_refines_pool (file : List Byte) (blocks : List Block) (x : Executor)
    (h : Reachable (Executor.step file) (fun _ => True) (Executor.start blocks) x) :
    Reachable (Pool.next file) (fun _ => True) (Pool.start blocks) x.pool ∧
    ∀ (i j : ℕ) (stage stage' : Stage) (t t' : Task), x.workers[i]? = some stage →
      x.workers[j]? = some stage' → stage.acting? = some t → stage'.acting? = some t' → i ≠ j →
        t.lane = t'.lane → ∃ t₀, t'.lane = .own t₀ := by
  have hboth : Undisputed x ∧
      Reachable (Pool.next file) (fun _ => True) (Pool.start blocks) x.pool :=
    Executor.pool_reachable (fun _ _ _ _ => trivial) h
  obtain ⟨hx, hpool⟩ := hboth
  refine ⟨hpool, ?_⟩
  intro i j stage stage' t t' hi hj hacting hacting' hne hlane
  exact hx.own_of_lane (.reachable hpool) hi hj hacting hacting' hne hlane

end Abstraction

/-- Both workers are in the middle of a read. -/
def overlapping : List Move :=
  [.enter 0 (.doRead 0), .enter 1 (.doRead 1), .load 1, .load 0, .commit 0 complete,
    .commit 1 complete, .post 1, .post 0, .finish 0, .finish 1, .enter 0 (.read 1 .entireBlock),
    .enter 1 (.read 0 .entireBlock), .load 0, .load 1]

theorem executor_refines_pool_overlapping : ∃ x : Executor,
    Reachable (Pool.next [1, 2, 3]) (fun _ => True) (Pool.start neighbours) x.pool ∧
    ∀ (i j : ℕ) (stage stage' : Stage) (t t' : Task), x.workers[i]? = some stage →
      x.workers[j]? = some stage' → stage.acting? = some t → stage'.acting? = some t' → i ≠ j →
        t.lane = t'.lane → ∃ t₀, t'.lane = .own t₀ := by
  have hrun : (overlapping.foldlM (Executor.step [1, 2, 3])
      (Executor.start neighbours)).isSome := by
    decide +kernel
  obtain ⟨x, hx⟩ := Option.isSome_iff_exists.mp hrun
  exact ⟨x, executor_refines_pool [1, 2, 3] neighbours x (.of_foldlM (fun _ _ => trivial) hx)⟩

end VeeamSignature.Signature2
