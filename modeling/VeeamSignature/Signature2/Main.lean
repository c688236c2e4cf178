import VeeamSignature.BlockTiling
import VeeamSignature.Signature2.Pool

/-!
# The second version of the program

`main` starts one worker per block, the first of them in its own thread.  A
worker runs tasks of the pool until the context is stopped or a task throws; a
worker that catches an exception stores it, and then starts a thread that
stops the context.  When the first worker is done, `main` reports failure if
an exception is stored.
-/

namespace VeeamSignature.Signature2

/-- Where a worker is: in `run()`, in its `catch` clause before the exception
is stored, there before the shutdown thread is started, or done. -/
inductive Worker
  | running
  | caught (exception : Exception)
  | stored
  | finished
  deriving DecidableEq

inductive ExitCode
  | success
  | failure
  deriving DecidableEq

/-- The state of `main` after the readers are started.  `shutdownThreads`
counts the detached threads that have not called `stop()` yet. -/
structure System where
  pool : Pool
  workers : List Worker
  occurredException : Option Exception
  shutdownThreads : ℕ
  stopped : Bool
  exitCode : Option ExitCode
  deriving DecidableEq

/-- The steps of the threads. -/
inductive Action
  | run (worker : ℕ) (task : Task) (environment : Environment)
  | store (worker : ℕ)
  | shutdown (worker : ℕ)
  | stop
  | leave (worker : ℕ)
  | exit

namespace System

def start (blocks : List Block) : System where
  pool := Pool.start blocks
  workers := List.replicate blocks.length .running
  occurredException := none
  shutdownThreads := 0
  stopped := false
  exitCode := none

def react (s : System) (worker : ℕ) : Signal → System
  | .quiet => s
  | .shutdown => { s with shutdownThreads := s.shutdownThreads + 1 }
  | .raise exception => { s with workers := s.workers.set worker (.caught exception) }

def act (file : List Byte) (s : System) : Action → Option System
  | .run worker task environment =>
      if s.workers[worker]? = some .running ∧ s.stopped = false then
        (s.pool.step file (task, environment)).map fun (pool, signal) =>
          ({ s with pool := pool }).react worker signal
      else none
  | .store worker =>
      match s.workers[worker]? with
      | some (.caught exception) =>
          some { s with occurredException := some exception,
                        workers := s.workers.set worker .stored }
      | _ => none
  | .shutdown worker =>
      if s.workers[worker]? = some .stored then
        some { s with shutdownThreads := s.shutdownThreads + 1,
                      workers := s.workers.set worker .finished }
      else none
  | .stop =>
      if 0 < s.shutdownThreads then
        some { s with stopped := true, shutdownThreads := s.shutdownThreads - 1 }
      else none
  | .leave worker =>
      if s.workers[worker]? = some .running ∧ s.stopped = true then
        some { s with workers := s.workers.set worker .finished }
      else none
  | .exit =>
      if s.workers[0]? = some .finished then
        let code := if s.occurredException.isSome then ExitCode.failure else .success
        some { s with exitCode := some code }
      else none

def step (file : List Byte) (s : System) (a : Action) : Option System :=
  if s.exitCode.isSome then none else s.act file a

end System

end VeeamSignature.Signature2
