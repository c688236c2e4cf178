import Mathlib.Data.Multiset.AddSub
import Mathlib.Data.Multiset.Range
import VeeamSignature.Library.LabelledSystem
import VeeamSignature.Signature2.BlockReader
import VeeamSignature.Signature2.Writer

/-!
# The tasks of the pool

The `io_context` holds the pending tasks of the readers, the hasher and the
writer.  Tasks of different readers and of the hasher share no data, those of
a reader and of the writer are serialised by a strand, so that executing a
pending task is one step; any pending task may be next.
-/

namespace VeeamSignature.Signature2

inductive Exception
  | readFailed (error : String)
  | writeFailed (error : String)
  deriving DecidableEq

def Exception.what (outputPath : String) : Exception → String
  | .readFailed error => s!"failed to read file segment: {error}"
  | .writeFailed error => s!"signature file'{outputPath}' write failed: {error}"

inductive Task
  | doRead (reader : ℕ)
  | read (reader : ℕ) (operation : ReadOperation)
  | hash (segment : Segment)
  | write (segment : HashedSegment)
  | throwException (exception : Exception)
  deriving DecidableEq

/-- The answers of the environment to the system calls of a task. -/
structure Environment where
  read : ReadResult
  stream : StreamResult
  deriving DecidableEq

def complete : Environment := ⟨.complete, .complete⟩

/-- What a task does apart from changing the pool: nothing, starting the thread
that stops the context, or leaving `run()` by an exception. -/
inductive Signal
  | quiet
  | shutdown
  | raise (exception : Exception)
  deriving DecidableEq

structure Pool where
  readers : List BlockReader
  writer : Writer
  tasks : Multiset Task
  deriving DecidableEq

namespace Pool

def post (p : Pool) (t : Task) : Pool := { p with tasks := t ::ₘ p.tasks }

/-- The callback of the readers. -/
def readerCallback (p : Pool) : Except String Segment → Pool
  | .ok segment => p.post (.hash segment)
  | .error error => p.post (.throwException (.readFailed error))

/-- The callback of the writer. -/
def writerCallback (p : Pool) : WriterResult → Pool × Signal
  | .success => (p, .shutdown)
  | .error error => (p.post (.throwException (.writeFailed error)), .quiet)

def exec (file : List Byte) (environment : Environment) (p : Pool) :
    Task → Option (Pool × Signal)
  | .doRead k => do
      let r ← p.readers[k]?
      let (r, operation) := r.doRead
      some (({ p with readers := p.readers.set k r }).post (.read k operation), .quiet)
  | .read k operation => do
      let r ← p.readers[k]?
      let (r, result) := r.perform file operation environment.read
      let p := ({ p with readers := p.readers.set k r }).readerCallback result
      match result with
      | .error _ => some (p, .quiet)
      | .ok _ => some (if operation.again then p.post (.doRead k) else p, .quiet)
  | .hash segment => do
      let hashed ← segmentHasher segment
      some (p.post (.write hashed), .quiet)
  | .write segment =>
      let (w, answer) := p.writer.receive segment environment.stream
      match answer with
      | none => some ({ p with writer := w }, .quiet)
      | some result => some (({ p with writer := w }).writerCallback result)
  | .throwException exception => some (p, .raise exception)

def step (file : List Byte) (p : Pool) (a : Task × Environment) : Option (Pool × Signal) :=
  if a.1 ∈ p.tasks then exec file a.2 { p with tasks := p.tasks.erase a.1 } a.1 else none

/-- The pool when the worker threads start: `main` has constructed the readers
and posted the first `do_read` of each. -/
def start (blocks : List Block) : Pool where
  readers := blocks.map BlockReader.start
  writer := Writer.start blocks
  tasks := (Multiset.range blocks.length).map Task.doRead

def next (file : List Byte) (p : Pool) (a : Task × Environment) : Option Pool :=
  (p.step file a).map Prod.fst

end Pool

/-! ## Two readers -/

def oneByte : Block := ⟨0, 0, 1, 1, SizeT.one_lt_modulus, Nat.one_pos⟩

def twoBytes : Block := ⟨1, 1, 2, 1, SizeT.two_lt_modulus, Nat.one_pos⟩

def neighbours : List Block := [oneByte, twoBytes]

/-- What the readers deliver from a file that starts with the bytes 1 and 2. -/
def firstNeighbour : Segment := ⟨0, 1, 1, 0, 0, [1]⟩

def secondNeighbour : Segment := ⟨1, 1, 2, 0, 0, [1, 2]⟩

/-- One worker: the tasks in the order in which they are posted. -/
def inPostOrder : List (Task × Environment) :=
  [.doRead 0, .doRead 1, .read 0 .entireBlock, .read 1 .entireBlock, .hash firstNeighbour,
    .hash secondNeighbour, .write (hashOf firstNeighbour),
    .write (hashOf secondNeighbour)].map (·, complete)

/-- Two workers, the second of which is slow. -/
def unevenly : List (Task × Environment) :=
  [.doRead 0, .read 0 .entireBlock, .hash firstNeighbour, .write (hashOf firstNeighbour),
    .doRead 1, .read 1 .entireBlock, .hash secondNeighbour,
    .write (hashOf secondNeighbour)].map (·, complete)

end VeeamSignature.Signature2
