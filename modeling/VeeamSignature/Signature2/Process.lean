import VeeamSignature.ArgumentParser
import VeeamSignature.Signature2.Threads

/-!
# The second version on a file system

`main` opens the output before the readers open the input, and the readers read
through their descriptors while the writer writes.  The bytes that a read finds
are those its file has at that time.  At the end `main` destroys the writer, and
with it the stream.
-/

namespace VeeamSignature.Signature2

open Files LabelledSystem

/-- The exceptions of `block_file_t`, `writer_t` and `block_reader_t`. -/
inductive LaunchError
  | retrieveSize (e : Errno)
  | deleteOutput (e : Errno)
  | openOutput
  | openReader (blockId : ℕ) (e : Errno)

def LaunchError.what (inputPath outputPath : Path) : LaunchError → String
  | .retrieveSize e =>
      s!"failed to retrieve input file '{pathString inputPath}' size: {e.message}"
  | .deleteOutput e =>
      s!"failed to delete existing output file '{pathString outputPath}': {e.message}"
  | .openOutput => s!"failed to write file '{pathString outputPath}': {iostreamError}"
  | .openReader blockId e =>
      s!"failed to open file '{pathString inputPath}' while reading block '{blockId}': {e.message}"

/-- The program when the threads run: the descriptors of the readers, in the
order of the blocks, and the file that the writer has opened. -/
structure Process where
  arguments : Arguments
  fileSystem : FileSystem (List Byte)
  descriptors : List Inode
  output : Inode
  system : System

/-- How far `main` gets before the threads start; a failure has the text that
`main` reports.  Without a core the layout divides by zero. -/
inductive Launch
  | failed (what : String) (fileSystem : FileSystem (List Byte))
  | crashed (fileSystem : FileSystem (List Byte))
  | started (process : Process)

def Launch.fileSystem : Launch → FileSystem (List Byte)
  | .failed _ fileSystem => fileSystem
  | .crashed fileSystem => fileSystem
  | .started process => process.fileSystem

/-- The constructor of `block_reader_t` opens the input. -/
def openReader (fs : FileSystem (List Byte)) (faults : Faults) (path : Path) (b : Block) :
    Except LaunchError Inode :=
  match faults (.openReader b.blockId), fs.resolve path with
  | some e, _ => .error (.openReader b.blockId e)
  | none, .error e => .error (.openReader b.blockId e)
  | none, .ok i => .ok i

/-- `main` from the parser to the threads. -/
def startThreads (fs : FileSystem (List Byte)) (faults : Faults) (args : Arguments)
    (cpuCoreCount : ℕ) : Launch :=
  let failed (error : LaunchError) (fs : FileSystem (List Byte)) : Launch :=
    .failed (error.what args.inputPath args.outputPath) fs
  match fileSize fs (faults .inputSize) args.inputPath with
  | .error e => failed (.retrieveSize e) fs
  | .ok F =>
      match blockFileBlocks F.size cpuCoreCount args.chunkSize with
      | none => .crashed fs
      | some blocks =>
          match prepareOutput fs faults args.outputPath with
          | (.error (.delete e), fs) => failed (.deleteOutput e) fs
          | (.error .write, fs) => failed .openOutput fs
          | (.ok output, fs) =>
              match blocks.mapM (openReader fs faults args.inputPath) with
              | .error error => failed error fs
              | .ok descriptors => .started ⟨args, fs, descriptors, output, .start blocks⟩

/-- `main` up to the threads. -/
def launch (lexicalCast : List Char → Except String ℕ) (fs : FileSystem (List Byte))
    (faults : Faults) (current : Path) (options : VariablesMap) (cpuCoreCount : ℕ) : Launch :=
  match parser lexicalCast fs faults current options with
  | .error e => .failed e.what fs
  | .ok args => startThreads fs faults args cpuCoreCount

/-- What the stream has passed to its file: the bytes of the writer, and once
`main` has returned, those that the destructor of a failed stream has written. -/
def System.output (s : System) : List Byte :=
  s.pool.writer.written ++ if s.exitCode.isSome then s.pool.writer.buffered else []

namespace Process

/-- The bytes of the file that the action reads. -/
def file (p : Process) : Action → List Byte
  | .run _ (.read k _) _ => ((p.descriptors[k]?).bind p.fileSystem.content?).getD []
  | _ => []

/-- What is new in the output goes to the file. -/
def step (p : Process) (a : Action) : Option Process :=
  (p.system.step (p.file a) a).map fun system =>
    { p with
      fileSystem :=
        appendOutput p.fileSystem p.output (system.output.drop p.system.output.length)
      system := system }

/-- The text of the exception that `main` reports at its end. -/
def reported (p : Process) : Option String :=
  if p.system.exitCode.isSome then
    p.system.occurredException.map (Exception.what (pathString p.arguments.outputPath))
  else none

end Process

section Frame

variable {lexicalCast : List Char → Except String ℕ} {fs : FileSystem (List Byte)}
  {faults : Faults} {current : Path} {options : VariablesMap} {args : Arguments}
  {cpuCoreCount : ℕ} {i : Inode} {bytes : List Byte}

/-- The process writes another file than the input, which all its readers read;
a regular output file holds what the writer has written. -/
structure ProcessInvariant (input : Path) (i : Inode) (bytes : List Byte) (p : Process) :
    Prop where
  intact : Intact p.fileSystem input i bytes
  apart : i ≠ p.output
  descriptors : ∀ d ∈ p.descriptors, d = i
  length : p.system.pool.readers.length = p.descriptors.length
  stored : ∀ content, p.fileSystem.content? p.output = some content →
    content = p.system.output

theorem System.length_readers {file : List Byte} {s s' : System} {a : Action}
    (h : s.step file a = some s') : s'.pool.readers.length = s.pool.readers.length := by
  rcases (System.step_eq_some_iff.mp h).2.pool with hsame | ⟨_, _, _, _, hnext⟩
  · rw [hsame]
  · obtain ⟨signal, -, htransition⟩ := Pool.next_eq_some_iff.mp hnext
    obtain ⟨posted, hposted⟩ := htransition.posts
    exact hposted.length

/-- Only the reads of the readers look at the file. -/
theorem System.step_congr {file file' : List Byte} {s : System} {a : Action}
    (h : ∀ worker k operation e, a = .run worker (.read k operation) e →
      k < s.pool.readers.length → file = file') : s.step file a = s.step file' a := by
  cases a with
  | run worker task e =>
      cases task with
      | read k operation =>
          by_cases hk : k < s.pool.readers.length
          · rw [h worker k operation e rfl hk]
          · have hnone : s.pool.readers[k]? = none := List.getElem?_eq_none (Nat.le_of_not_lt hk)
            simp [System.step, System.act, Pool.step, Pool.exec, hnone]
      | doRead => rfl
      | hash => rfl
      | write => rfl
      | throwException => rfl
  | store => rfl
  | shutdown => rfl
  | stop => rfl
  | leave => rfl
  | exit => rfl

theorem Step.written_prefix {file : List Byte} {s s' : System} {a : Action}
    (h : Step file s a s') : s.pool.writer.written <+: s'.pool.writer.written := by
  rcases h.pool with hsame | ⟨_, _, _, _, hnext⟩
  · rw [hsame]
  · obtain ⟨signal, -, htransition⟩ := Pool.next_eq_some_iff.mp hnext
    rcases htransition.writer with hsame | ⟨_, _, -, hreceived, -⟩
    · rw [hsame]
    · exact hreceived.written_prefix

/-- The output only grows. -/
theorem System.output_prefix {file : List Byte} {s s' : System} {a : Action}
    (h : s.step file a = some s') : s.output <+: s'.output := by
  obtain ⟨hexit, hstep⟩ := System.step_eq_some_iff.mp h
  have hwritten : s.output = s.pool.writer.written := by
    simp [System.output, hexit]
  rw [hwritten]
  exact hstep.written_prefix.trans (List.prefix_append _ _)

theorem System.output_append_drop {file : List Byte} {s s' : System} {a : Action}
    (h : s.step file a = some s') : s.output ++ s'.output.drop s.output.length = s'.output :=
  List.prefix_iff_eq_append.mp (System.output_prefix h)

theorem ProcessInvariant.step {path : Path} {p p' : Process} {a : Action}
    (hp : ProcessInvariant path i bytes p) (h : p.step a = some p') :
    ProcessInvariant path i bytes p' := by
  obtain ⟨system, hstep, rfl⟩ := Option.map_eq_some_iff.mp h
  refine ⟨hp.intact.appendOutput hp.apart _, hp.apart, hp.descriptors,
    (System.length_readers hstep).trans hp.length, ?_⟩
  intro content hcontent
  rw [content?_appendOutput] at hcontent
  obtain ⟨old, hold, rfl⟩ := Option.map_eq_some_iff.mp hcontent
  rw [hp.stored old hold]
  exact System.output_append_drop hstep

theorem ProcessInvariant.system_step {path : Path} {p p' : Process} {a : Action}
    (hp : ProcessInvariant path i bytes p) (h : p.step a = some p') :
    p.system.step bytes a = some p'.system := by
  obtain ⟨system, hstep, rfl⟩ := Option.map_eq_some_iff.mp h
  rw [← hstep]
  apply System.step_congr
  rintro worker k operation e rfl hk
  have hlt : k < p.descriptors.length := hp.length ▸ hk
  have hdescriptor := hp.descriptors _ (List.getElem_mem hlt)
  simp [Process.file, List.getElem?_eq_getElem hlt, hdescriptor, hp.intact.content]

theorem openReaders_eq {path : Path} (hinput : Intact fs path i bytes) {blocks : List Block}
    {descriptors : List Inode} (h : blocks.mapM (openReader fs faults path) = .ok descriptors) :
    (∀ d ∈ descriptors, d = i) ∧ blocks.length = descriptors.length := by
  induction blocks generalizing descriptors with
  | nil =>
      obtain rfl : [] = descriptors := Except.ok.inj h
      simp
  | cons b blocks ih =>
      rw [List.mapM_cons] at h
      cases hb : openReader fs faults path b with
      | error e =>
          rw [hb] at h
          cases h
      | ok d =>
          rw [hb] at h
          cases hrest : blocks.mapM (openReader fs faults path) with
          | error e =>
              rw [hrest] at h
              cases h
          | ok rest =>
              rw [hrest] at h
              obtain rfl : d :: rest = descriptors := Except.ok.inj h
              have hd : d = i := by
                simp only [openReader, hinput.resolved] at hb
                cases hfault : faults (.openReader b.blockId) with
                | some e => simp [hfault] at hb
                | none => simpa [hfault] using hb.symm
              obtain ⟨hall, hlength⟩ := ih hrest
              exact ⟨List.forall_mem_cons.mpr ⟨hd, hall⟩, congrArg (· + 1) hlength⟩

theorem launch_of_parsed (hargs : parser lexicalCast fs faults current options = .ok args) :
    launch lexicalCast fs faults current options cpuCoreCount =
      startThreads fs faults args cpuCoreCount := by
  rw [launch, hargs]

/-- `main` leaves the input file as it was, and the threads start with it. -/
theorem startThreads_intact (hapart : Apart fs faults args.inputPath args.outputPath)
    (hinput : Intact fs args.inputPath i bytes) :
    Intact (startThreads fs faults args cpuCoreCount).fileSystem args.inputPath i bytes ∧
      ∀ p, startThreads fs faults args cpuCoreCount = .started p →
        ProcessInvariant args.inputPath i bytes p := by
  unfold startThreads
  split
  · exact ⟨hinput, fun p hp => by cases hp⟩
  · split
    · exact ⟨hinput, fun p hp => by cases hp⟩
    · split
      case h_1 fs₁ hprepare =>
        exact ⟨(hapart.prepareOutput hinput hprepare).1, fun p hp => by cases hp⟩
      case h_2 fs₁ hprepare =>
        exact ⟨(hapart.prepareOutput hinput hprepare).1, fun p hp => by cases hp⟩
      case h_3 o fs₁ hprepare =>
        obtain ⟨hintact, hne⟩ := hapart.prepareOutput hinput hprepare
        split
        · exact ⟨hintact, fun p hp => by cases hp⟩
        case h_2 descriptors hreaders =>
          obtain ⟨hsame, hlength⟩ := openReaders_eq hintact hreaders
          refine ⟨hintact, ?_⟩
          intro p hp
          obtain rfl := Launch.started.inj hp
          exact ⟨hintact, fun heq => hne (heq ▸ rfl), hsame, by simpa [System.start, Pool.start],
            fun _ => eq_of_content?_prepareOutput hprepare⟩

/-- The threads start with the blocks of the input file. -/
theorem startThreads_started (hinput : Intact fs args.inputPath i bytes) {p : Process}
    (h : startThreads fs faults args cpuCoreCount = .started p) :
    ∃ (F : FileContent) (blocks : List Block), F.bytes = bytes ∧
      blockFileBlocks F.size cpuCoreCount args.chunkSize = some blocks ∧
      p.arguments = args ∧ p.system = System.start blocks := by
  unfold startThreads at h
  split at h
  · cases h
  case h_2 F hF =>
    split at h
    · cases h
    case h_2 blocks hblocks =>
      split at h
      · cases h
      · cases h
      · split at h
        · cases h
        · obtain rfl := Launch.started.inj h
          exact ⟨F, blocks, bytes_of_fileSize hinput hF, hblocks, rfl, rfl⟩

theorem ProcessInvariant.reachable {path : Path} {p q : Process} {ok : Action → Prop}
    (hp : ProcessInvariant path i bytes p) (h : Reachable Process.step ok p q) :
    ProcessInvariant path i bytes q :=
  h.invariant (fun _ _ _ hp _ hstep => hp.step hstep) hp

/-- A run of the process is a run of its threads on the bytes of the input. -/
theorem ProcessInvariant.system_run {path : Path} {p q : Process} {ok : Action → Prop}
    {xs : List Action} (hp : ProcessInvariant path i bytes p) (h : Run Process.step ok p xs q) :
    Run (System.step bytes) ok p.system xs q.system := by
  induction h with
  | nil p => exact .nil _
  | cons ha hstep _ ih => exact .cons ha (hp.system_step hstep) (ih (hp.step hstep))

theorem ProcessInvariant.system_reachable {path : Path} {p q : Process} {ok : Action → Prop}
    (hp : ProcessInvariant path i bytes p) (h : Reachable Process.step ok p q) :
    Reachable (System.step bytes) ok p.system q.system := by
  obtain ⟨xs, hrun⟩ := h
  exact ⟨xs, hp.system_run hrun⟩

theorem Process.arguments_eq {p q : Process} {ok : Action → Prop}
    (h : Reachable Process.step ok p q) : q.arguments = p.arguments := by
  refine h.invariant (I := fun q => q.arguments = p.arguments) ?_ rfl
  intro q a q' hq _ hstep
  obtain ⟨system, -, rfl⟩ := Option.map_eq_some_iff.mp hstep
  exact hq

end Frame

end VeeamSignature.Signature2
