import VeeamSignature.ArgumentParser
import VeeamSignature.Signature.Program

/-!
# The first version on a file system

`main` maps the input file, hashes it, and only then touches the output.
-/

namespace VeeamSignature.Signature

open Files Slices

/-- How `main` ends: with the signature written, with the text of the exception
that it reports, or with a signal. -/
inductive Result
  | success (written : List Byte)
  | failure (what : String)
  | crash

def Outcome.result (args : Arguments) : Outcome → Result
  | .success written => .success written
  | .failure error =>
      .failure (error.what (pathString args.inputPath) (pathString args.outputPath))
  | .crash => .crash

/-- The constructor of `mapped_file_t` up to the mapping. -/
def mapFile (fs : FileSystem (List Byte)) (faults : Faults) (path : Path) :
    Except Error FileContent :=
  match fileSize fs (faults .inputSize) path with
  | .error e => .error (.retrieveSize e.message)
  | .ok F =>
      match faults .openInput, faults .mapInput with
      | some _, _ => .error .openInput
      | none, some e => .error (.mapInput e.message)
      | none, none => .ok F

/-- `writer_t::operator()`.  An exception leaves through the destructor of the
stream, which writes what a failed call has left in the buffer. -/
def writer (fs : FileSystem (List Byte)) (faults : Faults) (stream : StreamResult) (path : Path)
    (bytes : List Byte) : Outcome × FileSystem (List Byte) :=
  match prepareOutput fs faults path with
  | (.error (.delete e), fs) => (.failure (.deleteOutput e.message), fs)
  | (.error .write, fs) => (.failure (.writeOutput iostreamError), fs)
  | (.ok output, fs) =>
      match stream with
      | .complete => (.success bytes, appendOutput fs output bytes)
      | .failed after buffered =>
          let fs := appendOutput fs output (bytes.take after)
          (.failure (.writeOutput iostreamError),
            appendOutput fs output (slice bytes buffered.start buffered.length))

/-- `main` after the parser. -/
def signFile (fs : FileSystem (List Byte)) (faults : Faults) (stream : StreamResult)
    (args : Arguments) (cpuCoreCount : ℕ) : Outcome × FileSystem (List Byte) :=
  match mapFile fs faults args.inputPath with
  | .error e => (.failure e, fs)
  | .ok F =>
      match run F cpuCoreCount args.chunkSize with
      | .success bytes => writer fs faults stream args.outputPath bytes
      | outcome => (outcome, fs)

def main (lexicalCast : List Char → Except String ℕ) (fs : FileSystem (List Byte))
    (faults : Faults) (stream : StreamResult) (current : Path) (options : VariablesMap)
    (cpuCoreCount : ℕ) : Result × FileSystem (List Byte) :=
  match parser lexicalCast fs faults current options with
  | .error e => (.failure e.what, fs)
  | .ok args =>
      let (outcome, fs) := signFile fs faults stream args cpuCoreCount
      (outcome.result args, fs)

section Frame

variable {lexicalCast : List Char → Except String ℕ} {fs : FileSystem (List Byte)}
  {faults : Faults} {stream : StreamResult} {current : Path} {options : VariablesMap}
  {cpuCoreCount : ℕ} {args : Arguments} {input output : Path} {i : Inode} {bytes : List Byte}

theorem main_of_parsed (hargs : parser lexicalCast fs faults current options = .ok args) :
    main lexicalCast fs faults stream current options cpuCoreCount =
      ((signFile fs faults stream args cpuCoreCount).1.result args,
        (signFile fs faults stream args cpuCoreCount).2) := by
  rw [main, hargs]

theorem writer_intact (hapart : Apart fs faults input output) (hinput : Intact fs input i bytes)
    (written : List Byte) : Intact (writer fs faults stream output written).2 input i bytes := by
  unfold writer
  split
  case h_1 fs₁ hprepare => exact (hapart.prepareOutput hinput hprepare).1
  case h_2 fs₁ hprepare => exact (hapart.prepareOutput hinput hprepare).1
  case h_3 o fs₁ hprepare =>
    obtain ⟨hintact, hne⟩ := hapart.prepareOutput hinput hprepare
    have hio : i ≠ o := fun heq => hne (heq ▸ rfl)
    cases stream with
    | complete => exact hintact.appendOutput hio _
    | failed after buffered => exact (hintact.appendOutput hio _).appendOutput hio _

/-- The first version leaves the input file as it was. -/
theorem signFile_intact (hapart : Apart fs faults args.inputPath args.outputPath)
    (hinput : Intact fs args.inputPath i bytes) :
    Intact (signFile fs faults stream args cpuCoreCount).2 args.inputPath i bytes := by
  unfold signFile
  split
  · exact hinput
  · split
    · exact writer_intact hapart hinput _
    · exact hinput

end Frame

end VeeamSignature.Signature
