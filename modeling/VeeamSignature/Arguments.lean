import VeeamSignature.Block
import VeeamSignature.Library.FileSystem

/-!
# The arguments and the output file

What both versions do with the file system before and after the hashing:
`arguments_t` checks the input file, and the writer deletes what the output
path names and opens it anew.  A call can fail for reasons that the file system
does not show.
-/

namespace VeeamSignature

open Files Slices

inductive Call
  | absoluteInput
  | absoluteOutput
  | inputExists
  | inputStatus
  | inputSize
  | openInput
  | mapInput
  | outputExists
  | removeOutput
  | openOutput
  | openReader (blockId : ℕ)

abbrev Faults := Call → Option Errno

structure PathName where
  absolute : Bool
  components : List Name

/-- `fs::absolute`. -/
def absolutePath (current : Path) (name : PathName) : Path :=
  if name.absolute then name.components else current ++ name.components

def pathString (path : Path) : String := "/" ++ "/".intercalate path

/-- `fs::file_type`. -/
inductive FileType
  | statusError
  | fileNotFound
  | regularFile
  | directoryFile
  | otherFile
  deriving DecidableEq

/-- `fs::status`, with the error it reports. -/
def status (fs : FileSystem (List Byte)) (fault : Option Errno) (path : Path) :
    FileType × Option Errno :=
  match fault with
  | some e => (.statusError, some e)
  | none =>
      match fs.resolve path with
      | .error .noEntry => (.fileNotFound, some .noEntry)
      | .error .notDirectory => (.fileNotFound, some .notDirectory)
      | .error e => (.statusError, some e)
      | .ok i =>
          match fs.node i with
          | some (.regular _) => (.regularFile, none)
          | some (.directory _) => (.directoryFile, none)
          | _ => (.otherFile, none)

def FileType.Exists (type : FileType) : Prop := type ≠ .statusError ∧ type ≠ .fileNotFound

instance (type : FileType) : Decidable type.Exists := inferInstanceAs (Decidable (_ ∧ _))

/-- `fs::file_size`; a size is an `off_t`. -/
def fileSize (fs : FileSystem (List Byte)) (fault : Option Errno) (path : Path) :
    Except Errno FileContent :=
  match fault with
  | some e => .error e
  | none =>
      match fs.resolve path with
      | .error e => .error e
      | .ok i =>
          match fs.content? i with
          | none => .error (.other "Operation not permitted")
          | some bytes => if h : bytes.length < 2 ^ 63 then .ok ⟨bytes, h⟩ else .error .overflow

/-! ## `arguments_t` -/

/-- `arguments_t`. -/
structure Arguments where
  inputPath : Path
  outputPath : Path
  chunkSize : ChunkSize

inductive ArgumentsError
  | inputNotAbsolute
  | outputNotAbsolute (inputPath : Path)
  | existence (inputPath : Path) (e : Errno)
  | missing (inputPath : Path)
  | status (inputPath : Path) (e : Errno)
  | notRegular (inputPath : Path)
  | chunkSize (chunkSize : ℕ)

/-- Their texts.  A path that could not be made absolute is empty by then, and
the second text shows the input path, too. -/
def ArgumentsError.what : ArgumentsError → String
  | .inputNotAbsolute => "failed to convert input path to absolute: "
  | .outputNotAbsolute inputPath =>
      s!"failed to convert output path to absolute: {pathString inputPath}"
  | .existence inputPath e =>
      s!"failed to check input file '{pathString inputPath}' existence: {e.message}"
  | .missing inputPath => s!"'input' file does not exists: {pathString inputPath}"
  | .status inputPath e =>
      s!"failed to check input file '{pathString inputPath}' status: {e.message}"
  | .notRegular inputPath => s!"'input' file is not regular: {pathString inputPath}"
  | .chunkSize size => s!"unsupported chunk size: {size} bytes"

/-- The constructor of `arguments_t`. -/
def Arguments.construct (fs : FileSystem (List Byte)) (faults : Faults) (current : Path)
    (input output : PathName) (chunkSize : ℕ) : Except ArgumentsError Arguments :=
  let inputPath := absolutePath current input
  let outputPath := absolutePath current output
  if (faults .absoluteInput).isSome then .error .inputNotAbsolute
  else if (faults .absoluteOutput).isSome then .error (.outputNotAbsolute inputPath)
  else
    match VeeamSignature.status fs (faults .inputExists) inputPath with
    | (_, some e) => .error (.existence inputPath e)
    | (type, none) =>
        if ¬ type.Exists then .error (.missing inputPath)
        else
          match VeeamSignature.status fs (faults .inputStatus) inputPath with
          | (_, some e) => .error (.status inputPath e)
          | (type, none) =>
              if type ≠ .regularFile then .error (.notRegular inputPath)
              else if h : gMinChunkSize ≤ chunkSize ∧ chunkSize ≤ gMaxChunkSize then
                .ok ⟨inputPath, outputPath, ⟨chunkSize, h.1, h.2⟩⟩
              else .error (.chunkSize chunkSize)

/-- The checks of `arguments_t` that come before that of the chunk size pass. -/
structure InputAccepted (fs : FileSystem (List Byte)) (faults : Faults) (current : Path)
    (input : PathName) : Prop where
  absoluteInput : faults .absoluteInput = none
  absoluteOutput : faults .absoluteOutput = none
  existence : ∃ type, VeeamSignature.status fs (faults .inputExists) (absolutePath current input) =
    (type, none) ∧ type.Exists
  regular : VeeamSignature.status fs (faults .inputStatus) (absolutePath current input) =
    (.regularFile, none)

section Construct

variable {fs : FileSystem (List Byte)} {faults : Faults} {current : Path}
  {input output : PathName} {chunkSize : ℕ}

theorem InputAccepted.construct (h : InputAccepted fs faults current input) :
    Arguments.construct fs faults current input output chunkSize =
      if h : gMinChunkSize ≤ chunkSize ∧ chunkSize ≤ gMaxChunkSize then
        .ok ⟨absolutePath current input, absolutePath current output, ⟨chunkSize, h.1, h.2⟩⟩
      else .error (.chunkSize chunkSize) := by
  obtain ⟨type, hexistence, hexists⟩ := h.existence
  simp [Arguments.construct, h.absoluteInput, h.absoluteOutput, hexistence, hexists, h.regular]

theorem inputAccepted_of_construct {args : Arguments}
    (h : Arguments.construct fs faults current input output chunkSize = .ok args) :
    InputAccepted fs faults current input := by
  simp only [Arguments.construct, Option.isSome_iff_ne_none] at h
  by_cases hinput : faults .absoluteInput = none
  · by_cases houtput : faults .absoluteOutput = none
    · rw [if_neg (not_not.mpr hinput), if_neg (not_not.mpr houtput)] at h
      cases hexistence : status fs (faults .inputExists) (absolutePath current input) with
      | mk existing existsError =>
        cases hstatus : status fs (faults .inputStatus) (absolutePath current input) with
        | mk type statusError =>
          rw [hexistence, hstatus] at h
          cases existsError with
          | some e => cases h
          | none =>
              cases statusError with
              | some e =>
                  simp only at h
                  split_ifs at h
              | none =>
                  simp only at h
                  split_ifs at h with hexists hregular hsize
                  obtain rfl := not_not.mp hregular
                  exact ⟨hinput, houtput, ⟨existing, hexistence, hexists⟩, hstatus⟩
    · rw [if_neg (not_not.mpr hinput), if_pos houtput] at h
      cases h
  · rw [if_pos hinput] at h
    cases h

theorem Arguments.construct_eq_ok {args : Arguments}
    (h : Arguments.construct fs faults current input output chunkSize = .ok args) :
    args.inputPath = absolutePath current input ∧ args.outputPath = absolutePath current output ∧
      args.chunkSize.value = chunkSize ∧
      (VeeamSignature.status fs (faults .inputStatus) args.inputPath).1 = .regularFile := by
  have haccepted := inputAccepted_of_construct h
  rw [haccepted.construct] at h
  split_ifs at h
  obtain rfl := Except.ok.inj h
  exact ⟨rfl, rfl, rfl, congrArg Prod.fst haccepted.regular⟩

end Construct

/-! ## The output file -/

def iostreamError : String := "basic_ios::clear: iostream error"

/-- What the environment answers to the writes, the flush and the close of a
stream: they succeed, or fail after some bytes.  In that case the stream stays
open, and its destructor writes the part of the content that is still in the
buffer, if that works. -/
inductive StreamResult
  | complete
  | failed (after : ℕ) (buffered : Span)
  deriving DecidableEq

/-- Why the output file cannot be written. -/
inductive OutputError
  | delete (e : Errno)
  | write

/-- The check and the deletion; an error of the check is ignored. -/
def deleteExisting (fs : FileSystem (List Byte)) (faults : Faults) (path : Path) :
    Except Errno (FileSystem (List Byte)) :=
  if (status fs (faults .outputExists) path).1.Exists then
    match faults .removeOutput with
    | some e => .error e
    | none => fs.remove path
  else .ok fs

def openStream (fs : FileSystem (List Byte)) (faults : Faults) (path : Path) :
    Except Errno (Inode × FileSystem (List Byte)) :=
  match faults .openOutput with
  | some e => .error e
  | none => fs.openWrite path []

/-- What the writers do before they write: an existing output file is deleted,
and the file is opened. -/
def prepareOutput (fs : FileSystem (List Byte)) (faults : Faults) (path : Path) :
    Except OutputError Inode × FileSystem (List Byte) :=
  match deleteExisting fs faults path with
  | .error e => (.error (.delete e), fs)
  | .ok fs =>
      match openStream fs faults path with
      | .error _ => (.error .write, fs)
      | .ok (output, fs) => (.ok output, fs)

/-- What a stream passes to its file, which it has opened empty, goes to the end. -/
def appendOutput (fs : FileSystem (List Byte)) (output : Inode) (bytes : List Byte) :
    FileSystem (List Byte) :=
  fs.setContent output ((fs.content? output).getD [] ++ bytes)

/-! ## The frame of the output -/

section Frame

variable {fs : FileSystem (List Byte)} {faults : Faults} {input output : Path}

/-- The writer finds an output file, and deletes it. -/
structure Deletes (fs : FileSystem (List Byte)) (faults : Faults) (output : Path) : Prop where
  found : (status fs (faults .outputExists) output).1.Exists
  granted : faults .removeOutput = none
  removable : ∃ fs', fs.remove output = .ok fs'

/-- Writing the output does not touch what the input path goes through: if an
output file is deleted, the resolution of the input path does not look up the
entry that the output path names; and if the check of the output file fails,
the output path does not name the input file. -/
structure Apart (fs : FileSystem (List Byte)) (faults : Faults) (input output : Path) : Prop where
  entry : Deletes fs faults output → ∀ l l', fs.locate true input = .ok l →
    fs.locate false output = .ok l' → (l'.directory, l'.name) ∉ l.looked
  file : faults .outputExists ≠ none → ∀ i, fs.resolve input = .ok i → fs.resolve output ≠ .ok i

/-- The input path names the inode `i` with these bytes. -/
structure Intact (fs : FileSystem (List Byte)) (input : Path) (i : Inode) (bytes : List Byte) :
    Prop where
  resolved : fs.resolve input = .ok i
  content : fs.content? i = some bytes

theorem Intact.fileAt {i : Inode} {bytes : List Byte} (h : Intact fs input i bytes) :
    fs.fileAt input = some bytes := by
  simp [FileSystem.fileAt, h.resolved, h.content]

theorem Intact.appendOutput {i o : Inode} {bytes : List Byte} (h : Intact fs input i bytes)
    (hne : i ≠ o) (written : List Byte) :
    Intact (VeeamSignature.appendOutput fs o written) input i bytes := by
  obtain ⟨l, hl, hi⟩ := exists_location h.resolved
  exact ⟨(setContent_keeps o _ l.looked).resolve hl hi, (content?_setContent hne).trans h.content⟩

/-- Whatever kind of file the output is, it holds what it did and then what is written. -/
theorem content?_appendOutput (o : Inode) (written : List Byte) :
    (appendOutput fs o written).content? o = (fs.content? o).map (· ++ written) := by
  rw [appendOutput, content?_setContent_self]
  cases fs.content? o <;> rfl

theorem Intact.appended {o : Inode} {bytes : List Byte} (h : Intact fs input o bytes)
    (written : List Byte) :
    Intact (VeeamSignature.appendOutput fs o written) input o (bytes ++ written) := by
  obtain ⟨l, hl, hi⟩ := exists_location h.resolved
  refine ⟨(setContent_keeps o _ l.looked).resolve hl hi, ?_⟩
  rw [content?_appendOutput, h.content, Option.map_some]

theorem exists_of_status {path : Path} {fault : Option Errno}
    (h : (status fs fault path).1.Exists) : ∃ i, fs.resolve path = .ok i := by
  unfold status at h
  split at h
  · exact absurd rfl h.1
  · split at h
    · exact absurd rfl h.2
    · exact absurd rfl h.2
    · exact absurd rfl h.1
    · exact ⟨_, by assumption⟩

theorem intact_of_status {path : Path} {fault : Option Errno}
    (h : (status fs fault path).1 = .regularFile) : ∃ i bytes, Intact fs path i bytes := by
  unfold status at h
  split at h
  · cases h
  · split at h
    · cases h
    · cases h
    · cases h
    case h_4 i hresolve =>
      split at h
      case h_1 bytes hnode =>
        exact ⟨i, bytes, hresolve, by simp [FileSystem.content?, hnode, Node.content?]⟩
      · cases h
      · cases h

theorem bytes_of_fileSize {path : Path} {fault : Option Errno} {i : Inode} {bytes : List Byte}
    (hinput : Intact fs path i bytes) {F : FileContent} (h : fileSize fs fault path = .ok F) :
    F.bytes = bytes := by
  cases fault with
  | some e => cases h
  | none =>
      simp only [fileSize, hinput.resolved, hinput.content] at h
      split_ifs at h
      obtain rfl := Except.ok.inj h
      rfl

theorem resolve_ne_of_status {path : Path} (h : ¬ (status fs none path).1.Exists) (i : Inode) :
    fs.resolve path ≠ .ok i := by
  intro hi
  apply h
  simp only [status, hi]
  split
  · exact ⟨by simp, by simp⟩
  · exact ⟨by simp, by simp⟩
  · exact ⟨by simp, by simp⟩

/-- The file system with another file opened in place of the output. -/
structure Prepared (fs fs' : FileSystem (List Byte)) (l : Location) (i : Inode) (output : Path) :
    Prop where
  keeps : Keeps fs fs' l.looked
  content : fs'.content? i = fs.content? i
  other : fs'.resolve output ≠ .ok i

theorem Apart.deleteExisting (hapart : Apart fs faults input output) {i : Inode} {l : Location}
    (hl : fs.locate true input = .ok l) (hi : fs.resolve input = .ok i)
    {fs' : FileSystem (List Byte)} (h : deleteExisting fs faults output = .ok fs') :
    Prepared fs fs' l i output := by
  unfold VeeamSignature.deleteExisting at h
  split at h
  case isTrue hexists =>
    split at h
    · cases h
    case h_2 hgranted =>
      have hremoved := removed_of_eq h
      have hdeletes : Deletes fs faults output := ⟨hexists, hgranted, fs', h⟩
      obtain ⟨hkeeps, hcontent⟩ := hremoved.keeps fun l' hl' => hapart.entry hdeletes l l' hl hl'
      obtain ⟨j, hj⟩ := exists_of_status hexists
      exact ⟨hkeeps, hcontent i, hremoved.resolve_ne j hj i⟩
  case isFalse hexists =>
    obtain rfl := Except.ok.inj h
    refine ⟨.refl fs _, rfl, ?_⟩
    cases hfault : faults .outputExists with
    | none =>
        rw [hfault] at hexists
        exact resolve_ne_of_status hexists i
    | some e => exact hapart.file (by simp [hfault]) i hi

theorem Prepared.openStream {fs' fs'' : FileSystem (List Byte)} {i o : Inode} {l : Location}
    {bytes : List Byte} (h : Prepared fs fs' l i output) (hl : fs.locate true input = .ok l)
    (hi : l.inode = some i) (hbytes : fs.content? i = some bytes)
    (hopen : openStream fs' faults output = .ok (o, fs'')) :
    Intact fs'' input i bytes ∧ o ≠ i := by
  unfold VeeamSignature.openStream at hopen
  split at hopen
  · cases hopen
  · have hopened := opened_of_eq hopen
    have hpresent : ∀ entry ∈ l.looked, ∃ j, fs'.entry entry.1 entry.2 = .ok (some j) := by
      intro entry hentry
      obtain ⟨j, hj⟩ := locateWithin_present hl (by simp [hi]) entry hentry
      exact ⟨j, (h.keeps.entry _ _ hentry).trans hj⟩
    obtain ⟨hkeeps, hcontent⟩ := hopened.keeps hpresent
    have hbytes' : fs'.content? i = some bytes := h.content.trans hbytes
    have hne : o ≠ i := by
      rintro rfl
      cases hopened with
      | created => exact absurd (lt_fresh hbytes') (Nat.lt_irrefl _)
      | emptied hresolved => exact h.other hresolved
      | special hresolved => exact h.other hresolved
    exact ⟨⟨Keeps.resolve hl hi (h.keeps.trans hkeeps), (hcontent i hne.symm).trans hbytes'⟩, hne⟩

/-- Preparing the output leaves the input intact, and the file to be written is
not the input. -/
theorem Apart.prepareOutput (hapart : Apart fs faults input output) {i : Inode} {bytes : List Byte}
    (hinput : Intact fs input i bytes) {result : Except OutputError Inode}
    {fs' : FileSystem (List Byte)} (h : prepareOutput fs faults output = (result, fs')) :
    Intact fs' input i bytes ∧ result ≠ .ok i := by
  obtain ⟨l, hl, hi⟩ := exists_location hinput.resolved
  unfold VeeamSignature.prepareOutput at h
  split at h
  · obtain ⟨rfl, rfl⟩ := Prod.mk.inj h
    exact ⟨hinput, by simp⟩
  case h_2 fs₁ hdelete =>
    have hprepared := hapart.deleteExisting hl hinput.resolved hdelete
    split at h
    · obtain ⟨rfl, rfl⟩ := Prod.mk.inj h
      exact ⟨⟨Keeps.resolve hl hi hprepared.keeps, hprepared.content.trans hinput.content⟩,
        by simp⟩
    case h_2 o fs₂ hopen =>
      obtain ⟨rfl, rfl⟩ := Prod.mk.inj h
      obtain ⟨hintact, hne⟩ := hprepared.openStream hl hi hinput.content hopen
      exact ⟨hintact, fun heq => hne (Except.ok.inj heq)⟩

theorem eq_of_content?_prepareOutput {o : Inode} {fs' : FileSystem (List Byte)}
    (h : prepareOutput fs faults output = (.ok o, fs')) {content : List Byte}
    (hcontent : fs'.content? o = some content) : content = [] := by
  unfold prepareOutput at h
  split at h
  · cases h
  · split at h
    · cases h
    case h_2 hopen =>
      obtain ⟨hresult, rfl⟩ := Prod.mk.inj h
      obtain rfl := Except.ok.inj hresult
      unfold openStream at hopen
      split at hopen
      · cases hopen
      · exact eq_of_content?_openWrite hopen hcontent

end Frame

/-! ## A file system of two files -/

def twoFiles : FileSystem (List Byte) where
  root := 0
  node := fun
    | 0 => some (.directory [(".", 0), ("..", 0), ("data", 1), ("signature", 2)])
    | 1 => some (.regular [1, 2, 3])
    | 2 => some (.regular [0])
    | _ => none
  fresh := 3
  unused := by
    intro i hi
    obtain ⟨i, rfl⟩ := Nat.exists_eq_add_of_le' hi
    rfl

def noFaults : Faults := fun _ => none

def dataPath : PathName := ⟨true, ["data"]⟩

def signaturePath : PathName := ⟨true, ["signature"]⟩

theorem apart_twoFiles : Apart twoFiles noFaults ["data"] ["signature"] := by
  constructor
  · intro _ l l' hl hl'
    have hinput : twoFiles.locate true ["data"] = .ok ⟨0, "data", some 1, [(0, "data")]⟩ := rfl
    have houtput : twoFiles.locate false ["signature"] =
        .ok ⟨0, "signature", some 2, [(0, "signature")]⟩ := rfl
    obtain rfl := Except.ok.inj (hinput.symm.trans hl)
    obtain rfl := Except.ok.inj (houtput.symm.trans hl')
    decide
  · exact fun hfault => absurd rfl hfault

theorem inputAccepted_twoFiles : InputAccepted twoFiles noFaults [] dataPath :=
  ⟨rfl, rfl, ⟨.regularFile, rfl, by decide⟩, rfl⟩

end VeeamSignature
