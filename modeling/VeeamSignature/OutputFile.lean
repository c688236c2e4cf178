import VeeamSignature.SignatureFile

/-!
# The output file

Unless the check of the output path fails, the writers create a new file, which
the output path then names.  It holds what has been written, at the end of the
first version and at any time of a run of the second; no file that the output
path is apart from changes.
-/

namespace VeeamSignature

open Files LabelledSystem

variable {lexicalCast : List Char → Except String ℕ} {fs : FileSystem (List Byte)}
  {faults : Faults} {stream : StreamResult} {current : Path} {options : VariablesMap}
  {args : Arguments} {cpuCoreCount : ℕ}

/-- The output path names the file `o`, which holds these bytes. -/
theorem prepareOutput_intact (hchecked : faults .outputExists = none) {path : Path} {o : Inode}
    {fs' : FileSystem (List Byte)} (h : prepareOutput fs faults path = (.ok o, fs')) :
    Intact fs' path o [] := by
  unfold prepareOutput at h
  split at h
  · cases h
  case h_2 fs₁ hdelete =>
    have habsent : ∀ j, fs₁.resolve path ≠ .ok j := by
      unfold deleteExisting at hdelete
      rw [hchecked] at hdelete
      split at hdelete
      case isTrue hexists =>
        split at hdelete
        · cases hdelete
        · obtain ⟨i, hi⟩ := exists_of_status hexists
          exact (removed_of_eq hdelete).resolve_ne i hi
      case isFalse hexists =>
        obtain rfl := Except.ok.inj hdelete
        exact resolve_ne_of_status hexists
    split at h
    · cases h
    case h_2 hopen =>
      obtain ⟨hresult, rfl⟩ := Prod.mk.inj h
      obtain rfl := Except.ok.inj hresult
      unfold openStream at hopen
      split at hopen
      · cases hopen
      · have hopened := opened_of_eq hopen
        refine ⟨hopened.resolve, ?_⟩
        cases hopened with
        | created =>
            rw [FileSystem.content?, node_create_self]
            rfl
        | emptied hresolved => exact absurd hresolved (habsent _)
        | special hresolved => exact absurd hresolved (habsent _)

theorem exists_intact {path : Path} {bytes : List Byte} (h : fs.fileAt path = some bytes) :
    ∃ i, Intact fs path i bytes := by
  unfold FileSystem.fileAt at h
  split at h
  · cases h
  case h_2 i hi => exact ⟨i, hi, h⟩

/-! ## The first version -/

/-- When the first version ends with success, the output path names a file with
the signature, and every other path that is apart from it names what it did. -/
theorem Signature.signature_read_back (hchecked : faults .outputExists = none)
    (hargs : parser lexicalCast fs faults current options = .ok args) {written : List Byte}
    {fs' : FileSystem (List Byte)}
    (h : main lexicalCast fs faults stream current options cpuCoreCount =
      (.success written, fs')) :
    fs'.fileAt args.outputPath = some written ∧
    ∀ other bytes, Apart fs faults other args.outputPath →
      fs.fileAt other = some bytes → fs'.fileAt other = some bytes := by
  obtain ⟨i, bytes, hinput⟩ := intact_of_status (regular_of_parsed hargs)
  obtain ⟨-, o, fs₁, hprepare, rfl⟩ := signFile_eq_success hinput (main_eq_success hargs h)
  refine ⟨((prepareOutput_intact hchecked hprepare).appended written).fileAt, ?_⟩
  intro other bytes hapart hother
  obtain ⟨i, hintact⟩ := exists_intact hother
  obtain ⟨hintact₁, hne⟩ := hapart.prepareOutput hintact hprepare
  exact (hintact₁.appendOutput (fun heq => hne (heq ▸ rfl)) written).fileAt

theorem Signature.signature_read_back_twoFiles : ∃ written fs',
    FileSystem.fileAt fs' twoFilesArguments.outputPath = some written ∧
    ∀ other bytes, Apart twoFiles noFaults other twoFilesArguments.outputPath →
      twoFiles.fileAt other = some bytes → fs'.fileAt other = some bytes := by
  have hsuccess : ∃ written,
      (main decimalCast twoFiles noFaults .complete [] twoFilesOptions 1).1 = .success written :=
    ⟨_, rfl⟩
  obtain ⟨written, hwritten⟩ := hsuccess
  exact ⟨written, _, signature_read_back rfl parser_twoFiles (Prod.ext hwritten rfl)⟩

/-! ## The second version -/

namespace Signature2

theorem startThreads_started_output {p : Process}
    (h : startThreads fs faults args cpuCoreCount = .started p) :
    prepareOutput fs faults args.outputPath = (.ok p.output, p.fileSystem) ∧
      p.system.output = [] := by
  unfold startThreads at h
  split at h
  · cases h
  · split at h
    · cases h
    · split at h
      · cases h
      · cases h
      case h_3 hprepare =>
        split at h
        · cases h
        · obtain rfl := Launch.started.inj h
          exact ⟨hprepare, rfl⟩

/-- A step appends to the output file what makes it hold the new output. -/
theorem Process.step_eq_some {p p' : Process} {a : Action} (h : p.step a = some p') :
    p'.output = p.output ∧ ∃ written,
      p'.fileSystem = appendOutput p.fileSystem p.output written ∧
      p.system.output ++ written = p'.system.output := by
  obtain ⟨system, hstep, rfl⟩ := Option.map_eq_some_iff.mp h
  exact ⟨rfl, _, rfl, System.output_append_drop hstep⟩

theorem output_intact (hchecked : faults .outputExists = none) {p q : Process}
    {ok : Action → Prop} (hlaunch : startThreads fs faults args cpuCoreCount = .started p)
    (h : Reachable Process.step ok p q) :
    Intact q.fileSystem args.outputPath q.output q.system.output := by
  refine h.invariant
    (I := fun q => Intact q.fileSystem args.outputPath q.output q.system.output) ?_ ?_
  · intro q a q' hq _ hstep
    obtain ⟨houtput, written, hfs, hsystem⟩ := Process.step_eq_some hstep
    rw [houtput, hfs, ← hsystem]
    exact hq.appended written
  · obtain ⟨hprepare, hempty⟩ := startThreads_started_output hlaunch
    rw [hempty]
    exact prepareOutput_intact hchecked hprepare

theorem Process.other_intact {path : Path} {i : Inode} {bytes : List Byte} {p q : Process}
    {ok : Action → Prop} (hp : Intact p.fileSystem path i bytes) (hne : i ≠ p.output)
    (h : Reachable Process.step ok p q) : Intact q.fileSystem path i bytes := by
  have hkept : Intact q.fileSystem path i bytes ∧ i ≠ q.output := by
    refine h.invariant (I := fun q => Intact q.fileSystem path i bytes ∧ i ≠ q.output) ?_ ⟨hp, hne⟩
    intro q a q' hq _ hstep
    obtain ⟨houtput, written, hfs, -⟩ := Process.step_eq_some hstep
    rw [houtput, hfs]
    exact ⟨hq.1.appendOutput hq.2 written, hq.2⟩
  exact hkept.1

/-- At any time of a run the output path names a file with what has reached it,
at the end with what the destructor of a failed stream has written, too; every
other path that is apart from it names what it did. -/
theorem output_read_back (hchecked : faults .outputExists = none)
    (hargs : parser lexicalCast fs faults current options = .ok args) {p q : Process}
    (hlaunch : launch lexicalCast fs faults current options cpuCoreCount = .started p)
    (h : Reachable Process.step (fun _ => True) p q) :
    q.fileSystem.fileAt args.outputPath = some q.system.output ∧
    ∀ other bytes, Apart fs faults other args.outputPath →
      fs.fileAt other = some bytes → q.fileSystem.fileAt other = some bytes := by
  rw [launch_of_parsed hargs] at hlaunch
  refine ⟨(output_intact hchecked hlaunch h).fileAt, ?_⟩
  intro other bytes hapart hother
  obtain ⟨i, hintact⟩ := exists_intact hother
  obtain ⟨hprepare, -⟩ := startThreads_started_output hlaunch
  obtain ⟨hintact₁, hne⟩ := hapart.prepareOutput hintact hprepare
  exact (Process.other_intact hintact₁ (fun heq => hne (heq ▸ rfl)) h).fileAt

/-- The segment of the three bytes of `twoFiles`. -/
def threeBytes : Segment := ⟨0, 64000, 0, 3, 0, [1, 2, 3]⟩

/-- The steps up to the write, and what follows when the write succeeds. -/
def threeBytesRun : List Action :=
  [.run 0 (.doRead 0) complete, .run 0 (.read 0 .entireBlock) complete,
    .run 0 (.hash threeBytes) complete, .run 0 (.write (hashOf threeBytes)) complete, .stop,
    .leave 0, .exit]

/-- The disk is full after two bytes of the record, and has room again when the
stream is destroyed. -/
def fullDiskRun : List Action :=
  [.run 0 (.doRead 0) complete, .run 0 (.read 0 .entireBlock) complete,
    .run 0 (.hash threeBytes) complete,
    .run 0 (.write (hashOf threeBytes)) ⟨.complete, .failed 2 ⟨0, 4⟩⟩,
    .run 0 (.throwException (.writeFailed iostreamError)) complete, .store 0, .shutdown 0, .exit]

def Launch.process? : Launch → Option Process
  | .started p => some p
  | _ => none

theorem Launch.process?_eq_some {launched : Launch} {p : Process}
    (h : launched.process? = some p) : launched = .started p := by
  unfold process? at h
  split at h
  case h_1 p' =>
    obtain rfl := Option.some.inj h
    rfl
  · cases h

theorem Launch.exists_reachable {launched : Launch} {actions : List Action} {ok : Action → Prop}
    {q : Process} (hok : ∀ a ∈ actions, ok a)
    (h : launched.process?.bind (actions.foldlM Process.step) = some q) :
    ∃ p, launched = .started p ∧ Reachable Process.step ok p q := by
  obtain ⟨p, hp, hsteps⟩ := Option.bind_eq_some_iff.mp h
  exact ⟨p, process?_eq_some hp, .of_foldlM hok hsteps⟩

theorem exists_threeBytesRun : ∃ p q,
    launch decimalCast twoFiles noFaults [] twoFilesOptions 1 = .started p ∧
    Reachable Process.step Action.Complete p q ∧ q.system.exitCode = some .success := by
  have hrun : ((launch decimalCast twoFiles noFaults [] twoFilesOptions 1).process?.bind
      (threeBytesRun.foldlM Process.step)).map (fun q => q.system.exitCode) =
        some (some .success) := by
    decide +kernel
  obtain ⟨q, hq, hexit⟩ := Option.map_eq_some_iff.mp hrun
  have hcomplete : ∀ a ∈ threeBytesRun, a.Complete := by simp [threeBytesRun, Action.Complete]
  obtain ⟨p, hlaunch, hreachable⟩ := Launch.exists_reachable hcomplete hq
  exact ⟨p, q, hlaunch, hreachable, hexit⟩

/-- The record is 10 137 136 68. -/
theorem exists_fullDiskRun {ok : Action → Prop} (hok : ∀ a ∈ fullDiskRun, ok a) : ∃ p q,
    launch decimalCast twoFiles noFaults [] twoFilesOptions 1 = .started p ∧
    Reachable Process.step ok p q ∧ q.system.exitCode = some .failure ∧
    q.system.output = [10, 137, 10, 137, 136, 68] := by
  have hrun : ((launch decimalCast twoFiles noFaults [] twoFilesOptions 1).process?.bind
      (fullDiskRun.foldlM Process.step)).map (fun q => (q.system.exitCode, q.system.output)) =
        some (some .failure, [10, 137, 10, 137, 136, 68]) := by
    decide +kernel
  obtain ⟨q, hq, hresult⟩ := Option.map_eq_some_iff.mp hrun
  obtain ⟨hexit, houtput⟩ := Prod.mk.inj hresult
  obtain ⟨p, hlaunch, hreachable⟩ := Launch.exists_reachable hok hq
  exact ⟨p, q, hlaunch, hreachable, hexit, houtput⟩

theorem output_read_back_fullDisk : ∃ q : Process,
    q.system.exitCode = some .failure ∧
    q.fileSystem.fileAt twoFilesArguments.outputPath = some [10, 137, 10, 137, 136, 68] ∧
    ∀ other bytes, Apart twoFiles noFaults other twoFilesArguments.outputPath →
      twoFiles.fileAt other = some bytes → q.fileSystem.fileAt other = some bytes := by
  obtain ⟨p, q, hlaunch, hq, hexit, houtput⟩ := exists_fullDiskRun fun _ _ => trivial
  obtain ⟨hfile, hother⟩ := output_read_back rfl parser_twoFiles hlaunch hq
  exact ⟨q, hexit, houtput ▸ hfile, hother⟩

/-- Where the layout of the input is agreeable and the output path is apart
from the input path, both versions leave the same file at the output path. -/
theorem output_files_agree {fs₁ : FileSystem (List Byte)} {p q : Process} {written : List Byte}
    (hargs : parser lexicalCast fs faults current options = .ok args)
    (hapart : Apart fs faults args.inputPath args.outputPath) (hcores : 1 ≤ cpuCoreCount)
    (hagreeable : ∀ (F : FileContent) (blocks : List Block),
      fs.fileAt args.inputPath = some F.bytes →
      blockFileBlocks F.size cpuCoreCount args.chunkSize = some blocks → Agreeable F blocks)
    (hchecked : faults .outputExists = none)
    (hfirst : Signature.main lexicalCast fs faults stream current options cpuCoreCount =
      (.success written, fs₁))
    (hlaunch : launch lexicalCast fs faults current options cpuCoreCount = .started p)
    (hreachable : Reachable Process.step Action.Complete p q)
    (hexit : q.system.exitCode = some .success) :
    q.fileSystem.fileAt args.outputPath = fs₁.fileAt args.outputPath := by
  have hstarted := hlaunch
  rw [launch_of_parsed hargs] at hstarted
  have hsecond := output_intact hchecked hstarted hreachable
  have hsame := signature_files_agree hargs hapart hcores hagreeable hfirst hlaunch hreachable
    hexit hsecond.content
  obtain ⟨i, bytes, hinput⟩ := intact_of_status (regular_of_parsed hargs)
  obtain ⟨-, o, fs₂, hprepare, rfl⟩ :=
    Signature.signFile_eq_success hinput (Signature.main_eq_success hargs hfirst)
  rw [hsecond.fileAt, ((prepareOutput_intact hchecked hprepare).appended written).fileAt, hsame,
    List.nil_append]

theorem three_lt_modulus : 3 < SizeT.modulus := by
  decide

def threeBytesBlock : Block := ⟨0, 0, 3, gMinChunkSize, three_lt_modulus, smallestChunk.pos⟩

theorem threeBytes_agreeable (F : FileContent) (blocks : List Block)
    (hF : twoFiles.fileAt twoFilesArguments.inputPath = some F.bytes)
    (hblocks : blockFileBlocks F.size 1 twoFilesArguments.chunkSize = some blocks) :
    Agreeable F blocks := by
  have hbytes : twoFiles.fileAt twoFilesArguments.inputPath = some [1, 2, 3] := rfl
  have hsize : F.size = 3 := by
    rw [FileContent.size, ← Option.some.inj (hbytes.symm.trans hF)]
    rfl
  have hlayout : blockFileBlocks 3 1 twoFilesArguments.chunkSize = some [threeBytesBlock] := by
    decide
  refine (agreeable_single (le_refl 1) hblocks (.inl rfl)).mpr ⟨by omega, ?_⟩
  rw [hsize] at hblocks
  obtain rfl := Option.some.inj (hlayout.symm.trans hblocks)
  exact .inr ⟨threeBytesBlock, rfl, by decide⟩

theorem output_files_agree_twoFiles : ∃ (q : Process) (fs₁ : FileSystem (List Byte)),
    q.system.exitCode = some .success ∧
    q.fileSystem.fileAt ["signature"] = fs₁.fileAt ["signature"] := by
  obtain ⟨p, q, hlaunch, hq, hexit⟩ := exists_threeBytesRun
  have hfirst : ∃ written,
      (Signature.main decimalCast twoFiles noFaults .complete [] twoFilesOptions 1).1 =
        .success written := ⟨_, rfl⟩
  obtain ⟨written, hwritten⟩ := hfirst
  exact ⟨q, _, hexit, output_files_agree parser_twoFiles apart_twoFiles (le_refl 1)
    threeBytes_agreeable rfl (Prod.ext hwritten rfl) hlaunch hq hexit⟩

end Signature2

end VeeamSignature
