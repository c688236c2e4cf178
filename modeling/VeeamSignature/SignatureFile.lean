import VeeamSignature.Signature.Main
import VeeamSignature.Signature2.Process
import VeeamSignature.Signature2.Refinement

/-!
# The signature file

Started on the same file system, with an output path that is apart from the
input path, both versions leave the same signature, if the second one can rely
on the layout and every call succeeds.
-/

namespace VeeamSignature

open Files LabelledSystem Signature2

variable {lexicalCast : List Char → Except String ℕ} {fs : FileSystem (List Byte)}
  {faults : Faults} {stream : StreamResult} {current : Path} {options : VariablesMap}
  {args : Arguments} {cpuCoreCount : ℕ}

theorem Signature.Outcome.result_eq_success {outcome : Outcome} {written : List Byte}
    (h : outcome.result args = .success written) : outcome = .success written := by
  cases outcome with
  | success bytes => exact congrArg Outcome.success (Result.success.inj h)
  | failure error => cases h
  | crash => cases h

theorem Signature.writer_eq_success {path : Path} {bytes written : List Byte}
    {fs' : FileSystem (List Byte)}
    (h : writer fs faults stream path bytes = (.success written, fs')) :
    bytes = written ∧ ∃ o fs₁, prepareOutput fs faults path = (.ok o, fs₁) ∧
      fs' = appendOutput fs₁ o written := by
  unfold writer at h
  split at h
  · cases h
  · cases h
  case h_3 o fs₁ hprepare =>
    cases stream with
    | failed after buffered => cases h
    | complete =>
        obtain ⟨houtcome, rfl⟩ := Prod.mk.inj h
        obtain rfl := Outcome.success.inj houtcome
        exact ⟨rfl, o, fs₁, hprepare, rfl⟩

/-- The first version ends with success when its signature of the input file is
in the output file. -/
theorem Signature.signFile_eq_success {i : Inode} {bytes : List Byte} {written : List Byte}
    {fs' : FileSystem (List Byte)} (hinput : Intact fs args.inputPath i bytes)
    (h : signFile fs faults stream args cpuCoreCount = (.success written, fs')) :
    (∃ F : FileContent, F.bytes = bytes ∧
      Signature.run F cpuCoreCount args.chunkSize = .success written) ∧
    ∃ o fs₁, prepareOutput fs faults args.outputPath = (.ok o, fs₁) ∧
      fs' = appendOutput fs₁ o written := by
  unfold signFile at h
  split at h
  · cases h
  case h_2 F hmap =>
    have hF : fileSize fs (faults .inputSize) args.inputPath = .ok F := by
      unfold Signature.mapFile at hmap
      split at hmap
      · cases hmap
      case h_2 F' hF' =>
        split at hmap
        · cases hmap
        · cases hmap
        · obtain rfl := Except.ok.inj hmap
          exact hF'
    split at h
    case h_1 signature hrun =>
      obtain ⟨rfl, hwritten⟩ := writer_eq_success h
      exact ⟨⟨F, bytes_of_fileSize hinput hF, hrun⟩, hwritten⟩
    case h_2 outcome hfailed => exact absurd (congrArg Prod.fst h) (hfailed _)

theorem Signature.main_eq_success {written : List Byte} {fs' : FileSystem (List Byte)}
    (hargs : parser lexicalCast fs faults current options = .ok args)
    (h : main lexicalCast fs faults stream current options cpuCoreCount =
      (.success written, fs')) :
    signFile fs faults stream args cpuCoreCount = (.success written, fs') := by
  rw [main_of_parsed hargs] at h
  obtain ⟨hresult, hfs⟩ := Prod.mk.inj h
  exact Prod.ext (Outcome.result_eq_success hresult) hfs

theorem output_of_complete {file : List Byte} {blocks : List Block} {s : System}
    (h : Reachable (System.step file) Action.Complete (System.start blocks) s) :
    s.output = s.pool.writer.written := by
  have hpool : Reachable (Pool.next file) (fun a => a.2 = complete) (Pool.start blocks) s.pool :=
    System.pool_reachable (fun _ _ _ ha => ha) h
  rw [System.output, buffered_eq_nil (fun _ ha => congrArg Environment.stream ha) hpool]
  split <;> exact List.append_nil _

/-- Where the layout of the input is agreeable, the output file of a process
that ends with success holds what the first version writes. -/
theorem signature_files_agree {p q : Process} {written content : List Byte}
    {fs' : FileSystem (List Byte)}
    (hargs : parser lexicalCast fs faults current options = .ok args)
    (hapart : Apart fs faults args.inputPath args.outputPath) (hcores : 1 ≤ cpuCoreCount)
    (hagreeable : ∀ (F : FileContent) (blocks : List Block),
      fs.fileAt args.inputPath = some F.bytes →
      blockFileBlocks F.size cpuCoreCount args.chunkSize = some blocks → Agreeable F blocks)
    (hfirst : Signature.main lexicalCast fs faults stream current options cpuCoreCount =
      (.success written, fs'))
    (hlaunch : launch lexicalCast fs faults current options cpuCoreCount = .started p)
    (hreachable : Reachable Process.step Action.Complete p q)
    (hexit : q.system.exitCode = some .success)
    (hcontent : q.fileSystem.content? q.output = some content) : content = written := by
  obtain ⟨i, bytes, hinput⟩ := intact_of_status (regular_of_parsed hargs)
  obtain ⟨⟨F, hF, hrun⟩, -⟩ :=
    Signature.signFile_eq_success hinput (Signature.main_eq_success hargs hfirst)
  rw [launch_of_parsed hargs] at hlaunch
  obtain ⟨F', blocks, hF', hblocks, -, hstart⟩ := startThreads_started hinput hlaunch
  obtain rfl : F = F' := FileContent.ext (hF.trans hF'.symm)
  have hp := (startThreads_intact hapart hinput).2 p hlaunch
  have hsystem :
      Reachable (System.step F.bytes) Action.Complete (System.start blocks) q.system := by
    rw [hF, ← hstart]
    exact hp.system_reachable hreachable
  have hagree : Agreeable F blocks :=
    hagreeable F blocks (by rw [hinput.fileAt, hF]) hblocks
  have hrun' := (hagree.refines hcores hblocks).written q.system hsystem hexit
  rw [(hp.reachable hreachable).stored content hcontent, output_of_complete hsystem]
  exact (Signature.Outcome.success.inj (hrun.symm.trans hrun')).symm

end VeeamSignature
