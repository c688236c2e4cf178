import VeeamSignature.Signature.Main
import VeeamSignature.Signature2.Process

/-!
# The input file is left alone

The writers delete the entry that the output path names and create a file
there.  The input path goes through other entries, as a rule; then it names the
same bytes during and after the run.  If both paths are the same, the input is
gone.
-/

namespace VeeamSignature

open Files LabelledSystem Signature2

/-- A run of either version that the arguments are accepted for leaves the
input path naming a file with the same bytes, if no output file is deleted that
the input path goes through. -/
theorem input_unchanged (lexicalCast : List Char → Except String ℕ) (fs : FileSystem (List Byte))
    (faults : Faults) (stream : StreamResult) (current : Path) (options : VariablesMap)
    (cpuCoreCount : ℕ) (args : Arguments)
    (hargs : parser lexicalCast fs faults current options = .ok args)
    (hapart : Apart fs faults args.inputPath args.outputPath) :
    ∃ bytes, fs.fileAt args.inputPath = some bytes ∧
      (Signature.main lexicalCast fs faults stream current options cpuCoreCount).2.fileAt
        args.inputPath = some bytes ∧
      (launch lexicalCast fs faults current options cpuCoreCount).fileSystem.fileAt
        args.inputPath = some bytes ∧
      ∀ p q, launch lexicalCast fs faults current options cpuCoreCount = .started p →
        Reachable Process.step (fun _ => True) p q →
          q.fileSystem.fileAt args.inputPath = some bytes := by
  obtain ⟨i, bytes, hinput⟩ := intact_of_status (regular_of_parsed hargs)
  rw [Signature.main_of_parsed hargs, launch_of_parsed hargs]
  obtain ⟨hlaunch, hstarted⟩ := startThreads_intact hapart hinput
  refine ⟨bytes, hinput.fileAt, ?_, hlaunch.fileAt, ?_⟩
  · exact (Signature.signFile_intact hapart hinput).fileAt
  · intro p q hp hreachable
    exact ((hstarted p hp).reachable hreachable).intact.fileAt

theorem input_unchanged_twoFiles : ∃ args,
    parser decimalCast twoFiles noFaults [] twoFilesOptions = .ok args ∧
    ∃ bytes, twoFiles.fileAt args.inputPath = some bytes ∧
      (Signature.main decimalCast twoFiles noFaults (.failed 2 ⟨0, 4⟩) [] twoFilesOptions
        1).2.fileAt args.inputPath = some bytes ∧
      (launch decimalCast twoFiles noFaults [] twoFilesOptions 1).fileSystem.fileAt
        args.inputPath = some bytes ∧
      ∀ p q, launch decimalCast twoFiles noFaults [] twoFilesOptions 1 = .started p →
        Reachable Process.step (fun _ => True) p q →
          q.fileSystem.fileAt args.inputPath = some bytes :=
  ⟨twoFilesArguments, parser_twoFiles,
    input_unchanged decimalCast twoFiles noFaults (.failed 2 ⟨0, 4⟩) [] twoFilesOptions 1
      twoFilesArguments parser_twoFiles apart_twoFiles⟩

/-- The command line with the input file as the output file. -/
def samePathOptions : VariablesMap := ⟨some dataPath, some dataPath, some ['6', '4', 'k', 'b']⟩

/-- With the input path as the output path both versions destroy the input:
the first replaces it by its signature, the second empties it. -/
theorem same_path_destroys_input : ∃ args,
    parser decimalCast twoFiles noFaults [] samePathOptions = .ok args ∧
    twoFiles.fileAt args.inputPath = some [1, 2, 3] ∧
    (Signature.main decimalCast twoFiles noFaults .complete [] samePathOptions 1).2.fileAt
      args.inputPath ≠ some [1, 2, 3] ∧
    (launch decimalCast twoFiles noFaults [] samePathOptions 1).fileSystem.fileAt
      args.inputPath = some [] := by
  refine ⟨⟨["data"], ["data"], ⟨64000, by decide, by decide⟩⟩, rfl, by decide +kernel,
    by decide +kernel, by decide +kernel⟩

end VeeamSignature
