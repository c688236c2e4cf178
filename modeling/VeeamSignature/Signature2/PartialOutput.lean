import VeeamSignature.OutputFile

/-!
# The output before the end

The writer keeps the segments until all of them have arrived, and then writes
their records in the order of the blocks.  Where the layout is agreeable and no
read is short, the output file therefore holds the start of the signature while
the threads run, also after failed reads and writes.  Only a failed stream can
spoil it: at the end its destructor writes a piece of the signature again.
-/

namespace VeeamSignature.Signature2

open Slices BlockReader LabelledSystem Files

/-! ## The writes -/

theorem Writer.written_receive (w : Writer) (s : HashedSegment) (result : StreamResult)
    (hopened : w.stream = .opened) :
    ∃ count, (w.receive s result).1.written =
      w.written ++ (w.receive s result).1.content.take count := by
  have hstream : (w.insert s).stream = .opened := hopened
  by_cases hcount : (w.insert s).chunksCount = w.chunksTotal
  · rw [receive_of_eq result hcount]
    cases result with
    | complete =>
        refine ⟨(w.insert s).content.length, ?_⟩
        simp only [writeSegments, hstream]
        exact congrArg (w.written ++ ·) List.take_length.symm
    | failed after buffered =>
        refine ⟨after, ?_⟩
        simp only [writeSegments, hstream]
        rfl
  · rw [receive_of_ne result hcount]
    exact ⟨0, (List.append_nil _).symm⟩

theorem Writer.buffered_receive (w : Writer) (s : HashedSegment) (result : StreamResult) :
    (w.receive s result).1.buffered = w.buffered ∨
      (w.receive s result).1.buffered <:+: (w.receive s result).1.content := by
  by_cases hcount : (w.insert s).chunksCount = w.chunksTotal
  · rw [receive_of_eq result hcount]
    cases hstream : (w.insert s).stream with
    | opened =>
        cases result with
        | complete =>
            left
            simp only [writeSegments, hstream]
            rfl
        | failed after buffered =>
            right
            simp only [writeSegments, hstream]
            exact slice_infix _ _ _
    | closed =>
        left
        simp only [writeSegments, hstream]
        rfl
    | bad =>
        left
        simp only [writeSegments, hstream]
        rfl
  · left
    rw [receive_of_ne result hcount]
    rfl

section Pool

variable {file : List Byte} {blocks : List Block} {p p' : Pool} {t : Task} {e : Environment}
  {signal : Signal} {ok : Task × Environment → Prop}

theorem Transition.writer_receive (h : Transition file e p t p' signal) :
    p'.writer = p.writer ∨ ∃ s, t = .write s ∧
      p'.writer = (p.writer.receive s e.stream).1 := by
  cases h with
  | count hreceive => exact Or.inr ⟨_, rfl, by rw [hreceive]⟩
  | wrote hreceive => exact Or.inr ⟨_, rfl, by rw [hreceive]⟩
  | writeFailed hreceive => exact Or.inr ⟨_, rfl, by rw [hreceive]⟩
  | doRead => exact Or.inl rfl
  | readFailed => exact Or.inl rfl
  | readAgain => exact Or.inl rfl
  | readLast => exact Or.inl rfl
  | hash => exact Or.inl rfl
  | throwException => exact Or.inl rfl

/-- Nothing arrives after the first write, so that its content stays. -/
theorem written_prefix_content (hids : (blocks.map Block.blockId).Nodup)
    (hfit : chunkSum (allHeaders blocks) < SizeT.modulus) (hcounts : EveryReadCounts blocks)
    (h : Reachable (Pool.next file) ok (Pool.start blocks) p) :
    p.writer.written <+: p.writer.content := by
  apply Pool.invariant (I := fun p => p.writer.written <+: p.writer.content) _
    List.nil_prefix h
  intro p t e p' signal hreachable hprefix _ hmem htransition
  rcases htransition.writer_receive with hsame | ⟨s, rfl, hreceive⟩
  · rwa [hsame]
  · have hfirst := callbacks_eq_nil_of_write hids hfit hcounts hreachable hmem
    obtain ⟨hopened, hnone⟩ := (WriterInvariant.reachable hids hreachable).untouched hfirst
    obtain ⟨count, hwritten⟩ := p.writer.written_receive s e.stream hopened
    rw [hreceive, hwritten, hnone, List.nil_append]
    exact List.take_prefix _ _

theorem written_eq_content_of_succeeded (hids : (blocks.map Block.blockId).Nodup)
    (hfit : chunkSum (allHeaders blocks) < SizeT.modulus) (hcounts : EveryReadCounts blocks)
    (h : Reachable (Pool.next file) ok (Pool.start blocks) p) (hsucceeded : Succeeded p) :
    p.writer.written = p.writer.content := by
  revert hsucceeded
  apply Pool.invariant (I := fun p => Succeeded p → p.writer.written = p.writer.content) _ _ h
  · intro p t e p' signal hreachable hwritten _ hmem htransition hsucceeded
    rcases htransition.writer with hsame | ⟨s, answer, rfl, hreceived, -⟩
    · rw [Succeeded, hsame] at hsucceeded
      rw [hsame]
      exact hwritten hsucceeded
    · have hfirst := callbacks_eq_nil_of_write hids hfit hcounts hreachable hmem
      obtain ⟨-, hnone⟩ := (WriterInvariant.reachable hids hreachable).untouched hfirst
      rw [Succeeded, hreceived.callbacks, hfirst, List.nil_append] at hsucceeded
      obtain rfl := Option.mem_toList.mp hsucceeded
      generalize hw' : p'.writer = w' at hreceived
      cases hreceived with
      | wrote =>
          simp only [hnone, List.nil_append]
          rfl
  · intro hsucceeded
    cases hsucceeded

/-- The destructor of the stream has something to write only if the first and
only callback has reported a failure. -/
theorem buffered_or_failed (hids : (blocks.map Block.blockId).Nodup)
    (hfit : chunkSum (allHeaders blocks) < SizeT.modulus) (hcounts : EveryReadCounts blocks)
    (h : Reachable (Pool.next file) ok (Pool.start blocks) p) :
    p.writer.buffered = [] ∨ p.writer.callbacks = [.error iostreamError] := by
  apply Pool.invariant
    (I := fun p => p.writer.buffered = [] ∨ p.writer.callbacks = [.error iostreamError]) _
    (Or.inl rfl) h
  intro p t e p' signal hreachable hbuffered _ hmem htransition
  rcases htransition.writer with hsame | ⟨s, answer, rfl, hreceived, -⟩
  · rwa [hsame]
  · have hfirst := callbacks_eq_nil_of_write hids hfit hcounts hreachable hmem
    have hempty : p.writer.buffered = [] := hbuffered.resolve_right (by simp [hfirst])
    rcases hreceived.buffered with hsame | ⟨-, rfl⟩
    · exact Or.inl (hsame.trans hempty)
    · exact Or.inr (by rw [hreceived.callbacks, hfirst]; rfl)

theorem buffered_infix_content (hids : (blocks.map Block.blockId).Nodup)
    (hfit : chunkSum (allHeaders blocks) < SizeT.modulus) (hcounts : EveryReadCounts blocks)
    (h : Reachable (Pool.next file) ok (Pool.start blocks) p) :
    p.writer.buffered <:+: p.writer.content := by
  apply Pool.invariant (I := fun p => p.writer.buffered <:+: p.writer.content) _
    List.nil_infix h
  intro p t e p' signal hreachable hinfix _ hmem htransition
  rcases htransition.writer_receive with hsame | ⟨s, rfl, hreceive⟩
  · rwa [hsame]
  · have hfirst := callbacks_eq_nil_of_write hids hfit hcounts hreachable hmem
    have hempty := (buffered_or_failed hids hfit hcounts hreachable).resolve_right
      (by simp [hfirst])
    rw [hreceive]
    rcases p.writer.buffered_receive s e.stream with hsame | hpiece
    · rw [hsame, hempty]
      exact List.nil_infix
    · exact hpiece

/-! ## The reads -/

/-- The read completes or fails. -/
def Environment.WholeRead (e : Environment) : Prop := ∀ limit, e.read ≠ .short limit

theorem FetchedInvariant.step_of_wholeRead (he : e.WholeRead) (hmem : t ∈ p.tasks)
    (h : Transition file e p t p' signal) (hreaders : ReadersInvariant blocks p)
    (hp : FetchedInvariant file blocks p) : FetchedInvariant file blocks p' := by
  cases hread : e.read with
  | complete => exact hp.step hread hmem h hreaders
  | short limit => exact absurd hread (he limit)
  | failed error =>
      intro k b r' hb hr'
      obtain ⟨r, hr, -⟩ := hreaders.reader hb
      have hfetched := hp k b r hb hr
      rcases h.readerMove hr hr' with rfl | ⟨-, hmove⟩
      · exact hfetched
      · cases hmove with
        | doRead =>
            rw [r.doRead_fst]
            exact ⟨hfetched.position, hfetched.delivered⟩
        | rejected => exact ⟨hfetched.position, hfetched.delivered⟩
        | received hreceived =>
            rw [hread] at hreceived
            cases hreceived

theorem FetchedInvariant.of_wholeReads
    (h : Reachable (Pool.next file) (fun a => a.2.WholeRead) (Pool.start blocks) p) :
    FetchedInvariant file blocks p := by
  apply Pool.invariant _ (.start file blocks) h
  intro p t e p' signal hreachable hp he hmem htransition
  exact hp.step_of_wholeRead he hmem htransition (.reachable hreachable)

end Pool

/-! ## The output -/

def Action.WholeRead : Action → Prop
  | .run _ _ environment => environment.WholeRead
  | _ => True

/-- The bytes that reach the file start the signature, and what the destructor
writes is a piece of it. -/
theorem Agreeable.output_eq {F : FileContent} {n : ℕ} (hn : 1 ≤ n) {c : ChunkSize}
    {blocks : List Block} (hblocks : blockFileBlocks F.size n c = some blocks)
    (hagreeable : Agreeable F blocks) {s : System}
    (h : Reachable (System.step F.bytes) Action.WholeRead (System.start blocks) s) :
    ∃ signature rewritten, Signature.run F n c = .success signature ∧
      s.output = s.pool.writer.written ++ rewritten ∧
      s.pool.writer.written <+: signature ∧ rewritten <:+: signature ∧
      (rewritten ≠ [] → s.exitCode = some .failure ∧
        s.pool.writer.callbacks = [.error iostreamError]) ∧
      (s.exitCode = some .success → s.pool.writer.written = signature) := by
  obtain ⟨hids, hfit⟩ := blockFileBlocks_fit hn hblocks
  have hindexed : Indexed blocks := fun k b hb => layout_blockId hn hblocks hb
  have hpool : Reachable (Pool.next F.bytes) (fun a => a.2.WholeRead) (Pool.start blocks)
      s.pool := System.pool_reachable (fun _ _ _ ha => ha) h
  have hcontent : s.pool.writer.callbacks ≠ [] → s.pool.writer.content =
      blocks.flatMap fun b => records b.chunkSize (slice F.bytes b.offset b.size) := by
    intro hcallbacks
    rw [content_eq hindexed hfit hagreeable.counts hagreeable.inside hpool
      (.of_wholeReads hpool) hcallbacks, (records_eq_iff hagreeable.inside).mpr hagreeable.alike]
  have hbuffered := buffered_or_failed hids hfit hagreeable.counts hpool
  have hsuccess : s.exitCode = some .success → Succeeded s.pool :=
    (ThreadsInvariant.reachable h).success
  refine ⟨_, if s.exitCode.isSome then s.pool.writer.buffered else [],
    run_inside hagreeable.nonempty hblocks hagreeable.inside, rfl, ?_, ?_, ?_, ?_⟩
  · by_cases hcallbacks : s.pool.writer.callbacks = []
    · obtain ⟨-, hnone⟩ := (WriterInvariant.reachable hids hpool).untouched hcallbacks
      rw [hnone]
      exact List.nil_prefix
    · rw [← hcontent hcallbacks]
      exact written_prefix_content hids hfit hagreeable.counts hpool
  · split
    · rcases hbuffered with hempty | hfailed
      · rw [hempty]
        exact List.nil_infix
      · rw [← hcontent (by simp [hfailed])]
        exact buffered_infix_content hids hfit hagreeable.counts hpool
    · exact List.nil_infix
  · intro hne
    split at hne
    case isTrue hexited =>
      have hfailed := hbuffered.resolve_left hne
      obtain ⟨code, hcode⟩ := Option.isSome_iff_exists.mp hexited
      cases code with
      | failure => exact ⟨hcode, hfailed⟩
      | success =>
          have hsucceeded := hsuccess hcode
          simp [Succeeded, hfailed] at hsucceeded
    case isFalse => exact absurd rfl hne
  · intro hexit
    have hsucceeded := hsuccess hexit
    rw [written_eq_content_of_succeeded hids hfit hagreeable.counts hpool hsucceeded,
      hcontent (List.ne_nil_of_mem hsucceeded)]

section Files

variable {lexicalCast : List Char → Except String ℕ} {fs : FileSystem (List Byte)}
  {faults : Faults} {current : Path} {options : VariablesMap} {args : Arguments}
  {cpuCoreCount : ℕ} {F : FileContent} {blocks : List Block} {p q : Process}

/-- In a run without short reads on an agreeable layout the output file holds
the start of the signature that the first version computes, and all of it if the
run ends with success; if it ends with a failure of the stream, a piece of the
signature can follow. -/
theorem output_of_signature (hargs : parser lexicalCast fs faults current options = .ok args)
    (hfile : fs.fileAt args.inputPath = some F.bytes)
    (hapart : Apart fs faults args.inputPath args.outputPath) (hcores : 1 ≤ cpuCoreCount)
    (hblocks : blockFileBlocks F.size cpuCoreCount args.chunkSize = some blocks)
    (hagreeable : Agreeable F blocks) (hchecked : faults .outputExists = none)
    (hlaunch : launch lexicalCast fs faults current options cpuCoreCount = .started p)
    (h : Reachable Process.step Action.WholeRead p q) :
    ∃ signature reached rewritten,
      Signature.run F cpuCoreCount args.chunkSize = .success signature ∧
      q.fileSystem.fileAt args.outputPath = some (reached ++ rewritten) ∧
      reached <+: signature ∧ rewritten <:+: signature ∧
      (rewritten ≠ [] → q.system.exitCode = some .failure ∧
        q.system.pool.writer.callbacks = [.error iostreamError]) ∧
      (q.system.exitCode = some .success → reached = signature) := by
  rw [launch_of_parsed hargs] at hlaunch
  obtain ⟨i, hinput⟩ := exists_intact hfile
  obtain ⟨F', blocks', hF, hblocks', -, hstart⟩ := startThreads_started hinput hlaunch
  obtain rfl : F' = F := FileContent.ext hF
  obtain rfl : blocks' = blocks := Option.some.inj (hblocks'.symm.trans hblocks)
  have hprocess := (startThreads_intact hapart hinput).2 p hlaunch
  have hsystem := hstart ▸ hprocess.system_reachable h
  obtain ⟨signature, rewritten, hrun, houtput, hpieces⟩ :=
    hagreeable.output_eq hcores hblocks hsystem
  refine ⟨signature, _, rewritten, hrun, ?_, hpieces⟩
  rw [← houtput]
  exact (output_intact hchecked hlaunch h).fileAt

def threeBytesFile : FileContent := ⟨[1, 2, 3], by decide⟩

theorem output_of_signature_fullDisk : ∃ (q : Process) (signature reached rewritten : List Byte),
    q.system.exitCode = some .failure ∧
    q.fileSystem.fileAt twoFilesArguments.outputPath = some [10, 137, 10, 137, 136, 68] ∧
    Signature.run threeBytesFile 1 twoFilesArguments.chunkSize = .success signature ∧
    reached ++ rewritten = [10, 137, 10, 137, 136, 68] ∧
    reached <+: signature ∧ rewritten <:+: signature := by
  have hwhole : ∀ a ∈ fullDiskRun, a.WholeRead := by
    simp [fullDiskRun, Action.WholeRead, Environment.WholeRead, complete]
  obtain ⟨p, q, hlaunch, hreachable, hexit, houtput⟩ := exists_fullDiskRun hwhole
  have hblocks : blockFileBlocks 3 1 twoFilesArguments.chunkSize = some [threeBytesBlock] := by
    decide
  have hfile : twoFiles.fileAt twoFilesArguments.inputPath = some threeBytesFile.bytes := rfl
  obtain ⟨signature, reached, rewritten, hsignature, hpieces, hprefix, hinfix, -, -⟩ :=
    output_of_signature parser_twoFiles hfile apart_twoFiles (le_refl 1) hblocks
      (threeBytes_agreeable _ _ hfile hblocks) rfl hlaunch hreachable
  have hstarted := hlaunch
  rw [launch_of_parsed parser_twoFiles] at hstarted
  have hbytes := (output_intact rfl hstarted hreachable).fileAt
  rw [houtput] at hbytes
  exact ⟨q, signature, reached, rewritten, hexit, hbytes, hsignature,
    Option.some.inj (hpieces.symm.trans hbytes), hprefix, hinfix⟩

end Files

end VeeamSignature.Signature2
