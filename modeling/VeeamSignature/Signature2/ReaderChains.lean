import VeeamSignature.Signature2.ReadChain

/-!
# The readers of a pool follow their chains

In a reachable pool the tasks of the other readers, the hasher and the writer
leave no trace in a reader: with the results of its own reads so far, the chain
of its block is at the same point.
-/

namespace VeeamSignature.Signature2

open BlockReader LabelledSystem

section Chain

variable {file : List Byte} {r : BlockReader} {result : ReadResult} {results : List ReadResult}

theorem readChain_append (h : (readChain file results r).posted = true) (result : ReadResult) :
    readChain file (results ++ [result]) r =
      ⟨(readChain file results r).calls ++
          [((readChain file results r).reader.readOnce file result).1],
        ((readChain file results r).reader.readOnce file result).2,
        ((readChain file results r).reader.readOnce file result).1.posts⟩ := by
  induction results generalizing r with
  | nil =>
      simp only [List.nil_append, readChain]
      split_ifs with hposts
      · rw [hposts]
      · rw [Bool.not_eq_true] at hposts
        rw [hposts]
  | cons first results ih =>
      simp only [List.cons_append, readChain] at h ⊢
      split_ifs at h ⊢ with hposts
      simp only [ih h, List.cons_append]

theorem readOnce_rejected {error : String} (hread : read file r.doRead.1.position
      (r.doRead.1.requested r.doRead.2) result = .error error) :
    (r.readOnce file result).2 = r.doRead.1.rejected r.doRead.2 ∧
      (r.readOnce file result).1.posts = false ∧
      chainSegments [(r.readOnce file result).1] = [] := by
  simp only [readOnce, perform, hread]
  exact ⟨trivial, Bool.and_false _, rfl⟩

theorem readOnce_received {bytes : List Byte} (hread : read file r.doRead.1.position
      (r.doRead.1.requested r.doRead.2) result = .ok bytes) :
    (r.readOnce file result).2 = r.doRead.1.received r.doRead.2 bytes ∧
      (r.readOnce file result).1.posts = r.doRead.2.again ∧
      chainSegments [(r.readOnce file result).1] = [r.doRead.1.segment r.doRead.2
        (buffer (r.doRead.1.requested r.doRead.2) bytes)] := by
  simp only [readOnce, perform, hread]
  exact ⟨trivial, Bool.and_true _, rfl⟩

theorem readOnce_delivered (file : List Byte) (r : BlockReader) (result : ReadResult) :
    (r.readOnce file result).2.delivered =
      r.delivered ++ chainSegments [(r.readOnce file result).1] := by
  have hsame : r.doRead.1.delivered = r.delivered := by rw [r.doRead_fst]
  cases hread : read file r.doRead.1.position (r.doRead.1.requested r.doRead.2) result with
  | error error =>
      obtain ⟨hreader, -, hsegments⟩ := readOnce_rejected hread
      rw [hreader, hsegments, List.append_nil]
      exact hsame
  | ok bytes =>
      obtain ⟨hreader, -, hsegments⟩ := readOnce_received hread
      rw [hreader, hsegments, ← hsame]
      rfl

theorem chainSegments_append (calls calls' : List ReadCall) :
    chainSegments (calls ++ calls') = chainSegments calls ++ chainSegments calls' :=
  List.filterMap_append

/-- The segments a chain hands on are those its reader has delivered. -/
theorem readChain_delivered (file : List Byte) (results : List ReadResult) (r : BlockReader) :
    (readChain file results r).reader.delivered =
      r.delivered ++ chainSegments (readChain file results r).calls := by
  induction results generalizing r with
  | nil => simp [readChain]
  | cons result results ih =>
      simp only [readChain]
      split_ifs with hposts
      · rw [ih, readOnce_delivered, List.append_assoc, ← chainSegments_append]
        rfl
      · exact readOnce_delivered file r result

end Chain

/-- What a step does to a reader and to its tasks. -/
inductive ReaderStep (file : List Byte) (e : Environment) (k : ℕ) (r : BlockReader) :
    Task → BlockReader → Multiset Task → Prop
  | doRead : ReaderStep file e k r (.doRead k) r.doRead.1 {.read k r.doRead.2}
  | rejected {operation : ReadOperation} {error : String}
      (result : read file r.position (r.requested operation) e.read = .error error) :
      ReaderStep file e k r (.read k operation) (r.rejected operation) 0
  | received {operation : ReadOperation} {bytes : List Byte}
      (result : read file r.position (r.requested operation) e.read = .ok bytes) :
      ReaderStep file e k r (.read k operation) (r.received operation bytes)
        (if operation.again then {.doRead k} else 0)

/-- The reader and its tasks are where the chain of its block is after some results. -/
inductive FollowsChain (file : List Byte) (b : Block) (k : ℕ) : BlockReader → Multiset Task → Prop
  | ready (results : List ReadResult)
      (posted : (readChain file results (.start b)).posted = true) :
      FollowsChain file b k (readChain file results (.start b)).reader {.doRead k}
  | reading (results : List ReadResult)
      (posted : (readChain file results (.start b)).posted = true) :
      FollowsChain file b k (readChain file results (.start b)).reader.doRead.1
        {.read k (readChain file results (.start b)).reader.doRead.2}
  | ended (results : List ReadResult)
      (posted : (readChain file results (.start b)).posted = false) :
      FollowsChain file b k (readChain file results (.start b)).reader 0

section Pool

variable {file : List Byte} {blocks : List Block} {p p' : Pool} {t : Task} {e : Environment}
  {signal : Signal} {k : ℕ} {r : BlockReader}

theorem Transition.readerStep (h : Transition file e p t p' signal) (hmem : t ∈ p.tasks)
    (hk : t.reader? = some k) (hsingle : p.readerTasks k = {t}) (hr : p.readers[k]? = some r) :
    ∃ r', p'.readers[k]? = some r' ∧ ReaderStep file e k r t r' (p'.readerTasks k) := by
  have herase := tasksOf_erase hmem hk hsingle
  obtain ⟨hlt, -⟩ := List.getElem?_eq_some_iff.mp hr
  cases h with
  | @doRead i r hreader =>
      obtain rfl : i = k := Option.some.inj hk
      obtain rfl := Option.some.inj (hreader.symm.trans hr)
      refine ⟨_, List.getElem?_set_self hlt, ?_⟩
      rw [Pool.readerTasks, tasksOf_cons_of_pos rfl, herase]
      exact .doRead
  | @readFailed i operation r error hreader hread =>
      obtain rfl : i = k := Option.some.inj hk
      obtain rfl := Option.some.inj (hreader.symm.trans hr)
      refine ⟨_, List.getElem?_set_self hlt, ?_⟩
      rw [Pool.readerTasks, tasksOf_cons_none rfl, herase]
      exact .rejected hread
  | @readAgain i operation r bytes hreader hread hagain =>
      obtain rfl : i = k := Option.some.inj hk
      obtain rfl := Option.some.inj (hreader.symm.trans hr)
      have hstep := ReaderStep.received (k := i) hread
      rw [hagain, if_pos rfl] at hstep
      refine ⟨_, List.getElem?_set_self hlt, ?_⟩
      rw [Pool.readerTasks, tasksOf_cons_of_pos rfl, tasksOf_cons_none rfl, herase]
      exact hstep
  | @readLast i operation r bytes hreader hread hagain =>
      obtain rfl : i = k := Option.some.inj hk
      obtain rfl := Option.some.inj (hreader.symm.trans hr)
      have hstep := ReaderStep.received (k := i) hread
      rw [hagain, if_neg Bool.false_ne_true] at hstep
      refine ⟨_, List.getElem?_set_self hlt, ?_⟩
      rw [Pool.readerTasks, tasksOf_cons_none rfl, herase]
      exact hstep
  | hash => cases hk
  | count => cases hk
  | wrote => cases hk
  | writeFailed => cases hk
  | throwException => cases hk

theorem FollowsChain.of_eq {b : Block} {results : List ReadResult} {chain : ReadChain}
    (h : readChain file results (.start b) = chain) :
    FollowsChain file b k chain.reader (if chain.posted then {.doRead k} else 0) := by
  subst h
  split_ifs with hposted
  · exact .ready results hposted
  · exact .ended results (Bool.not_eq_true _ ▸ hposted)

theorem FollowsChain.step {b : Block} {r' : BlockReader} {tasks : Multiset Task}
    (h : FollowsChain file b k r {t}) (hstep : ReaderStep file e k r t r' tasks) :
    FollowsChain file b k r' tasks := by
  generalize htasks : ({t} : Multiset Task) = pending at h
  cases h with
  | ready results hposted =>
      obtain rfl := Multiset.singleton_inj.mp htasks
      cases hstep with
      | doRead => exact .reading results hposted
  | reading results hposted =>
      obtain rfl := Multiset.singleton_inj.mp htasks
      have happend := readChain_append hposted e.read
      cases hstep with
      | rejected hread =>
          obtain ⟨hreader, hposts, -⟩ := readOnce_rejected hread
          rw [hreader, hposts] at happend
          exact .of_eq happend
      | received hread =>
          obtain ⟨hreader, hposts, -⟩ := readOnce_received hread
          rw [hreader, hposts] at happend
          exact .of_eq happend
  | ended => simp at htasks

/-- In a reachable pool every reader is at a point of the chain of its block,
and has delivered what the calls of that chain handed on. -/
theorem readers_follow_chains {ok : Task × Environment → Prop}
    (h : Reachable (Pool.next file) ok (Pool.start blocks) p) {b : Block}
    (hb : blocks[k]? = some b) (hr : p.readers[k]? = some r) :
    FollowsChain file b k r (p.readerTasks k) ∧
      ∃ results, r.delivered = chainSegments (readChain file results (.start b)).calls := by
  have hfollows : ∀ k b r, blocks[k]? = some b → p.readers[k]? = some r →
      FollowsChain file b k r (p.readerTasks k) := by
    apply Pool.invariant _ _ h
    · intro p t e p' signal hreachable hp _ hmem htransition k b r' hb hr'
      have hreaders := ReadersInvariant.reachable hreachable
      obtain ⟨r, hr, hstate⟩ := hreaders.reader hb
      by_cases hk : t.reader? = some k
      · have hsingle := hstate.tasks_eq (Multiset.mem_filter.mpr ⟨hmem, hk⟩)
        obtain ⟨r'', hr'', hstep⟩ := htransition.readerStep hmem hk hsingle hr
        obtain rfl := Option.some.inj (hr''.symm.trans hr')
        exact (hsingle ▸ hp k b r hb hr).step hstep
      · obtain ⟨hsame, htasks⟩ := htransition.untouched hmem hk
        rw [htasks]
        exact hp k b r' hb (hsame ▸ hr')
    · intro k b r hb hr
      obtain ⟨hlt, -⟩ := List.getElem?_eq_some_iff.mp hb
      obtain rfl : r = BlockReader.start b := by simpa [Pool.start, hb] using hr.symm
      rw [Pool.start_readerTasks, if_pos hlt]
      exact .ready [] rfl
  have hreader := hfollows k b r hb hr
  have hdelivered (results : List ReadResult) :
      (readChain file results (.start b)).reader.delivered =
        chainSegments (readChain file results (.start b)).calls :=
    readChain_delivered file results (.start b)
  refine ⟨hreader, ?_⟩
  generalize p.readerTasks k = tasks at hreader
  cases hreader with
  | ready results => exact ⟨results, hdelivered results⟩
  | ended results => exact ⟨results, hdelivered results⟩
  | reading results =>
      refine ⟨results, ?_⟩
      rw [doRead_fst]
      exact hdelivered results

/-- While no read fails, a reader that has come to rest has delivered segments
that tile its block. -/
theorem readers_tile_blocks
    (h : Reachable (Pool.next file) ReadsSucceed (Pool.start blocks) p) {b : Block}
    (hb : blocks[k]? = some b) (hr : p.readers[k]? = some r) (hsize : 0 < b.size)
    (hdone : p.readerTasks k = 0) : TilesBlock b r.delivered := by
  have hstate := (ReadersInvariant.reachable h).state k b r hb hr
  rw [hdone] at hstate
  generalize htasks : (0 : Multiset Task) = tasks at hstate
  cases hstate with
  | ready => simp at htasks
  | reading => simp at htasks
  | finished progress =>
      apply tilesBlock_of_headers hsize
      · rw [progress.delivered, List.take_of_length_le (length_headers b).le]
      · exact fun s hs => (progress.wellFormed s hs).2
  | failed =>
      have hnone := failures_eq_nil h _ (List.mem_of_getElem? hr)
      exact absurd hnone (by simp [rejected])

end Pool

/-- The first reader gets two of three bytes, the second has not read yet. -/
def unevenReads : List (Task × Environment) :=
  [(.doRead 0, ⟨.complete, .complete⟩), (.doRead 1, ⟨.complete, .complete⟩),
    (.read 0 .entireBlock, ⟨.short 2, .complete⟩)]

theorem readers_follow_chains_uneven :
    ∃ p r, Reachable (Pool.next [1, 2, 3]) (fun _ => True)
        (Pool.start [smallBlock, smallBlock]) p ∧ p.readers[0]? = some r ∧
      FollowsChain [1, 2, 3] smallBlock 0 r (p.readerTasks 0) ∧ ∃ results, r.delivered =
        chainSegments (readChain [1, 2, 3] results (.start smallBlock)).calls := by
  have hend : ((unevenReads.foldlM (Pool.next [1, 2, 3])
      (Pool.start [smallBlock, smallBlock])).bind (·.readers[0]?)).isSome := by
    decide +kernel
  obtain ⟨r, hend⟩ := Option.isSome_iff_exists.mp hend
  obtain ⟨p, hp, hr⟩ := Option.bind_eq_some_iff.mp hend
  have hreachable : Reachable (Pool.next [1, 2, 3]) (fun _ => True)
      (Pool.start [smallBlock, smallBlock]) p := .of_foldlM (fun _ _ => trivial) hp
  exact ⟨p, r, hreachable, hr, readers_follow_chains hreachable rfl hr⟩

end VeeamSignature.Signature2
