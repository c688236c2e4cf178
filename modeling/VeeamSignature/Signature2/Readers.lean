import Mathlib.Data.Multiset.Filter
import VeeamSignature.Signature2.Segmentation
import VeeamSignature.Signature2.Transition

/-!
# The readers of a run

Each reader hands one task to itself: `do_read` posts a read, the read of a
full segment posts `do_read`, and the last read posts nothing.  In a reachable
pool a reader therefore owns at most one task, and that task says how far the
reader is in the sequence of the reads of its block.
-/

namespace VeeamSignature.Signature2

open Slices BlockReader LabelledSystem

def Task.reader? : Task → Option ℕ
  | .doRead k => some k
  | .read k _ => some k
  | _ => none

def tasksOf (k : ℕ) (tasks : Multiset Task) : Multiset Task :=
  tasks.filter fun t => t.reader? = some k

theorem tasksOf_add (k : ℕ) (s t : Multiset Task) :
    tasksOf k (s + t) = tasksOf k s + tasksOf k t :=
  Multiset.filter_add _ s t

theorem tasksOf_cons_of_pos {k : ℕ} {t : Task} (h : t.reader? = some k) (s : Multiset Task) :
    tasksOf k (t ::ₘ s) = t ::ₘ tasksOf k s :=
  Multiset.filter_cons_of_pos s h

theorem tasksOf_cons_of_neg {k : ℕ} {t : Task} (h : t.reader? ≠ some k) (s : Multiset Task) :
    tasksOf k (t ::ₘ s) = tasksOf k s :=
  Multiset.filter_cons_of_neg s h

theorem tasksOf_cons_none {k : ℕ} {t : Task} (h : t.reader? = none) (s : Multiset Task) :
    tasksOf k (t ::ₘ s) = tasksOf k s :=
  tasksOf_cons_of_neg (by simp [h]) s

/-- The pending tasks of a reader. -/
def Pool.readerTasks (p : Pool) (k : ℕ) : Multiset Task := tasksOf k p.tasks

def requestsOf (b : Block) (j : ℕ) : List ℕ := (b.segmentSpans.take j).map Span.length

/-- The reader has carried out the first `j` reads of the block. -/
structure Progress (b : Block) (j : ℕ) (r : BlockReader) : Prop where
  block : r.block = b
  requests : r.requests = requestsOf b j
  delivered : r.delivered.map Segment.header = (headers b).take j
  wellFormed : ∀ s ∈ r.delivered, s.WellFormed ∧ s.chunkSize = b.chunkSize
  failures : r.failures = []

/-- How far a reader is, by the tasks it has pending. -/
inductive ReaderState (b : Block) (k : ℕ) : BlockReader → Multiset Task → Prop
  | ready {j : ℕ} {r : BlockReader} (hj : j ≤ b.fullSegments) (progress : Progress b j r)
      (offset : r.offset = j * b.segmentSize) : ReaderState b k r {.doRead k}
  | reading {j : ℕ} {r : BlockReader} (hj : j ≤ b.fullSegments) (progress : Progress b j r)
      (offset : r.offset = offsetAfter b j) : ReaderState b k r {.read k (operationAt b j)}
  | finished {r : BlockReader} (progress : Progress b (b.fullSegments + 1) r) :
      ReaderState b k r 0
  | failed {j : ℕ} {r : BlockReader} (hj : j ≤ b.fullSegments) (progress : Progress b j r)
      (offset : r.offset = offsetAfter b j) : ReaderState b k (r.rejected (operationAt b j)) 0

/-! ## One reader -/

section Reader

variable {file : List Byte} {b : Block} {j k : ℕ} {r : BlockReader}

theorem take_succ_segmentSpans (hj : j ≤ b.fullSegments) :
    b.segmentSpans.take (j + 1) = b.segmentSpans.take j ++ [b.segmentSpan j] := by
  rw [List.take_add_one, b.getElem?_segmentSpans hj, Option.toList_some]

theorem requestsOf_succ (hj : j ≤ b.fullSegments) :
    requestsOf b (j + 1) = requestsOf b j ++ [(b.segmentSpan j).length] := by
  simp [requestsOf, take_succ_segmentSpans hj]

theorem sum_requestsOf (hj : j ≤ b.fullSegments) :
    (requestsOf b j).sum = (b.segmentSpan j).start := by
  induction j with
  | zero => simp [requestsOf, Block.segmentSpan]
  | succ j ih =>
      have hlast : (b.segmentSpan j).length = b.segmentSize := by
        simp [Block.segmentSpan, Nat.lt_of_succ_le hj]
      rw [requestsOf_succ (Nat.le_of_succ_le hj), List.sum_append, ih (Nat.le_of_succ_le hj), hlast]
      simp [Block.segmentSpan, Nat.add_mul]

theorem take_succ_headers (hj : j ≤ b.fullSegments) :
    (headers b).take (j + 1) = (headers b).take j ++ [headerOf b (b.segmentSpan j)] := by
  simp [headers, ← List.map_take, take_succ_segmentSpans hj]

theorem length_read_le {position count : ℕ} {result : ReadResult} {bytes : List Byte}
    (h : read file position count result = .ok bytes) : bytes.length ≤ count := by
  cases result with
  | failed error => cases h
  | complete =>
      cases h
      rw [length_slice]
      exact Nat.min_le_left _ _
  | short limit =>
      cases h
      rw [length_slice]
      exact (Nat.min_le_left _ _).trans (Nat.min_le_right _ _)

theorem header_segment (operation : ReadOperation) (memory : List Byte) :
    (r.segment operation memory).header = r.header operation := by
  cases operation <;> rfl

theorem wellFormed_segment (hj : j ≤ b.fullSegments) (hblock : r.block = b)
    (hoffset : r.offset = offsetAfter b j) {bytes : List Byte}
    (hbytes : bytes.length ≤ r.requested (operationAt b j)) :
    (r.segment (operationAt b j) (buffer (r.requested (operationAt b j)) bytes)).WellFormed := by
  subst hblock
  have hheader := header_operationAt hj hoffset
  have hlength := requested_operationAt hj
  refine ⟨r.block.chunkSize_pos, ?_, ?_⟩
  · simp only [BlockReader.segment, hheader, headerOf]
    exact Nat.mod_lt _ r.block.chunkSize_pos
  · simp only [BlockReader.segment, hheader, headerOf, buffer, List.length_append,
      List.length_replicate]
    rw [Nat.add_sub_cancel' hbytes, hlength, Nat.mul_comm]
    exact (Nat.div_add_mod _ _).symm

theorem Progress.received (h : Progress b j r) (hj : j ≤ b.fullSegments)
    (hoffset : r.offset = offsetAfter b j) {bytes : List Byte}
    (hbytes : bytes.length ≤ r.requested (operationAt b j)) :
    Progress b (j + 1) (r.received (operationAt b j) bytes) where
  block := h.block
  requests := by
    have hlength : r.requested (operationAt b j) = (b.segmentSpan j).length := by
      obtain rfl := h.block
      exact requested_operationAt hj
    rw [BlockReader.received, h.requests, hlength, requestsOf_succ hj]
  delivered := by
    have hheader : r.header (operationAt b j) = headerOf b (b.segmentSpan j) := by
      obtain rfl := h.block
      exact header_operationAt hj hoffset
    rw [BlockReader.received, List.map_append, h.delivered, take_succ_headers hj,
      List.map_singleton, header_segment, hheader]
  wellFormed := by
    intro s hs
    rcases List.mem_append.mp hs with hs | hs
    · exact h.wellFormed s hs
    · obtain rfl := List.mem_singleton.mp hs
      exact ⟨wellFormed_segment hj h.block hoffset hbytes, congrArg Block.chunkSize h.block⟩
  failures := h.failures

theorem Progress.length (h : Progress b j r) (hj : j ≤ b.fullSegments + 1) :
    r.delivered.length = j := by
  have hlength := congrArg List.length h.delivered
  rwa [List.length_map, List.length_take, length_headers, Nat.min_eq_left hj] at hlength

theorem ReaderState.doRead (h : ReaderState b k r {.doRead k}) :
    ReaderState b k r.doRead.1 {.read k r.doRead.2} := by
  generalize htasks : ({.doRead k} : Multiset Task) = tasks at h
  cases h with
  | ready hj progress offset =>
      obtain rfl := progress.block
      rw [BlockReader.doRead_eq hj offset]
      exact .reading hj ⟨rfl, progress.requests, progress.delivered, progress.wellFormed,
        progress.failures⟩ rfl
  | reading => simp at htasks
  | finished => simp at htasks
  | failed => simp at htasks

theorem ReaderState.of_read {operation : ReadOperation}
    (h : ReaderState b k r {.read k operation}) :
    ∃ j ≤ b.fullSegments, operation = operationAt b j ∧ Progress b j r ∧
      r.offset = offsetAfter b j := by
  generalize htasks : ({.read k operation} : Multiset Task) = tasks at h
  cases h with
  | ready => simp at htasks
  | @reading j _ hj progress offset =>
      have hoperation : operation = operationAt b j := by simpa using htasks
      exact ⟨j, hj, hoperation, progress, offset⟩
  | finished => simp at htasks
  | failed => simp at htasks

theorem ReaderState.received {operation : ReadOperation} {bytes : List Byte}
    (h : ReaderState b k r {.read k operation})
    (hbytes : bytes.length ≤ r.requested operation) :
    ReaderState b k (r.received operation bytes)
      (if operation.again then {.doRead k} else 0) := by
  obtain ⟨j, hj, rfl, progress, offset⟩ := h.of_read
  have hprogress := progress.received hj offset hbytes
  rw [again_operationAt]
  by_cases hlt : j < b.fullSegments
  · rw [decide_eq_true hlt, if_pos rfl]
    exact .ready hlt hprogress (offset.trans (if_pos hlt))
  · obtain rfl : j = b.fullSegments := Nat.le_antisymm hj (Nat.le_of_not_lt hlt)
    rw [decide_eq_false hlt, if_neg Bool.false_ne_true]
    exact .finished hprogress

theorem ReaderState.rejected {operation : ReadOperation}
    (h : ReaderState b k r {.read k operation}) :
    ReaderState b k (r.rejected operation) 0 := by
  obtain ⟨j, hj, rfl, progress, offset⟩ := h.of_read
  exact .failed hj progress offset

end Reader

theorem ReaderState.tasks_eq {b : Block} {k : ℕ} {r : BlockReader} {tasks : Multiset Task}
    {t : Task} (h : ReaderState b k r tasks) (hmem : t ∈ tasks) : tasks = {t} := by
  cases h with
  | ready => rw [Multiset.mem_singleton.mp hmem]
  | reading => rw [Multiset.mem_singleton.mp hmem]
  | finished => cases Multiset.notMem_zero t hmem
  | failed => cases Multiset.notMem_zero t hmem

/-! ## All readers -/

structure Posts (p : Pool) (t : Task) (p' : Pool) (posted : Multiset Task) : Prop where
  tasks : p'.tasks = posted + p.tasks.erase t
  length : p'.readers.length = p.readers.length
  other : ∀ k, t.reader? ≠ some k → p'.readers[k]? = p.readers[k]? ∧ tasksOf k posted = 0
  own : ∀ k b r r', t.reader? = some k → p.readers[k]? = some r → p'.readers[k]? = some r' →
    ReaderState b k r {t} → ReaderState b k r' (tasksOf k posted)

section Pool

variable {file : List Byte} {blocks : List Block} {p p' : Pool} {t : Task} {e : Environment}
  {signal : Signal}

theorem Posts.of_set {i : ℕ} {r r₁ : BlockReader} {posted : Multiset Task}
    (hreaders : p'.readers = p.readers.set i r₁) (htasks : p'.tasks = posted + p.tasks.erase t)
    (howner : t.reader? = some i) (hr : p.readers[i]? = some r)
    (hposted : ∀ k ≠ i, tasksOf k posted = 0)
    (hstate : ∀ b, ReaderState b i r {t} → ReaderState b i r₁ (tasksOf i posted)) :
    Posts p t p' posted := by
  refine ⟨htasks, by rw [hreaders, List.length_set], ?_, ?_⟩
  · intro k hk
    have hne : i ≠ k := fun heq => hk (heq ▸ howner)
    exact ⟨by rw [hreaders, List.getElem?_set_ne hne], hposted k hne.symm⟩
  · intro k b r' r'' hk hr' hr'' h
    obtain rfl : i = k := Option.some.inj (howner.symm.trans hk)
    obtain rfl := Option.some.inj (hr.symm.trans hr')
    obtain ⟨hi, -⟩ := List.getElem?_eq_some_iff.mp hr
    rw [hreaders, List.getElem?_set_self hi] at hr''
    obtain rfl := Option.some.inj hr''
    exact hstate b h

theorem Posts.of_none {posted : Multiset Task} (hreaders : p'.readers = p.readers)
    (htasks : p'.tasks = posted + p.tasks.erase t) (howner : t.reader? = none)
    (hposted : ∀ k, tasksOf k posted = 0) : Posts p t p' posted := by
  refine ⟨htasks, by rw [hreaders], fun k _ => ⟨by rw [hreaders], hposted k⟩, ?_⟩
  intro k b r r' hk
  rw [howner] at hk
  cases hk

theorem Transition.posts (h : Transition file e p t p' signal) :
    ∃ posted, Posts p t p' posted := by
  cases h with
  | @doRead i r hr =>
      refine ⟨{.read i r.doRead.2}, .of_set rfl rfl rfl hr ?_ ?_⟩
      · intro k hk
        have hne : (Task.read i r.doRead.2).reader? ≠ some k := fun heq =>
          hk (Option.some.inj heq).symm
        exact tasksOf_cons_of_neg hne 0
      · intro b hstate
        have howner : (Task.read i r.doRead.2).reader? = some i := rfl
        rw [← Multiset.cons_zero, tasksOf_cons_of_pos howner]
        exact hstate.doRead
  | @readFailed i operation r error hr hread =>
      refine ⟨{.throwException (.readFailed error)}, .of_set rfl rfl rfl hr ?_ ?_⟩
      · intro k hk
        exact tasksOf_cons_none rfl 0
      · intro b hstate
        exact hstate.rejected
  | @readAgain i operation r bytes hr hread hagain =>
      let segment := r.segment operation (buffer (r.requested operation) bytes)
      refine ⟨.doRead i ::ₘ {.hash segment}, .of_set rfl ?_ rfl hr ?_ ?_⟩
      · simp [segment]
      · intro k hk
        have hne : (Task.doRead i).reader? ≠ some k := fun heq =>
          hk (Option.some.inj heq).symm
        rw [tasksOf_cons_of_neg hne]
        exact tasksOf_cons_none rfl 0
      · intro b hstate
        have howner : (Task.doRead i).reader? = some i := rfl
        have hnext := hstate.received (length_read_le hread)
        rw [hagain] at hnext
        rw [tasksOf_cons_of_pos howner]
        exact hnext
  | @readLast i operation r bytes hr hread hagain =>
      let segment := r.segment operation (buffer (r.requested operation) bytes)
      refine ⟨{.hash segment}, .of_set rfl rfl rfl hr ?_ ?_⟩
      · intro k hk
        exact tasksOf_cons_none rfl 0
      · intro b hstate
        have hnext := hstate.received (length_read_le hread)
        rwa [hagain] at hnext
  | @hash segment hashed =>
      exact ⟨{.write hashed}, .of_none rfl rfl rfl fun k => tasksOf_cons_none rfl 0⟩
  | count => exact ⟨0, .of_none rfl (Multiset.zero_add _).symm rfl fun k => rfl⟩
  | wrote => exact ⟨0, .of_none rfl (Multiset.zero_add _).symm rfl fun k => rfl⟩
  | @writeFailed segment w error =>
      exact ⟨{.throwException (.writeFailed error)},
        .of_none rfl rfl rfl fun k => tasksOf_cons_none rfl 0⟩
  | throwException => exact ⟨0, .of_none rfl (Multiset.zero_add _).symm rfl fun k => rfl⟩

/-- Every reader is at some point of its sequence of reads. -/
structure ReadersInvariant (blocks : List Block) (p : Pool) : Prop where
  length : p.readers.length = blocks.length
  state : ∀ k b r, blocks[k]? = some b → p.readers[k]? = some r →
    ReaderState b k r (p.readerTasks k)
  owned : ∀ k, blocks.length ≤ k → p.readerTasks k = 0

/-- A step leaves the readers that its task does not belong to alone. -/
theorem Transition.untouched (hmem : t ∈ p.tasks) (h : Transition file e p t p' signal) {k : ℕ}
    (hk : t.reader? ≠ some k) :
    p'.readers[k]? = p.readers[k]? ∧ p'.readerTasks k = p.readerTasks k := by
  obtain ⟨posted, hposted⟩ := h.posts
  obtain ⟨rest, hrest⟩ := Multiset.exists_cons_of_mem hmem
  obtain ⟨hreader, hnone⟩ := hposted.other k hk
  refine ⟨hreader, ?_⟩
  rw [Pool.readerTasks, hposted.tasks, hrest, Multiset.erase_cons_head, tasksOf_add, hnone,
    Multiset.zero_add, Pool.readerTasks, hrest, tasksOf_cons_of_neg hk]

/-- No other task belongs to the reader of a task that is its only one. -/
theorem tasksOf_erase {k : ℕ} {t : Task} {tasks : Multiset Task} (hmem : t ∈ tasks)
    (hk : t.reader? = some k) (hsingle : tasksOf k tasks = {t}) :
    tasksOf k (tasks.erase t) = 0 := by
  obtain ⟨rest, hrest⟩ := Multiset.exists_cons_of_mem hmem
  rw [hrest, tasksOf_cons_of_pos hk] at hsingle
  rw [hrest, Multiset.erase_cons_head]
  exact (Multiset.cons_inj_right t).mp hsingle

theorem ReadersInvariant.step (hmem : t ∈ p.tasks) (h : Transition file e p t p' signal)
    (hp : ReadersInvariant blocks p) : ReadersInvariant blocks p' := by
  obtain ⟨posted, hposted⟩ := h.posts
  refine ⟨hposted.length.trans hp.length, ?_, ?_⟩
  · intro k b r' hb hr'
    by_cases hk : t.reader? = some k
    · obtain ⟨hlt, -⟩ := List.getElem?_eq_some_iff.mp hb
      obtain ⟨r, hr⟩ : ∃ r, p.readers[k]? = some r :=
        ⟨_, List.getElem?_eq_getElem (hp.length ▸ hlt)⟩
      have hstate := hp.state k b r hb hr
      have hsingle := hstate.tasks_eq (Multiset.mem_filter.mpr ⟨hmem, hk⟩)
      rw [hsingle] at hstate
      rw [Pool.readerTasks, hposted.tasks, tasksOf_add, tasksOf_erase hmem hk hsingle,
        Multiset.add_zero]
      exact hposted.own k b r r' hk hr hr' hstate
    · obtain ⟨hreader, hsame⟩ := h.untouched hmem hk
      rw [hsame]
      exact hp.state k b r' hb (hreader ▸ hr')
  · intro k hk
    have hne : t.reader? ≠ some k := by
      intro heq
      have hin : t ∈ p.readerTasks k := Multiset.mem_filter.mpr ⟨hmem, heq⟩
      rw [hp.owned k hk] at hin
      exact Multiset.notMem_zero t hin
    rw [(h.untouched hmem hne).2]
    exact hp.owned k hk

theorem Pool.start_readerTasks {blocks : List Block} {k : ℕ} :
    (Pool.start blocks).readerTasks k = if k < blocks.length then {.doRead k} else 0 := by
  have hfilter : tasksOf k ((Multiset.range blocks.length).map Task.doRead) =
      ((Multiset.range blocks.length).filter fun i => i = k).map Task.doRead := by
    rw [tasksOf, Multiset.filter_map]
    simp [Task.reader?, Function.comp_def]
  rw [Pool.readerTasks, Pool.start, hfilter, Multiset.filter_eq']
  split_ifs with hk
  · rw [Multiset.count_eq_one_of_mem (Multiset.nodup_range _) (Multiset.mem_range.mpr hk)]
    rfl
  · rw [Multiset.count_eq_zero_of_notMem fun hmem => hk (Multiset.mem_range.mp hmem)]
    rfl

theorem Progress.start (b : Block) : Progress b 0 (BlockReader.start b) :=
  ⟨rfl, rfl, rfl, by simp [BlockReader.start], rfl⟩

theorem ReadersInvariant.start (blocks : List Block) :
    ReadersInvariant blocks (Pool.start blocks) := by
  refine ⟨by simp [Pool.start], ?_, ?_⟩
  · intro k b r hb hr
    obtain ⟨hlt, -⟩ := List.getElem?_eq_some_iff.mp hb
    obtain rfl : r = BlockReader.start b := by simpa [Pool.start, hb] using hr.symm
    rw [Pool.start_readerTasks, if_pos hlt]
    exact .ready (Nat.zero_le _) (.start b) (Nat.zero_mul _).symm
  · intro k hk
    rw [Pool.start_readerTasks, if_neg (Nat.not_lt.mpr hk)]

theorem ReadersInvariant.reachable {ok : Task × Environment → Prop}
    (h : Reachable (Pool.next file) ok (Pool.start blocks) p) : ReadersInvariant blocks p := by
  apply Pool.invariant _ (.start blocks) h
  intro p t e p' signal _ hp _ hmem htransition
  exact hp.step hmem htransition

theorem ReadersInvariant.reader (hp : ReadersInvariant blocks p) {k : ℕ} {b : Block}
    (hb : blocks[k]? = some b) :
    ∃ r, p.readers[k]? = some r ∧ ReaderState b k r (p.readerTasks k) := by
  obtain ⟨hlt, -⟩ := List.getElem?_eq_some_iff.mp hb
  have hr := List.getElem?_eq_getElem (hp.length.symm ▸ hlt)
  exact ⟨_, hr, hp.state k b _ hb hr⟩

/-- What a step does to one reader. -/
inductive ReaderMove (file : List Byte) (e : Environment) (r : BlockReader) : Task →
    BlockReader → Prop
  | doRead {k : ℕ} : ReaderMove file e r (.doRead k) r.doRead.1
  | rejected {k : ℕ} {operation : ReadOperation} {error : String}
      (result : read file r.position (r.requested operation) e.read = .error error) :
      ReaderMove file e r (.read k operation) (r.rejected operation)
  | received {k : ℕ} {operation : ReadOperation} {bytes : List Byte}
      (result : read file r.position (r.requested operation) e.read = .ok bytes) :
      ReaderMove file e r (.read k operation) (r.received operation bytes)

/-- A step moves the reader of its task, and leaves the others alone. -/
theorem Transition.readerMove (h : Transition file e p t p' signal) {k : ℕ} {r r' : BlockReader}
    (hr : p.readers[k]? = some r) (hr' : p'.readers[k]? = some r') :
    r' = r ∨ t.reader? = some k ∧ ReaderMove file e r t r' := by
  obtain ⟨hk, -⟩ := List.getElem?_eq_some_iff.mp hr
  have hsame : ∀ r₁, p.readers[k]? = some r₁ → r₁ = r := fun r₁ h₁ =>
    Option.some.inj (h₁.symm.trans hr)
  have hset : ∀ {i : ℕ} {r₁ : BlockReader}, (p.readers.set i r₁)[k]? = some r' →
      i ≠ k ∧ r' = r ∨ i = k ∧ r' = r₁ := by
    intro i r₁ h₁
    by_cases hik : i = k
    · subst hik
      rw [List.getElem?_set_self hk] at h₁
      exact Or.inr ⟨rfl, (Option.some.inj h₁).symm⟩
    · rw [List.getElem?_set_ne hik] at h₁
      exact Or.inl ⟨hik, hsame _ h₁⟩
  cases h with
  | doRead h₁ =>
      rcases hset hr' with ⟨-, rfl⟩ | ⟨rfl, rfl⟩
      · exact Or.inl rfl
      · obtain rfl := hsame _ h₁
        exact Or.inr ⟨rfl, .doRead⟩
  | readFailed h₁ hread =>
      rcases hset hr' with ⟨-, rfl⟩ | ⟨rfl, rfl⟩
      · exact Or.inl rfl
      · obtain rfl := hsame _ h₁
        exact Or.inr ⟨rfl, .rejected hread⟩
  | readAgain h₁ hread =>
      rcases hset hr' with ⟨-, rfl⟩ | ⟨rfl, rfl⟩
      · exact Or.inl rfl
      · obtain rfl := hsame _ h₁
        exact Or.inr ⟨rfl, .received hread⟩
  | readLast h₁ hread =>
      rcases hset hr' with ⟨-, rfl⟩ | ⟨rfl, rfl⟩
      · exact Or.inl rfl
      · obtain rfl := hsame _ h₁
        exact Or.inr ⟨rfl, .received hread⟩
  | hash => exact Or.inl (hsame _ hr')
  | count => exact Or.inl (hsame _ hr')
  | wrote => exact Or.inl (hsame _ hr')
  | writeFailed => exact Or.inl (hsame _ hr')
  | throwException => exact Or.inl (hsame _ hr')

def ReadsSucceed (a : Task × Environment) : Prop := ∀ error, a.2.read ≠ .failed error

theorem read_ne_error {position count : ℕ} {result : ReadResult}
    (h : ∀ error, result ≠ .failed error) (error : String) :
    read file position count result ≠ .error error := by
  intro hread
  cases result with
  | failed error => exact h error rfl
  | complete => cases hread
  | short limit => cases hread

theorem failures_eq_nil (h : Reachable (Pool.next file) ReadsSucceed (Pool.start blocks) p) :
    ∀ r ∈ p.readers, r.failures = [] := by
  apply Pool.invariant (I := fun p => ∀ r ∈ p.readers, r.failures = []) _ _ h
  · intro p t e p' signal hreachable hp he hmem htransition r' hr'
    have hreaders := ReadersInvariant.reachable hreachable
    obtain ⟨k, hk'⟩ := List.mem_iff_getElem?.mp hr'
    obtain ⟨hlt, -⟩ := List.getElem?_eq_some_iff.mp hk'
    have hlength := (hreaders.step hmem htransition).length.trans hreaders.length.symm
    obtain ⟨r, hr⟩ : ∃ r, p.readers[k]? = some r :=
      ⟨_, List.getElem?_eq_getElem (hlength ▸ hlt)⟩
    have hnil := hp r (List.mem_of_getElem? hr)
    rcases htransition.readerMove hr hk' with rfl | ⟨-, hmove⟩
    · exact hnil
    · cases hmove with
      | doRead =>
          rw [r.doRead_fst]
          exact hnil
      | rejected hread => exact absurd hread (read_ne_error he _)
      | received hread => exact hnil
  · intro r hr
    obtain ⟨b, -, rfl⟩ := List.mem_map.mp hr
    rfl

end Pool

end VeeamSignature.Signature2
