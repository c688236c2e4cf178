import Mathlib.Algebra.BigOperators.Group.Multiset.Basic
import VeeamSignature.Signature2.Conservation

/-!
# Every run of the pool ends

Each pending task can be executed, and executing one lowers a measure: the
reads that are left, and the tasks by how far they are from the writer.
-/

namespace VeeamSignature.Signature2

open BlockReader LabelledSystem

/-- How many tasks a task can still lead to, itself included, reads apart. -/
def Task.weight : Task → ℕ
  | .doRead _ => 2
  | .read _ _ => 1
  | .hash _ => 3
  | .write _ => 2
  | .throwException _ => 1

def BlockReader.remaining (r : BlockReader) : ℕ := r.block.fullSegments + 1 - r.requests.length

theorem BlockReader.remaining_doRead (r : BlockReader) :
    r.remaining = r.doRead.1.remaining + 0 := by
  rw [doRead_fst]
  rfl

theorem BlockReader.remaining_received (r : BlockReader) (operation : ReadOperation)
    (bytes : List Byte) (h : r.requests.length < r.block.fullSegments + 1) :
    r.remaining = (r.received operation bytes).remaining + 1 := by
  simp only [remaining, received, List.length_append, List.length_singleton]
  omega

theorem BlockReader.remaining_rejected (r : BlockReader) (operation : ReadOperation)
    (h : r.requests.length < r.block.fullSegments + 1) :
    r.remaining = (r.rejected operation).remaining + 1 := by
  simp only [remaining, rejected, List.length_append, List.length_singleton]
  omega

/-- A read is worth the tasks it posts. -/
def Pool.measure (p : Pool) : ℕ :=
  (p.readers.map fun r => 5 * r.remaining).sum + (p.tasks.map Task.weight).sum

section Pool

variable {file : List Byte} {blocks : List Block} {p p' : Pool} {t : Task} {e : Environment}
  {signal : Signal}

theorem ReadersInvariant.exists_reader (hp : ReadersInvariant blocks p) (hmem : t ∈ p.tasks)
    {k : ℕ} (hk : t.reader? = some k) : ∃ b r, blocks[k]? = some b ∧ p.readers[k]? = some r := by
  have hlt : k < blocks.length := by
    by_contra hle
    have hin : t ∈ p.readerTasks k := Multiset.mem_filter.mpr ⟨hmem, hk⟩
    rw [hp.owned k (Nat.le_of_not_lt hle)] at hin
    exact Multiset.notMem_zero t hin
  exact ⟨_, _, List.getElem?_eq_getElem hlt, List.getElem?_eq_getElem (hp.length.symm ▸ hlt)⟩

theorem PoolInvariant.exists_transition (hp : PoolInvariant blocks p) (file : List Byte)
    (e : Environment) (hmem : t ∈ p.tasks) :
    ∃ p' signal, Transition file e p t p' signal := by
  cases t with
  | doRead k =>
      obtain ⟨b, r, -, hr⟩ := hp.readers.exists_reader hmem rfl
      exact ⟨_, _, .doRead hr⟩
  | read k operation =>
      obtain ⟨b, r, -, hr⟩ := hp.readers.exists_reader hmem rfl
      cases hread : read file r.position (r.requested operation) e.read with
      | error error => exact ⟨_, _, .readFailed hr hread⟩
      | ok bytes =>
          cases hagain : operation.again with
          | true => exact ⟨_, _, .readAgain hr hread hagain⟩
          | false => exact ⟨_, _, .readLast hr hread hagain⟩
  | hash segment => exact ⟨_, _, .hash (segmentHasher_eq (hp.conservation.wellFormed segment hmem))⟩
  | write segment =>
      cases hreceive : p.writer.receive segment e.stream with
      | mk w answer =>
          cases answer with
          | none => exact ⟨_, _, .count hreceive⟩
          | some result =>
              cases result with
              | success => exact ⟨_, _, .wrote hreceive⟩
              | error error => exact ⟨_, _, .writeFailed hreceive⟩
  | throwException exception => exact ⟨_, _, .throwException⟩

theorem ReaderState.requests_length {b : Block} {k : ℕ} {r : BlockReader}
    {operation : ReadOperation} (h : ReaderState b k r {.read k operation}) :
    r.requests.length < r.block.fullSegments + 1 := by
  obtain ⟨j, hj, -, progress, -⟩ := h.of_read
  obtain rfl := progress.block
  rw [progress.requests, requestsOf, List.length_map, List.length_take, Block.length_segmentSpans]
  omega

theorem remaining_set {readers : List BlockReader} {k : ℕ} {r r' : BlockReader}
    (hr : readers[k]? = some r) {count : ℕ} (hremaining : r.remaining = r'.remaining + count) :
    (readers.map fun r => 5 * r.remaining).sum =
      ((readers.set k r').map fun r => 5 * r.remaining).sum + 5 * count := by
  obtain ⟨others, hsum, hset⟩ := ListSum.exists_sum_set (fun r => 5 * r.remaining) hr
  rw [hsum, hset, hremaining]
  omega

theorem Transition.measure_lt (hmem : t ∈ p.tasks) (h : Transition file e p t p' signal)
    (hreaders : ReadersInvariant blocks p) : p'.measure < p.measure := by
  obtain ⟨rest, hrest⟩ := Multiset.exists_cons_of_mem hmem
  have hremaining : ∀ {k operation r}, t = .read k operation → p.readers[k]? = some r →
      r.requests.length < r.block.fullSegments + 1 := by
    rintro k operation r rfl hr
    obtain ⟨b, -, hb, -⟩ := hreaders.exists_reader hmem rfl
    have hstate := hreaders.state k b r hb hr
    rw [hstate.tasks_eq (Multiset.mem_filter.mpr ⟨hmem, rfl⟩)] at hstate
    exact hstate.requests_length
  have htasks : (p.tasks.map Task.weight).sum = t.weight + (rest.map Task.weight).sum := by
    rw [hrest, Multiset.map_cons, Multiset.sum_cons]
  rw [Pool.measure, Pool.measure, htasks]
  cases h with
  | @doRead k r hr =>
      have hset := remaining_set hr r.remaining_doRead
      simp only [hset, hrest, Multiset.erase_cons_head, Multiset.map_cons, Multiset.sum_cons,
        Task.weight]
      omega
  | @readFailed k operation r error hr hread =>
      have hlt := hremaining rfl hr
      have hset := remaining_set hr (r.remaining_rejected operation hlt)
      simp only [hset, hrest, Multiset.erase_cons_head, Multiset.map_cons, Multiset.sum_cons,
        Task.weight]
      omega
  | @readAgain k operation r bytes hr hread hagain =>
      have hlt := hremaining rfl hr
      have hset := remaining_set hr (r.remaining_received operation bytes hlt)
      simp only [hset, hrest, Multiset.erase_cons_head, Multiset.map_cons, Multiset.sum_cons,
        Task.weight]
      omega
  | @readLast k operation r bytes hr hread hagain =>
      have hlt := hremaining rfl hr
      have hset := remaining_set hr (r.remaining_received operation bytes hlt)
      simp only [hset, hrest, Multiset.erase_cons_head, Multiset.map_cons, Multiset.sum_cons,
        Task.weight]
      omega
  | hash => simp [hrest, Task.weight]
  | count => simp [hrest, Task.weight]
  | wrote => simp [hrest, Task.weight]
  | writeFailed => simp [hrest, Task.weight]
  | throwException => simp [hrest, Task.weight]

/-- A task that brings something to the writer, answered with success. -/
def Brings (a : Task × Environment) : Prop :=
  a.2 = complete ∧ ∀ exception, a.1 ≠ .throwException exception

theorem Brings.succeed (a : Task × Environment) (h : Brings a) : ReadsSucceed a := by
  intro error
  simp [h.1, complete]

theorem Brings.of_not_spare {a : Task × Environment} (hanswer : a.2 = complete)
    (hspare : ¬ (a.1.reader? = none ∧ a.1.hashed? = none)) : Brings a := by
  refine ⟨hanswer, ?_⟩
  intro exception heq
  apply hspare
  rw [heq]
  exact ⟨rfl, rfl⟩

/-- Executing the tasks outside a given kind, each with a given answer of the
environment, leads to a pool that has only tasks of this kind. -/
theorem PoolInvariant.exists_drained (file : List Byte) (answer : Task → Environment)
    (spare : Task → Prop) (I : Pool → Prop)
    (hI : ∀ p t p' signal, I p → PoolInvariant blocks p → t ∈ p.tasks → ¬ spare t →
      Transition file (answer t) p t p' signal → I p')
    (hp : PoolInvariant blocks p) (hinv : I p) :
    ∃ p', Reachable (Pool.next file) (fun a => a.2 = answer a.1 ∧ ¬ spare a.1) p p' ∧
      PoolInvariant blocks p' ∧ I p' ∧ ∀ t ∈ p'.tasks, spare t := by
  have hexists : ∃ p', Reachable (Pool.next file) (fun a => a.2 = answer a.1 ∧ ¬ spare a.1) p p' ∧
      (PoolInvariant blocks p' ∧ I p') ∧ ∀ t ∈ p'.tasks, spare t := by
    refine Reachable.exists_goal (I := fun p => PoolInvariant blocks p ∧ I p) Pool.measure ?_
      ⟨hp, hinv⟩
    rintro p ⟨hp, hinv⟩ hgoal
    obtain ⟨t, hmem, hspare⟩ : ∃ t ∈ p.tasks, ¬ spare t := by
      by_contra hall
      exact hgoal fun t ht => by_contra fun hspare => hall ⟨t, ht, hspare⟩
    obtain ⟨p', signal, h⟩ := hp.exists_transition file (answer t) hmem
    exact ⟨(t, answer t), p', ⟨rfl, hspare⟩, Pool.next_eq_some_iff.mpr ⟨signal, hmem, h⟩,
      ⟨hp.step hmem h, hI p t p' signal hinv hp hmem hspare h⟩, h.measure_lt hmem hp.readers⟩
  obtain ⟨p', hreachable, ⟨hp', hinv'⟩, hgoal⟩ := hexists
  exact ⟨p', hreachable, hp', hinv', hgoal⟩

end Pool

end VeeamSignature.Signature2
