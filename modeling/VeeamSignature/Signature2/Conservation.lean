import Mathlib.Data.Multiset.MapFold
import Mathlib.Algebra.Order.Group.Multiset
import VeeamSignature.Library.ListSum
import VeeamSignature.Signature2.Readers

/-!
# No segment is lost or made up

Whatever a reader has delivered is with the hasher, on its way to the writer,
or has arrived there; and the readers deliver, or fail to deliver, only
segments of their blocks.
-/

namespace VeeamSignature.Signature2

open Slices BlockReader LabelledSystem

/-- The hashed segment that a task carries to the writer. -/
def Task.hashed? : Task → Option HashedSegment
  | .hash s => some (hashOf s)
  | .write hashed => some hashed
  | _ => none

def inFlight (tasks : Multiset Task) : Multiset HashedSegment := tasks.filterMap Task.hashed?

def delivered (readers : List BlockReader) : Multiset Segment :=
  (readers.map fun r => (r.delivered : Multiset Segment)).sum

def failures (readers : List BlockReader) : Multiset Header :=
  (readers.map fun r => (r.failures : Multiset Header)).sum

/-- The headers of all segments of all blocks. -/
def allHeaders (blocks : List Block) : List Header := blocks.flatMap headers

section Counting

variable {readers : List BlockReader} {k : ℕ} {r r' : BlockReader}

theorem inFlight_cons_none {t : Task} (h : t.hashed? = none) (tasks : Multiset Task) :
    inFlight (t ::ₘ tasks) = inFlight tasks :=
  Multiset.filterMap_cons_none _ _ h

theorem inFlight_cons_some {t : Task} {hashed : HashedSegment} (h : t.hashed? = some hashed)
    (tasks : Multiset Task) : inFlight (t ::ₘ tasks) = hashed ::ₘ inFlight tasks :=
  Multiset.filterMap_cons_some _ _ _ h

theorem delivered_set_same (hr : readers[k]? = some r) (h : r'.delivered = r.delivered) :
    delivered (readers.set k r') = delivered readers := by
  obtain ⟨others, hsum, hset⟩ :=
    ListSum.exists_sum_set (fun r => (r.delivered : Multiset Segment)) hr
  rw [delivered, delivered, hsum, hset, h]

theorem delivered_set_append (hr : readers[k]? = some r) {segment : Segment}
    (h : r'.delivered = r.delivered ++ [segment]) :
    delivered (readers.set k r') = segment ::ₘ delivered readers := by
  obtain ⟨others, hsum, hset⟩ :=
    ListSum.exists_sum_set (fun r => (r.delivered : Multiset Segment)) hr
  rw [delivered, delivered, hsum, hset, h, ← Multiset.coe_add, Multiset.coe_singleton,
    Multiset.add_comm _ {segment}, Multiset.singleton_add, Multiset.cons_add]

end Counting

section Pool

variable {file : List Byte} {blocks : List Block} {p p' : Pool} {t : Task} {e : Environment}
  {signal : Signal}

/-- What a step does to the segments: it leaves them where they are, delivers
one more, or hands one to the writer. -/
inductive Flow (p p' : Pool) : Prop
  | same (delivered : delivered p'.readers = delivered p.readers)
      (inFlight : inFlight p'.tasks = inFlight p.tasks)
      (arrived : p'.writer.arrived = p.writer.arrived)
  | deliver (segment : Segment)
      (delivered : delivered p'.readers = segment ::ₘ delivered p.readers)
      (inFlight : inFlight p'.tasks = hashOf segment ::ₘ inFlight p.tasks)
      (arrived : p'.writer.arrived = p.writer.arrived)
  | arrive (segment : HashedSegment) (delivered : delivered p'.readers = delivered p.readers)
      (inFlight : inFlight p.tasks = segment ::ₘ inFlight p'.tasks)
      (arrived : p'.writer.arrived = p.writer.arrived ++ [segment])

theorem Transition.flow (hmem : t ∈ p.tasks) (h : Transition file e p t p' signal)
    (hwellFormed : ∀ s, .hash s ∈ p.tasks → s.WellFormed) : Flow p p' := by
  obtain ⟨rest, hrest⟩ := Multiset.exists_cons_of_mem hmem
  cases h with
  | doRead hr =>
      refine .same (delivered_set_same hr (by rw [doRead_fst])) ?_ rfl
      rw [hrest, Multiset.erase_cons_head, inFlight_cons_none rfl, inFlight_cons_none rfl]
  | readFailed hr =>
      refine .same (delivered_set_same hr rfl) ?_ rfl
      rw [hrest, Multiset.erase_cons_head, inFlight_cons_none rfl, inFlight_cons_none rfl]
  | readAgain hr =>
      refine .deliver _ (delivered_set_append hr rfl) ?_ rfl
      rw [hrest, Multiset.erase_cons_head, inFlight_cons_none rfl, inFlight_cons_some rfl,
        inFlight_cons_none rfl]
  | readLast hr =>
      refine .deliver _ (delivered_set_append hr rfl) ?_ rfl
      rw [hrest, Multiset.erase_cons_head, inFlight_cons_some rfl, inFlight_cons_none rfl]
  | @hash segment hashed hhash =>
      rw [segmentHasher_eq (hwellFormed segment hmem)] at hhash
      obtain rfl := Option.some.inj hhash
      refine .same rfl ?_ rfl
      rw [hrest, Multiset.erase_cons_head, inFlight_cons_some rfl, inFlight_cons_some rfl]
  | count hreceive =>
      refine .arrive _ rfl ?_ (Writer.received_of_eq hreceive).arrived
      rw [hrest, Multiset.erase_cons_head, inFlight_cons_some rfl]
  | wrote hreceive =>
      refine .arrive _ rfl ?_ (Writer.received_of_eq hreceive).arrived
      rw [hrest, Multiset.erase_cons_head, inFlight_cons_some rfl]
  | writeFailed hreceive =>
      refine .arrive _ rfl ?_ (Writer.received_of_eq hreceive).arrived
      rw [hrest, Multiset.erase_cons_head, inFlight_cons_some rfl, inFlight_cons_none rfl]
  | throwException =>
      refine .same rfl ?_ rfl
      rw [hrest, Multiset.erase_cons_head, inFlight_cons_none rfl]

/-- The hasher and the writer account for every delivered segment. -/
structure Conservation (p : Pool) : Prop where
  wellFormed : ∀ s, .hash s ∈ p.tasks → s.WellFormed
  conserved : (delivered p.readers).map hashOf = inFlight p.tasks + p.writer.arrived

theorem ReadersInvariant.wellFormed (hp : ReadersInvariant blocks p) {k : ℕ}
    {operation : ReadOperation} (hmem : .read k operation ∈ p.tasks) {r : BlockReader}
    (hr : p.readers[k]? = some r) {position : ℕ} {result : ReadResult} {bytes : List Byte}
    (hread : read file position (r.requested operation) result = .ok bytes) :
    (r.segment operation (buffer (r.requested operation) bytes)).WellFormed := by
  obtain ⟨hk, -⟩ := List.getElem?_eq_some_iff.mp hr
  have hb := List.getElem?_eq_getElem (hp.length ▸ hk)
  have hstate := hp.state k _ r hb hr
  have hmine : Task.read k operation ∈ p.readerTasks k := Multiset.mem_filter.mpr ⟨hmem, rfl⟩
  rw [hstate.tasks_eq hmine] at hstate
  obtain ⟨j, hj, rfl, progress, offset⟩ := hstate.of_read
  exact wellFormed_segment hj progress.block offset (length_read_le hread)

theorem Transition.wellFormed (hmem : t ∈ p.tasks) (h : Transition file e p t p' signal)
    (hreaders : ReadersInvariant blocks p) (hp : ∀ s, .hash s ∈ p.tasks → s.WellFormed) :
    ∀ s, .hash s ∈ p'.tasks → s.WellFormed := by
  obtain ⟨rest, hrest⟩ := Multiset.exists_cons_of_mem hmem
  have hold : ∀ s, .hash s ∈ rest → s.WellFormed := fun s hs =>
    hp s (hrest ▸ Multiset.mem_cons_of_mem hs)
  intro s hs
  cases h with
  | doRead => exact hold s (by simpa [hrest] using hs)
  | readFailed => exact hold s (by simpa [hrest] using hs)
  | readAgain hr hread =>
      rw [hrest, Multiset.erase_cons_head] at hs
      rcases Multiset.mem_cons.mp hs with hs | hs
      · cases hs
      · rcases Multiset.mem_cons.mp hs with hs | hs
        · obtain rfl := Task.hash.inj hs
          exact hreaders.wellFormed hmem hr hread
        · exact hold s hs
  | readLast hr hread =>
      rw [hrest, Multiset.erase_cons_head] at hs
      rcases Multiset.mem_cons.mp hs with hs | hs
      · obtain rfl := Task.hash.inj hs
        exact hreaders.wellFormed hmem hr hread
      · exact hold s hs
  | hash => exact hold s (by simpa [hrest] using hs)
  | count => exact hold s (by simpa [hrest] using hs)
  | wrote => exact hold s (by simpa [hrest] using hs)
  | writeFailed => exact hold s (by simpa [hrest] using hs)
  | throwException => exact hold s (by simpa [hrest] using hs)

theorem Conservation.step (hmem : t ∈ p.tasks) (h : Transition file e p t p' signal)
    (hreaders : ReadersInvariant blocks p) (hp : Conservation p) : Conservation p' := by
  refine ⟨h.wellFormed hmem hreaders hp.wellFormed, ?_⟩
  cases h.flow hmem hp.wellFormed with
  | same hdelivered hinFlight harrived =>
      rw [hdelivered, hinFlight, harrived, hp.conserved]
  | deliver segment hdelivered hinFlight harrived =>
      rw [hdelivered, hinFlight, harrived, Multiset.map_cons, hp.conserved, Multiset.cons_add]
  | arrive segment hdelivered hinFlight harrived =>
      rw [hdelivered, hp.conserved, hinFlight, harrived, ← Multiset.coe_add,
        Multiset.coe_singleton, ← Multiset.add_assoc, Multiset.add_comm _ {segment},
        Multiset.singleton_add, Multiset.cons_add]

theorem Conservation.start (blocks : List Block) : Conservation (Pool.start blocks) := by
  have hdelivered : delivered (Pool.start blocks).readers = 0 := by
    simp [delivered, Pool.start, BlockReader.start, Function.comp_def]
  have hinFlight : inFlight (Pool.start blocks).tasks = 0 := by
    apply Multiset.eq_zero_of_forall_notMem
    intro hashed hmem
    obtain ⟨t, ht, hhashed⟩ := (Multiset.mem_filterMap _ _).mp hmem
    have ht : t ∈ (Multiset.range blocks.length).map Task.doRead := ht
    obtain ⟨k, -, rfl⟩ := Multiset.mem_map.mp ht
    cases hhashed
  constructor
  · simp [Pool.start]
  · rw [hdelivered, hinFlight]
    rfl

/-- What holds of the pool in every run, whatever the environment answers. -/
structure PoolInvariant (blocks : List Block) (p : Pool) : Prop where
  readers : ReadersInvariant blocks p
  conservation : Conservation p

theorem PoolInvariant.start (blocks : List Block) : PoolInvariant blocks (Pool.start blocks) :=
  ⟨.start blocks, .start blocks⟩

theorem PoolInvariant.step (hp : PoolInvariant blocks p) (hmem : t ∈ p.tasks)
    (h : Transition file e p t p' signal) : PoolInvariant blocks p' :=
  ⟨hp.readers.step hmem h, hp.conservation.step hmem h hp.readers⟩

theorem PoolInvariant.reachable {ok : Task × Environment → Prop}
    (h : Reachable (Pool.next file) ok (Pool.start blocks) p) : PoolInvariant blocks p := by
  apply Pool.invariant _ (.start blocks) h
  intro p t e p' signal _ hp _ hmem htransition
  exact hp.step hmem htransition

/-! ## The segments of the blocks -/

theorem ReaderState.headers_le {b : Block} {k : ℕ} {r : BlockReader} {tasks : Multiset Task}
    (h : ReaderState b k r tasks) :
    (r.delivered : Multiset Segment).map Segment.header + r.failures ≤ headers b := by
  have hprefix : ∀ j, ((headers b).take j : Multiset Header) ≤ headers b := fun j =>
    Multiset.coe_le.mpr (List.take_sublist j _).subperm
  cases h with
  | ready hj progress =>
      rw [Multiset.map_coe, progress.delivered, progress.failures]
      exact (Multiset.add_zero _).symm ▸ hprefix _
  | reading hj progress =>
      rw [Multiset.map_coe, progress.delivered, progress.failures]
      exact (Multiset.add_zero _).symm ▸ hprefix _
  | finished progress =>
      rw [Multiset.map_coe, progress.delivered, progress.failures]
      exact (Multiset.add_zero _).symm ▸ hprefix _
  | @failed j r hj progress offset =>
      obtain rfl := progress.block
      have hfailures : (r.rejected (operationAt r.block j)).failures =
          [headerOf r.block (r.block.segmentSpan j)] := by
        rw [BlockReader.rejected, progress.failures, header_operationAt hj offset, List.nil_append]
      have hdelivered : (r.rejected (operationAt r.block j)).delivered = r.delivered := rfl
      rw [hfailures, hdelivered, Multiset.map_coe, progress.delivered, Multiset.coe_add,
        ← take_succ_headers hj]
      exact hprefix _

theorem ReaderState.headers_eq {b : Block} {k : ℕ} {r : BlockReader} (h : ReaderState b k r 0)
    (hfailures : r.failures = []) :
    (r.delivered : Multiset Segment).map Segment.header = headers b := by
  generalize htasks : (0 : Multiset Task) = tasks at h
  cases h with
  | ready => simp at htasks
  | reading => simp at htasks
  | finished progress =>
      rw [Multiset.map_coe, progress.delivered, List.take_of_length_le (length_headers b).le]
  | failed => simp [BlockReader.rejected] at hfailures

theorem sum_headers (blocks : List Block) :
    (blocks.map fun b => (headers b : Multiset Header)).sum = allHeaders blocks := by
  induction blocks with
  | nil => rfl
  | cons b blocks ih => rw [List.map_cons, List.sum_cons, ih, Multiset.coe_add]; rfl

theorem map_header_delivered (readers : List BlockReader) :
    (delivered readers).map Segment.header =
      (readers.map fun r => (r.delivered : Multiset Segment).map Segment.header).sum := by
  induction readers with
  | nil => rfl
  | cons r readers ih =>
      rw [List.map_cons, List.sum_cons, ← ih, ← Multiset.map_add]
      rfl

theorem ReadersInvariant.headers_le (hp : ReadersInvariant blocks p) :
    (delivered p.readers).map Segment.header + failures p.readers ≤ allHeaders blocks := by
  rw [map_header_delivered, failures, ← List.sum_map_add, ← sum_headers]
  exact ListSum.sum_le_sum hp.length fun k r b hr hb => (hp.state k b r hb hr).headers_le

/-- Once no reader has a task and no read has failed, every segment of every
block has been delivered. -/
theorem ReadersInvariant.headers_eq (hp : ReadersInvariant blocks p)
    (hidle : ∀ k, p.readerTasks k = 0) (hfailures : ∀ r ∈ p.readers, r.failures = []) :
    (delivered p.readers).map Segment.header = allHeaders blocks := by
  rw [map_header_delivered, ← sum_headers]
  apply ListSum.sum_eq_sum hp.length
  intro k r b hr hb
  have hstate := hp.state k b r hb hr
  rw [hidle k] at hstate
  exact hstate.headers_eq (hfailures r (List.mem_of_getElem? hr))

end Pool

end VeeamSignature.Signature2
