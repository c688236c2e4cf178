import Mathlib.Algebra.Order.BigOperators.Group.List
import VeeamSignature.Signature2.Completion
import VeeamSignature.Signature2.ReadChain

/-!
# The memory of the segments

A reader posts its next read before the segment it has read is hashed, and
nothing makes it wait.  The pool never holds more than the bytes of all blocks,
and a slow hasher makes it hold all of them at once, however small the segments
are.
-/

namespace VeeamSignature.Signature2

open Slices BlockReader LabelledSystem

/-- The bytes of the file that a task owns: a segment is freed once it is hashed. -/
def Task.held : Task → ℕ
  | .hash s => s.memory.length
  | _ => 0

def Pool.held (p : Pool) : ℕ := (p.tasks.map Task.held).sum

/-- The bytes of the segment with this header. -/
def Header.length (header : Header) (chunkSize : ℕ) : ℕ :=
  header.chunkCount * chunkSize + header.tailSize

def bytesOf (r : BlockReader) : ℕ := (r.delivered.map fun s => s.memory.length).sum

def bytesRead (readers : List BlockReader) : ℕ := (readers.map bytesOf).sum

section Reader

variable {b : Block} {j k : ℕ} {r r' : BlockReader} {readers : List BlockReader}

theorem Progress.bytesOf (h : Progress b j r) : bytesOf r = (requestsOf b j).sum := by
  have hheader : ∀ s ∈ r.delivered, s.memory.length = s.header.length b.chunkSize := by
    intro s hs
    obtain ⟨⟨-, -, hlength⟩, hchunk⟩ := h.wellFormed s hs
    rw [hlength, hchunk]
    rfl
  have hspan : ∀ s ∈ b.segmentSpans.take j, (headerOf b s).length b.chunkSize = s.length :=
    fun s _ => Nat.div_add_mod' s.length b.chunkSize
  calc (r.delivered.map fun s => s.memory.length).sum
      = ((r.delivered.map Segment.header).map (·.length b.chunkSize)).sum := by
        rw [List.map_congr_left hheader, List.map_map]
        rfl
    _ = ((b.segmentSpans.take j).map fun s => (headerOf b s).length b.chunkSize).sum := by
        rw [h.delivered, headers, ← List.map_take, List.map_map]
        rfl
    _ = (requestsOf b j).sum := by
        rw [requestsOf, List.map_congr_left hspan]

theorem bytesOf_rejected (r : BlockReader) (operation : ReadOperation) :
    bytesOf (r.rejected operation) = bytesOf r := rfl

theorem bytesOf_received (r : BlockReader) (operation : ReadOperation) (bytes : List Byte) :
    bytesOf (r.received operation bytes) = bytesOf r +
      (r.segment operation (buffer (r.requested operation) bytes)).memory.length := by
  simp [bytesOf, BlockReader.received]

theorem bytesRead_set (hr : readers[k]? = some r) (r' : BlockReader) :
    bytesRead (readers.set k r') + bytesOf r = bytesRead readers + bytesOf r' :=
  ListSum.sum_set bytesOf hr r'

end Reader

section Pool

variable {file : List Byte} {blocks : List Block} {p p' : Pool} {t : Task} {e : Environment}
  {signal : Signal}

/-- A read allocates the segment that it delivers, and the hasher frees it. -/
theorem Transition.held (hmem : t ∈ p.tasks) (h : Transition file e p t p' signal) :
    p'.held + t.held + bytesRead p.readers = p.held + bytesRead p'.readers := by
  obtain ⟨rest, hrest⟩ := Multiset.exists_cons_of_mem hmem
  cases h with
  | @doRead k r hr =>
      have hset := bytesRead_set hr r.doRead.1
      have hsame : bytesOf r.doRead.1 = bytesOf r := by rw [r.doRead_fst]; rfl
      simp only [Pool.held, hrest, Multiset.erase_cons_head, Multiset.map_cons,
        Multiset.sum_cons, Task.held]
      omega
  | @readFailed k operation r error hr =>
      have hset := bytesRead_set hr (r.rejected operation)
      have hsame := bytesOf_rejected r operation
      simp only [Pool.held, hrest, Multiset.erase_cons_head, Multiset.map_cons,
        Multiset.sum_cons, Task.held]
      omega
  | @readAgain k operation r bytes hr =>
      have hset := bytesRead_set hr (r.received operation bytes)
      have hmore := bytesOf_received r operation bytes
      simp only [Pool.held, hrest, Multiset.erase_cons_head, Multiset.map_cons,
        Multiset.sum_cons, Task.held]
      omega
  | @readLast k operation r bytes hr =>
      have hset := bytesRead_set hr (r.received operation bytes)
      have hmore := bytesOf_received r operation bytes
      simp only [Pool.held, hrest, Multiset.erase_cons_head, Multiset.map_cons,
        Multiset.sum_cons, Task.held]
      omega
  | hash =>
      simp only [Pool.held, hrest, Multiset.erase_cons_head, Multiset.map_cons,
        Multiset.sum_cons, Task.held]
      omega
  | count => simp [Pool.held, hrest, Task.held]
  | wrote => simp [Pool.held, hrest, Task.held]
  | writeFailed => simp [Pool.held, hrest, Task.held]
  | throwException => simp [Pool.held, hrest, Task.held]

end Pool

end VeeamSignature.Signature2
