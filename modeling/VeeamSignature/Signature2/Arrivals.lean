import Mathlib.Data.List.Nodup
import VeeamSignature.Signature2.Conservation

/-!
# The segments that reach the writer

No two segments of a run have the same key.  The map of the writer therefore
holds every segment that has arrived, in the order of the keys, and what the
first write passes to the stream depends on which segments have arrived but
not on their order.
-/

namespace VeeamSignature.Signature2

open Slices OrderedMap LabelledSystem

theorem Key.lt_iff {a b : Key} :
    Key.lt a b ↔ a.blockId < b.blockId ∨ a.blockId = b.blockId ∧ a.chunkId < b.chunkId := by
  unfold Key.lt Key.less
  split_ifs with hlt hgt
  · simp [hlt]
  · have hne : a.blockId ≠ b.blockId := Nat.ne_of_gt hgt
    simp [hlt, hne]
  · have heq : a.blockId = b.blockId :=
      Nat.le_antisymm (Nat.le_of_not_lt hgt) (Nat.le_of_not_lt hlt)
    simp [heq]

instance : IsStrictTotalOrder Key Key.lt where
  irrefl := by
    intro a h
    rcases Key.lt_iff.mp h with h | h
    · exact Nat.lt_irrefl _ h
    · exact Nat.lt_irrefl _ h.2
  trans := by
    intro a b c hab hbc
    rw [Key.lt_iff] at hab hbc ⊢
    omega
  trichotomous := by
    intro a b hab hba
    rw [Key.lt_iff] at hab hba
    obtain ⟨i, j⟩ := a
    obtain ⟨i', j'⟩ := b
    have hi : i = i' := by
      simp only at hab hba
      omega
    have hj : j = j' := by
      simp only at hab hba
      omega
    rw [hi, hj]

/-! ## The keys of a run -/

def Header.key (h : Header) : Key := ⟨h.blockId, h.firstChunkId⟩

section Keys

variable {file : List Byte} {blocks : List Block} {p p' : Pool} {t : Task} {e : Environment}
  {signal : Signal}

theorem keys_headers_nodup (b : Block) : ((headers b).map Header.key).Nodup := by
  have hkeys : (headers b).map Header.key = (List.range (b.fullSegments + 1)).map fun j =>
      ⟨b.blockId, j * (b.segmentSize / b.chunkSize)⟩ := by
    simp [headers, Block.segmentSpans, Function.comp_def, Header.key, headerOf,
      b.segmentSpan_start_div]
  rw [hkeys]
  refine List.Nodup.map ?_ List.nodup_range
  intro i j hij
  exact Nat.eq_of_mul_eq_mul_right b.segmentChunks_pos (Key.mk.inj hij).2

theorem keys_nodup (hids : (blocks.map Block.blockId).Nodup) :
    ((allHeaders blocks).map Header.key).Nodup := by
  have hblock : ∀ b : Block, ∀ key ∈ (headers b).map Header.key, key.blockId = b.blockId := by
    intro b key hkey
    obtain ⟨h, hh, rfl⟩ := List.mem_map.mp hkey
    obtain ⟨s, -, rfl⟩ := List.mem_map.mp hh
    rfl
  rw [allHeaders, List.map_flatMap]
  refine List.nodup_flatMap.mpr ⟨fun b _ => keys_headers_nodup b, ?_⟩
  apply (List.pairwise_map.mp hids).imp
  intro a b hab key ha hb
  exact hab ((hblock a key ha).symm.trans (hblock b key hb))

theorem PoolInvariant.keys_nodup (hp : PoolInvariant blocks p)
    (hids : (blocks.map Block.blockId).Nodup) :
    ((inFlight p.tasks + p.writer.arrived).map HashedSegment.key).Nodup := by
  have hkeys : (inFlight p.tasks + p.writer.arrived).map HashedSegment.key =
      ((delivered p.readers).map Segment.header).map Header.key := by
    rw [← hp.conservation.conserved, Multiset.map_map, Multiset.map_map]
    rfl
  have hle : (delivered p.readers).map Segment.header ≤ allHeaders blocks :=
    (Multiset.le_add_right _ _).trans hp.readers.headers_le
  rw [hkeys]
  apply Multiset.nodup_of_le (Multiset.map_le_map hle)
  rw [Multiset.map_coe]
  exact Multiset.coe_nodup.mpr (Signature2.keys_nodup hids)

theorem PoolInvariant.fresh (hp : PoolInvariant blocks p)
    (hids : (blocks.map Block.blockId).Nodup) {s : HashedSegment} (hmem : .write s ∈ p.tasks) :
    s.key ∉ p.writer.arrived.map HashedSegment.key := by
  obtain ⟨rest, hrest⟩ := Multiset.exists_cons_of_mem hmem
  have hnodup := hp.keys_nodup hids
  rw [hrest, inFlight_cons_some rfl, Multiset.cons_add, Multiset.map_cons, Multiset.nodup_cons,
    Multiset.map_add] at hnodup
  intro hin
  exact hnodup.1 (Multiset.mem_add.mpr (Or.inr hin))

/-! ## The map of the writer -/

/-- The map holds what has arrived, by key, and the count is that of the map. -/
structure WriterInvariant (blocks : List Block) (w : Writer) : Prop where
  total : w.chunksTotal = totalChunks blocks
  ordered : Ordered Key.lt w.segments
  stored : w.segments.Perm (w.arrived.map fun s => (s.key, s))
  count : w.chunksCount = (w.arrived.map HashedSegment.chunkCount).sum % SizeT.modulus
  untouched : w.callbacks = [] → w.stream = .opened ∧ w.written = []
  used : w.callbacks ≠ [] → w.stream ≠ .opened
  called : w.arrived ≠ [] → w.chunksCount = w.chunksTotal → w.callbacks ≠ []

theorem WriterInvariant.keys {w : Writer} (hw : WriterInvariant blocks w) :
    (w.segments.map Prod.fst).Perm (w.arrived.map HashedSegment.key) := by
  have hkeys := hw.stored.map Prod.fst
  rwa [List.map_map] at hkeys

theorem WriterInvariant.emplace {w : Writer} (hw : WriterInvariant blocks w) {s : HashedSegment}
    (hfresh : s.key ∉ w.arrived.map HashedSegment.key) :
    (emplace Key.lt s.key s w.segments).2 = (s, true) ∧
      (emplace Key.lt s.key s w.segments).1.Perm ((s.key, s) :: w.segments) :=
  emplace_fresh s fun hmem => hfresh (hw.keys.mem_iff.mp hmem)

theorem WriterInvariant.insert {w : Writer} (hw : WriterInvariant blocks w) {s : HashedSegment}
    (hfresh : s.key ∉ w.arrived.map HashedSegment.key) :
    Ordered Key.lt (w.insert s).segments ∧
      (w.insert s).segments.Perm ((w.insert s).arrived.map fun s => (s.key, s)) ∧
      (w.insert s).chunksCount =
        ((w.insert s).arrived.map HashedSegment.chunkCount).sum % SizeT.modulus := by
  obtain ⟨hvalue, hperm⟩ := hw.emplace hfresh
  refine ⟨emplace_ordered _ _ hw.ordered, ?_, ?_⟩
  · rw [Writer.insert, List.map_append, List.map_singleton]
    exact (hperm.trans (hw.stored.cons _)).trans (List.perm_append_singleton _ _).symm
  · simp only [Writer.insert, hvalue, hw.count, List.map_append, List.map_singleton,
      List.sum_append, List.sum_singleton]
    exact SizeT.add_mod_modulus _ _

theorem WriterInvariant.received {w w' : Writer} (hw : WriterInvariant blocks w)
    {s : HashedSegment} (hfresh : s.key ∉ w.arrived.map HashedSegment.key) {result : StreamResult}
    {answer : Option WriterResult} (h : w.Received s result w' answer) :
    WriterInvariant blocks w' := by
  obtain ⟨hordered, hstored, hcount⟩ := hw.insert hfresh
  cases h with
  | counted hne =>
      refine ⟨hw.total, hordered, hstored, hcount, hw.untouched, hw.used, ?_⟩
      intro _ heq
      exact absurd heq hne
  | wrote heq hopened hcomplete =>
      refine ⟨hw.total, hordered, hstored, hcount, ?_, by simp, ?_⟩
      · intro hnil
        simp at hnil
      · intro _ _
        simp
  | failed heq hfailure huntouched =>
      refine ⟨hw.total, hordered, hstored, hcount, ?_, by simp, ?_⟩
      · intro hnil
        simp at hnil
      · intro _ _
        simp

/-- A segment without a full chunk that arrives after the callback makes the
writer call back again, with an error. -/
theorem WriterInvariant.receive_late {w : Writer} (hw : WriterInvariant blocks w)
    {s : HashedSegment} (hfresh : s.key ∉ w.arrived.map HashedSegment.key)
    (hcalled : w.callbacks ≠ []) (hcount : w.chunksCount = w.chunksTotal)
    (hzero : s.chunkCount = 0) (result : StreamResult) :
    ∃ w', w.receive s result = (w', some (.error iostreamError)) := by
  have hinsert : (w.insert s).chunksCount = w.chunksTotal := by
    have hlt : w.chunksCount < SizeT.modulus := hw.count ▸ Nat.mod_lt _ SizeT.modulus_pos
    simp only [Writer.insert, (hw.emplace hfresh).1, hzero]
    rw [SizeT.add_of_lt hlt, Nat.add_zero, hcount]
  cases hreceive : w.receive s result with
  | mk w' answer =>
      refine ⟨w', ?_⟩
      cases Writer.received_of_eq hreceive with
      | counted hne => exact absurd hinsert hne
      | wrote _ hopened => exact absurd hopened (hw.used hcalled)
      | failed => rfl

theorem Transition.writer (h : Transition file e p t p' signal) :
    p'.writer = p.writer ∨
      ∃ s answer, t = .write s ∧ p.writer.Received s e.stream p'.writer answer ∧
        (answer = some .success ↔ signal = .shutdown) := by
  cases h with
  | count hreceive => exact Or.inr ⟨_, _, rfl, Writer.received_of_eq hreceive, by simp⟩
  | wrote hreceive => exact Or.inr ⟨_, _, rfl, Writer.received_of_eq hreceive, by simp⟩
  | writeFailed hreceive => exact Or.inr ⟨_, _, rfl, Writer.received_of_eq hreceive, by simp⟩
  | doRead => exact Or.inl rfl
  | readFailed => exact Or.inl rfl
  | readAgain => exact Or.inl rfl
  | readLast => exact Or.inl rfl
  | hash => exact Or.inl rfl
  | throwException => exact Or.inl rfl

theorem WriterInvariant.step (hids : (blocks.map Block.blockId).Nodup)
    (hp : PoolInvariant blocks p) (hw : WriterInvariant blocks p.writer) (hmem : t ∈ p.tasks)
    (h : Transition file e p t p' signal) : WriterInvariant blocks p'.writer := by
  rcases h.writer with hsame | ⟨s, answer, rfl, hreceived, -⟩
  · rwa [hsame]
  · exact hw.received (hp.fresh hids hmem) hreceived

theorem WriterInvariant.start (blocks : List Block) :
    WriterInvariant blocks (Pool.start blocks).writer where
  total := rfl
  ordered := List.Pairwise.nil
  stored := List.Perm.refl _
  count := rfl
  untouched := fun _ => ⟨rfl, rfl⟩
  used := fun h => absurd rfl h
  called := fun h => absurd rfl h

theorem WriterInvariant.reachable (hids : (blocks.map Block.blockId).Nodup)
    {ok : Task × Environment → Prop}
    (h : Reachable (Pool.next file) ok (Pool.start blocks) p) :
    WriterInvariant blocks p.writer := by
  apply Pool.invariant (I := fun p => WriterInvariant blocks p.writer) _ (.start blocks) h
  intro p t e p' signal hreachable hw _ hmem htransition
  exact hw.step hids (.reachable hreachable) hmem htransition

/-! ## The first write -/

def Indexed (blocks : List Block) : Prop :=
  ∀ (k : ℕ) (b : Block), blocks[k]? = some b → b.blockId = k

theorem Indexed.nodup (h : Indexed blocks) : (blocks.map Block.blockId).Nodup := by
  have hrange : blocks.map Block.blockId = List.range blocks.length := by
    apply List.ext_getElem
    · simp
    · intro k hk _
      have hk : k < blocks.length := by simpa using hk
      simpa using h k blocks[k] (List.getElem?_eq_getElem hk)
  rw [hrange]
  exact List.nodup_range

/-- The writer has just written for the first time, and without a stream error. -/
def FirstWrite (file : List Byte) (blocks : List Block) (p' : Pool) : Prop :=
  ∃ p s e, Reachable (Pool.next file) (fun _ => True) (Pool.start blocks) p ∧
    p.writer.callbacks = [] ∧ p.step file (.write s, e) = some (p', .shutdown)

theorem FirstWrite.written (hids : (blocks.map Block.blockId).Nodup)
    (h : FirstWrite file blocks p') :
    WriterInvariant blocks p'.writer ∧ p'.writer.written = p'.writer.content := by
  obtain ⟨p, s, e, hreachable, hcallbacks, hstep⟩ := h
  have hw := WriterInvariant.reachable hids hreachable
  obtain ⟨hmem, htransition⟩ := Pool.step_eq_some_iff.mp hstep
  have hw' := hw.step hids (.reachable hreachable) hmem htransition
  refine ⟨hw', ?_⟩
  cases htransition with
  | wrote hreceive =>
      cases Writer.received_of_eq hreceive with
      | wrote heq hopened hcomplete =>
          obtain ⟨-, hwritten⟩ := hw.untouched hcallbacks
          simp only [hwritten, List.nil_append]
          rfl

end Keys

end VeeamSignature.Signature2
