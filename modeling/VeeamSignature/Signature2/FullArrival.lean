import VeeamSignature.BlockTiling
import VeeamSignature.Signature2.Completion

/-!
# When the first callback finds every segment

The callback waits for every full chunk of every block.  If every read brings
at least one, no segment can be missing; if the last read of a block is only a
tail, there is an order in which the callback comes before it.
-/

namespace VeeamSignature

/-- The last read of the block covers a full chunk. -/
def Block.EndsInChunk (b : Block) : Prop := b.chunkSize ≤ (b.segmentSpan b.fullSegments).length

instance (b : Block) : Decidable b.EndsInChunk := inferInstanceAs (Decidable (_ ≤ _))

namespace Signature2

open Slices OrderedMap BlockReader LabelledSystem

/-- Every read brings a full chunk, or there is one read only. -/
def EveryReadCounts (blocks : List Block) : Prop :=
  (∀ b ∈ blocks, b.EndsInChunk) ∨ ∃ b, blocks = [b] ∧ b.fullSegments = 0

/-- The writer calls back at most once, then holds every segment of every
block, and nothing is left that could bring another. -/
def CompletesOnce (file : List Byte) (blocks : List Block) : Prop :=
  ∀ p, Reachable (Pool.next file) ReadsSucceed (Pool.start blocks) p →
    p.writer.callbacks.length ≤ 1 ∧
    (p.writer.callbacks ≠ [] →
      (∀ h ∈ allHeaders blocks, h.key ∈ p.writer.segments.map Prod.fst) ∧ Idle p)

/-! ## The headers of the last reads -/

section Headers

variable {blocks : List Block}

theorem mem_allHeaders {h : Header} :
    h ∈ allHeaders blocks ↔
      ∃ b ∈ blocks, ∃ j ≤ b.fullSegments, h = headerOf b (b.segmentSpan j) := by
  simp only [allHeaders, headers, Block.segmentSpans, List.mem_flatMap, List.mem_map,
    List.mem_range, Nat.lt_succ_iff]
  constructor
  · rintro ⟨b, hb, s, ⟨j, hj, rfl⟩, rfl⟩
    exact ⟨b, hb, j, hj, rfl⟩
  · rintro ⟨b, hb, j, hj, rfl⟩
    exact ⟨b, hb, _, ⟨j, hj, rfl⟩, rfl⟩

theorem chunkCount_pos_iff {b : Block} {j : ℕ} (hj : j ≤ b.fullSegments) :
    0 < (headerOf b (b.segmentSpan j)).chunkCount ↔ j < b.fullSegments ∨ b.EndsInChunk := by
  have hpos : 0 < (headerOf b (b.segmentSpan j)).chunkCount ↔
      b.chunkSize ≤ (b.segmentSpan j).length :=
    Nat.div_pos_iff.trans (and_iff_right b.chunkSize_pos)
  rw [hpos]
  rcases Nat.lt_or_eq_of_le hj with hlt | rfl
  · have hlength : (b.segmentSpan j).length = b.segmentSize := by simp [Block.segmentSpan, hlt]
    rw [hlength]
    exact iff_of_true b.chunkSize_le_segmentSize (Or.inl hlt)
  · simp [Block.EndsInChunk]

theorem chunkCount_pos (h : ∀ b ∈ blocks, b.EndsInChunk) :
    ∀ h ∈ allHeaders blocks, 0 < h.chunkCount := by
  intro header hheader
  obtain ⟨b, hb, j, hj, rfl⟩ := mem_allHeaders.mp hheader
  exact (chunkCount_pos_iff hj).mpr (Or.inr (h b hb))

theorem length_allHeaders_single {b : Block} (hb : b.fullSegments = 0) :
    (allHeaders [b]).length = 1 := by
  simp [allHeaders, hb]

end Headers

/-! ## Counting every chunk -/

section Counting

variable {file : List Byte} {blocks : List Block} {p p' : Pool} {t : Task} {e : Environment}
  {signal : Signal}

/-- Once the writer has called back, all the chunks have arrived. -/
def CalledInvariant (blocks : List Block) (w : Writer) : Prop :=
  w.callbacks ≠ [] → w.arrived ≠ [] ∧ hashedSum w.arrived = chunkSum (allHeaders blocks)

theorem CalledInvariant.step (hfit : chunkSum (allHeaders blocks) < SizeT.modulus)
    (hp' : PoolInvariant blocks p') (hw' : WriterInvariant blocks p'.writer)
    (hcalled : CalledInvariant blocks p.writer) (h : Transition file e p t p' signal) :
    CalledInvariant blocks p'.writer := by
  have hle : hashedSum p'.writer.arrived ≤ chunkSum (allHeaders blocks) := by
    have := hp'.hashedSum_le
    omega
  have hequal : p'.writer.chunksCount = p'.writer.chunksTotal →
      hashedSum p'.writer.arrived = chunkSum (allHeaders blocks) := by
    intro hcount
    rwa [hw'.count, hw'.total, totalChunks_eq, ← hashedSum_coe, Nat.mod_eq_of_lt hfit,
      Nat.mod_eq_of_lt (Nat.lt_of_le_of_lt hle hfit)] at hcount
  rcases h.writer with hsame | ⟨s, answer, -, hreceived, -⟩
  · rwa [hsame]
  · have harrived := hreceived.arrived
    have hne : p'.writer.arrived ≠ [] := by simp [harrived]
    intro hcallbacks
    refine ⟨hne, ?_⟩
    generalize hw : p'.writer = w at *
    cases hreceived with
    | counted hcount =>
        obtain ⟨-, hsum⟩ := hcalled hcallbacks
        have hgrows : hashedSum p.writer.arrived ≤ hashedSum (p.writer.insert s).arrived := by
          rw [harrived, ← Multiset.coe_add, hashedSum_add]
          exact Nat.le_add_right _ _
        omega
    | wrote hcount => exact hequal hcount
    | failed hcount => exact hequal hcount

theorem CalledInvariant.reachable (hids : (blocks.map Block.blockId).Nodup)
    (hfit : chunkSum (allHeaders blocks) < SizeT.modulus) {ok : Task × Environment → Prop}
    (h : Reachable (Pool.next file) ok (Pool.start blocks) p) :
    CalledInvariant blocks p.writer := by
  apply Pool.invariant (I := fun p => CalledInvariant blocks p.writer) _ _ h
  · intro p t e p' signal hreachable hcalled _ hmem htransition
    have hp := PoolInvariant.reachable hreachable
    have hw' := (WriterInvariant.reachable hids hreachable).step hids hp hmem htransition
    exact hcalled.step hfit (hp.step hmem htransition) hw' htransition
  · intro hcallbacks
    exact absurd rfl hcallbacks

theorem PoolInvariant.of_inFlight (hp : PoolInvariant blocks p) {s : HashedSegment}
    (hs : s ∈ inFlight p.tasks) :
    ∃ h ∈ allHeaders blocks, h.key = s.key ∧ h.chunkCount = s.chunkCount := by
  have hmem : s ∈ (delivered p.readers).map hashOf := by
    rw [hp.conservation.conserved]
    exact Multiset.mem_add.mpr (Or.inl hs)
  obtain ⟨segment, hsegment, rfl⟩ := Multiset.mem_map.mp hmem
  have hheader : segment.header ∈ (delivered p.readers).map Segment.header + failures p.readers :=
    Multiset.mem_add.mpr (Or.inl (Multiset.mem_map_of_mem _ hsegment))
  exact ⟨segment.header, Multiset.mem_of_le hp.readers.headers_le hheader, rfl, rfl⟩

/-- If every read counts, no segment is missing once all the chunks have arrived. -/
theorem PoolInvariant.all_arrived (hp : PoolInvariant blocks p) (hcounts : EveryReadCounts blocks)
    (harrived : p.writer.arrived ≠ [])
    (hsum : hashedSum p.writer.arrived = chunkSum (allHeaders blocks)) :
    inFlight p.tasks = 0 ∧ (delivered p.readers).map Segment.header = allHeaders blocks := by
  obtain ⟨rest, hrest⟩ := Multiset.le_iff_exists_add.mp hp.readers.headers_le
  rw [Multiset.add_assoc] at hrest
  have hconserved := hp.conservation.conserved
  rcases hcounts with hends | ⟨b, rfl, hb⟩
  · have hchunks : hashedSum (inFlight p.tasks) = 0 ∧ chunkSum (failures p.readers + rest) = 0 := by
      have hall := congrArg chunkSum hrest
      rw [chunkSum_add, ← hashedSum_map_hashOf, hconserved, hashedSum_add] at hall
      omega
    constructor
    · refine ListSum.eq_zero_of_sum_eq_zero (fun s hs => ?_) hchunks.1
      obtain ⟨h, hh, -, hcount⟩ := hp.of_inFlight hs
      exact hcount ▸ chunkCount_pos hends h hh
    · have hmissing : failures p.readers + rest = 0 := by
        refine ListSum.eq_zero_of_sum_eq_zero (fun h hh => ?_) hchunks.2
        have hmem : h ∈ (allHeaders blocks : Multiset Header) :=
          hrest ▸ Multiset.mem_add.mpr (Or.inr hh)
        exact chunkCount_pos hends h hmem
      rw [hrest, hmissing, Multiset.add_zero]
  · have hcards : (inFlight p.tasks).card = 0 ∧ (failures p.readers + rest).card = 0 := by
      have hall := congrArg Multiset.card hrest
      have hdelivered := congrArg Multiset.card hconserved
      have hlength := List.length_pos_of_ne_nil harrived
      rw [Multiset.coe_card, length_allHeaders_single hb, Multiset.card_add,
        Multiset.card_map] at hall
      rw [Multiset.card_map, Multiset.card_add, Multiset.coe_card] at hdelivered
      omega
    constructor
    · exact Multiset.card_eq_zero.mp hcards.1
    · rw [hrest, Multiset.card_eq_zero.mp hcards.2, Multiset.add_zero]

theorem card_delivered (readers : List BlockReader) :
    (delivered readers).card = (readers.map fun r => r.delivered.length).sum := by
  induction readers with
  | nil => rfl
  | cons r readers ih =>
      rw [List.map_cons, List.sum_cons, ← ih, ← Multiset.coe_card, ← Multiset.card_add]
      rfl

theorem length_allHeaders (blocks : List Block) :
    (allHeaders blocks).length = (blocks.map fun b => b.fullSegments + 1).sum := by
  simp [allHeaders, List.length_flatMap]

theorem ReaderState.tasks_eq_zero {b : Block} {k : ℕ} {r : BlockReader} {tasks : Multiset Task}
    (h : ReaderState b k r tasks) (hlength : r.delivered.length = b.fullSegments + 1) :
    tasks = 0 := by
  cases h with
  | ready hj progress =>
      rw [progress.length (Nat.le_succ_of_le hj)] at hlength
      omega
  | reading hj progress =>
      rw [progress.length (Nat.le_succ_of_le hj)] at hlength
      omega
  | finished progress => rfl
  | failed hj progress => rfl

theorem PoolInvariant.length_delivered (hp : PoolInvariant blocks p)
    (hheaders : (delivered p.readers).map Segment.header = allHeaders blocks) {k : ℕ}
    {r : BlockReader} {b : Block} (hr : p.readers[k]? = some r) (hb : blocks[k]? = some b) :
    r.delivered.length = b.fullSegments + 1 := by
  have hcards := congrArg Multiset.card hheaders
  rw [Multiset.card_map, card_delivered, Multiset.coe_card, length_allHeaders] at hcards
  refine ListSum.eq_of_sum_eq hp.readers.length ?_ hcards hr hb
  intro k r b hr hb
  have hcard := Multiset.card_le_card (hp.readers.state k b r hb hr).headers_le
  rw [Multiset.card_add, Multiset.card_map, Multiset.coe_card, Multiset.coe_card,
    Multiset.coe_card, length_headers] at hcard
  omega

/-- Once every segment has been delivered and nothing is in flight, no task is
left but exceptions. -/
theorem PoolInvariant.idle_of_all (hp : PoolInvariant blocks p) (hinFlight : inFlight p.tasks = 0)
    (hheaders : (delivered p.readers).map Segment.header = allHeaders blocks) : Idle p := by
  intro t ht
  constructor
  · cases hk : t.reader? with
    | none => rfl
    | some k =>
        obtain ⟨b, r, hb, hr⟩ := hp.readers.exists_reader ht hk
        have hnone := (hp.readers.state k b r hb hr).tasks_eq_zero
          (hp.length_delivered hheaders hr hb)
        have hmem : t ∈ p.readerTasks k := Multiset.mem_filter.mpr ⟨ht, hk⟩
        rw [hnone] at hmem
        cases Multiset.notMem_zero t hmem
  · cases hhashed : t.hashed? with
    | none => rfl
    | some s =>
        have hmem : s ∈ inFlight p.tasks := (Multiset.mem_filterMap _ _).mpr ⟨t, ht, hhashed⟩
        rw [hinFlight] at hmem
        cases Multiset.notMem_zero s hmem

theorem WriterInvariant.keys_eq (hw : WriterInvariant blocks p.writer)
    (hp : PoolInvariant blocks p) :
    (((delivered p.readers).map Segment.header).map Header.key) =
      (inFlight p.tasks).map HashedSegment.key + (p.writer.segments.map Prod.fst : List Key) := by
  have hkeys : ((delivered p.readers).map Segment.header).map Header.key =
      (inFlight p.tasks + p.writer.arrived).map HashedSegment.key := by
    rw [← hp.conservation.conserved, Multiset.map_map, Multiset.map_map]
    rfl
  rw [hkeys, Multiset.map_add, Multiset.map_coe, Multiset.coe_eq_coe.mpr hw.keys]

theorem all_of_called (hids : (blocks.map Block.blockId).Nodup)
    (hfit : chunkSum (allHeaders blocks) < SizeT.modulus) (hcounts : EveryReadCounts blocks)
    {ok : Task × Environment → Prop} (h : Reachable (Pool.next file) ok (Pool.start blocks) p)
    (hcallbacks : p.writer.callbacks ≠ []) :
    inFlight p.tasks = 0 ∧ (delivered p.readers).map Segment.header = allHeaders blocks := by
  obtain ⟨harrived, hsum⟩ := CalledInvariant.reachable hids hfit h hcallbacks
  exact (PoolInvariant.reachable h).all_arrived hcounts harrived hsum

theorem callbacks_eq_nil_of_write (hids : (blocks.map Block.blockId).Nodup)
    (hfit : chunkSum (allHeaders blocks) < SizeT.modulus) (hcounts : EveryReadCounts blocks)
    {ok : Task × Environment → Prop} (h : Reachable (Pool.next file) ok (Pool.start blocks) p)
    {s : HashedSegment} (hmem : .write s ∈ p.tasks) : p.writer.callbacks = [] := by
  by_contra hcallbacks
  obtain ⟨hinFlight, hheaders⟩ := all_of_called hids hfit hcounts h hcallbacks
  have hidle := (PoolInvariant.reachable h).idle_of_all hinFlight hheaders
  cases (hidle _ hmem).2

theorem callbacks_length_le (hids : (blocks.map Block.blockId).Nodup)
    (hfit : chunkSum (allHeaders blocks) < SizeT.modulus) (hcounts : EveryReadCounts blocks)
    {ok : Task × Environment → Prop} (h : Reachable (Pool.next file) ok (Pool.start blocks) p) :
    p.writer.callbacks.length ≤ 1 := by
  apply Pool.invariant (I := fun p => p.writer.callbacks.length ≤ 1) _ (Nat.zero_le _) h
  intro p t e p' signal hreachable honce _ hmem htransition
  rcases htransition.writer with hsame | ⟨s, answer, rfl, hreceived, -⟩
  · rwa [hsame]
  · rw [hreceived.callbacks, callbacks_eq_nil_of_write hids hfit hcounts hreachable hmem,
      List.nil_append]
    cases answer with
    | none => exact Nat.zero_le _
    | some answer => exact le_refl _

theorem completesOnce_of_counts (hids : (blocks.map Block.blockId).Nodup)
    (hfit : chunkSum (allHeaders blocks) < SizeT.modulus) (hcounts : EveryReadCounts blocks) :
    CompletesOnce file blocks := by
  intro p hreachable
  have hp := PoolInvariant.reachable hreachable
  refine ⟨callbacks_length_le hids hfit hcounts hreachable, ?_⟩
  intro hcallbacks
  obtain ⟨hinFlight, hheaders⟩ := all_of_called hids hfit hcounts hreachable hcallbacks
  refine ⟨?_, hp.idle_of_all hinFlight hheaders⟩
  intro h hh
  have hkeys := (WriterInvariant.reachable hids hreachable).keys_eq hp
  rw [hheaders, hinFlight, Multiset.map_zero, Multiset.zero_add, Multiset.map_coe] at hkeys
  exact (Multiset.coe_eq_coe.mp hkeys).mem_iff.mp (List.mem_map_of_mem hh)

/-! ## A tail that comes too late -/

theorem two_le_length_allHeaders (hone : ¬ ∃ b, blocks = [b] ∧ b.fullSegments = 0)
    (hne : blocks ≠ []) : 2 ≤ (allHeaders blocks).length := by
  rw [length_allHeaders]
  cases blocks with
  | nil => exact absurd rfl hne
  | cons b rest =>
      cases rest with
      | nil =>
          have hb : b.fullSegments ≠ 0 := fun hzero => hone ⟨b, rfl, hzero⟩
          simp only [List.map_cons, List.map_nil, List.sum_cons, List.sum_nil]
          omega
      | cons b' rest =>
          simp only [List.map_cons, List.sum_cons]
          omega

/-- The task is the last read of the block with the given number. -/
def Task.LastRead (i : ℕ) (t : Task) : Prop :=
  ∃ operation, t = .read i operation ∧ operation.again = false

/-- What waits while everything else is brought to the writer. -/
def Task.Spare (i : ℕ) (t : Task) : Prop :=
  t.reader? = none ∧ t.hashed? = none ∨ t.LastRead i

theorem Task.Spare.reader {i k : ℕ} {t : Task} (h : t.Spare i) (hk : t.reader? = some k) :
    t.LastRead i := by
  rcases h with ⟨hnone, -⟩ | hlast
  · rw [hnone] at hk
    cases hk
  · exact hlast

theorem Task.Spare.not_hashed {i : ℕ} {t : Task} (h : t.Spare i) : t.hashed? = none := by
  rcases h with ⟨-, hnone⟩ | ⟨operation, rfl, -⟩
  · exact hnone
  · rfl

theorem Transition.delivered_le {i : ℕ} {b : Block} (hb : blocks[i]? = some b)
    (h : Transition file complete p t p' signal) (hp : PoolInvariant blocks p) (hmem : t ∈ p.tasks)
    (hspare : ¬ t.Spare i)
    (hle : ∀ r, p.readers[i]? = some r → r.delivered.length ≤ b.fullSegments) :
    ∀ r', p'.readers[i]? = some r' → r'.delivered.length ≤ b.fullSegments := by
  intro r' hr'
  obtain ⟨r, hr, hstate⟩ := hp.readers.reader hb
  rcases h.readerMove hr hr' with rfl | ⟨hi, hmove⟩
  · exact hle _ hr
  · rw [hstate.tasks_eq (Multiset.mem_filter.mpr ⟨hmem, hi⟩)] at hstate
    cases hmove with
    | doRead =>
        rw [r.doRead_fst]
        exact hle r hr
    | rejected hread => cases hread
    | @received k operation bytes hread =>
        obtain rfl : k = i := Option.some.inj hi
        obtain ⟨j, hj, rfl, progress, offset⟩ := hstate.of_read
        have hlt : j < b.fullSegments := by
          by_contra hlast
          refine hspare (Or.inr ⟨_, rfl, ?_⟩)
          rw [again_operationAt, decide_eq_false hlast]
        rw [(progress.received hj offset (length_read_le hread)).length (Nat.succ_le_succ hj)]
        exact hlt

theorem ReaderState.of_spare {b : Block} {i : ℕ} {r : BlockReader} {tasks : Multiset Task}
    (h : ReaderState b i r tasks) (hspare : ∀ t ∈ tasks, t.LastRead i)
    (hle : r.delivered.length ≤ b.fullSegments) (hfailures : r.failures = []) :
    tasks = {.read i (operationAt b b.fullSegments)} ∧ Progress b b.fullSegments r ∧
      r.offset = offsetAfter b b.fullSegments := by
  cases h with
  | ready =>
      obtain ⟨operation, heq, -⟩ := hspare _ (Multiset.mem_singleton_self _)
      cases heq
  | @reading j r hj progress offset =>
      obtain ⟨operation, heq, hagain⟩ := hspare _ (Multiset.mem_singleton_self _)
      obtain rfl := (Task.read.inj heq).2
      rw [again_operationAt, decide_eq_false_iff_not] at hagain
      obtain rfl : j = b.fullSegments := Nat.le_antisymm hj (Nat.le_of_not_lt hagain)
      exact ⟨rfl, progress, offset⟩
  | finished progress =>
      rw [progress.length (le_refl _)] at hle
      omega
  | failed => simp [BlockReader.rejected] at hfailures

theorem ReadersInvariant.headers_eq_but_last (hp : ReadersInvariant blocks p) {i : ℕ} {b : Block}
    {r : BlockReader} (hb : blocks[i]? = some b) (hr : p.readers[i]? = some r)
    (progress : Progress b b.fullSegments r) (offset : r.offset = offsetAfter b b.fullSegments)
    (hothers : ∀ k, k ≠ i → p.readerTasks k = 0) (hfailures : ∀ r ∈ p.readers, r.failures = []) :
    headerOf b (b.segmentSpan b.fullSegments) ::ₘ (delivered p.readers).map Segment.header =
      allHeaders blocks := by
  -- the last read would make the headers complete
  let r' := r.received (operationAt b b.fullSegments) []
  have hdelivered : delivered (p.readers.set i r') = _ := delivered_set_append hr rfl
  have hheader : ∀ memory, (r.segment (operationAt b b.fullSegments) memory).header =
      headerOf b (b.segmentSpan b.fullSegments) := by
    intro memory
    obtain rfl := progress.block
    exact (header_segment _ memory).trans (header_operationAt (le_refl _) offset)
  rw [← hheader, ← Multiset.map_cons, ← hdelivered, map_header_delivered, ← sum_headers]
  apply ListSum.sum_eq_sum (by rw [List.length_set, hp.length])
  intro k r₁ b₁ hr₁ hb₁
  by_cases hk : i = k
  · subst hk
    obtain ⟨hlt, -⟩ := List.getElem?_eq_some_iff.mp hr
    obtain rfl : r' = r₁ := by simpa [List.getElem?_set_self hlt] using hr₁
    obtain rfl := Option.some.inj (hb.symm.trans hb₁)
    have hfinal : Progress b (b.fullSegments + 1) r' :=
      progress.received (le_refl _) offset (Nat.zero_le _)
    rw [Multiset.map_coe, hfinal.delivered, List.take_of_length_le (length_headers b).le]
  · rw [List.getElem?_set_ne hk] at hr₁
    have hstate := hp.state k b₁ r₁ hb₁ hr₁
    rw [hothers k (Ne.symm hk)] at hstate
    exact hstate.headers_eq (hfailures r₁ (List.mem_of_getElem? hr₁))

/-- Everything but the last read of one block can be brought to the writer. -/
theorem exists_all_but_last (file : List Byte) {i : ℕ} {b : Block} (hb : blocks[i]? = some b) :
    ∃ p r, Reachable (Pool.next file) Brings (Pool.start blocks) p ∧
      p.readers[i]? = some r ∧
      .read i (operationAt b b.fullSegments) ∈ p.tasks ∧
      r.header (operationAt b b.fullSegments) = headerOf b (b.segmentSpan b.fullSegments) ∧
      inFlight p.tasks = 0 ∧
      headerOf b (b.segmentSpan b.fullSegments) ::ₘ (delivered p.readers).map Segment.header =
        allHeaders blocks := by
  let early := fun p : Pool =>
    ∀ r, p.readers[i]? = some r → r.delivered.length ≤ b.fullSegments
  have hstart : early (Pool.start blocks) := by
    intro r hr
    obtain rfl : r = BlockReader.start b := by simpa [Pool.start, hb] using hr.symm
    exact Nat.zero_le _
  obtain ⟨p, hdrained, hp, hearly, hspare⟩ :=
    (PoolInvariant.start blocks).exists_drained file (fun _ => complete) (Task.Spare i) early
      (fun p t p' signal hle hp hmem hspare h => h.delivered_le hb hp hmem hspare hle) hstart
  have hbrings : Reachable (Pool.next file) Brings (Pool.start blocks) p := by
    apply hdrained.mono
    intro a ha
    exact .of_not_spare ha.1 fun hidle => ha.2 (Or.inl hidle)
  have hfailures := failures_eq_nil (hbrings.mono Brings.succeed)
  have hlast : ∀ k, ∀ t ∈ p.readerTasks k, t.LastRead i := by
    intro k t ht
    obtain ⟨hmem, hk⟩ := Multiset.mem_filter.mp ht
    exact (hspare t hmem).reader hk
  have hothers : ∀ k, k ≠ i → p.readerTasks k = 0 := by
    intro k hk
    apply Multiset.eq_zero_of_forall_notMem
    intro t ht
    obtain ⟨operation, rfl, -⟩ := hlast k t ht
    exact hk (Option.some.inj (Multiset.mem_filter.mp ht).2).symm
  obtain ⟨r, hr, hstate⟩ := hp.readers.reader hb
  obtain ⟨htasks, progress, offset⟩ := hstate.of_spare (hlast i) (hearly r hr)
    (hfailures r (List.mem_of_getElem? hr))
  have hmem : Task.read i (operationAt b b.fullSegments) ∈ p.readerTasks i := by
    rw [htasks]
    exact Multiset.mem_singleton_self _
  have hheader : r.header (operationAt b b.fullSegments) =
      headerOf b (b.segmentSpan b.fullSegments) := by
    obtain rfl := progress.block
    exact header_operationAt (le_refl _) offset
  refine ⟨p, r, hbrings, hr, Multiset.mem_of_mem_filter hmem, hheader, ?_,
    hp.readers.headers_eq_but_last hb hr progress offset hothers hfailures⟩
  apply Multiset.eq_zero_of_forall_notMem
  intro s hs
  obtain ⟨t, ht, hhashed⟩ := (Multiset.mem_filterMap _ _).mp hs
  rw [(hspare t ht).not_hashed] at hhashed
  cases hhashed

/-- If the last read of some block brings no full chunk and is not the only
one, the writer can call back before it. -/
theorem exists_called_before (file : List Byte) (hids : (blocks.map Block.blockId).Nodup)
    (hcounts : ¬ EveryReadCounts blocks) :
    ∃ p i r operation, Reachable (Pool.next file) Brings (Pool.start blocks) p ∧
      p.readers[i]? = some r ∧ .read i operation ∈ p.tasks ∧ operation.again = false ∧
      (r.header operation).chunkCount = 0 ∧ p.writer.chunksCount = p.writer.chunksTotal ∧
      p.writer.callbacks ≠ [] := by
  obtain ⟨hends, hone⟩ := not_or.mp hcounts
  obtain ⟨b, hb, htail⟩ : ∃ b ∈ blocks, ¬ b.EndsInChunk := by
    by_contra hall
    exact hends fun b hb => by_contra fun htail => hall ⟨b, hb, htail⟩
  obtain ⟨i, hb⟩ := List.mem_iff_getElem?.mp hb
  obtain ⟨p, r, hreachable, hr, hmem, hheader, hinFlight, hheaders⟩ :=
    exists_all_but_last file hb
  have hw := WriterInvariant.reachable hids hreachable
  have hzero : (headerOf b (b.segmentSpan b.fullSegments)).chunkCount = 0 := by
    by_contra hpos
    rcases (chunkCount_pos_iff (le_refl _)).mp (Nat.pos_of_ne_zero hpos) with hlt | hend
    · exact Nat.lt_irrefl _ hlt
    · exact htail hend
  have harrived : (delivered p.readers).map hashOf = p.writer.arrived := by
    rw [(PoolInvariant.reachable hreachable).conservation.conserved, hinFlight, Multiset.zero_add]
  have hcount : p.writer.chunksCount = p.writer.chunksTotal := by
    have hsum := congrArg chunkSum hheaders
    rw [chunkSum, Multiset.map_cons, Multiset.sum_cons, hzero, Nat.zero_add] at hsum
    have hhashed : hashedSum p.writer.arrived = chunkSum (allHeaders blocks) := by
      rw [← harrived, hashedSum_map_hashOf]
      exact hsum
    rw [hw.count, hw.total, totalChunks_eq, ← hashedSum_coe, hhashed]
  have hne : p.writer.arrived ≠ [] := by
    intro hnil
    have hcard := congrArg Multiset.card hheaders
    have hnone := congrArg Multiset.card harrived
    rw [hnil, Multiset.card_map] at hnone
    rw [Multiset.card_cons, Multiset.card_map, hnone, Multiset.coe_card, Multiset.coe_card]
      at hcard
    have hne : blocks ≠ [] := by
      rintro rfl
      cases hb
    have hlong := two_le_length_allHeaders hone hne
    rw [← hcard] at hlong
    exact absurd hlong (by decide)
  refine ⟨p, i, r, _, hreachable, hr, hmem, ?_, by rw [hheader, hzero], hcount,
    hw.called hne hcount⟩
  rw [again_operationAt, decide_eq_false (Nat.lt_irrefl _)]

theorem counts_of_completesOnce (hids : (blocks.map Block.blockId).Nodup)
    (h : CompletesOnce file blocks) : EveryReadCounts blocks := by
  by_contra hcounts
  obtain ⟨p, i, r, operation, hreachable, -, hmem, -, -, -, hcallbacks⟩ :=
    exists_called_before file hids hcounts
  obtain ⟨-, hidle⟩ := (h p (hreachable.mono Brings.succeed)).2 hcallbacks
  cases (hidle _ hmem).1

end Counting

/-- For the blocks of a file the callback comes once, and after every segment
of every block, in every order of the tasks exactly when every read counts. -/
theorem completes_once_iff (F : FileContent) (n : ℕ) (hn : 1 ≤ n) (c : ChunkSize)
    (blocks : List Block) (hblocks : blockFileBlocks F.size n c = some blocks) :
    CompletesOnce F.bytes blocks ↔ EveryReadCounts blocks := by
  obtain ⟨hids, hfit⟩ := blockFileBlocks_fit hn hblocks
  exact ⟨counts_of_completesOnce hids,
    completesOnce_of_counts hids hfit⟩

theorem completes_once_iff_fiveChunks :
    CompletesOnce fiveChunks.bytes [leftBlock, rightBlock] ↔
      EveryReadCounts [leftBlock, rightBlock] :=
  completes_once_iff fiveChunks 2 (by decide) smallestChunk [leftBlock, rightBlock]
    fiveChunks_layout

theorem fiveChunks_counts : EveryReadCounts [leftBlock, rightBlock] := .inl (by decide)

/-- The last byte of the file is read for itself, and not counted. -/
theorem tailedBlock_not_counted : ¬ EveryReadCounts [tailedBlock] := by
  rintro (hends | ⟨b, hb, hzero⟩)
  · exact absurd (hends tailedBlock List.mem_cons_self) (by decide)
  · obtain rfl : tailedBlock = b := List.singleton_inj.mp hb
    exact absurd hzero (by decide)

theorem tailedBlock_incomplete :
    blockFileBlocks (gSegmentSizeHint + 1) 1 segmentChunk = some [tailedBlock] ∧
      tailedBlock.Inside (gSegmentSizeHint + 1) ∧
      ¬ CompletesOnce (zeroFile (gSegmentSizeHint + 1) (by decide)).bytes [tailedBlock] := by
  refine ⟨by decide, by decide, ?_⟩
  intro hcompletes
  exact tailedBlock_not_counted (counts_of_completesOnce (by decide) hcompletes)

end Signature2

end VeeamSignature
