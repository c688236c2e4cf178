import VeeamSignature.BlockTiling
import VeeamSignature.Signature2.ReadChain

/-!
# Short reads

`read(2)` may deliver fewer bytes than requested.  The reader takes any answer
but `-1` for a full segment: the buffer keeps the zeros it was allocated with,
and the descriptor falls behind `offset` for the rest of the block.
-/

namespace VeeamSignature.Signature2

open Slices BlockReader

/-- What a call may do with the bytes of `read(2)`: hand all of a full segment
on, taken from where `offset` says, or report an error. -/
structure ReadCall.Faithful (file : List Byte) (call : ReadCall) : Prop where
  delivered : ∀ s, call.answer = .ok s → call.bytes = .ok s.memory ∧
    s.memory = slice file call.position call.count ∧ s.memory.length = call.count
  reported : ∀ bytes, call.bytes = .ok bytes → bytes.length < call.count →
    ∃ error, call.answer = .error error
  position : call.position = call.offset

/-- The result fails or delivers the whole span. -/
def ReadResult.Fills (file : List Byte) (s : Span) : ReadResult → Prop
  | .failed _ => True
  | .complete => s.stop ≤ file.length
  | .short limit => s.stop ≤ file.length ∧ s.length ≤ limit

/-- Every read from the one with the given number up to the first that fails
delivers its part of the block. -/
def FillsSegments (file : List Byte) (b : Block) (j : ℕ) (results : List ReadResult) : Prop :=
  ∀ i, j + i ≤ b.fullSegments → ∀ result, results[i]? = some result →
    (∀ earlier ∈ results.take i, earlier.isFailed = false) →
      result.Fills file (b.segmentSpan (j + i))

section Chain

variable {file : List Byte} {b : Block} {j : ℕ} {r : BlockReader} {result : ReadResult}
  {results : List ReadResult}

theorem read_of_fills {s : Span} (h : result.Fills file s) :
    (∃ error, read file s.start s.length result = .error error) ∨
      read file s.start s.length result = .ok (slice file s.start s.length) ∧
        (slice file s.start s.length).length = s.length := by
  cases result with
  | failed error => exact .inl ⟨error, rfl⟩
  | complete => exact .inr ⟨rfl, length_slice_of_le h⟩
  | short limit =>
      refine .inr ⟨?_, length_slice_of_le h.1⟩
      rw [read, Nat.min_eq_right h.2]

theorem fills_of_read {s : Span} (hs : s.length = 0 → s.start = 0) {bytes : List Byte}
    (hread : read file s.start s.length result = .ok bytes) (h : s.length ≤ bytes.length) :
    result.Fills file s := by
  cases result with
  | failed error => trivial
  | complete =>
      obtain rfl := Except.ok.inj hread
      rw [length_slice] at h
      show s.start + s.length ≤ file.length
      omega
  | short limit =>
      obtain rfl := Except.ok.inj hread
      rw [length_slice] at h
      show s.start + s.length ≤ file.length ∧ s.length ≤ limit
      omega

theorem buffer_of_length {bytes : List Byte} {count : ℕ} (h : bytes.length = count) :
    buffer count bytes = bytes := by
  simp [buffer, h]

/-- Only the read of an empty block asks for nothing. -/
theorem segmentSpan_start_eq_zero (hj : j ≤ b.fullSegments)
    (h : (b.segmentSpan j).length = 0) : (b.segmentSpan j).start = 0 := by
  rcases Nat.lt_or_eq_of_le hj with hlt | rfl
  · have hlength : (b.segmentSpan j).length = b.segmentSize := if_pos hlt
    have hpos := b.segmentSize_pos
    omega
  · have hsize : b.size = 0 := by
      by_contra hne
      exact Nat.ne_of_gt (segmentSpan_last_length_pos (Nat.pos_of_ne_zero hne)) h
    have hstop := b.segmentSpan_last_stop
    unfold Span.stop at hstop
    omega

theorem callAt_faithful_iff (hj : j ≤ b.fullSegments) :
    (callAt file b j (b.segmentSpan j).start result).Faithful file ↔
      result.Fills file (b.segmentSpan j) := by
  constructor
  · intro h
    cases hread : read file (b.segmentSpan j).start (b.segmentSpan j).length result with
    | error error =>
        cases result with
        | failed error => trivial
        | complete => cases hread
        | short limit => cases hread
    | ok bytes =>
        apply fills_of_read (segmentSpan_start_eq_zero hj) hread
        by_contra hshort
        obtain ⟨error, hanswer⟩ := h.reported bytes hread (Nat.lt_of_not_le hshort)
        simp [callAt, hread, Except.map] at hanswer
  · intro h
    rcases read_of_fills h with ⟨error, hread⟩ | ⟨hread, hlength⟩
    · refine ⟨?_, ?_, rfl⟩
      · simp [callAt, hread, Except.map]
      · simp [callAt, hread]
    · refine ⟨?_, ?_, rfl⟩
      · simp [callAt, hread, Except.map, buffer_of_length hlength, hlength]
      · simp [callAt, hread, hlength]

theorem callAt_moved (h : result.Fills file (b.segmentSpan j)) (hok : result.isFailed = false) :
    (callAt file b j (b.segmentSpan j).start result).moved = (b.segmentSpan j).length := by
  rcases read_of_fills h with ⟨error, hread⟩ | ⟨hread, hlength⟩
  · have hisOk := isOk_read file (b.segmentSpan j).start (b.segmentSpan j).length result
    rw [hread, hok] at hisOk
    cases hisOk
  · simp [ReadCall.moved, callAt, hread, hlength]

theorem fillsSegments_nil : FillsSegments file b j [] := by
  intro i _ result hresult
  simp at hresult

theorem fillsSegments_of_lt (h : b.fullSegments < j) : FillsSegments file b j results := by
  intro i hi
  omega

theorem fillsSegments_cons (hj : j ≤ b.fullSegments) :
    FillsSegments file b j (result :: results) ↔ result.Fills file (b.segmentSpan j) ∧
      (result.isFailed = false → FillsSegments file b (j + 1) results) := by
  constructor
  · intro h
    refine ⟨h 0 hj result rfl (by simp), fun hok i hi later hlater hearlier => ?_⟩
    rw [Nat.add_right_comm] at hi ⊢
    apply h (i + 1) hi later hlater
    rw [List.take_succ_cons]
    exact List.forall_mem_cons.mpr ⟨hok, hearlier⟩
  · rintro ⟨hfills, hrest⟩ i hi later hlater hearlier
    cases i with
    | zero =>
        obtain rfl := Option.some.inj hlater
        exact hfills
    | succ i =>
        rw [List.take_succ_cons] at hearlier
        obtain ⟨hok, hearlier⟩ := List.forall_mem_cons.mp hearlier
        rw [← Nat.add_assoc, Nat.add_right_comm] at hi ⊢
        exact hrest hok i hi later hlater hearlier

theorem AtRead.faithful_iff (h : AtRead b j r) (hposition : r.position = (b.segmentSpan j).start) :
    (∀ call ∈ (readChain file results r).calls, call.Faithful file) ↔
      FillsSegments file b j results := by
  induction results generalizing j r with
  | nil => simp [readChain, fillsSegments_nil]
  | cons result results ih =>
      rw [h.readChain_cons, hposition, fillsSegments_cons h.le, callAt_posts]
      by_cases hposts : j < b.fullSegments ∧ result.isFailed = false
      · obtain ⟨hlt, hok⟩ := hposts
        simp only [hlt, hok, decide_true, Bool.not_false, Bool.and_true, if_true,
          List.forall_mem_cons, forall_const, callAt_faithful_iff h.le]
        apply and_congr_right
        intro hfills
        apply ih (h.next hlt file result)
        rw [(h.readOnce_snd file result).2.2, hposition, callAt_moved hfills hok]
        exact b.segmentSpan_stop hlt
      · have hrest : result.isFailed = false → FillsSegments file b (j + 1) results := by
          intro hok
          apply fillsSegments_of_lt
          have hlast : ¬ j < b.fullSegments := fun hlt => hposts ⟨hlt, hok⟩
          omega
        have hlast : (decide (j < b.fullSegments) && !result.isFailed) = false := by
          simpa using hposts
        simp only [hlast, Bool.false_eq_true, if_false, List.forall_mem_singleton,
          callAt_faithful_iff h.le]
        exact (and_iff_left hrest).symm

end Chain

/-- A chain invents no data exactly when every read up to the first that fails
delivers its whole part of the block. -/
theorem readChain_faithful_iff (file : List Byte) (b : Block) (results : List ReadResult) :
    (∀ call ∈ (readChain file results (.start b)).calls, call.Faithful file) ↔
      FillsSegments file b 0 results :=
  (AtRead.start b).faithful_iff (Nat.zero_mul _).symm

def shortBlock : Block :=
  ⟨0, 0, 3, smallestChunk.value, smallBlock.size_lt, smallestChunk.pos⟩

/-- One byte out of three: the other two bytes of the segment are zeros. -/
theorem readChain_invents_zeros :
    ¬ ∀ call ∈ (readChain [1, 2, 3] [.short 1] (.start shortBlock)).calls,
      call.Faithful [1, 2, 3] := by
  intro h
  have hcall : callAt [1, 2, 3] shortBlock 0 0 (.short 1) ∈
      (readChain [1, 2, 3] [.short 1] (.start shortBlock)).calls := by
    rw [(AtRead.start shortBlock).readChain_cons]
    split_ifs
    · exact List.mem_cons_self
    · exact List.mem_cons_self
  obtain ⟨error, hanswer⟩ := (h _ hcall).reported [1] rfl (by decide)
  cases hanswer

end VeeamSignature.Signature2
