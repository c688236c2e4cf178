import VeeamSignature.Signature.Correctness

/-!
# Which bytes the first version hashes

In a layout inside the file every byte is in one record, except the bytes that
the layout loop skips: the one behind each block but the last.
-/

namespace VeeamSignature.Signature

open Slices

theorem countP_chunkSpans (b : Block) (p : ℕ) :
    (chunkSpans b).countP (·.Contains p) = if b.span.Contains p then 1 else 0 := by
  split
  case isTrue hin => exact (chunkSpans_tiles b).countP_contains hin.1 hin.2
  case isFalse hout =>
    apply List.countP_eq_zero.mpr
    intro s hs
    obtain ⟨hstart, hstop⟩ := chunkSpans_bounds hs
    have hnot : ¬ s.Contains p := fun hin => hout ⟨hstart.trans hin.1, hin.2.trans_le hstop⟩
    simpa using hnot

theorem countP_flatMap_chunkSpans (blocks : List Block) (p : ℕ) :
    (blocks.flatMap chunkSpans).countP (·.Contains p) =
      blocks.countP (·.span.Contains p) := by
  induction blocks with
  | nil => rfl
  | cons b blocks ih =>
      rw [List.flatMap_cons, List.countP_append, ih, countP_chunkSpans, List.countP_cons,
        Nat.add_comm]
      simp

/-- The bytes that the layout loop skips: the one behind each block but the last. -/
def Skipped (fileSize blockCount : ℕ) (c : ChunkSize) (p : ℕ) : Prop :=
  let count := reducedCount fileSize blockCount c.value
  let size := blockSize (fileSize / count) c.value
  p / (size + 1) < count - 1 ∧ p % (size + 1) = size

instance (fileSize blockCount : ℕ) (c : ChunkSize) :
    DecidablePred (Skipped fileSize blockCount c) :=
  fun _ => inferInstanceAs (Decidable (_ ∧ _))

/-- The blocks inside a file in numbers: those before the last have one size and
follow one another with one byte between them, the last ends with the file. -/
structure EvenLayout (fileSize length count : ℕ) (blocks : List Block) (tail : Span) : Prop where
  spans : blocks.map Block.span =
    (List.range count).map (fun i => ⟨i * (length + 1), length⟩) ++ [tail]
  start : tail.start = count * (length + 1)
  stop : tail.stop = fileSize

theorem evenLayout {s n : ℕ} {c : ChunkSize} (hs : s < 2 ^ 63) (hn : 1 ≤ n)
    {blocks : List Block} (hblocks : mappedFileBlocks s n c = some blocks)
    (hinside : ∀ b ∈ blocks, b.Inside s) :
    ∃ tail, EvenLayout s (blockSize (s / reducedCount s n c.value) c.value)
      (reducedCount s n c.value - 1) blocks tail := by
  rw [mappedFileBlocks, layout_eq c.pos hn] at hblocks
  obtain rfl := Option.some.inj hblocks
  generalize reducedCount s n c.value = k at hinside ⊢
  have hinner : ∀ i < k - 1, (innerBlock (s / k) c.value c.pos i).Inside s := by
    intro i hi
    exact hinside _ (List.mem_append_left _ (List.mem_map.mpr ⟨i, List.mem_range.mpr hi, rfl⟩))
  have htail : (tailBlock s k c.value c.pos).Inside s := hinside _ (by simp)
  have hstart : (tailBlock s k c.value c.pos).offset =
      (k - 1) * (blockSize (s / k) c.value + 1) := inner_offset c.pos hs hinner (le_refl _)
  have hle : (tailBlock s k c.value c.pos).offset ≤ s := (Nat.le_add_right _ _).trans htail
  have hsize : (tailBlock s k c.value c.pos).size = s - (tailBlock s k c.value c.pos).offset := by
    apply SizeT.sub_of_le hle
    simp only [SizeT.modulus]
    omega
  refine ⟨(tailBlock s k c.value c.pos).span, ?_, hstart, ?_⟩
  · rw [List.map_append, List.map_map]
    congr 1
    apply List.map_congr_left
    intro i hi
    have hoffset := inner_offset c.pos hs hinner (List.mem_range.mp hi).le
    simp only [Function.comp_apply, Block.span, innerBlock, hoffset]
  · rw [Span.stop, Block.span, hsize]
    exact Nat.add_sub_cancel' hle

theorem EvenLayout.countP {s length count : ℕ} {blocks : List Block} {tail : Span}
    (h : EvenLayout s length count blocks tail) {p : ℕ} (hp : p < s) :
    blocks.countP (·.span.Contains p) =
      if p / (length + 1) < count ∧ p % (length + 1) = length then 0 else 1 := by
  have hcount : blocks.countP (·.span.Contains p) =
      (blocks.map Block.span).countP (·.Contains p) := by
    rw [List.countP_map]
    rfl
  have htail : tail.Contains p ↔ count ≤ p / (length + 1) := by
    rw [Span.Contains, h.stop, h.start, Nat.le_div_iff_mul_le (Nat.succ_pos length)]
    exact and_iff_left hp
  have hmod : p % (length + 1) < length + 1 := Nat.mod_lt p (Nat.succ_pos length)
  rw [hcount, h.spans, List.countP_append, List.countP_map, List.countP_singleton]
  have hinner := countP_range_contains length count p
  simp only [Function.comp_def, hinner, htail, decide_eq_true_eq]
  split_ifs <;> omega

/-- In a layout inside the file every byte is in one record, except the bytes
that the layout loop skips, which are in none; these are as many as there are
blocks before the last. -/
theorem hashed_at_most_once {s n : ℕ} {c : ChunkSize} (hn : 1 ≤ n) (hs : s < 2 ^ 63)
    (hinside : LayoutInside s n c) :
    (∀ p < s, (recordSpans s n c).countP (·.Contains p) = if Skipped s n c p then 0 else 1) ∧
      ((Finset.range s).filter (Skipped s n c)).card = min n (s / c.value) - 1 := by
  have hblocks : ∃ blocks, mappedFileBlocks s n c = some blocks := ⟨_, layout_eq c.pos hn⟩
  obtain ⟨blocks, hblocks⟩ := hblocks
  have hin : ∀ b ∈ blocks, b.Inside s := by
    rw [LayoutInside, show Signature2.blockFileBlocks s n c = some blocks from hblocks] at hinside
    exact hinside
  obtain ⟨tail, heven⟩ := evenLayout hs hn hblocks hin
  constructor
  · intro p hp
    rw [recordSpans_eq hblocks, countP_flatMap_chunkSpans]
    exact heven.countP hp
  · have hcount : reducedCount s n c.value - 1 = min n (s / c.value) - 1 := by
      unfold reducedCount
      omega
    rw [← hcount]
    apply card_range_last
    rw [← heven.start]
    exact (Nat.le_add_right _ _).trans_eq heven.stop

theorem hashed_at_most_once_five_chunks :
    (∀ p < 320000, (recordSpans 320000 2 smallestChunk).countP (·.Contains p) =
      if Skipped 320000 2 smallestChunk p then 0 else 1) ∧
      ((Finset.range 320000).filter (Skipped 320000 2 smallestChunk)).card =
        min 2 (320000 / smallestChunk.value) - 1 :=
  hashed_at_most_once (by decide) (by decide) (by decide)

end VeeamSignature.Signature
