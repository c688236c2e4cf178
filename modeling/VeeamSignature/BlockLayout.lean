import Mathlib.Algebra.BigOperators.Group.List.Basic
import Mathlib.Data.List.Basic
import Mathlib.Order.MinMax
import VeeamSignature.Block

/-!
# The block layout

`mapped_file_t` and `block_file_t` compute the same list of blocks, the first
from the address of the mapping and the second from the offset zero: a loop
lowers the number of blocks while a block would be shorter than a chunk, all
blocks but the last get a size rounded up to whole chunks, and the last block
gets the rest of the file.
-/

namespace VeeamSignature

/-- The reduction loop, entered with the quotient for the given count. -/
def reductionLoop (fileSize chunkSize : ℕ) : ℕ → ℕ → Option (ℕ × ℕ)
  | approximateBlockSize, blockCount + 2 =>
      if approximateBlockSize < chunkSize then do
        let approximateBlockSize ← SizeT.div fileSize (blockCount + 1)
        reductionLoop fileSize chunkSize approximateBlockSize (blockCount + 1)
      else
        some (approximateBlockSize, blockCount + 2)
  | approximateBlockSize, blockCount => some (approximateBlockSize, blockCount)

def blockSize (approximateBlockSize chunkSize : ℕ) : ℕ :=
  let chunksInBlock := SizeT.add 1 (approximateBlockSize / chunkSize)
  SizeT.mul chunksInBlock chunkSize

/-- The layout loop; also returns `current_block_start` after it. -/
def emplaceBlocks (approximateBlockSize chunkSize : ℕ) (hc : 0 < chunkSize) :
    ℕ → ℕ → ℕ → List Block × ℕ
  | 0, _, currentBlockStart => ([], currentBlockStart)
  | remaining + 1, index, currentBlockStart =>
      let size := blockSize approximateBlockSize chunkSize
      -- both sources skip one byte here
      let rest := emplaceBlocks approximateBlockSize chunkSize hc remaining (index + 1)
        (SizeT.add currentBlockStart (SizeT.add size 1))
      (⟨index, currentBlockStart, size, chunkSize, SizeT.mul_lt _ _, hc⟩ :: rest.1, rest.2)

/-- The blocks of a file; a division by zero leaves no value. -/
def layout (fileSize blockCount chunkSize : ℕ) (hc : 0 < chunkSize) : Option (List Block) := do
  let approximateBlockSize ← SizeT.div fileSize blockCount
  let (approximateBlockSize, blockCount) ←
    reductionLoop fileSize chunkSize approximateBlockSize blockCount
  let (storage, currentBlockStart) :=
    emplaceBlocks approximateBlockSize chunkSize hc (blockCount - 1) 0 0
  let tailBlockSize := SizeT.sub fileSize currentBlockStart
  some (storage ++
    [⟨blockCount - 1, currentBlockStart, tailBlockSize, chunkSize, SizeT.sub_lt _ _, hc⟩])

/-! ## The reduction loop in closed form -/

def reducedCount (fileSize blockCount chunkSize : ℕ) : ℕ :=
  max 1 (min blockCount (fileSize / chunkSize))

theorem reducedCount_pos (s n c : ℕ) : 1 ≤ reducedCount s n c := Nat.le_max_left _ _

theorem reductionLoop_eq {s c : ℕ} (hc : 0 < c) {n : ℕ} (hn : 1 ≤ n) :
    reductionLoop s c (s / n) n = some (s / reducedCount s n c, reducedCount s n c) := by
  induction n with
  | zero => omega
  | succ n ih =>
      cases n with
      | zero =>
          have hone : reducedCount s 1 c = 1 := by
            unfold reducedCount
            omega
          rw [Nat.zero_add, hone, reductionLoop]
          intro m hm
          omega
      | succ n =>
          rw [reductionLoop, SizeT.div_of_pos (Nat.succ_pos n)]
          split_ifs with h
          · have hlt : s / c < n + 2 := by
              rw [Nat.div_lt_iff_lt_mul (by omega)] at h ⊢
              rwa [Nat.mul_comm]
            have hsame : reducedCount s (n + 1 + 1) c = reducedCount s (n + 1) c := by
              unfold reducedCount
              omega
            rw [hsame]
            exact ih (Nat.succ_pos n)
          · have hle : n + 2 ≤ s / c := by
              rw [Nat.not_lt, Nat.le_div_iff_mul_le (by omega)] at h
              rw [Nat.le_div_iff_mul_le hc, Nat.mul_comm]
              exact h
            have hcount : reducedCount s (n + 1 + 1) c = n + 2 := by
              unfold reducedCount
              omega
            rw [hcount]

/-! ## The layout in closed form -/

def innerBlock (approximateBlockSize chunkSize : ℕ) (hc : 0 < chunkSize) (index : ℕ) : Block :=
  ⟨index, index * (blockSize approximateBlockSize chunkSize + 1) % SizeT.modulus,
    blockSize approximateBlockSize chunkSize, chunkSize, SizeT.mul_lt _ _, hc⟩

theorem add_blockSize_succ (start approximateBlockSize chunkSize : ℕ) :
    SizeT.add (start % SizeT.modulus) (SizeT.add (blockSize approximateBlockSize chunkSize) 1) =
      (start + (blockSize approximateBlockSize chunkSize + 1)) % SizeT.modulus := by
  simp [SizeT.add]

theorem emplaceBlocks_eq (a c : ℕ) (hc : 0 < c) (remaining index : ℕ) :
    emplaceBlocks a c hc remaining index (index * (blockSize a c + 1) % SizeT.modulus) =
      ((List.range' index remaining).map (innerBlock a c hc),
        (index + remaining) * (blockSize a c + 1) % SizeT.modulus) := by
  induction remaining generalizing index with
  | zero => simp [emplaceBlocks]
  | succ remaining ih =>
      have hnext : SizeT.add (index * (blockSize a c + 1) % SizeT.modulus)
          (SizeT.add (blockSize a c) 1) = (index + 1) * (blockSize a c + 1) % SizeT.modulus := by
        rw [add_blockSize_succ, Nat.add_mul index 1, Nat.one_mul]
      rw [emplaceBlocks, hnext, ih, List.range'_succ, List.map_cons, Nat.add_right_comm,
        Nat.add_assoc index remaining 1]
      rfl

def tailBlock (fileSize blockCount chunkSize : ℕ) (hc : 0 < chunkSize) : Block :=
  let start := (blockCount - 1) * (blockSize (fileSize / blockCount) chunkSize + 1) % SizeT.modulus
  ⟨blockCount - 1, start, SizeT.sub fileSize start, chunkSize, SizeT.sub_lt _ _, hc⟩

theorem layout_eq {s n c : ℕ} (hc : 0 < c) (hn : 1 ≤ n) :
    layout s n c hc = some
      ((List.range (reducedCount s n c - 1)).map (innerBlock (s / reducedCount s n c) c hc) ++
        [tailBlock s (reducedCount s n c) c hc]) := by
  have hloop := emplaceBlocks_eq (s / reducedCount s n c) c hc (reducedCount s n c - 1) 0
  rw [Nat.zero_mul, Nat.zero_mod, Nat.zero_add] at hloop
  simp only [layout, SizeT.div_of_pos hn, reductionLoop_eq hc hn, hloop, Option.bind_eq_bind,
    Option.bind_some, List.range_eq_range']
  rfl

theorem layout_ne_nil {s n c : ℕ} {hc : 0 < c} (hn : 1 ≤ n) {blocks : List Block}
    (h : layout s n c hc = some blocks) : blocks ≠ [] := by
  rw [layout_eq hc hn] at h
  obtain rfl := Option.some.inj h
  simp

theorem reducedCount_eq_one_iff {s n c : ℕ} (hc : 0 < c) (hn : 1 ≤ n) :
    reducedCount s n c = 1 ↔ n = 1 ∨ s < 2 * c := by
  have hdiv : s / c < 2 ↔ s < 2 * c := Nat.div_lt_iff_lt_mul hc
  unfold reducedCount
  omega

theorem layout_single {s n c : ℕ} (hc : 0 < c) (hn : 1 ≤ n) (hs : s < SizeT.modulus)
    (hone : reducedCount s n c = 1) : layout s n c hc = some [⟨0, 0, s, c, hs, hc⟩] := by
  rw [layout_eq hc hn, hone]
  simp [tailBlock, SizeT.sub_of_le (Nat.zero_le s) hs]

theorem layout_blockId {s n c : ℕ} {hc : 0 < c} (hn : 1 ≤ n) {blocks : List Block}
    (h : layout s n c hc = some blocks) {k : ℕ} {b : Block} (hb : blocks[k]? = some b) :
    b.blockId = k := by
  rw [layout_eq hc hn] at h
  obtain rfl := Option.some.inj h
  have hpos := reducedCount_pos s n c
  rcases Nat.lt_trichotomy k (reducedCount s n c - 1) with hk | rfl | hk
  · rw [List.getElem?_append_left (by simpa using hk)] at hb
    obtain rfl : innerBlock (s / reducedCount s n c) c hc k = b := by simpa [hk] using hb
    rfl
  · rw [List.getElem?_append_right (by simp)] at hb
    obtain rfl : tailBlock s (reducedCount s n c) c hc = b := by simpa using hb
    rfl
  · rw [List.getElem?_eq_none (by simp; omega)] at hb
    cases hb

/-! ## Layouts inside the file -/

theorem chunksInBlock_lt {a c : ℕ} (h : a + c < SizeT.modulus) : 1 + a / c < SizeT.modulus := by
  rcases Nat.eq_zero_or_pos c with rfl | hc
  · simp [SizeT.modulus]
  · have hdiv : a / c ≤ a := Nat.div_le_self a c
    omega

theorem chunksInBlock_mul_lt {a c : ℕ} (h : a + c < SizeT.modulus) :
    (1 + a / c) * c < SizeT.modulus := by
  have hmul : a / c * c ≤ a := Nat.div_mul_le_self a c
  rw [Nat.add_mul, Nat.one_mul]
  omega

theorem blockSize_eq {a c : ℕ} (h : a + c < SizeT.modulus) :
    blockSize a c = (1 + a / c) * c := by
  rw [blockSize, SizeT.add_of_lt (chunksInBlock_lt h), SizeT.mul_of_lt (chunksInBlock_mul_lt h)]

theorem blockSize_pos {a c : ℕ} (hc : 0 < c) (h : a + c < SizeT.modulus) : 0 < blockSize a c := by
  rw [blockSize_eq h]
  exact Nat.mul_pos (Nat.add_pos_left Nat.one_pos _) hc

theorem innerBlock_chunksCount {a c : ℕ} (hc : 0 < c) (h : a + c < SizeT.modulus) (i : ℕ) :
    (innerBlock a c hc i).chunksCount = 1 + a / c := by
  have hblock : (innerBlock a c hc i).chunksCount = blockSize a c / c := rfl
  rw [hblock, blockSize_eq h]
  exact Nat.mul_div_cancel _ hc

theorem layout_chunksCount_lt {s n c : ℕ} {hc : 0 < c} (hn : 1 ≤ n) (hs : s < 2 ^ 63)
    (hmin : 4 ≤ c) (hfit : s + c < SizeT.modulus) {blocks : List Block}
    (h : layout s n c hc = some blocks) :
    (blocks.map Block.chunksCount).sum < SizeT.modulus := by
  rw [layout_eq hc hn] at h
  obtain rfl := Option.some.inj h
  generalize hk : reducedCount s n c = k
  have hinner : ∀ i, (innerBlock (s / k) c hc i).chunksCount = 1 + s / k / c :=
    innerBlock_chunksCount hc
      (Nat.lt_of_le_of_lt (Nat.add_le_add_right (Nat.div_le_self s k) c) hfit)
  have hcount : k - 1 ≤ s / c := by
    rw [← hk, reducedCount]
    apply Nat.sub_le_of_le_add
    exact max_le (Nat.le_add_left 1 _) ((Nat.min_le_right _ _).trans (Nat.le_add_right _ 1))
  have hchunks : (k - 1) * (s / k / c) ≤ s / c := by
    rw [Nat.div_div_eq_div_mul, Nat.mul_comm k c, ← Nat.div_div_eq_div_mul]
    calc (k - 1) * (s / c / k) ≤ k * (s / c / k) := Nat.mul_le_mul_right _ (Nat.sub_le _ _)
      _ ≤ s / c := Nat.mul_div_le _ _
  have htail : (tailBlock s k c hc).chunksCount ≤ 2 ^ 64 / 4 :=
    Nat.div_le_div (Nat.le_of_lt (tailBlock s k c hc).size_lt) hmin (by decide)
  have hquotient : s / c ≤ 2 ^ 63 / 4 := Nat.div_le_div (Nat.le_of_lt hs) hmin (by decide)
  have hsum : (((List.range (k - 1)).map (innerBlock (s / k) c hc)).map Block.chunksCount).sum =
      (k - 1) * (1 + s / k / c) := by
    simp [Function.comp_def, hinner]
  rw [List.map_append, List.sum_append, hsum, Nat.mul_add, Nat.mul_one]
  simp only [List.map_cons, List.map_nil, List.sum_cons, List.sum_nil, SizeT.modulus]
  omega

theorem layout_eq_of_chunkless {s n c : ℕ} {hc : 0 < c} (hn : 1 ≤ n)
    (hfit : s + c < SizeT.modulus) {blocks : List Block} (h : layout s n c hc = some blocks)
    (hzero : (blocks.map Block.chunksCount).sum = 0) :
    ∃ b, blocks = [b] ∧ b.size < b.chunkSize := by
  by_cases hone : reducedCount s n c = 1
  · have hs : s < SizeT.modulus := Nat.lt_of_le_of_lt (Nat.le_add_right s c) hfit
    rw [layout_single hc hn hs hone] at h
    obtain rfl := Option.some.inj h
    refine ⟨_, rfl, ?_⟩
    have hcount : s / c = 0 := by simpa [Block.chunksCount] using hzero
    exact Nat.lt_of_div_eq_zero hc hcount
  · exfalso
    have hpos := reducedCount_pos s n c
    have hfits : s / reducedCount s n c + c < SizeT.modulus :=
      Nat.lt_of_le_of_lt (Nat.add_le_add_right (Nat.div_le_self _ _) c) hfit
    rw [layout_eq hc hn] at h
    obtain rfl := Option.some.inj h
    have hmem : innerBlock (s / reducedCount s n c) c hc 0 ∈
        (List.range (reducedCount s n c - 1)).map (innerBlock (s / reducedCount s n c) c hc) :=
      List.mem_map.mpr ⟨0, List.mem_range.mpr (by omega), rfl⟩
    have hcount := List.sum_eq_zero_iff_forall_eq_nat.mp hzero _
      (List.mem_map_of_mem (List.mem_append_left _ hmem))
    rw [innerBlock_chunksCount hc hfits] at hcount
    exact absurd (Nat.add_eq_zero_iff.mp hcount).1 (by decide)

theorem inner_start_le {s a c : ℕ} (hc : 0 < c) (hs : s < 2 ^ 63) {count : ℕ}
    (h : ∀ i < count, (innerBlock a c hc i).Inside s) :
    ∀ i ≤ count, i * (blockSize a c + 1) ≤ s + 1 := by
  intro i hi
  induction i with
  | zero => simp
  | succ i ih =>
      have hprev := ih (Nat.le_of_succ_le hi)
      have hlt : i * (blockSize a c + 1) < SizeT.modulus :=
        Nat.lt_of_le_of_lt hprev (by simp only [SizeT.modulus]; omega)
      have hin : i * (blockSize a c + 1) % SizeT.modulus + blockSize a c ≤ s := h i hi
      rw [Nat.mod_eq_of_lt hlt] at hin
      rw [Nat.add_mul, Nat.one_mul]
      omega

theorem inner_offset {s a c : ℕ} (hc : 0 < c) (hs : s < 2 ^ 63) {count : ℕ}
    (h : ∀ i < count, (innerBlock a c hc i).Inside s) {i : ℕ} (hi : i ≤ count) :
    i * (blockSize a c + 1) % SizeT.modulus = i * (blockSize a c + 1) := by
  have hle := inner_start_le hc hs h i hi
  exact Nat.mod_eq_of_lt (Nat.lt_of_le_of_lt hle (by simp only [SizeT.modulus]; omega))

theorem offset_of_size_eq_zero {s n c : ℕ} (hc : 0 < c) (hn : 1 ≤ n)
    (hs : s + c < SizeT.modulus) {blocks : List Block} (h : layout s n c hc = some blocks)
    {b : Block} (hb : b ∈ blocks) (hsize : b.size = 0) : b.offset = s := by
  rw [layout_eq hc hn] at h
  obtain rfl := Option.some.inj h
  rcases List.mem_append.mp hb with hb | hb
  · obtain ⟨i, -, rfl⟩ := List.mem_map.mp hb
    have hsum : s / reducedCount s n c + c < SizeT.modulus :=
      Nat.lt_of_le_of_lt (Nat.add_le_add_right (Nat.div_le_self _ _) c) hs
    have hpos := blockSize_pos hc hsum
    have hzero : blockSize (s / reducedCount s n c) c = 0 := hsize
    omega
  · obtain rfl := List.mem_singleton.mp hb
    have hlt : s < SizeT.modulus := Nat.lt_of_le_of_lt (Nat.le_add_right s c) hs
    exact (SizeT.eq_of_sub_eq_zero hlt (Nat.mod_lt _ SizeT.modulus_pos) hsize).symm

end VeeamSignature
