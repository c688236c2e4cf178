import Mathlib.Order.Bounds.Defs
import VeeamSignature.BlockLayout

/-!
# The number of blocks

The reduction loop goes down from the number of cores and stops at the largest
number of blocks that are not shorter than a chunk, or at one.
-/

namespace VeeamSignature

variable {s n c : ℕ}

theorem reducedCount_le (hn : 1 ≤ n) : reducedCount s n c ≤ n :=
  max_le hn (Nat.min_le_left _ _)

theorem chunk_le_quotient_iff {k : ℕ} (hc : 1 ≤ c) (hk : 1 ≤ k) : c ≤ s / k ↔ k ≤ s / c := by
  rw [Nat.le_div_iff_mul_le hk, Nat.le_div_iff_mul_le hc, Nat.mul_comm]

theorem chunk_le_reduced (hc : 1 ≤ c) (h : 1 < reducedCount s n c) :
    c ≤ s / reducedCount s n c := by
  rw [chunk_le_quotient_iff hc (Nat.le_of_lt h)]
  have hcount : reducedCount s n c = min n (s / c) := by
    unfold reducedCount at h ⊢
    omega
  rw [hcount]
  exact Nat.min_le_right _ _

theorem le_reducedCount {j : ℕ} (hc : 1 ≤ c) (hj : 1 ≤ j) (hjn : j ≤ n) (h : c ≤ s / j) :
    j ≤ reducedCount s n c := by
  rw [chunk_le_quotient_iff hc hj] at h
  exact le_max_of_le_right (Nat.le_min.mpr ⟨hjn, h⟩)

/-- The counts of blocks that the loop looks for. -/
def fittingCounts (s n c : ℕ) : Set ℕ := {k | 1 ≤ k ∧ k ≤ n ∧ c ≤ s / k}

theorem reducedCount_isGreatest (hc : 1 ≤ c) (hfits : (fittingCounts s n c).Nonempty) :
    IsGreatest (fittingCounts s n c) (reducedCount s n c) := by
  obtain ⟨j, hj, hjn, hfit⟩ := hfits
  have hn : 1 ≤ n := hj.trans hjn
  constructor
  · refine ⟨reducedCount_pos s n c, reducedCount_le hn, ?_⟩
    have hle : j ≤ reducedCount s n c := le_reducedCount hc hj hjn hfit
    rcases Nat.lt_or_ge 1 (reducedCount s n c) with hlt | hge
    · exact chunk_le_reduced hc hlt
    · have heq : reducedCount s n c = j := by omega
      rw [heq]
      exact hfit
  · rintro i ⟨hi, hin, hfit⟩
    exact le_reducedCount hc hi hin hfit

theorem layout_length (hc : 0 < c) (hn : 1 ≤ n) :
    ∃ blocks, layout s n c hc = some blocks ∧ blocks.length = reducedCount s n c := by
  refine ⟨_, layout_eq hc hn, ?_⟩
  have hpos := reducedCount_pos s n c
  simp only [List.length_append, List.length_map, List.length_range, List.length_singleton]
  omega

/-- The reduction loop, for every size, count and chunk size. -/
theorem reductionLoop_largest (s n c : ℕ) (hn : 1 ≤ n) (hc : 1 ≤ c) :
    ∃ k, k = max 1 (min n (s / c)) ∧
      (SizeT.div s n >>= fun quotient => reductionLoop s c quotient n) = some (s / k, k) ∧
      ((fittingCounts s n c).Nonempty → IsGreatest (fittingCounts s n c) k) ∧
      (∃ blocks, layout s n c hc = some blocks ∧ blocks.length = k) ∧
      (1 < k → c ≤ s / k) := by
  refine ⟨reducedCount s n c, rfl, ?_, reducedCount_isGreatest hc, layout_length hc hn,
    chunk_le_reduced hc⟩
  rw [SizeT.div_of_pos hn]
  exact reductionLoop_eq hc hn

/-- A file of two chunks and a half on four cores. -/
theorem reductionLoop_largest_on_four_cores :
    ∃ k, k = max 1 (min 4 (160000 / 64000)) ∧
      (SizeT.div 160000 4 >>= fun quotient => reductionLoop 160000 64000 quotient 4) =
        some (160000 / k, k) ∧
      ((fittingCounts 160000 4 64000).Nonempty → IsGreatest (fittingCounts 160000 4 64000) k) ∧
      (∃ blocks, layout 160000 4 64000 (Nat.zero_lt_succ 63999) = some blocks ∧ blocks.length = k) ∧
      (1 < k → 64000 ≤ 160000 / k) :=
  reductionLoop_largest 160000 4 64000 (by decide) (by decide)

end VeeamSignature
