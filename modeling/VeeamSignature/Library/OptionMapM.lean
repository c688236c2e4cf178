import Mathlib.Data.List.Basic

/-!
# Mapping a list through a partial function
-/

namespace VeeamSignature.OptionMapM

universe u

variable {α β : Type u} {f : α → Option β}

theorem mapM_eq_some_map {g : α → β} {xs : List α} (h : ∀ x ∈ xs, f x = some (g x)) :
    xs.mapM f = some (xs.map g) := by
  induction xs with
  | nil => rfl
  | cons x xs ih =>
      have hx := h x List.mem_cons_self
      have hxs := ih fun y hy => h y (List.mem_cons_of_mem x hy)
      simp [hx, hxs]

theorem exists_of_mapM_eq_some {xs : List α} {ys : List β} (h : xs.mapM f = some ys) :
    ∀ x ∈ xs, ∃ y, f x = some y := by
  induction xs generalizing ys with
  | nil => simp
  | cons x xs ih =>
      rw [List.mapM_cons] at h
      obtain ⟨y, hy, h⟩ := Option.bind_eq_some_iff.mp h
      obtain ⟨zs, hzs, _⟩ := Option.bind_eq_some_iff.mp h
      intro z hz
      rcases List.mem_cons.mp hz with rfl | hz
      · exact ⟨y, hy⟩
      · exact ih hzs z hz

end VeeamSignature.OptionMapM
