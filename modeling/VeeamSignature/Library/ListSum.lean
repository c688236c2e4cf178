import Mathlib.Algebra.BigOperators.Group.List.Basic
import Mathlib.Algebra.BigOperators.Group.Multiset.Basic
import Mathlib.Algebra.GroupWithZero.Nat
import Mathlib.Algebra.Order.Group.Nat

/-!
# Sums over the components of a system

What a system counts over its components changes, in one step, at one
component; and what holds of every component holds of the sum.
-/

namespace VeeamSignature.ListSum

variable {α β M : Type*} [AddCommMonoid M]

theorem exists_sum_set (f : α → M) {xs : List α} {k : ℕ} {x : α} (h : xs[k]? = some x) :
    ∃ rest, (xs.map f).sum = f x + rest ∧ ∀ y, ((xs.set k y).map f).sum = f y + rest := by
  induction xs generalizing k with
  | nil => simp at h
  | cons head xs ih =>
      cases k with
      | zero =>
          obtain rfl : head = x := by simpa using h
          exact ⟨(xs.map f).sum, by simp⟩
      | succ k =>
          obtain ⟨rest, hsum, hset⟩ := ih (by simpa using h)
          refine ⟨f head + rest, ?_, ?_⟩
          · rw [List.map_cons, List.sum_cons, hsum, add_left_comm]
          · intro y
            rw [List.set_cons_succ, List.map_cons, List.sum_cons, hset, add_left_comm]

/-- A step at one component changes the sum by what it changes there. -/
theorem sum_set (f : α → ℕ) {xs : List α} {k : ℕ} {x : α} (h : xs[k]? = some x) (y : α) :
    ((xs.set k y).map f).sum + f x = (xs.map f).sum + f y := by
  obtain ⟨rest, hsum, hset⟩ := exists_sum_set f h
  rw [hsum, hset]
  omega

/-- After a step at one component each is the new one, or as it was. -/
theorem component_of_set {xs : List α} {i j : ℕ} {x y : α} (h : (xs.set i x)[j]? = some y) :
    (i = j ∧ y = x) ∨ (i ≠ j ∧ xs[j]? = some y) := by
  by_cases hij : i = j
  · subst hij
    obtain ⟨hlt, -⟩ := List.getElem?_eq_some_iff.mp h
    rw [List.length_set] at hlt
    rw [List.getElem?_set_self hlt] at h
    exact .inl ⟨rfl, (Option.some.inj h).symm⟩
  · rw [List.getElem?_set_ne hij] at h
    exact .inr ⟨hij, h⟩

variable {f : α → M} {g : β → M}

theorem sum_eq_sum {xs : List α} {ys : List β} (hlength : xs.length = ys.length)
    (h : ∀ (k : ℕ) (x : α) (y : β), xs[k]? = some x → ys[k]? = some y → f x = g y) :
    (xs.map f).sum = (ys.map g).sum := by
  induction xs generalizing ys with
  | nil =>
      cases ys with
      | nil => rfl
      | cons y ys => simp at hlength
  | cons x xs ih =>
      cases ys with
      | nil => simp at hlength
      | cons y ys =>
          have hhead : f x = g y := h 0 x y rfl rfl
          have htail := ih (Nat.succ.inj hlength) fun k x y hx hy => h (k + 1) x y hx hy
          rw [List.map_cons, List.map_cons, List.sum_cons, List.sum_cons, hhead, htail]

theorem sum_le_sum [Preorder M] [AddLeftMono M] {xs : List α} {ys : List β}
    (hlength : xs.length = ys.length)
    (h : ∀ (k : ℕ) (x : α) (y : β), xs[k]? = some x → ys[k]? = some y → f x ≤ g y) :
    (xs.map f).sum ≤ (ys.map g).sum := by
  induction xs generalizing ys with
  | nil =>
      cases ys with
      | nil => exact le_refl _
      | cons y ys => simp at hlength
  | cons x xs ih =>
      cases ys with
      | nil => simp at hlength
      | cons y ys =>
          have hhead : f x ≤ g y := h 0 x y rfl rfl
          have htail := ih (Nat.succ.inj hlength) fun k x y hx hy => h (k + 1) x y hx hy
          rw [List.map_cons, List.map_cons, List.sum_cons, List.sum_cons]
          exact add_le_add hhead htail

theorem eq_of_sum_eq {f : α → ℕ} {g : β → ℕ} {xs : List α} {ys : List β}
    (hlength : xs.length = ys.length)
    (h : ∀ (k : ℕ) (x : α) (y : β), xs[k]? = some x → ys[k]? = some y → f x ≤ g y)
    (hsum : (xs.map f).sum = (ys.map g).sum) {k : ℕ} {x : α} {y : β} (hx : xs[k]? = some x)
    (hy : ys[k]? = some y) : f x = g y := by
  induction xs generalizing ys k with
  | nil => simp at hx
  | cons head xs ih =>
      cases ys with
      | nil => simp at hy
      | cons head' ys =>
          have hlength := Nat.succ.inj hlength
          have htail : ∀ (k : ℕ) (x : α) (y : β), xs[k]? = some x → ys[k]? = some y → f x ≤ g y :=
            fun k x y hx hy => h (k + 1) x y hx hy
          have hhead : f head ≤ g head' := h 0 head head' rfl rfl
          have hrest := sum_le_sum hlength htail
          rw [List.map_cons, List.map_cons, List.sum_cons, List.sum_cons] at hsum
          cases k with
          | zero =>
              obtain rfl : head = x := Option.some.inj hx
              obtain rfl : head' = y := Option.some.inj hy
              omega
          | succ k => exact ih hlength htail (by omega) hx hy

theorem eq_zero_of_sum_eq_zero {f : α → ℕ} {s : Multiset α} (hpos : ∀ x ∈ s, 0 < f x)
    (hsum : (s.map f).sum = 0) : s = 0 := by
  apply Multiset.eq_zero_of_forall_notMem
  intro x hx
  obtain ⟨rest, rfl⟩ := Multiset.exists_cons_of_mem hx
  rw [Multiset.map_cons, Multiset.sum_cons] at hsum
  have hx := hpos x hx
  omega

end VeeamSignature.ListSum
