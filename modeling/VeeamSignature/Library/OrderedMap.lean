import Mathlib.Data.List.Perm.Basic
import Mathlib.Order.Defs.Unbundled
import Mathlib.Data.List.Sort

/-!
# Ordered association lists

A map kept as a list of entries in strictly increasing key order, with an
insertion that leaves an existing entry in place.  The order is a parameter,
because programs bring their own comparison.
-/

namespace VeeamSignature.OrderedMap

variable {κ ν : Type*}

/-- The keys strictly increase along the list. -/
def Ordered (lt : κ → κ → Prop) (entries : List (κ × ν)) : Prop :=
  entries.Pairwise fun a b => lt a.1 b.1

/-- Insert before the first entry that is not below the key, unless that entry
has the key already.  Returns the entries, the value now stored under the key
and whether the insertion took place. -/
def emplace (lt : κ → κ → Prop) [DecidableRel lt] (key : κ) (value : ν) :
    List (κ × ν) → List (κ × ν) × ν × Bool
  | [] => ([(key, value)], value, true)
  | entry :: rest =>
      if lt entry.1 key then
        let inserted := emplace lt key value rest
        (entry :: inserted.1, inserted.2)
      else if lt key entry.1 then
        ((key, value) :: entry :: rest, value, true)
      else
        (entry :: rest, entry.2, false)

section Order

variable {lt : κ → κ → Prop} [IsStrictTotalOrder κ lt]

theorem eq_of_not_lt {a b : κ} (hab : ¬ lt a b) (hba : ¬ lt b a) : a = b := by
  rcases trichotomous_of lt a b with h | h | h
  · exact absurd h hab
  · exact h
  · exact absurd h hba

theorem Ordered.eq_of_perm {xs ys : List (κ × ν)} (hxs : Ordered lt xs) (hys : Ordered lt ys)
    (h : xs.Perm ys) : xs = ys := by
  refine h.eq_of_pairwise (fun a b _ _ hab hba => ?_) hxs hys
  exact absurd (trans_of lt hab hba) (irrefl_of lt a.1)

end Order

section Emplace

variable {lt : κ → κ → Prop} [DecidableRel lt]

theorem mem_emplace {key : κ} {value : ν} {entries : List (κ × ν)} {entry : κ × ν}
    (h : entry ∈ (emplace lt key value entries).1) : entry = (key, value) ∨ entry ∈ entries := by
  induction entries with
  | nil => simpa [emplace] using h
  | cons head rest ih =>
      simp only [emplace] at h
      split_ifs at h with hlt hgt
      · rcases List.mem_cons.mp h with rfl | hmem
        · simp
        · exact (ih hmem).imp_right (List.mem_cons_of_mem _)
      · simpa using h
      · exact Or.inr h

variable [IsStrictTotalOrder κ lt]

/-- Inserting under a fresh key stores the value and adds exactly one entry. -/
theorem emplace_fresh {key : κ} (value : ν) {entries : List (κ × ν)}
    (hfresh : key ∉ entries.map Prod.fst) :
    (emplace lt key value entries).2 = (value, true) ∧
      (emplace lt key value entries).1.Perm ((key, value) :: entries) := by
  induction entries with
  | nil => exact ⟨rfl, List.Perm.refl _⟩
  | cons entry rest ih =>
      have hne : entry.1 ≠ key := by
        rintro rfl
        simp at hfresh
      have hrest : key ∉ rest.map Prod.fst := fun h => hfresh (by simp_all)
      obtain ⟨hvalue, hperm⟩ := ih hrest
      by_cases hlt : lt entry.1 key
      · simp only [emplace, if_pos hlt]
        exact ⟨hvalue, (hperm.cons entry).trans (List.Perm.swap _ _ _)⟩
      · have hgt : lt key entry.1 := by
          by_contra hgt
          exact hne (eq_of_not_lt hlt hgt)
        simp only [emplace, if_neg hlt, if_pos hgt]
        exact ⟨trivial, List.Perm.refl _⟩

theorem emplace_ordered (key : κ) (value : ν) {entries : List (κ × ν)}
    (h : Ordered lt entries) : Ordered lt (emplace lt key value entries).1 := by
  induction entries with
  | nil => simp [emplace, Ordered]
  | cons entry rest ih =>
      obtain ⟨hhead, hrest⟩ := List.pairwise_cons.mp h
      simp only [emplace]
      split_ifs with hlt hgt
      · refine List.pairwise_cons.mpr ⟨fun other hmem => ?_, ih hrest⟩
        rcases mem_emplace hmem with rfl | hmem
        · exact hlt
        · exact hhead other hmem
      · refine List.pairwise_cons.mpr ⟨fun other hmem => ?_, h⟩
        rcases List.mem_cons.mp hmem with rfl | hmem
        · exact hgt
        · exact trans_of lt hgt (hhead other hmem)
      · exact h

end Emplace

end VeeamSignature.OrderedMap
