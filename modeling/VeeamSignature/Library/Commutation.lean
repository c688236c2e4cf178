import Mathlib.Data.List.Basic
import VeeamSignature.Library.LabelledSystem

/-!
# Runs up to the order of independent steps

Two labels are independent if neither disables the other and both orders lead
to the same state.  If labels of different lanes are independent, a run is
determined by what each lane performs.  If the labels of later phases can move
to the right past those of earlier ones, a run can be performed phase by phase.
-/

namespace VeeamSignature.LabelledSystem

variable {σ α ι : Type*} {step : σ → α → Option σ} {ok : α → Prop} {s t u : σ} {a : α}
  {xs ys : List α}

def Independent (step : σ → α → Option σ) (a b : α) : Prop :=
  ∀ s t u, step s a = some t → step s b = some u → ∃ v, step t b = some v ∧ step u a = some v

/-- A step of `b` right after one of `a` could as well come before it. -/
def MovesRight (step : σ → α → Option σ) (a b : α) : Prop :=
  ∀ s t u, step s a = some t → step t b = some u → ∃ v, step s b = some v ∧ step v a = some u

namespace Run

/-! ## Lanes -/

/-- A step that is enabled at the start can be pulled to the front past
independent ones. -/
theorem pull (hxs : ∀ b ∈ xs, Independent step a b) (ha : step s a = some t)
    (h : Run step ok s (xs ++ a :: ys) u) : Run step ok t (xs ++ ys) u := by
  induction xs generalizing s t with
  | nil =>
      obtain ⟨-, t', ha', hrun⟩ := cons_iff.mp h
      obtain rfl := Option.some.inj (ha.symm.trans ha')
      exact hrun
  | cons b xs ih =>
      obtain ⟨hb, s', hs', hrun⟩ := cons_iff.mp h
      obtain ⟨hindependent, hrest⟩ := List.forall_mem_cons.mp hxs
      obtain ⟨t', ht', hs''⟩ := hindependent s t s' ha hs'
      exact .cons hb ht' (ih hrest hs'' hrun)

end Run

/-- Only the lanes that occur have to be compared. -/
theorem lanes_agree [DecidableEq ι] (lane : α → ι)
    (h : ∀ a ∈ xs ++ ys, xs.filter (lane · = lane a) = ys.filter (lane · = lane a)) (i : ι) :
    xs.filter (lane · = i) = ys.filter (lane · = i) := by
  by_cases hused : ∃ a ∈ xs ++ ys, lane a = i
  · obtain ⟨a, ha, rfl⟩ := hused
    exact h a ha
  · have hnone : ∀ a ∈ xs ++ ys, ¬ lane a = i := fun a ha heq => hused ⟨a, ha, heq⟩
    have hleft : xs.filter (lane · = i) = [] := by
      simpa using fun a ha => hnone a (List.mem_append_left _ ha)
    have hright : ys.filter (lane · = i) = [] := by
      simpa using fun a ha => hnone a (List.mem_append_right _ ha)
    rw [hleft, hright]

namespace Run

/-- Runs that perform the same labels in the same order on every lane end in
the same state. -/
theorem eq_of_lanes [DecidableEq ι] (lane : α → ι)
    (hlanes : ∀ a b, lane a ≠ lane b → Independent step a b) (h : Run step ok s xs t)
    (h' : Run step ok s ys u)
    (hsame : ∀ i, xs.filter (lane · = i) = ys.filter (lane · = i)) : t = u := by
  induction h generalizing ys with
  | nil s =>
      cases h' with
      | nil => rfl
      | @cons _ _ _ b ys _ _ _ => exact absurd (hsame (lane b)) (by simp)
  | @cons s t₁ t a xs _ ha _ ih =>
      have hfirst := hsame (lane a)
      simp only [List.filter_cons, decide_true, if_true] at hfirst
      obtain ⟨before, after, rfl, hbefore, -, hafter⟩ := List.filter_eq_cons_iff.mp hfirst.symm
      have hother : ∀ b ∈ before, lane a ≠ lane b := fun b hb heq =>
        hbefore b hb (by simp [heq])
      apply ih (h'.pull (fun b hb => hlanes a b (hother b hb)) ha)
      intro i
      have hi := hsame i
      by_cases hlane : lane a = i
      · subst hlane
        have hnone : before.filter (lane · = lane a) = [] := List.filter_eq_nil_iff.mpr hbefore
        rw [List.filter_append, hnone, List.nil_append, hafter]
      · simpa [List.filter_append, List.filter_cons, hlane] using hi

/-! ## Phases -/

theorem push (hxs : ∀ b ∈ xs, MovesRight step a b) (ha : step s a = some t)
    (h : Run step ok t xs u) : ∃ v, Run step ok s xs v ∧ step v a = some u := by
  induction h generalizing s with
  | nil t => exact ⟨s, .nil s, ha⟩
  | cons hb hstep _ ih =>
      obtain ⟨hmove, hrest⟩ := List.forall_mem_cons.mp hxs
      obtain ⟨v, hv, hva⟩ := hmove _ _ _ ha hstep
      obtain ⟨w, hw, hwa⟩ := ih hrest hva
      exact ⟨w, .cons hb hv hw, hwa⟩

/-- The labels of one kind can come last, in their order. -/
theorem postpone (late : α → Bool)
    (hlate : ∀ a b, late a = true → late b = false → MovesRight step a b)
    (h : Run step ok s xs t) :
    Run step ok s (xs.filter (fun a => !late a) ++ xs.filter late) t := by
  induction h with
  | nil s => exact .nil s
  | @cons s s₁ t a xs hok ha _ ih =>
      cases hkind : late a with
      | false =>
          simp only [List.filter_cons, hkind, Bool.not_false, if_true, Bool.false_eq_true, if_false,
            List.cons_append]
          exact .cons hok ha ih
      | true =>
          obtain ⟨v, hearly, hrest⟩ := append_iff.mp ih
          have hmoves : ∀ b ∈ xs.filter (fun a => !late a), MovesRight step a b := by
            intro b hb
            exact hlate a b hkind (by simpa using (List.mem_filter.mp hb).2)
          obtain ⟨w, hw, hwa⟩ := hearly.push hmoves ha
          simp only [List.filter_cons, hkind, Bool.not_true, if_true, Bool.false_eq_true, if_false]
          exact hw.append (.cons hok hwa hrest)

/-- Every run can be performed phase by phase. -/
theorem by_phases (phase : α → ℕ)
    (hmoves : ∀ a b, phase b < phase a → MovesRight step a b) (h : Run step ok s xs t) {n : ℕ}
    (hn : ∀ a ∈ xs, phase a < n) :
    Run step ok s ((List.range n).flatMap fun i => xs.filter (phase · = i)) t := by
  induction n generalizing xs t with
  | zero =>
      have hnil : xs = [] := List.eq_nil_iff_forall_not_mem.mpr fun a ha => by
        simpa using hn a ha
      subst hnil
      exact h
  | succ n ih =>
      have hlate : ∀ a b, decide (n ≤ phase a) = true → decide (n ≤ phase b) = false →
          MovesRight step a b := by
        intro a b ha hb
        simp only [decide_eq_true_eq, decide_eq_false_iff_not] at ha hb
        exact hmoves a b (by omega)
      obtain ⟨v, hearly, hlast⟩ := append_iff.mp (h.postpone _ hlate)
      have hbelow : ∀ a ∈ xs.filter (fun a => !decide (n ≤ phase a)), phase a < n := by
        intro a ha
        simpa using (List.mem_filter.mp ha).2
      have hphases := ih hearly hbelow
      have hrange : ((List.range n).flatMap fun i =>
          (xs.filter fun a => !decide (n ≤ phase a)).filter (phase · = i)) =
          (List.range n).flatMap fun i => xs.filter (phase · = i) := by
        apply List.flatMap_congr
        intro i hi
        rw [List.filter_filter]
        apply List.filter_congr
        intro a _
        have hlt := List.mem_range.mp hi
        by_cases hphase : phase a = i
        · simp [hphase, hlt]
        · simp [hphase]
      have hlastPhase : xs.filter (fun a => decide (n ≤ phase a)) =
          xs.filter (phase · = n) := by
        apply List.filter_congr
        intro a ha
        have hlt := hn a ha
        simp only [decide_eq_decide]
        omega
      rw [hrange] at hphases
      rw [hlastPhase] at hlast
      rw [List.range_succ, List.flatMap_append, List.flatMap_singleton]
      exact hphases.append hlast

end Run

end VeeamSignature.LabelledSystem
