import Mathlib.Order.Basic

/-!
# Runs of a labelled transition function

A system is given by a function that answers a label with the next state, or
with nothing where the label is not enabled.  A run performs a list of labels,
each of them admitted by a predicate on labels; the predicate carries what a
statement assumes about the environment (which reads fail, for instance).
-/

namespace VeeamSignature.LabelledSystem

variable {σ τ α β : Type*}

/-- `Run step ok s xs t`: performing the labels `xs` in order leads from `s` to
`t`, and every label is admitted by `ok`. -/
inductive Run (step : σ → α → Option σ) (ok : α → Prop) : σ → List α → σ → Prop
  | nil (s : σ) : Run step ok s [] s
  | cons {s t u : σ} {a : α} {xs : List α} (admitted : ok a) (head : step s a = some t)
      (tail : Run step ok t xs u) : Run step ok s (a :: xs) u

def Reachable (step : σ → α → Option σ) (ok : α → Prop) (s t : σ) : Prop :=
  ∃ xs, Run step ok s xs t

variable {step : σ → α → Option σ} {ok : α → Prop}

namespace Run

theorem single {s t : σ} {a : α} (ha : ok a) (h : step s a = some t) : Run step ok s [a] t :=
  .cons ha h (.nil t)

theorem append {s t u : σ} {xs ys : List α} (h : Run step ok s xs t)
    (h' : Run step ok t ys u) : Run step ok s (xs ++ ys) u := by
  induction h with
  | nil => exact h'
  | cons ha hs _ ih => exact .cons ha hs (ih h')

theorem mono {ok' : α → Prop} (hok : ∀ a, ok a → ok' a) {s t : σ} {xs : List α}
    (h : Run step ok s xs t) : Run step ok' s xs t := by
  induction h with
  | nil s => exact .nil s
  | cons ha hs _ ih => exact .cons (hok _ ha) hs ih

theorem cons_iff {s u : σ} {a : α} {xs : List α} :
    Run step ok s (a :: xs) u ↔ ok a ∧ ∃ t, step s a = some t ∧ Run step ok t xs u := by
  constructor
  · intro h
    cases h with
    | cons ha hs hrun => exact ⟨ha, _, hs, hrun⟩
  · rintro ⟨ha, t, hs, hrun⟩
    exact .cons ha hs hrun

theorem append_iff {s u : σ} {xs ys : List α} :
    Run step ok s (xs ++ ys) u ↔ ∃ t, Run step ok s xs t ∧ Run step ok t ys u := by
  constructor
  · intro h
    induction xs generalizing s with
    | nil => exact ⟨s, .nil s, h⟩
    | cons a xs ih =>
        obtain ⟨ha, t, hs, hrun⟩ := cons_iff.mp h
        obtain ⟨v, hxs, hys⟩ := ih hrun
        exact ⟨v, .cons ha hs hxs, hys⟩
  · rintro ⟨t, hxs, hys⟩
    exact hxs.append hys

/-- A run is the iteration of the transition function over admitted labels. -/
theorem iff_foldlM {s t : σ} {xs : List α} :
    Run step ok s xs t ↔ (∀ a ∈ xs, ok a) ∧ xs.foldlM step s = some t := by
  induction xs generalizing s with
  | nil =>
      constructor
      · intro h
        cases h with
        | nil => exact ⟨fun a ha => absurd ha List.not_mem_nil, rfl⟩
      · rintro ⟨-, h⟩
        obtain rfl : s = t := Option.some.inj h
        exact .nil s
  | cons a xs ih =>
      rw [cons_iff, List.forall_mem_cons, List.foldlM_cons, Option.bind_eq_bind,
        Option.bind_eq_some_iff]
      simp only [ih]
      constructor
      · rintro ⟨ha, t, hs, hall, hfold⟩
        exact ⟨⟨ha, hall⟩, t, hs, hfold⟩
      · rintro ⟨⟨ha, hall⟩, t, hs, hfold⟩
        exact ⟨ha, t, hs, hall, hfold⟩

/-- What holds of the labels performed and the state reached at the start, and
is preserved by every admitted step, holds at the end of every run. -/
theorem trace {J : List α → σ → Prop}
    (hstep : ∀ xs s a t, J xs s → ok a → step s a = some t → J (xs ++ [a]) t)
    {s t : σ} {xs : List α} (h : Run step ok s xs t) (hs : J [] s) : J xs t := by
  have hlonger : ∀ ys, J ys s → J (ys ++ xs) t := by
    clear hs
    induction h with
    | nil s =>
        intro ys hys
        rwa [List.append_nil]
    | @cons s t u a xs ha hst _ ih =>
        intro ys hys
        have hrest := ih (ys ++ [a]) (hstep ys s a t hys ha hst)
        rwa [List.append_assoc, List.singleton_append] at hrest
  exact hlonger [] hs

/-- What holds at the start and is preserved by every admitted step holds at
the end of every run. -/
theorem invariant {I : σ → Prop} (hstep : ∀ s a t, I s → ok a → step s a = some t → I t)
    {s t : σ} {xs : List α} (h : Run step ok s xs t) (hs : I s) : I t := by
  induction h with
  | nil => exact hs
  | cons ha hst _ ih => exact ih (hstep _ _ _ hs ha hst)

/-- Transition functions that agree on the states of an invariant have the
same runs from them. -/
theorem congr {step' : σ → α → Option σ} {I : σ → Prop}
    (hstep : ∀ s a t, I s → ok a → step s a = some t → I t)
    (hsame : ∀ s a, I s → step s a = step' s a) {s t : σ} {xs : List α}
    (h : Run step ok s xs t) (hs : I s) : Run step' ok s xs t := by
  induction h with
  | nil s => exact .nil s
  | cons ha hst _ ih => exact .cons ha (hsame _ _ hs ▸ hst) (ih (hstep _ _ _ hs ha hst))

theorem length_le {I : σ → Prop} (hstep : ∀ s a t, I s → ok a → step s a = some t → I t)
    (μ : σ → ℕ) (hμ : ∀ s a t, I s → ok a → step s a = some t → μ t < μ s)
    {s t : σ} {xs : List α} (h : Run step ok s xs t) (hs : I s) :
    xs.length + μ t ≤ μ s := by
  induction h with
  | nil => simp
  | cons ha hst _ ih =>
      have hlt := hμ _ _ _ hs ha hst
      have hrest := ih (hstep _ _ _ hs ha hst)
      simp only [List.length_cons]
      omega

end Run

namespace Reachable

theorem refl (s : σ) : Reachable step ok s s := ⟨[], .nil s⟩

theorem trans {s t u : σ} (h : Reachable step ok s t) (h' : Reachable step ok t u) :
    Reachable step ok s u := by
  obtain ⟨xs, hxs⟩ := h
  obtain ⟨ys, hys⟩ := h'
  exact ⟨xs ++ ys, hxs.append hys⟩

theorem single {s t : σ} {a : α} (ha : ok a) (h : step s a = some t) : Reachable step ok s t :=
  ⟨[a], .single ha h⟩

theorem tail {s t u : σ} {a : α} (h : Reachable step ok s t) (ha : ok a)
    (h' : step t a = some u) : Reachable step ok s u :=
  h.trans (single ha h')

theorem mono {ok' : α → Prop} (hok : ∀ a, ok a → ok' a) {s t : σ}
    (h : Reachable step ok s t) : Reachable step ok' s t := by
  obtain ⟨xs, hxs⟩ := h
  exact ⟨xs, hxs.mono hok⟩

theorem invariant {I : σ → Prop} (hstep : ∀ s a t, I s → ok a → step s a = some t → I t)
    {s t : σ} (h : Reachable step ok s t) (hs : I s) : I t := by
  obtain ⟨xs, hxs⟩ := h
  exact hxs.invariant hstep hs

/-- As above, for steps from states that are themselves reachable. -/
theorem invariant_along {I : σ → Prop} {s : σ}
    (hstep : ∀ t a u, Reachable step ok s t → I t → ok a → step t a = some u → I u)
    {t : σ} (h : Reachable step ok s t) (hs : I s) : I t := by
  have hboth : Reachable step ok s t ∧ I t := by
    apply invariant (I := fun t => Reachable step ok s t ∧ I t) _ h ⟨refl s, hs⟩
    rintro t a u ⟨hreachable, ht⟩ ha hu
    exact ⟨hreachable.tail ha hu, hstep t a u hreachable ht ha hu⟩
  exact hboth.2

/-- A projection under which every step of one system is a step of another, or
no change, carries reachability over. -/
theorem project {step' : τ → β → Option τ} {ok' : β → Prop} (π : σ → τ)
    (hπ : ∀ s a t, ok a → step s a = some t →
      π t = π s ∨ ∃ b, ok' b ∧ step' (π s) b = some (π t))
    {s t : σ} (h : Reachable step ok s t) : Reachable step' ok' (π s) (π t) := by
  obtain ⟨xs, hxs⟩ := h
  induction hxs with
  | nil s => exact refl _
  | cons ha hst _ ih =>
      rcases hπ _ _ _ ha hst with heq | ⟨b, hb, hb'⟩
      · exact heq ▸ ih
      · exact (single hb hb').trans ih

theorem of_foldlM {s t : σ} {xs : List α} (hok : ∀ a ∈ xs, ok a) (h : xs.foldlM step s = some t) :
    Reachable step ok s t := by
  induction xs generalizing s with
  | nil =>
      obtain rfl : s = t := Option.some.inj h
      exact refl s
  | cons a xs ih =>
      rw [List.foldlM_cons, Option.bind_eq_bind] at h
      obtain ⟨u, hu, hrest⟩ := Option.bind_eq_some_iff.mp h
      exact (single (hok a List.mem_cons_self) hu).trans
        (ih (fun b hb => hok b (List.mem_cons_of_mem a hb)) hrest)

/-- Where every state short of the goal has an admitted step down a measure,
the goal is reachable. -/
theorem exists_goal {I goal : σ → Prop} (μ : σ → ℕ)
    (hstep : ∀ s, I s → ¬ goal s → ∃ a t, ok a ∧ step s a = some t ∧ I t ∧ μ t < μ s)
    {s : σ} (hs : I s) : ∃ t, Reachable step ok s t ∧ I t ∧ goal t := by
  induction hn : μ s using Nat.strongRecOn generalizing s with
  | ind n ih =>
      by_cases hgoal : goal s
      · exact ⟨s, refl s, hs, hgoal⟩
      · obtain ⟨a, t, ha, hst, ht, hlt⟩ := hstep s hs hgoal
        obtain ⟨u, htu, hu⟩ := ih (μ t) (hn ▸ hlt) ht rfl
        exact ⟨u, (single ha hst).trans htu, hu⟩

end Reachable

end VeeamSignature.LabelledSystem
