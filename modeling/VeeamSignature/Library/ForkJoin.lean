import Mathlib.Algebra.Order.Group.Nat
import VeeamSignature.Library.LabelledSystem
import VeeamSignature.Library.ListSum
import VeeamSignature.Library.OptionMapM

/-!
# Fork and join

A thread is created for each input, runs its body step by step, and stores what
the body returns in its own entry of a shared array; when all threads are done
the array is the result.  A step of a body may also end the whole process.  If
the body computes a partial function of its input, every interleaving of the
threads computes the map of that function over the inputs.
-/

namespace VeeamSignature.ForkJoin

universe u

open LabelledSystem

/-- What one step of a body leads to. -/
inductive Progress (τ ρ : Type u)
  | running (body : τ)
  | returned (value : ρ)
  | crashed

inductive Thread (τ ρ : Type u)
  | running (body : τ)
  | returned (value : ρ)
  | finished

structure State (τ ρ : Type u) where
  threads : List (Thread τ ρ)
  results : List ρ
  joined : Option (List ρ)
  crashed : Bool

inductive Action
  | create
  | advance (k : ℕ)
  | store (k : ℕ)
  | join

variable {τ ρ : Type u} (advance : τ → Progress τ ρ) (inputs : List τ)

def Thread.isFinished : Thread τ ρ → Bool
  | .finished => true
  | _ => false

namespace State

def start (initial : ρ) : State τ ρ :=
  ⟨[], List.replicate inputs.length initial, none, false⟩

/-- The creating thread creates the others one after another and then waits. -/
def act (s : State τ ρ) : Action → Option (State τ ρ)
  | .create => do
      let body ← inputs[s.threads.length]?
      some { s with threads := s.threads ++ [.running body] }
  | .advance k =>
      match s.threads[k]? with
      | some (.running body) =>
          match advance body with
          | .running body => some { s with threads := s.threads.set k (.running body) }
          | .returned value => some { s with threads := s.threads.set k (.returned value) }
          | .crashed => some { s with crashed := true }
      | _ => none
  | .store k =>
      match s.threads[k]? with
      | some (.returned value) =>
          some { s with results := s.results.set k value, threads := s.threads.set k .finished }
      | _ => none
  | .join =>
      if s.threads.length = inputs.length ∧ s.threads.all Thread.isFinished then
        some { s with joined := some s.results }
      else none

def step (s : State τ ρ) (a : Action) : Option (State τ ρ) :=
  if s.crashed ∨ s.joined.isSome then none else s.act advance inputs a

end State

/-- The body computes `value`, in at most `μ` steps. -/
structure Computes (value : τ → Option ρ) (μ : τ → ℕ) : Prop where
  running : ∀ t t', advance t = .running t' → value t' = value t ∧ μ t' < μ t
  returned : ∀ t r, advance t = .returned r → value t = some r
  crashed : ∀ t, advance t = .crashed → value t = none

/-- What a step of the threads can do. -/
inductive Step (s : State τ ρ) : State τ ρ → Prop
  | create {body : τ} (input : inputs[s.threads.length]? = some body) :
      Step s { s with threads := s.threads ++ [.running body] }
  | running {k : ℕ} {body body' : τ} (thread : s.threads[k]? = some (.running body))
      (advance : advance body = .running body') :
      Step s { s with threads := s.threads.set k (.running body') }
  | returned {k : ℕ} {body : τ} {value : ρ} (thread : s.threads[k]? = some (.running body))
      (advance : advance body = .returned value) :
      Step s { s with threads := s.threads.set k (.returned value) }
  | crashed {k : ℕ} {body : τ} (thread : s.threads[k]? = some (.running body))
      (advance : advance body = .crashed) : Step s { s with crashed := true }
  | store {k : ℕ} {value : ρ} (thread : s.threads[k]? = some (.returned value)) :
      Step s { s with results := s.results.set k value, threads := s.threads.set k .finished }
  | join (created : s.threads.length = inputs.length)
      (finished : ∀ thread ∈ s.threads, thread = .finished) :
      Step s { s with joined := some s.results }

variable {advance inputs} {s s' : State τ ρ} {a : Action}

theorem Thread.isFinished_iff {thread : Thread τ ρ} :
    thread.isFinished = true ↔ thread = .finished := by
  cases thread <;> simp [Thread.isFinished]

theorem State.step_cases (h : s.step advance inputs a = some s') :
    (s.crashed = false ∧ s.joined = none) ∧ Step advance inputs s s' := by
  obtain ⟨hlive, h⟩ := Option.ite_none_left_eq_some.mp h
  have hlive : s.crashed = false ∧ s.joined = none := by simpa [not_or] using hlive
  refine ⟨hlive, ?_⟩
  cases a with
  | create =>
      obtain ⟨body, hbody, h⟩ := Option.bind_eq_some_iff.mp h
      obtain rfl := Option.some.inj h
      exact .create hbody
  | advance k =>
      cases hthread : s.threads[k]? with
      | none => simp [State.act, hthread] at h
      | some thread =>
          cases thread with
          | running body =>
              cases hadvance : advance body with
              | running body' =>
                  simp only [State.act, hthread, hadvance] at h
                  obtain rfl := Option.some.inj h
                  exact .running hthread hadvance
              | returned value =>
                  simp only [State.act, hthread, hadvance] at h
                  obtain rfl := Option.some.inj h
                  exact .returned hthread hadvance
              | crashed =>
                  simp only [State.act, hthread, hadvance] at h
                  obtain rfl := Option.some.inj h
                  exact .crashed hthread hadvance
          | returned value => simp [State.act, hthread] at h
          | finished => simp [State.act, hthread] at h
  | store k =>
      cases hthread : s.threads[k]? with
      | none => simp [State.act, hthread] at h
      | some thread =>
          cases thread with
          | running body => simp [State.act, hthread] at h
          | returned value =>
              simp only [State.act, hthread] at h
              obtain rfl := Option.some.inj h
              exact .store hthread
          | finished => simp [State.act, hthread] at h
  | join =>
      obtain ⟨⟨hcreated, hall⟩, h⟩ := Option.ite_none_right_eq_some.mp h
      obtain rfl := Option.some.inj h
      rw [List.all_eq_true] at hall
      exact .join hcreated fun thread hmem => Thread.isFinished_iff.mp (hall thread hmem)

/-! ## The invariant -/

section Invariant

variable {value : τ → Option ρ} {μ : τ → ℕ}

/-- Where the thread of an input is, and the entry it stores to. -/
inductive Holds (value : τ → Option ρ) (input : τ) (entry : Option ρ) : Thread τ ρ → Prop
  | running {body : τ} (same : value body = value input) : Holds value input entry (.running body)
  | returned {r : ρ} (result : value input = some r) : Holds value input entry (.returned r)
  | finished {r : ρ} (result : value input = some r) (stored : entry = some r) :
      Holds value input entry .finished

structure Invariant (value : τ → Option ρ) (inputs : List τ) (s : State τ ρ) : Prop where
  created : s.threads.length ≤ inputs.length
  length : s.results.length = inputs.length
  thread : ∀ (k : ℕ) (input : τ) (thread : Thread τ ρ), inputs[k]? = some input →
    s.threads[k]? = some thread → Holds value input s.results[k]? thread
  joined : ∀ results, s.joined = some results → inputs.mapM value = some results
  crashed : s.crashed = true → ∃ input ∈ inputs, value input = none

theorem mapM_of_entries {inputs : List τ} {results : List ρ}
    (hlength : results.length = inputs.length)
    (h : ∀ (k : ℕ) (input : τ), inputs[k]? = some input →
      ∃ r, value input = some r ∧ results[k]? = some r) : inputs.mapM value = some results := by
  induction inputs generalizing results with
  | nil =>
      obtain rfl := List.eq_nil_of_length_eq_zero hlength
      rfl
  | cons input inputs ih =>
      cases results with
      | nil => simp at hlength
      | cons r results =>
          obtain ⟨r', hr', hentry⟩ := h 0 input rfl
          obtain rfl : r = r' := Option.some.inj hentry
          have hrest := ih (by simpa using hlength) fun k input' hk => h (k + 1) input' hk
          simp [hr', hrest]

theorem Invariant.set (hs : Invariant value inputs s) {k : ℕ} {thread thread' : Thread τ ρ}
    (hthread : s.threads[k]? = some thread)
    (h : ∀ input, inputs[k]? = some input → Holds value input s.results[k]? thread →
      Holds value input s.results[k]? thread') :
    Invariant value inputs { s with threads := s.threads.set k thread' } := by
  refine ⟨by simpa using hs.created, hs.length, ?_, hs.joined, hs.crashed⟩
  intro j input x hinput hx
  rcases ListSum.component_of_set hx with ⟨rfl, rfl⟩ | ⟨-, hx⟩
  · exact h input hinput (hs.thread k input thread hinput hthread)
  · exact hs.thread j input x hinput hx

theorem Invariant.step (hcomputes : Computes advance value μ) (hs : Invariant value inputs s)
    (h : Step advance inputs s s') : Invariant value inputs s' := by
  cases h with
  | @create body hinput =>
      obtain ⟨hlt, -⟩ := List.getElem?_eq_some_iff.mp hinput
      have hgrown : (s.threads ++ [Thread.running body]).length = s.threads.length + 1 :=
        List.length_append
      refine ⟨hgrown ▸ hlt, hs.length, ?_, hs.joined, hs.crashed⟩
      intro k input thread hk hthread
      rcases Nat.lt_or_ge k s.threads.length with hold | hnew
      · rw [List.getElem?_append_left hold] at hthread
        exact hs.thread k input thread hk hthread
      · have hlast : k = s.threads.length := by
          obtain ⟨hlt', -⟩ := List.getElem?_eq_some_iff.mp hthread
          simp only [List.length_append, List.length_singleton] at hlt'
          omega
        subst hlast
        obtain rfl : body = input := Option.some.inj (hinput.symm.trans hk)
        rw [List.getElem?_concat_length] at hthread
        obtain rfl := Option.some.inj hthread
        exact .running rfl
  | running hthread hadvance =>
      refine hs.set hthread fun input hinput hholds => ?_
      cases hholds with
      | running hsame => exact .running ((hcomputes.running _ _ hadvance).1.trans hsame)
  | returned hthread hadvance =>
      refine hs.set hthread fun input hinput hholds => ?_
      cases hholds with
      | running hsame => exact .returned (hsame ▸ hcomputes.returned _ _ hadvance)
  | @crashed k body hthread hadvance =>
      refine ⟨hs.created, hs.length, hs.thread, hs.joined, fun _ => ?_⟩
      obtain ⟨hlt, -⟩ := List.getElem?_eq_some_iff.mp hthread
      have hinput := List.getElem?_eq_getElem (Nat.lt_of_lt_of_le hlt hs.created)
      cases hs.thread k _ _ hinput hthread with
      | running hsame =>
          exact ⟨_, List.getElem_mem _, hsame ▸ hcomputes.crashed _ hadvance⟩
  | @store k r hthread =>
      refine ⟨by simpa using hs.created, by simpa using hs.length, ?_, hs.joined, hs.crashed⟩
      intro j input x hinput hx
      rcases ListSum.component_of_set hx with ⟨rfl, rfl⟩ | ⟨hkj, hx⟩
      · obtain ⟨hlt, -⟩ := List.getElem?_eq_some_iff.mp hthread
        cases hs.thread k input _ hinput hthread with
        | returned hresult =>
            have hentry : k < s.results.length := hs.length ▸ Nat.lt_of_lt_of_le hlt hs.created
            exact .finished hresult (List.getElem?_set_self hentry)
      · simp only [List.getElem?_set_ne hkj]
        exact hs.thread j input x hinput hx
  | join hcreated hfinished =>
      refine ⟨hs.created, hs.length, hs.thread, ?_, hs.crashed⟩
      rintro results ⟨rfl⟩
      refine mapM_of_entries hs.length fun k input hinput => ?_
      obtain ⟨hlt, -⟩ := List.getElem?_eq_some_iff.mp hinput
      have hthread := List.getElem?_eq_getElem (hcreated.symm ▸ hlt : k < s.threads.length)
      have hholds := hs.thread k input _ hinput hthread
      rw [hfinished _ (List.getElem_mem _)] at hholds
      cases hholds with
      | finished hresult hstored => exact ⟨_, hresult, hstored⟩

theorem Invariant.start (inputs : List τ) (initial : ρ) :
    Invariant value inputs (State.start inputs initial) := by
  refine ⟨Nat.zero_le _, List.length_replicate, ?_, ?_, ?_⟩
  · intro k input thread _ hthread
    simp [State.start] at hthread
  · intro results hresults
    cases hresults
  · intro hcrashed
    cases hcrashed

end Invariant

/-! ## Every interleaving -/

section Runs

variable {value : τ → Option ρ} {μ : τ → ℕ} {ok : Action → Prop} {xs : List Action} {initial : ρ}

theorem State.invariant (hcomputes : Computes advance value μ)
    (h : Run (State.step advance inputs) ok (State.start inputs initial) xs s) :
    Invariant value inputs s := by
  refine h.invariant ?_ (.start inputs initial)
  intro s a s' hs _ hstep
  exact hs.step hcomputes (State.step_cases hstep).2

def Thread.weight (μ : τ → ℕ) : Thread τ ρ → ℕ
  | .running body => μ body + 2
  | .returned _ => 1
  | .finished => 0

/-- How many steps the threads can still take. -/
def State.measure (μ : τ → ℕ) (inputs : List τ) (s : State τ ρ) : ℕ :=
  ((inputs.drop s.threads.length).map fun input => μ input + 3).sum +
    (s.threads.map (Thread.weight μ)).sum + if s.crashed ∨ s.joined.isSome then 0 else 1

theorem Step.measure_lt (hcomputes : Computes advance value μ)
    (hlive : s.crashed = false ∧ s.joined = none) (h : Step advance inputs s s') :
    s'.measure μ inputs < s.measure μ inputs := by
  obtain ⟨hcrashed, hjoined⟩ := hlive
  cases h with
  | @create body hinput =>
      obtain ⟨hlt, hget⟩ := List.getElem?_eq_some_iff.mp hinput
      have hdrop : inputs.drop s.threads.length = body :: inputs.drop (s.threads.length + 1) := by
        rw [List.drop_eq_getElem_cons hlt, hget]
      simp only [State.measure, hcrashed, hjoined, hdrop, List.length_append, List.length_singleton,
        List.map_cons, List.sum_cons, List.map_append, List.sum_append, List.map_nil, List.sum_nil,
        Thread.weight]
      omega
  | @running k body body' hthread hadvance =>
      have hset := ListSum.sum_set (Thread.weight μ) hthread (.running body')
      have hlt := (hcomputes.running _ _ hadvance).2
      simp only [Thread.weight] at hset
      simp only [State.measure, List.length_set]
      omega
  | @returned k body r hthread hadvance =>
      have hset := ListSum.sum_set (Thread.weight μ) hthread (.returned r)
      simp only [Thread.weight] at hset
      simp only [State.measure, List.length_set]
      omega
  | crashed hthread hadvance => simp [State.measure, hcrashed, hjoined]
  | @store k r hthread =>
      have hset := ListSum.sum_set (Thread.weight μ) hthread .finished
      simp only [Thread.weight] at hset
      simp only [State.measure, List.length_set]
      omega
  | join hcreated hfinished => simp [State.measure, hcrashed, hjoined]

theorem State.exists_step (hs : Invariant value inputs s)
    (hlive : s.crashed = false ∧ s.joined = none) : ∃ a, (s.step advance inputs a).isSome := by
  have hstep : ∀ a, s.step advance inputs a = s.act advance inputs a := fun a =>
    if_neg (by simp [hlive])
  by_cases hcreated : s.threads.length = inputs.length
  · by_cases hfinished : s.threads.all Thread.isFinished = true
    · exact ⟨.join, by simp [hstep, State.act, hcreated, hfinished]⟩
    · obtain ⟨thread, hmem, hnot⟩ : ∃ thread ∈ s.threads, ¬ thread.isFinished = true := by
        simpa [List.all_eq_true] using hfinished
      obtain ⟨k, hk⟩ := List.mem_iff_getElem?.mp hmem
      cases thread with
      | running body =>
          cases hadvance : advance body with
          | running body' => exact ⟨.advance k, by simp [hstep, State.act, hk, hadvance]⟩
          | returned r => exact ⟨.advance k, by simp [hstep, State.act, hk, hadvance]⟩
          | crashed => exact ⟨.advance k, by simp [hstep, State.act, hk, hadvance]⟩
      | returned r => exact ⟨.store k, by simp [hstep, State.act, hk]⟩
      | finished => exact absurd rfl hnot
  · have hlt : s.threads.length < inputs.length := lt_of_le_of_ne hs.created hcreated
    exact ⟨.create, by simp [hstep, State.act, List.getElem?_eq_getElem hlt]⟩

/-- Every interleaving ends: with the values of all inputs, or with a crash if
one of them has none. -/
theorem outcome (hcomputes : Computes advance value μ)
    (h : Run (State.step advance inputs) ok (State.start inputs initial) xs s) :
    xs.length ≤ (inputs.map fun input => μ input + 3).sum + 1 ∧
    (∀ results, s.joined = some results → inputs.mapM value = some results) ∧
    (s.crashed = true → inputs.mapM value = none) ∧
    ((∀ a, s.step advance inputs a = none) → s.crashed = true ∨ s.joined.isSome) := by
  have hs := State.invariant hcomputes h
  refine ⟨?_, hs.joined, ?_, ?_⟩
  · have hlength := h.length_le (I := fun _ => True) (fun _ _ _ _ _ _ => trivial)
      (State.measure μ inputs) (fun s a s' _ _ hstep => by
        obtain ⟨hlive, hstep⟩ := State.step_cases hstep
        exact hstep.measure_lt hcomputes hlive) trivial
    have hstart : (State.start inputs initial).measure μ inputs =
        (inputs.map fun input => μ input + 3).sum + 1 := by
      simp [State.measure, State.start]
    omega
  · intro hcrashed
    obtain ⟨input, hmem, hnone⟩ := hs.crashed hcrashed
    cases hmap : inputs.mapM value with
    | none => rfl
    | some results =>
        obtain ⟨r, hr⟩ := OptionMapM.exists_of_mapM_eq_some hmap input hmem
        rw [hnone] at hr
        cases hr
  · intro hstuck
    by_contra hlive
    rw [not_or, Bool.not_eq_true, Bool.not_eq_true, Option.isSome_eq_false_iff,
      Option.isNone_iff_eq_none] at hlive
    obtain ⟨a, hstep⟩ := State.exists_step hs hlive
    rw [hstuck a] at hstep
    cases hstep

/-- Every run can be continued until no thread has a step left. -/
theorem exists_end (hcomputes : Computes advance value μ)
    (h : Run (State.step advance inputs) (fun _ => True) (State.start inputs initial) xs s) :
    ∃ ys s', Run (State.step advance inputs) (fun _ => True) (State.start inputs initial)
      (xs ++ ys) s' ∧ ∀ a, s'.step advance inputs a = none := by
  have hdown : ∀ s : State τ ρ, Invariant value inputs s →
      (¬ ∀ a, s.step advance inputs a = none) → ∃ a s', True ∧
        s.step advance inputs a = some s' ∧ Invariant value inputs s' ∧
        s'.measure μ inputs < s.measure μ inputs := by
    intro s hs hlive
    push Not at hlive
    obtain ⟨a, hsome⟩ := hlive
    obtain ⟨s', hstep⟩ := Option.ne_none_iff_exists'.mp hsome
    obtain ⟨hlive, hcases⟩ := State.step_cases hstep
    exact ⟨a, s', trivial, hstep, hs.step hcomputes hcases, hcases.measure_lt hcomputes hlive⟩
  obtain ⟨s', ⟨ys, hrest⟩, -, hend⟩ :=
    Reachable.exists_goal (State.measure μ inputs) hdown (State.invariant hcomputes h)
  exact ⟨ys, s', h.append hrest, hend⟩

end Runs

end VeeamSignature.ForkJoin
