import VeeamSignature.Library.Commutation
import VeeamSignature.Signature2.Termination

/-!
# The order of the tasks

A task acts on its own reader, on the writer, or on neither, whatever the rest
of the pool is.  Tasks of different lanes are therefore independent: the end of
a run is determined by what each reader and the writer execute, and every run
can be performed in three phases, first the reads, then the hashes, then the
arrivals at the writer.
-/

namespace VeeamSignature.Signature2

open BlockReader LabelledSystem

/-- What a task acts on.  Tasks that act on neither a reader nor the writer are
lanes of their own. -/
inductive Lane
  | reader (k : ℕ)
  | writer
  | own (t : Task)
  deriving DecidableEq

def Task.lane : Task → Lane
  | .doRead k => .reader k
  | .read k _ => .reader k
  | .write _ => .writer
  | .hash s => .own (.hash s)
  | .throwException exception => .own (.throwException exception)

/-- Reads, hashes, and what comes of the arrivals. -/
def Task.phase : Task → ℕ
  | .doRead _ => 0
  | .read _ _ => 0
  | .hash _ => 1
  | .write _ => 2
  | .throwException _ => 2

/-- What a task leaves in the place of what it acts on. -/
inductive Update
  | reader (k : ℕ) (r : BlockReader)
  | writer (w : Writer)
  | none

/-- The update is of what tasks of the lane act on. -/
def Update.Of : Update → Lane → Prop
  | .reader k _, lane => lane = .reader k
  | .writer _, lane => lane = .writer
  | .none, lane => ∃ t, lane = .own t

namespace Pool

def update (p : Pool) : Update → Pool
  | .reader k r => { p with readers := p.readers.set k r }
  | .writer w => { p with writer := w }
  | .none => p

/-- The task makes way for the tasks that it posts. -/
def replace (p : Pool) (t : Task) (posted : Multiset Task) : Pool :=
  { p with tasks := posted + p.tasks.erase t }

/-- The pools agree on what tasks of the lane act on. -/
def Agrees (p q : Pool) : Lane → Prop
  | .reader k => p.readers[k]? = q.readers[k]?
  | .writer => p.writer = q.writer
  | .own _ => True

end Pool

section Updates

variable {p : Pool} {u u' : Update} {lane lane' : Lane} {t : Task} {posted : Multiset Task}

theorem Update.Of.agrees (hu : u.Of lane) (hne : lane ≠ lane') :
    ((p.update u).replace t posted).Agrees p lane' := by
  cases lane' with
  | reader k =>
      cases u with
      | reader i r =>
          obtain rfl : lane = .reader i := hu
          have hik : i ≠ k := fun heq => hne (heq ▸ rfl)
          exact List.getElem?_set_ne hik
      | writer w => exact Eq.refl p.readers[k]?
      | none => exact Eq.refl p.readers[k]?
  | writer =>
      cases u with
      | reader i r => exact Eq.refl p.writer
      | writer w => exact absurd hu hne
      | none => exact Eq.refl p.writer
  | own t' => exact True.intro

theorem Update.Of.comm (hu : u.Of lane) (hu' : u'.Of lane') (hne : lane ≠ lane') :
    (p.update u).update u' = (p.update u').update u := by
  cases u with
  | none => rfl
  | writer w =>
      cases u' with
      | none => rfl
      | reader i r => rfl
      | writer w' => exact absurd (hu.trans hu'.symm) hne
  | reader i r =>
      cases u' with
      | none => rfl
      | writer w => rfl
      | reader j r' =>
          obtain rfl : lane = .reader i := hu
          obtain rfl : lane' = .reader j := hu'
          have hij : i ≠ j := fun heq => hne (heq ▸ rfl)
          simp only [Pool.update, List.set_comm r r' hij]

end Updates

section Independence

variable {file : List Byte} {p p' q : Pool} {t t' : Task} {e e' : Environment}
  {signal : Signal}

/-- A task does the same in every pool that agrees on what it acts on. -/
structure Local (file : List Byte) (e : Environment) (p : Pool) (t : Task) (p' : Pool)
    (signal : Signal) (u : Update) (posted : Multiset Task) : Prop where
  lane : u.Of t.lane
  phase : ∀ t' ∈ posted, t.phase ≤ t'.phase
  result : p' = (p.update u).replace t posted
  elsewhere : ∀ q : Pool, q.Agrees p t.lane →
    Transition file e q t ((q.update u).replace t posted) signal

theorem Transition.local (h : Transition file e p t p' signal) :
    ∃ u posted, Local file e p t p' signal u posted := by
  cases h with
  | @doRead k r hr =>
      refine ⟨.reader k r.doRead.1, {.read k r.doRead.2}, rfl, ?_, ?_, ?_⟩
      · simp [Task.phase]
      · simp [Pool.replace, Pool.update]
      · intro q hq
        have hstep : Transition file e q (.doRead k) _ .quiet := .doRead (hq.trans hr)
        simpa [Pool.replace, Pool.update] using hstep
  | @readFailed k operation r error hr hread =>
      refine ⟨.reader k (r.rejected operation), {.throwException (.readFailed error)}, rfl,
        ?_, ?_, ?_⟩
      · simp [Task.phase]
      · simp [Pool.replace, Pool.update]
      · intro q hq
        have hstep := Transition.readFailed (hq.trans hr) hread
        simpa [Pool.replace, Pool.update] using hstep
  | @readAgain k operation r bytes hr hread hagain =>
      refine ⟨.reader k (r.received operation bytes), .doRead k ::ₘ
        {.hash (r.segment operation (buffer (r.requested operation) bytes))}, rfl, ?_, ?_, ?_⟩
      · simp [Task.phase]
      · simp [Pool.replace, Pool.update]
      · intro q hq
        have hstep := Transition.readAgain (hq.trans hr) hread hagain
        simpa [Pool.replace, Pool.update] using hstep
  | @readLast k operation r bytes hr hread hagain =>
      refine ⟨.reader k (r.received operation bytes),
        {.hash (r.segment operation (buffer (r.requested operation) bytes))}, rfl, ?_, ?_, ?_⟩
      · simp [Task.phase]
      · simp [Pool.replace, Pool.update]
      · intro q hq
        have hstep := Transition.readLast (hq.trans hr) hread hagain
        simpa [Pool.replace, Pool.update] using hstep
  | @hash segment hashed hhash =>
      refine ⟨.none, {.write hashed}, ⟨_, rfl⟩, ?_, ?_, ?_⟩
      · simp [Task.phase]
      · simp [Pool.replace, Pool.update]
      · intro q _
        have hstep : Transition file e q (.hash segment) _ .quiet := .hash hhash
        simpa [Pool.replace, Pool.update] using hstep
  | @count segment w hreceive =>
      refine ⟨.writer w, 0, rfl, ?_, ?_, ?_⟩
      · simp
      · simp [Pool.replace, Pool.update]
      · intro q hq
        have hq : q.writer = p.writer := hq
        have hstep : Transition file e q (.write segment) _ .quiet := .count (hq ▸ hreceive)
        simpa [Pool.replace, Pool.update] using hstep
  | @wrote segment w hreceive =>
      refine ⟨.writer w, 0, rfl, ?_, ?_, ?_⟩
      · simp
      · simp [Pool.replace, Pool.update]
      · intro q hq
        have hq : q.writer = p.writer := hq
        have hstep : Transition file e q (.write segment) _ .shutdown := .wrote (hq ▸ hreceive)
        simpa [Pool.replace, Pool.update] using hstep
  | @writeFailed segment w error hreceive =>
      refine ⟨.writer w, {.throwException (.writeFailed error)}, rfl, ?_, ?_, ?_⟩
      · simp [Task.phase]
      · simp [Pool.replace, Pool.update]
      · intro q hq
        have hq : q.writer = p.writer := hq
        have hstep : Transition file e q (.write segment) _ .quiet :=
          .writeFailed (hq ▸ hreceive)
        simpa [Pool.replace, Pool.update] using hstep
  | @throwException exception =>
      refine ⟨.none, 0, ⟨_, rfl⟩, ?_, ?_, ?_⟩
      · simp
      · simp [Pool.replace, Pool.update]
      · intro q _
        have hstep : Transition file e q (.throwException exception) _ (.raise exception) :=
          .throwException
        simpa [Pool.replace, Pool.update] using hstep

theorem Pool.update_replace (p : Pool) (u : Update) (t : Task) (posted : Multiset Task) :
    (p.replace t posted).update u = (p.update u).replace t posted := by
  cases u <;> rfl

theorem Pool.update_tasks (p : Pool) (u : Update) : (p.update u).tasks = p.tasks := by
  cases u <;> rfl

theorem Pool.replace_comm (p : Pool) (hne : t ≠ t') (hmem : t ∈ p.tasks) (hmem' : t' ∈ p.tasks)
    (posted posted' : Multiset Task) :
    (p.replace t posted).replace t' posted' = (p.replace t' posted').replace t posted := by
  have hleft : t' ∈ p.tasks.erase t := (Multiset.mem_erase_of_ne hne.symm).mpr hmem'
  have hright : t ∈ p.tasks.erase t' := (Multiset.mem_erase_of_ne hne).mpr hmem
  simp only [Pool.replace, Multiset.erase_add_right_pos _ hleft,
    Multiset.erase_add_right_pos _ hright, Multiset.erase_comm p.tasks t t', Pool.mk.injEq,
    true_and]
  rw [← Multiset.add_assoc, Multiset.add_comm posted' posted, Multiset.add_assoc]

theorem Pool.mem_replace {posted : Multiset Task} (hne : t ≠ t') (hmem' : t' ∈ p.tasks) :
    t' ∈ (p.replace t posted).tasks :=
  Multiset.mem_add.mpr (.inr ((Multiset.mem_erase_of_ne hne.symm).mpr hmem'))

/-- Two pending tasks of different lanes can be executed in both orders. -/
theorem Local.commute {p₁ p₂ : Pool} {signal' : Signal} {u u' : Update}
    {posted posted' : Multiset Task} (h : Local file e p t p₁ signal u posted)
    (h' : Local file e' p t' p₂ signal' u' posted') (hne : t.lane ≠ t'.lane)
    (hmem : t ∈ p.tasks) (hmem' : t' ∈ p.tasks) :
    ∃ q, (t' ∈ p₁.tasks ∧ Transition file e' p₁ t' q signal') ∧
      t ∈ p₂.tasks ∧ Transition file e p₂ t q signal := by
  have htask : t ≠ t' := fun heq => hne (heq ▸ rfl)
  have hagrees : p₁.Agrees p t'.lane := h.result ▸ h.lane.agrees hne
  have hagrees' : p₂.Agrees p t.lane := h'.result ▸ h'.lane.agrees hne.symm
  have hend : (p₁.update u').replace t' posted' = (p₂.update u).replace t posted := by
    rw [h.result, h'.result, Pool.update_replace, Pool.update_replace, h.lane.comm h'.lane hne]
    apply Pool.replace_comm _ htask
    · rwa [Pool.update_tasks, Pool.update_tasks]
    · rwa [Pool.update_tasks, Pool.update_tasks]
  refine ⟨(p₁.update u').replace t' posted', ⟨?_, h'.elsewhere p₁ hagrees⟩, ?_, ?_⟩
  · rw [h.result]
    exact Pool.mem_replace htask (by rwa [Pool.update_tasks])
  · rw [h'.result]
    exact Pool.mem_replace htask.symm (by rwa [Pool.update_tasks])
  · rw [hend]
    exact h.elsewhere p₂ hagrees'

theorem Pool.independent {a b : Task × Environment} (hne : a.1.lane ≠ b.1.lane) :
    Independent (Pool.next file) a b := by
  intro p p₁ p₂ ha hb
  obtain ⟨signal, hmem, h⟩ := Pool.next_eq_some_iff.mp ha
  obtain ⟨signal', hmem', h'⟩ := Pool.next_eq_some_iff.mp hb
  obtain ⟨u, posted, hlocal⟩ := h.local
  obtain ⟨u', posted', hlocal'⟩ := h'.local
  obtain ⟨q, hleft, hright⟩ := hlocal.commute hlocal' hne hmem hmem'
  exact ⟨q, Pool.next_eq_some_iff.mpr ⟨_, hleft⟩, Pool.next_eq_some_iff.mpr ⟨_, hright⟩⟩

theorem Task.lane_ne_of_phase (h : t'.phase < t.phase) : t.lane ≠ t'.lane := by
  intro heq
  cases t <;> cases t' <;> simp [Task.lane, Task.phase] at heq h

/-- A step of a later phase posts nothing that an earlier phase executes. -/
theorem Pool.movesRight {a b : Task × Environment} (hphase : b.1.phase < a.1.phase) :
    MovesRight (Pool.next file) a b := by
  intro p p₁ p₂ ha hb
  obtain ⟨signal, hmem, h⟩ := Pool.next_eq_some_iff.mp ha
  obtain ⟨signal', hmem', h'⟩ := Pool.next_eq_some_iff.mp hb
  obtain ⟨u, posted, hlocal⟩ := h.local
  obtain ⟨u', posted', hlocal'⟩ := h'.local
  have hne := Task.lane_ne_of_phase hphase
  have hpending : b.1 ∈ p.tasks := by
    rw [hlocal.result, Pool.replace, Pool.update_tasks] at hmem'
    rcases Multiset.mem_add.mp hmem' with hposted | hold
    · exact absurd (hlocal.phase _ hposted) (Nat.not_le.mpr hphase)
    · exact Multiset.mem_of_mem_erase hold
  have hagrees : p.Agrees p₁ b.1.lane := by
    have hsymm : ((p.update u).replace a.1 posted).Agrees p b.1.lane := hlocal.lane.agrees hne
    rw [← hlocal.result] at hsymm
    cases hlane : b.1.lane with
    | reader k =>
        rw [hlane] at hsymm
        exact Eq.symm hsymm
    | writer =>
        rw [hlane] at hsymm
        exact Eq.symm hsymm
    | own => exact True.intro
  have hearly := hlocal'.elsewhere p hagrees
  obtain ⟨u'', posted'', hlocal''⟩ := hearly.local
  obtain ⟨q, hleft, hright⟩ := hlocal.commute hlocal'' hne hmem hpending
  have hnext : Pool.next file p₁ b = some q := Pool.next_eq_some_iff.mpr ⟨_, hleft⟩
  obtain rfl := Option.some.inj (hnext.symm.trans hb)
  exact ⟨_, Pool.next_eq_some_iff.mpr ⟨_, hpending, hearly⟩,
    Pool.next_eq_some_iff.mpr ⟨_, hright⟩⟩

end Independence

section Schedules

variable {file : List Byte} {ok : Task × Environment → Prop} {p q q' : Pool}
  {xs ys : List (Task × Environment)}

/-- The end of a run is determined by what each reader executes, what arrives
at the writer, and which hashes and exceptions there are, each in its order. -/
theorem schedule_independent (h : Run (Pool.next file) ok p xs q)
    (h' : Run (Pool.next file) ok p ys q')
    (hsame : ∀ lane : Lane, xs.filter (·.1.lane = lane) = ys.filter (·.1.lane = lane)) : q = q' :=
  h.eq_of_lanes (fun a => a.1.lane) (fun _ _ => Pool.independent) h' hsame

/-- Every run leads to the same pool when the reads are executed first, in
their order, then the hashes, then the arrivals and the exceptions. -/
theorem run_by_phases (h : Run (Pool.next file) ok p xs q) :
    Run (Pool.next file) ok p (xs.filter (·.1.phase = 0) ++ xs.filter (·.1.phase = 1) ++
      xs.filter (·.1.phase = 2)) q := by
  have hphases : ∀ a ∈ xs, a.1.phase < 3 := by
    rintro ⟨t, e⟩ -
    cases t <;> simp [Task.phase]
  have hrun := h.by_phases (fun a => a.1.phase) (fun _ _ => Pool.movesRight) hphases
  simpa [List.range_succ] using hrun

end Schedules

theorem schedule_independent_neighbours :
    ∃ q, Run (Pool.next [1, 2, 3]) Brings (Pool.start neighbours) inPostOrder q ∧
      Run (Pool.next [1, 2, 3]) Brings (Pool.start neighbours) unevenly q := by
  have hfirst : (inPostOrder.foldlM (Pool.next [1, 2, 3]) (Pool.start neighbours)).isSome := by
    decide +kernel
  have hsecond : (unevenly.foldlM (Pool.next [1, 2, 3]) (Pool.start neighbours)).isSome := by
    decide +kernel
  obtain ⟨q, hq⟩ := Option.isSome_iff_exists.mp hfirst
  obtain ⟨q', hq'⟩ := Option.isSome_iff_exists.mp hsecond
  have hrun : Run (Pool.next [1, 2, 3]) Brings (Pool.start neighbours) inPostOrder q :=
    Run.iff_foldlM.mpr ⟨by simp [inPostOrder, Brings], hq⟩
  have hrun' : Run (Pool.next [1, 2, 3]) Brings (Pool.start neighbours) unevenly q' :=
    Run.iff_foldlM.mpr ⟨by simp [unevenly, Brings], hq'⟩
  have hused : ∀ a ∈ inPostOrder ++ unevenly,
      inPostOrder.filter (·.1.lane = a.1.lane) = unevenly.filter (·.1.lane = a.1.lane) := by
    decide +kernel
  have hsame := lanes_agree (fun a : Task × Environment => a.1.lane) hused
  exact ⟨q, hrun, schedule_independent hrun hrun' hsame ▸ hrun'⟩

theorem run_by_phases_neighbours :
    ∃ q, Run (Pool.next [1, 2, 3]) Brings (Pool.start neighbours)
      (unevenly.filter (·.1.phase = 0) ++ unevenly.filter (·.1.phase = 1) ++
        unevenly.filter (·.1.phase = 2)) q := by
  have hend : (unevenly.foldlM (Pool.next [1, 2, 3]) (Pool.start neighbours)).isSome := by
    decide +kernel
  obtain ⟨q, hq⟩ := Option.isSome_iff_exists.mp hend
  exact ⟨q, run_by_phases (Run.iff_foldlM.mpr ⟨by simp [unevenly, Brings], hq⟩)⟩

end VeeamSignature.Signature2
