import VeeamSignature.Signature2.Pool

/-!
# What one step of the pool can do

Every task of the pool is one of the transitions below, with everything it
reads and changes; the invariants are proved from them and never unfold the
tasks again.
-/

namespace VeeamSignature.Signature2

open BlockReader LabelledSystem

inductive Transition (file : List Byte) (environment : Environment) (p : Pool) :
    Task → Pool → Signal → Prop
  | doRead {k : ℕ} {r : BlockReader} (reader : p.readers[k]? = some r) :
      Transition file environment p (.doRead k)
        { p with
          readers := p.readers.set k r.doRead.1
          tasks := .read k r.doRead.2 ::ₘ p.tasks.erase (.doRead k) } .quiet
  | readFailed {k : ℕ} {operation : ReadOperation} {r : BlockReader} {error : String}
      (reader : p.readers[k]? = some r)
      (result : read file r.position (r.requested operation) environment.read = .error error) :
      Transition file environment p (.read k operation)
        { p with
          readers := p.readers.set k (r.rejected operation)
          tasks := .throwException (.readFailed error) ::ₘ p.tasks.erase (.read k operation) }
        .quiet
  | readAgain {k : ℕ} {operation : ReadOperation} {r : BlockReader} {bytes : List Byte}
      (reader : p.readers[k]? = some r)
      (result : read file r.position (r.requested operation) environment.read = .ok bytes)
      (again : operation.again = true) :
      Transition file environment p (.read k operation)
        { p with
          readers := p.readers.set k (r.received operation bytes)
          tasks := .doRead k ::ₘ
            .hash (r.segment operation (buffer (r.requested operation) bytes)) ::ₘ
              p.tasks.erase (.read k operation) } .quiet
  | readLast {k : ℕ} {operation : ReadOperation} {r : BlockReader} {bytes : List Byte}
      (reader : p.readers[k]? = some r)
      (result : read file r.position (r.requested operation) environment.read = .ok bytes)
      (again : operation.again = false) :
      Transition file environment p (.read k operation)
        { p with
          readers := p.readers.set k (r.received operation bytes)
          tasks := .hash (r.segment operation (buffer (r.requested operation) bytes)) ::ₘ
            p.tasks.erase (.read k operation) } .quiet
  | hash {segment : Segment} {hashed : HashedSegment}
      (result : segmentHasher segment = some hashed) :
      Transition file environment p (.hash segment)
        { p with tasks := .write hashed ::ₘ p.tasks.erase (.hash segment) } .quiet
  | count {segment : HashedSegment} {w : Writer}
      (receive : p.writer.receive segment environment.stream = (w, none)) :
      Transition file environment p (.write segment)
        { p with writer := w, tasks := p.tasks.erase (.write segment) } .quiet
  | wrote {segment : HashedSegment} {w : Writer}
      (receive : p.writer.receive segment environment.stream = (w, some .success)) :
      Transition file environment p (.write segment)
        { p with writer := w, tasks := p.tasks.erase (.write segment) } .shutdown
  | writeFailed {segment : HashedSegment} {w : Writer} {error : String}
      (receive : p.writer.receive segment environment.stream = (w, some (.error error))) :
      Transition file environment p (.write segment)
        { p with
          writer := w
          tasks := .throwException (.writeFailed error) ::ₘ p.tasks.erase (.write segment) } .quiet
  | throwException {exception : Exception} :
      Transition file environment p (.throwException exception)
        { p with tasks := p.tasks.erase (.throwException exception) } (.raise exception)

variable {file : List Byte} {p p' : Pool} {t : Task} {e : Environment} {signal : Signal}

theorem Pool.step_eq_some_iff :
    p.step file (t, e) = some (p', signal) ↔ t ∈ p.tasks ∧ Transition file e p t p' signal := by
  constructor
  · intro h
    unfold Pool.step at h
    split_ifs at h with hmem
    refine ⟨hmem, ?_⟩
    cases t with
    | doRead k =>
        obtain ⟨r, hr, h⟩ := Option.bind_eq_some_iff.mp h
        obtain ⟨rfl, rfl⟩ := Prod.mk.inj (Option.some.inj h)
        exact .doRead hr
    | read k operation =>
        obtain ⟨r, hr, h⟩ := Option.bind_eq_some_iff.mp h
        cases hread : read file r.position (r.requested operation) e.read with
        | error error =>
            simp only [perform, hread] at h
            obtain ⟨rfl, rfl⟩ := Prod.mk.inj (Option.some.inj h)
            exact .readFailed hr hread
        | ok bytes =>
            simp only [perform, hread] at h
            obtain ⟨rfl, rfl⟩ := Prod.mk.inj (Option.some.inj h)
            cases hagain : operation.again with
            | true => exact .readAgain hr hread hagain
            | false => exact .readLast hr hread hagain
    | hash segment =>
        obtain ⟨hashed, hhashed, h⟩ := Option.bind_eq_some_iff.mp h
        obtain ⟨rfl, rfl⟩ := Prod.mk.inj (Option.some.inj h)
        exact .hash hhashed
    | write segment =>
        cases hreceive : p.writer.receive segment e.stream with
        | mk w answer =>
            simp only [Pool.exec, hreceive] at h
            cases answer with
            | none =>
                obtain ⟨rfl, rfl⟩ := Prod.mk.inj (Option.some.inj h)
                exact .count hreceive
            | some result =>
                cases result with
                | success =>
                    obtain ⟨rfl, rfl⟩ := Prod.mk.inj (Option.some.inj h)
                    exact .wrote hreceive
                | error error =>
                    obtain ⟨rfl, rfl⟩ := Prod.mk.inj (Option.some.inj h)
                    exact .writeFailed hreceive
    | throwException exception =>
        obtain ⟨rfl, rfl⟩ := Prod.mk.inj (Option.some.inj h)
        exact .throwException
  · rintro ⟨hmem, h⟩
    rw [Pool.step, if_pos hmem]
    cases h with
    | doRead hr => simp [Pool.exec, hr, Pool.post]
    | readFailed hr hread => simp [Pool.exec, hr, perform, hread, Pool.readerCallback, Pool.post]
    | readAgain hr hread hagain =>
        simp [Pool.exec, hr, perform, hread, hagain, Pool.readerCallback, Pool.post]
    | readLast hr hread hagain =>
        simp [Pool.exec, hr, perform, hread, hagain, Pool.readerCallback, Pool.post]
    | hash hhashed => simp [Pool.exec, hhashed, Pool.post]
    | count hreceive => simp [Pool.exec, hreceive]
    | wrote hreceive => simp [Pool.exec, hreceive, Pool.writerCallback]
    | writeFailed hreceive => simp [Pool.exec, hreceive, Pool.writerCallback, Pool.post]
    | throwException => simp [Pool.exec]

theorem Pool.next_eq_some_iff :
    p.next file (t, e) = some p' ↔ ∃ signal, t ∈ p.tasks ∧ Transition file e p t p' signal := by
  simp only [Pool.next, Option.map_eq_some_iff, Prod.exists, Pool.step_eq_some_iff]
  constructor
  · rintro ⟨p'', signal, h, rfl⟩
    exact ⟨signal, h⟩
  · rintro ⟨signal, h⟩
    exact ⟨p', signal, h, rfl⟩

/-- What holds of the pool at the start and is preserved by every transition of
a reachable pool holds of every reachable pool. -/
theorem Pool.invariant {ok : Task × Environment → Prop} {blocks : List Block} {I : Pool → Prop}
    (hstep : ∀ {p : Pool} {t : Task} {e : Environment} {p' : Pool} {signal : Signal},
      Reachable (Pool.next file) ok (Pool.start blocks) p → I p → ok (t, e) → t ∈ p.tasks →
        Transition file e p t p' signal → I p')
    (hstart : I (Pool.start blocks)) (h : Reachable (Pool.next file) ok (Pool.start blocks) p) :
    I p := by
  apply h.invariant_along _ hstart
  rintro p ⟨t, e⟩ p' hreachable hp hok hnext
  obtain ⟨signal, hmem, htransition⟩ := Pool.next_eq_some_iff.mp hnext
  exact hstep hreachable hp hok hmem htransition

end VeeamSignature.Signature2
