import ThreeWay.Proofs.Run.Agree

/-!
# Runs That a Signal Stops

A signal is asked between two steps of a run and nowhere else, so all it can do is to keep the steps that are
left from being taken. Seen next to the same run without a signal, the run goes the same way, request by
request and to the same answer, or it ends on the way there with the failure to be cancelled.

`StopsOnly` says that about two runs, from every record. What is left out of a run that was stopped is the
end of it: its record is a part of the record of the full run, the part that was served first. For a run of
several steps that needs one fact more, that a record only grows. It belongs to the relation, since the
second step of the full run has to keep what the first one has asked.

The two runs are not related in the sense of `Related`, since a run that was stopped ends in a failure where the
other one may have an answer. So the relation is one of its own, with its own rule for each thing that a run is
made of. Only `StopsOnly.checkpoint` looks at a signal, and it is where the failure comes from; every other step
is the same in both runs, which is `StopsOnly.same`.

Nothing is said about when a signal fires. It may fire once and be quiet again, or fire on records that no run
leaves: what was cancelled was cancelled because of the record that it left, and `CutShort.cause` says no more.

## Main definitions

* `Run.StopsOnly`: A run that goes like another one until a signal stops it.
* `Run.CutShort`: What that means for runs from nothing.

## Theorems

* `recordFrom_bind`: What holds of the record after the first step, and is kept up by the second one.
* `StopsOnly.same`: A run that asks no signal is only stopped, by none.
* `StopsOnly.bind`, `StopsOnly.mapM`: Runs that are only stopped are made of such runs.
* `StopsOnly.checkpoint`: The one place where a signal is asked.
* `StopsOnly.record`, `StopsOnly.serve`, `StopsOnly.serveAny`: Requests are put in front of the record.
* `StopsOnly.cutShort`: A run that is only stopped is cut short at most.
-/

namespace ThreeWay.Run

variable {α β γ : Type} {fired : Signal}

section

variable {run : Run α} {next : α → Run β} {served : List Request}

/-- A property of the record that the first step leaves, and that every next step keeps up, holds of the
    record that both leave. -/
theorem recordFrom_bind {P : List Request → Prop} (stop : P (run.recordFrom served))
    (go : ∀ a, P ((next a).recordFrom (run.recordFrom served))) : P ((run >>= next).recordFrom served) := by
  cases h : run.answerFrom served with
  | error e =>
      rw [(bind_of_error h).2]
      exact stop
  | ok a =>
      rw [(bind_of_ok h).2]
      exact go a

end

/-- An answer that needs no request leaves the record. -/
theorem recordFrom_ofExcept (answer : Except Error α) (served : List Request) :
    (Run.ofExcept answer).recordFrom served = served := by
  cases answer with
  | ok a => rfl
  | error e => rfl

/-- A run that goes like another one until a signal stops it. -/
structure StopsOnly (fired : Signal) (run full : Run α) : Prop where
  grows : ∀ served, served <:+ full.recordFrom served
  follows : ∀ served,
    run.answerFrom served = full.answerFrom served ∧ run.recordFrom served = full.recordFrom served ∨
      run.answerFrom served = .error .cancelled ∧ fired (run.recordFrom served) = true ∧
        run.recordFrom served <:+ full.recordFrom served

namespace StopsOnly

/-- A run that asks no signal. -/
theorem same {run : Run α} (grows : ∀ served, served <:+ run.recordFrom served) :
    StopsOnly fired run run :=
  ⟨grows, fun _ => Or.inl ⟨rfl, rfl⟩⟩

theorem pure (a : α) : StopsOnly fired (Pure.pure a : Run α) (Pure.pure a) :=
  same fun _ => List.suffix_rfl

theorem throw (e : Error) : StopsOnly fired (throw e : Run α) (throw e) :=
  same fun _ => List.suffix_rfl

theorem ofExcept (answer : Except Error α) :
    StopsOnly fired (Run.ofExcept answer) (Run.ofExcept answer) := by
  cases answer with
  | ok a => exact pure a
  | error e => exact throw e

/-- A run of two steps is stopped in the first one, or in the second one, or goes all the way. -/
theorem bind {run full : Run α} {next next' : α → Run β} (h : StopsOnly fired run full)
    (hn : ∀ a, StopsOnly fired (next a) (next' a)) :
    StopsOnly fired (run >>= next) (full >>= next') := by
  -- The full run goes on growing its record after the first step, so what a stopped first step has asked is still at
  -- the end of it.
  have grows : ∀ served, full.recordFrom served <:+ (full >>= next').recordFrom served :=
    fun served => recordFrom_bind List.suffix_rfl fun a => (hn a).grows _
  refine ⟨fun served => (h.grows served).trans (grows served), fun served => ?_⟩
  -- Either the first step went through, and then both runs go on from one record, or it was stopped, and then the
  -- second step is not run at all.
  rcases h.follows served with ⟨answer, record⟩ | ⟨answer, raised, record⟩
  · cases ha : full.answerFrom served with
    -- A failure of its own ends both runs alike.
    | error e =>
        rw [ha] at answer
        rw [(bind_of_error answer).1, (bind_of_error answer).2, (bind_of_error ha).1,
          (bind_of_error ha).2]
        exact Or.inl ⟨rfl, record⟩
    | ok a =>
        rw [ha] at answer
        rw [(bind_of_ok answer).1, (bind_of_ok answer).2, (bind_of_ok ha).1, (bind_of_ok ha).2, record]
        exact (hn a).follows _
  · rw [(bind_of_error answer).1, (bind_of_error answer).2]
    exact Or.inr ⟨rfl, raised, record.trans (grows served)⟩

theorem map {run full : Run α} (f : α → β) (h : StopsOnly fired run full) :
    StopsOnly fired (f <$> run) (f <$> full) := by
  rw [← bind_pure_comp, ← bind_pure_comp]
  exact h.bind fun a => pure (f a)

theorem mapM {f g : γ → Run β} {xs : List γ} (h : ∀ x ∈ xs, StopsOnly fired (f x) (g x)) :
    StopsOnly fired (xs.mapM f) (xs.mapM g) := by
  induction xs with
  | nil => exact pure []
  | cons x xs ih =>
      rw [List.mapM_cons, List.mapM_cons]
      refine (h x List.mem_cons_self).bind fun y => ?_
      exact (ih fun z hz => h z (List.mem_cons_of_mem _ hz)).bind fun ys => pure _

/-- A request is put in front of what was served before. -/
theorem record (request : Request) :
    StopsOnly fired (modify (request :: ·) : Run PUnit) (modify (request :: ·)) :=
  same fun served => List.suffix_cons request served

theorem serve (request : Request) (answer : Except Error α) :
    StopsOnly fired (Run.serve request answer) (Run.serve request answer) :=
  (record request).bind fun _ => ofExcept answer

theorem serveAny (request : Request) (answer : Except Error α) :
    StopsOnly fired (Run.serveAny request answer) (Run.serveAny request answer) :=
  (record request).bind fun _ => pure answer

/-- A checkpoint ends the run if the signal has fired, and does nothing otherwise. -/
theorem checkpoint (fired : Signal) :
    StopsOnly fired (Run.checkpoint (some fired)) (Run.checkpoint none) := by
  refine ⟨fun _ => List.suffix_rfl, fun served => ?_⟩
  rw [recordFrom_checkpoint, recordFrom_checkpoint, answerFrom_checkpoint]
  by_cases hf : fired served = true
  · rw [if_pos hf]
    exact Or.inr ⟨rfl, hf, List.suffix_rfl⟩
  · rw [if_neg hf]
    exact Or.inl ⟨rfl, rfl⟩

end StopsOnly

/-- What a signal leaves of a full run from nothing. The outcome is the same one, or the run is cancelled. It
    is cancelled only after the signal has fired, unless the full run ends in the same way, and it asks
    nothing that the full run does not ask. -/
structure CutShort (fired : Signal) (run full : Run α) : Prop where
  outcome : run.outcome = full.outcome ∨ run.outcome = .error .cancelled
  cause : run.outcome = .error .cancelled →
    fired (run.recordFrom []) = true ∨ full.outcome = .error .cancelled
  record : run.recordFrom [] <:+ full.recordFrom []

/-- A run that a signal only stops is cut short at most. -/
theorem StopsOnly.cutShort {run full : Run α} (h : StopsOnly fired run full) :
    CutShort fired run full := by
  -- From the empty record, the two ways to go on are the two outcomes.
  rcases h.follows [] with ⟨answer, record⟩ | ⟨answer, raised, record⟩
  · exact ⟨Or.inl answer, fun hc => Or.inr (answer.symm.trans hc), record ▸ List.suffix_rfl⟩
  · exact ⟨Or.inr answer, fun _ => Or.inl raised, record⟩

end ThreeWay.Run
