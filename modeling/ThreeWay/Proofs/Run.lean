import Mathlib.Data.List.Forall2
import ThreeWay.Run

/-!
# Outcomes of Runs

A run threads a record of the requests that it served, and only a signal ever reads that record. So
almost every statement about a run is about its answer alone, and this module offers three ways to say
one without mentioning the record.

`Gives run outcome` is total: the run ends in `outcome` whatever was served before. It holds of runs
whose signal never fires, and it composes forwards, from the parts of a run to the whole.

`Returns run a` is partial: from some record the run ends with the answer `a`. It holds whatever the
signal does, because a run that was stopped has no answer, and it is taken apart backwards, from the
whole to its parts. What an answer tells about the inputs is proved with it.

`Fails run e` is the same for failures. It is what a handler has to know: a failure that is caught may come
from any part of a run, and only what each part can fail with tells which ones are meant.

A record cannot be left out altogether, since a signal may fire after any request, and a second step starts from
what the first one left. But no statement has to say which record it is, so it is hidden in a quantifier: every
record, or some record. The lemmas about a single record come first, `answerFrom_bind` for a sequence and
`answerFrom_tryCatch` for a handler, and nothing below unfolds the monad again. Each of the three ways then has
one rule for each thing that a run is made of.

The rules for `Gives` need a quiet signal only at `Gives.checkpoint`, and the rules for `Returns` need none at
all. That is why the law of a difference is proved in two halves: what an answer is, for every signal, and that
there is an answer, for a quiet one.

## Main definitions

* `Signal.IsQuiet`: A signal that never fires, or none at all.
* `Run.Gives`: A run has this outcome from every record.
* `Run.Returns`: A run has this answer from some record.
* `Run.Fails`: A run ends in this error from some record.

## Theorems

* `bind_eq_ok`, `bind_eq_error`: Two steps without a record, taken apart.
* `answerFrom_bind`, `answerFrom_checkpoint`, `answerFrom_tryCatch`: Runs from one record.
* `outcome_bind`: A second step goes on with the answer of the first.
* `Gives.bind`, `Gives.mapM`: Outcomes compose.
* `Gives.bind_error`: After a failure there is no next step.
* `Gives.checkpoint`: A quiet signal lets every step pass.
* `Returns.bind`, `Returns.mapM`: An answer comes from answers of the parts.
* `returns_of_outcome`: What a run from nothing answers, it returns.
* `Returns.eq_of_gives`: A run that always gives one answer returns no other.
* `Returns.tryCatch`: An answer comes from the run or from the handler of its failure.
* `Fails.bind`, `Fails.mapM`: A failure is a failure of one of the parts.
* `Fails.checkpoint`: A checkpoint fails by stopping the run, and in no other way.
-/

namespace ThreeWay

/-- A signal that never fires, or none at all. -/
def Signal.IsQuiet (signal : Option Signal) : Prop :=
  ∀ fired ∈ signal, ∀ served, fired served = false

namespace Run

variable {α β : Type}

/-- The outcome of a run that starts with some requests served. -/
def answerFrom (run : Run α) (served : List Request) : Except Error α :=
  ((ExceptT.run run).run served).1

theorem ok_bind {ε : Type} (a : α) (next : α → Except ε β) : (Except.ok a >>= next) = next a :=
  rfl

/-- A failure of two steps is one of the first, or one of the second after an answer of the first. -/
theorem bind_eq_error {ε : Type} {first : Except ε α} {next : α → Except ε β} {e : ε}
    (h : (first >>= next) = .error e) : first = .error e ∨ ∃ a, first = .ok a ∧ next a = .error e := by
  cases first with
  | error f => exact Or.inl (congrArg Except.error (Except.error.inj h))
  | ok a => exact Or.inr ⟨a, rfl, h⟩

/-- An answer of two steps is one of the second, to an answer of the first. -/
theorem bind_eq_ok {ε : Type} {first : Except ε α} {next : α → Except ε β} {b : β}
    (h : (first >>= next) = .ok b) : ∃ a, first = .ok a ∧ next a = .ok b := by
  cases first with
  | error f => cases h
  | ok a => exact ⟨a, rfl, h⟩

/-- The run has this outcome whatever was served before. -/
def Gives (run : Run α) (result : Except Error α) : Prop :=
  ∀ served, run.answerFrom served = result

/-- The run has this answer for some record of served requests. -/
def Returns (run : Run α) (a : α) : Prop :=
  ∃ served, run.answerFrom served = .ok a

theorem Gives.outcome {run : Run α} {result : Except Error α} (h : Gives run result) :
    run.outcome = result :=
  h []

theorem returns_of_outcome {run : Run α} {a : α} (h : run.outcome = .ok a) : Returns run a :=
  ⟨[], h⟩

theorem Gives.returns {run : Run α} {a : α} (h : Gives run (.ok a)) : Returns run a :=
  ⟨[], h []⟩

/-- A run that always gives one answer returns no other. -/
theorem Returns.eq_of_gives {run : Run α} {a b : α} (h : Returns run b) (hg : Gives run (.ok a)) :
    b = a := by
  rcases h with ⟨served, h⟩
  exact Except.ok.inj (h.symm.trans (hg served))

/-- The run ends in this error for some record of served requests. -/
def Fails (run : Run α) (e : Error) : Prop :=
  ∃ served, run.answerFrom served = .error e

/-- A sequence runs its second part from the record that the first part leaves. -/
theorem answerFrom_bind (run : Run α) (next : α → Run β) (served : List Request) :
    (run >>= next).answerFrom served =
      match ((ExceptT.run run).run served) with
      | (.ok a, left) => (next a).answerFrom left
      | (.error e, _) => .error e := by
  unfold answerFrom
  simp only [ExceptT.run_bind, StateT.run_bind]
  rcases (ExceptT.run run).run served with ⟨⟨e⟩ | a, left⟩
  · rfl
  · rfl

/-- A checkpoint stops the run if the signal fires on the record. -/
theorem answerFrom_checkpoint (fired : Signal) (served : List Request) :
    (Run.checkpoint (some fired)).answerFrom served =
      if fired served then .error .cancelled else .ok () := by
  have hstep : (Run.checkpoint (some fired)).answerFrom served =
      Run.answerFrom (if fired served then MonadExcept.throw .cancelled else Pure.pure ()) served := rfl
  rw [hstep]
  split_ifs <;> rfl

/-- A handler is asked about a failure, from the record that the failure left, and not about an answer. -/
theorem answerFrom_tryCatch (run : Run α) (handler : Error → Run α) (served : List Request) :
    (MonadExcept.tryCatch run handler).answerFrom served =
      match ((ExceptT.run run).run served) with
      | (.ok a, _) => .ok a
      | (.error e, left) => (handler e).answerFrom left := by
  unfold answerFrom
  rcases hr : (ExceptT.run run).run served with ⟨answer, left⟩
  -- The handler is a function on states too, so the pair is what it runs on.
  have hrun : StateT.run run served = (answer, left) := hr
  simp only [MonadExcept.tryCatch, tryCatchThe, MonadExceptOf.tryCatch, ExceptT.tryCatch, ExceptT.run_mk,
    StateT.run_bind, hrun]
  cases answer with
  | ok a => rfl
  | error e => rfl

/-- A second step goes on with the answer of the first, from the record that the first one left. -/
theorem outcome_bind {run : Run α} {a : α} (h : run.outcome = .ok a) (next : α → Run β) :
    ∃ left, (run >>= next).outcome = (next a).answerFrom left := by
  have hbind := answerFrom_bind run next []
  unfold outcome at h
  -- The answer is known, but the record that comes with it has to be named before it can be given on.
  rcases hr : (ExceptT.run run).run [] with ⟨answer, left⟩
  rw [hr] at h hbind
  simp only at h
  rw [h] at hbind
  exact ⟨left, hbind⟩

theorem Gives.pure (a : α) : Gives (Pure.pure a : Run α) (.ok a) := by
  intro served
  rfl

theorem Gives.throw (e : Error) : Gives (throw e : Run α) (.error e) := by
  intro served
  rfl

theorem Gives.bind {run : Run α} {next : α → Run β} {a : α} {result : Except Error β}
    (h : Gives run (.ok a)) (hn : Gives (next a) result) : Gives (run >>= next) result := by
  intro served
  -- What the first step answers is known for every record, so it is known for this one.
  have ha := h served
  rw [answerFrom_bind]
  unfold answerFrom at ha
  rcases hr : (ExceptT.run run).run served with ⟨answer, left⟩
  rw [hr] at ha
  simp only at ha
  rw [ha]
  exact hn left

/-- After a failure there is no next step. -/
theorem Gives.bind_error {run : Run α} {next : α → Run β} {e : Error} (h : Gives run (.error e)) :
    Gives (run >>= next) (.error e) := by
  intro served
  have he := h served
  rw [answerFrom_bind]
  unfold answerFrom at he
  rcases hr : (ExceptT.run run).run served with ⟨⟨f⟩ | a, left⟩
  -- The first step has failed, so the second one is not run.
  · rw [hr] at he
    cases he
    rfl
  · rw [hr] at he
    cases he

theorem Gives.map_error {run : Run α} {e : Error} (f : α → β) (h : Gives run (.error e)) :
    Gives (f <$> run) (.error e) := by
  rw [← bind_pure_comp]
  exact h.bind_error

theorem Gives.map {run : Run α} {a : α} (f : α → β) (h : Gives run (.ok a)) :
    Gives (f <$> run) (.ok (f a)) := by
  rw [← bind_pure_comp]
  exact h.bind (Gives.pure (f a))

theorem Gives.ofExcept (answer : Except Error α) : Gives (Run.ofExcept answer) answer := by
  cases answer with
  | ok a => exact Gives.pure a
  | error e => exact Gives.throw e

theorem Gives.modify (f : List Request → List Request) :
    Gives (modify f : Run PUnit) (.ok ⟨⟩) := by
  intro served
  rfl

theorem Gives.serve (request : Request) (answer : Except Error α) :
    Gives (Run.serve request answer) answer :=
  (Gives.modify _).bind (Gives.ofExcept answer)

theorem Gives.serveAny (request : Request) (answer : Except Error α) :
    Gives (Run.serveAny request answer) (.ok answer) :=
  (Gives.modify _).bind (Gives.pure answer)

/-- A quiet signal lets every step pass. -/
theorem Gives.checkpoint {signal : Option Signal} (h : Signal.IsQuiet signal) :
    Gives (Run.checkpoint signal) (.ok ()) := by
  cases signal with
  | none => exact Gives.pure ()
  | some fired =>
      intro served
      have hf : fired served = false := h fired rfl served
      rw [answerFrom_checkpoint, hf, if_neg Bool.false_ne_true]

theorem Gives.mapM {γ : Type} {f : γ → Run β} {xs : List γ} {ys : List β}
    (h : List.Forall₂ (fun x y => Gives (f x) (.ok y)) xs ys) : Gives (xs.mapM f) (.ok ys) := by
  -- A list of runs is run from the front, and each answer goes on to the rest.
  induction h with
  | nil => exact Gives.pure []
  | cons hx _ ih =>
      rw [List.mapM_cons]
      exact hx.bind (ih.bind (Gives.pure _))

/-- A list of runs that all have answers has a list of answers. -/
theorem exists_gives_mapM {γ : Type} {f : γ → Run β} {xs : List γ}
    (h : ∀ x ∈ xs, ∃ y, Gives (f x) (.ok y)) : ∃ ys, Gives (xs.mapM f) (.ok ys) := by
  induction xs with
  | nil => exact ⟨[], Gives.pure []⟩
  | cons x xs ih =>
      rcases h x List.mem_cons_self with ⟨y, hy⟩
      rcases ih fun z hz => h z (List.mem_cons_of_mem _ hz) with ⟨ys, hys⟩
      refine ⟨y :: ys, ?_⟩
      rw [List.mapM_cons]
      exact hy.bind (hys.bind (Gives.pure _))

theorem Returns.pure {a b : α} (h : Returns (Pure.pure a : Run α) b) : b = a := by
  rcases h with ⟨served, h⟩
  exact (Except.ok.inj h).symm

theorem not_returns_throw {e : Error} {a : α} : ¬ Returns (throw e : Run α) a := by
  rintro ⟨served, h⟩
  cases h

theorem Returns.bind {run : Run α} {next : α → Run β} {b : β} (h : Returns (run >>= next) b) :
    ∃ a, Returns run a ∧ Returns (next a) b := by
  rcases h with ⟨served, h⟩
  rw [answerFrom_bind] at h
  rcases hr : (ExceptT.run run).run served with ⟨⟨e⟩ | a, left⟩
  · rw [hr] at h
    cases h
  · rw [hr] at h
    -- The second step was run from the record that the first one left, which is another one.
    refine ⟨a, ⟨served, ?_⟩, left, h⟩
    rw [answerFrom, hr]

theorem Returns.map {run : Run α} {f : α → β} {b : β} (h : Returns (f <$> run) b) :
    ∃ a, Returns run a ∧ b = f a := by
  rw [← bind_pure_comp] at h
  rcases h.bind with ⟨a, ha, hb⟩
  exact ⟨a, ha, hb.pure⟩

theorem Returns.ofExcept {answer : Except Error α} {a : α} (h : Returns (Run.ofExcept answer) a) :
    answer = .ok a := by
  rcases h with ⟨served, h⟩
  rw [← h, Gives.ofExcept answer served]

theorem Returns.serve {request : Request} {answer : Except Error α} {a : α}
    (h : Returns (Run.serve request answer) a) : answer = .ok a := by
  rcases h with ⟨served, h⟩
  rw [← h, Gives.serve request answer served]

theorem Returns.serveAny {request : Request} {answer : Except Error α} {a : Except Error α}
    (h : Returns (Run.serveAny request answer) a) : a = answer := by
  rcases h with ⟨served, h⟩
  rw [Gives.serveAny request answer served] at h
  exact (Except.ok.inj h).symm

/-- An answer of a traversal is a list of answers, one for each element. -/
theorem Returns.mapM {γ : Type} {f : γ → Run β} {xs : List γ} {ys : List β}
    (h : Returns (xs.mapM f) ys) : List.Forall₂ (fun x y => Returns (f x) y) xs ys := by
  induction xs generalizing ys with
  | nil =>
      rw [List.mapM_nil] at h
      rw [h.pure]
      exact List.Forall₂.nil
  | cons x xs ih =>
      -- The whole is two sequences: the first member, and then the rest with the list put together.
      rw [List.mapM_cons] at h
      rcases h.bind with ⟨y, hy, h⟩
      rcases h.bind with ⟨rest, hrest, h⟩
      rw [h.pure]
      exact List.Forall₂.cons hy (ih hrest)

theorem not_fails_pure {a : α} {e : Error} : ¬ Fails (Pure.pure a : Run α) e := by
  rintro ⟨served, h⟩
  cases h

theorem Fails.throw {e f : Error} (h : Fails (throw f : Run α) e) : e = f := by
  rcases h with ⟨served, h⟩
  exact (Except.error.inj h).symm

theorem Fails.bind {run : Run α} {next : α → Run β} {e : Error} (h : Fails (run >>= next) e) :
    Fails run e ∨ ∃ a, Returns run a ∧ Fails (next a) e := by
  rcases h with ⟨served, h⟩
  rw [answerFrom_bind] at h
  rcases hr : (ExceptT.run run).run served with ⟨⟨f⟩ | a, left⟩
  · rw [hr] at h
    refine Or.inl ⟨served, ?_⟩
    rw [answerFrom, hr, ← Except.error.inj h]
  · rw [hr] at h
    -- The first step had an answer, so the failure is one of the second step.
    refine Or.inr ⟨a, ⟨served, ?_⟩, left, h⟩
    rw [answerFrom, hr]

theorem Fails.map {run : Run α} {f : α → β} {e : Error} (h : Fails (f <$> run) e) : Fails run e := by
  rw [← bind_pure_comp] at h
  rcases h.bind with h | ⟨a, _, h⟩
  · exact h
  · exact absurd h not_fails_pure

theorem Fails.ofExcept {answer : Except Error α} {e : Error} (h : Fails (Run.ofExcept answer) e) :
    answer = .error e := by
  rcases h with ⟨served, h⟩
  rw [← h, Gives.ofExcept answer served]

theorem Fails.serve {request : Request} {answer : Except Error α} {e : Error}
    (h : Fails (Run.serve request answer) e) : answer = .error e := by
  rcases h with ⟨served, h⟩
  rw [← h, Gives.serve request answer served]

/-- The only failure of a checkpoint is to be stopped. -/
theorem Fails.checkpoint {signal : Option Signal} {e : Error} (h : Fails (Run.checkpoint signal) e) :
    e = .cancelled := by
  rcases h with ⟨served, h⟩
  cases signal with
  | none => cases h
  | some fired =>
      rw [answerFrom_checkpoint] at h
      split_ifs at h
      exact (Except.error.inj h).symm

theorem Fails.mapM {γ : Type} {f : γ → Run β} {xs : List γ} {e : Error} (h : Fails (xs.mapM f) e) :
    ∃ x ∈ xs, Fails (f x) e := by
  induction xs with
  | nil =>
      rw [List.mapM_nil] at h
      exact absurd h not_fails_pure
  | cons x xs ih =>
      rw [List.mapM_cons] at h
      -- It is the first member that fails, or after its answer one of the rest. Putting the list together cannot
      -- fail.
      rcases h.bind with h | ⟨y, _, h⟩
      · exact ⟨x, List.mem_cons_self, h⟩
      · rcases h.bind with h | ⟨ys, _, h⟩
        · rcases ih h with ⟨z, hz, hf⟩
          exact ⟨z, List.mem_cons_of_mem _ hz, hf⟩
        · exact absurd h not_fails_pure

/-- A handler is not asked about an answer. -/
theorem Gives.tryCatch {run : Run α} {handler : Error → Run α} {a : α} (h : Gives run (.ok a)) :
    Gives (tryCatch run handler) (.ok a) := by
  intro served
  have hanswer := h served
  rw [answerFrom] at hanswer
  rw [answerFrom_tryCatch]
  rcases hr : (ExceptT.run run).run served with ⟨⟨e⟩ | b, left⟩
  · rw [hr] at hanswer
    cases hanswer
  · rw [hr] at hanswer
    exact hanswer

/-- A handler answers where a failure is all there is. -/
theorem Gives.tryCatch_error {run : Run α} {handler : Error → Run α} {e : Error} {result : Except Error α}
    (h : Gives run (.error e)) (hh : Gives (handler e) result) :
    Gives (MonadExcept.tryCatch run handler) result := by
  intro served
  have hanswer := h served
  rw [answerFrom] at hanswer
  rw [answerFrom_tryCatch]
  rcases hr : (ExceptT.run run).run served with ⟨⟨f⟩ | b, left⟩
  · rw [hr] at hanswer
    cases hanswer
    exact hh left
  · rw [hr] at hanswer
    cases hanswer

/-- An answer comes from the run, or from the handler of its failure. -/
theorem Returns.tryCatch {run : Run α} {handler : Error → Run α} {a : α}
    (h : Returns (tryCatch run handler) a) :
    Returns run a ∨ ∃ e, Fails run e ∧ Returns (handler e) a := by
  rcases h with ⟨served, h⟩
  rw [answerFrom_tryCatch] at h
  rcases hr : (ExceptT.run run).run served with ⟨⟨e⟩ | b, left⟩
  · rw [hr] at h
    -- The handler goes on from the record that the failure left.
    refine Or.inr ⟨e, ⟨served, ?_⟩, left, h⟩
    rw [answerFrom, hr]
  · rw [hr] at h
    refine Or.inl ⟨served, ?_⟩
    rw [answerFrom, hr]
    exact h

end Run

end ThreeWay
