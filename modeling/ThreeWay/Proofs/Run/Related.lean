import ThreeWay.Proofs.Run

/-!
# Two Runs Side by Side

Two runs may come to the same end although one of them asks for something that the other one has at hand.
Their records differ then, and a signal could tell them apart, unless it does not listen to such requests.

`Related` says that two runs go together, from all records that are the same as far as they are heard. The
answers need not be equal: they are related, and what follows them has to go together for all related answers.
So the relation goes through a run part by part, over two lists of related members as well, and it is in one
rule only that the parts are different, `Related.unheard`.

The answers are compared by a relation and not by equality because a deferred listing is one: a run that builds
the nodes below a folder answers with them, and a run that leaves them for later answers with a way to get them.
Both are followed by a sequence over what they answered, and `Related.mapM` carries the relation through it member
by member.

What is heard is a parameter. With every request heard, related runs are runs that no signal can tell apart; with
none, runs whose requests do not matter. A signal enters at `Related.checkpoint` only, which asks that it hear
nothing else, so every other rule holds for all signals. Records of the two runs are never equal here, only their
heard parts, and the proofs keep that one equation going from part to part.

## Main definitions

* `Signal.Hears`: A signal that listens to certain requests only.
* `Run.recordFrom`: The record that a run leaves.
* `Run.Ends`: Related answers, or one failure.
* `Run.Related`: Two runs that go together.

## Theorems

* `bind_of_ok`, `bind_of_error`: The record that the second step starts from.
* `recordFrom_checkpoint`: A checkpoint leaves the record as it is.
* `Ends.eq`, `Ends.refl`: Ends under equality are equal ends.
* `Related.bind`, `Related.mapM`: Runs go together when their parts do.
* `Related.returns`: What is related are answers that the first run can give.
* `Related.serve`: The same request, asked in both runs.
* `Related.unheard`: An answer to a request that is not heard, and the same answer out of nowhere.
* `Related.checkpoint`: A signal that is asked in both runs.
* `Related.outcome`: Runs that go together with equal answers have one outcome.
-/

namespace ThreeWay

/-- A signal that listens to certain requests only, or none at all. -/
def Signal.Hears (heard : Request → Bool) (signal : Option Signal) : Prop :=
  ∀ fired ∈ signal, ∀ served other, served.filter heard = other.filter heard → fired served = fired other

namespace Run

variable {α β γ δ : Type}

/-- The record that a run leaves. -/
def recordFrom (run : Run α) (served : List Request) : List Request :=
  ((ExceptT.run run).run served).2

section

variable {run : Run α} {next : α → Run β} {served : List Request}

/-- After an answer the next step goes on from the record that was left. -/
theorem bind_of_ok {a : α} (h : run.answerFrom served = .ok a) :
    (run >>= next).answerFrom served = (next a).answerFrom (run.recordFrom served) ∧
      (run >>= next).recordFrom served = (next a).recordFrom (run.recordFrom served) := by
  unfold answerFrom at h ⊢
  unfold recordFrom
  simp only [ExceptT.run_bind, StateT.run_bind]
  rcases hrun : (ExceptT.run run).run served with ⟨answer, left⟩
  rw [hrun] at h
  simp only at h
  subst h
  exact ⟨rfl, rfl⟩

/-- After a failure there is no next step, and the record stays. -/
theorem bind_of_error {e : Error} (h : run.answerFrom served = .error e) :
    (run >>= next).answerFrom served = .error e ∧
      (run >>= next).recordFrom served = run.recordFrom served := by
  unfold answerFrom at h ⊢
  unfold recordFrom
  simp only [ExceptT.run_bind, StateT.run_bind]
  rcases hrun : (ExceptT.run run).run served with ⟨answer, left⟩
  rw [hrun] at h
  simp only at h
  subst h
  exact ⟨rfl, rfl⟩

end

/-- A checkpoint reads the record and leaves it. -/
theorem recordFrom_checkpoint (signal : Option Signal) (served : List Request) :
    (Run.checkpoint signal).recordFrom served = served := by
  cases signal with
  | none => rfl
  | some fired =>
      have hstep : (Run.checkpoint (some fired)).recordFrom served =
          Run.recordFrom (if fired served then MonadExcept.throw .cancelled else Pure.pure ()) served := rfl
      rw [hstep]
      split_ifs <;> rfl

/-- Related answers, or one failure. -/
inductive Ends (R : α → β → Prop) : Except Error α → Except Error β → Prop
  | ok {a : α} {b : β} (h : R a b) : Ends R (.ok a) (.ok b)
  | error (e : Error) : Ends R (.error e) (.error e)

theorem Ends.eq {x y : Except Error α} (h : Ends Eq x y) : x = y := by
  cases h with
  | ok hab => rw [hab]
  | error e => rfl

theorem Ends.refl (x : Except Error α) : Ends Eq x x := by
  cases x with
  | ok a => exact Ends.ok rfl
  | error e => exact Ends.error e

/-- What is known of the first answer may be added to the relation. -/
theorem Ends.and_left {R : α → β → Prop} {P : α → Prop} {x : Except Error α} {y : Except Error β}
    (h : Ends R x y) (hp : ∀ a, x = .ok a → P a) : Ends (fun a b => R a b ∧ P a) x y := by
  cases h with
  | ok hab => exact Ends.ok ⟨hab, hp _ rfl⟩
  | error e => exact Ends.error e

/-- Two runs that end in related ways from records that are heard as the same, and leave such records. -/
def Related (heard : Request → Bool) (R : α → β → Prop) (run : Run α) (other : Run β) : Prop :=
  ∀ served served', served.filter heard = served'.filter heard →
    Ends R (run.answerFrom served) (other.answerFrom served') ∧
      (run.recordFrom served).filter heard = (other.recordFrom served').filter heard

namespace Related

variable {heard : Request → Bool} {R : α → β → Prop}

/-- Runs that go together with equal answers have one outcome. -/
theorem outcome {run other : Run α} (h : Related heard Eq run other) : run.outcome = other.outcome :=
  (h [] [] rfl).1.eq

theorem pure {a : α} {b : β} (h : R a b) :
    Related heard R (Pure.pure a : Run α) (Pure.pure b) := by
  intro served served' hs
  exact ⟨Ends.ok h, hs⟩

theorem throw (e : Error) : Related heard R (throw e : Run α) (throw e) := by
  intro served served' hs
  exact ⟨Ends.error e, hs⟩

theorem ofExcept (answer : Except Error α) :
    Related heard Eq (Run.ofExcept answer) (Run.ofExcept answer) := by
  cases answer with
  | ok a => exact pure rfl
  | error e => exact throw e

/-- Runs go together when their first parts do, and what follows related answers of those. -/
theorem bind {S : γ → δ → Prop} {run : Run α} {other : Run β} {next : α → Run γ} {next' : β → Run δ}
    (h : Related heard R run other) (hn : ∀ a b, R a b → Related heard S (next a) (next' b)) :
    Related heard S (run >>= next) (other >>= next') := by
  intro served served' hs
  rcases h served served' hs with ⟨hends, hrecord⟩
  -- The ends of the first steps are related, so two of the four cases cannot be: an answer on one side and a failure
  -- on the other. With two answers the second steps take over, with one failure neither of them is run.
  cases ha : run.answerFrom served with
  | ok a =>
      cases hb : other.answerFrom served' with
      | ok b =>
          rw [ha, hb] at hends
          cases hends with
          | ok hab =>
              rw [(bind_of_ok ha).1, (bind_of_ok ha).2, (bind_of_ok hb).1, (bind_of_ok hb).2]
              exact hn a b hab _ _ hrecord
      | error e =>
          rw [ha, hb] at hends
          cases hends
  | error e =>
      rw [ha] at hends
      cases hb : other.answerFrom served' with
      | ok b =>
          rw [hb] at hends
          cases hends
      | error f =>
          rw [hb] at hends
          cases hends
          rw [(bind_of_error ha).1, (bind_of_error ha).2, (bind_of_error hb).1, (bind_of_error hb).2]
          exact ⟨Ends.error e, hrecord⟩

/-- What is related are answers of the first run. -/
theorem returns {run : Run α} {other : Run β} (h : Related heard R run other) :
    Related heard (fun a b => R a b ∧ Returns run a) run other := by
  intro served served' hs
  rcases h served served' hs with ⟨hends, hrecord⟩
  exact ⟨hends.and_left fun a ha => ⟨served, ha⟩, hrecord⟩

theorem map {S : γ → δ → Prop} {run : Run α} {other : Run β} {f : α → γ} {g : β → δ}
    (h : Related heard R run other) (hf : ∀ a b, R a b → S (f a) (g b)) :
    Related heard S (f <$> run) (g <$> other) := by
  rw [← bind_pure_comp, ← bind_pure_comp]
  exact h.bind fun a b hab => pure (hf a b hab)

/-- Runs over two lists go together when they do at every place of the lists. -/
theorem mapM {S : γ → δ → Prop} {f : γ → Run α} {g : δ → Run β} {xs : List γ} {ys : List δ}
    (hxs : List.Forall₂ S xs ys) (h : ∀ x y, S x y → Related heard R (f x) (g y)) :
    Related heard (List.Forall₂ R) (xs.mapM f) (ys.mapM g) := by
  -- The lists are gone through together, one pair at a time.
  induction hxs with
  | nil => exact pure List.Forall₂.nil
  | cons hxy _ ih =>
      rw [List.mapM_cons, List.mapM_cons]
      refine (h _ _ hxy).bind fun a b hab => ?_
      exact ih.bind fun as bs hrest => pure (List.Forall₂.cons hab hrest)

theorem serve (request : Request) (answer : Except Error α) :
    Related heard Eq (Run.serve request answer) (Run.serve request answer) := by
  -- Serving is two steps, of which only the first one touches the record, with the same request in both runs.
  have recorded : Related heard Eq (modify (request :: ·) : Run PUnit) (modify (request :: ·)) := by
    intro served served' hs
    refine ⟨Ends.ok rfl, ?_⟩
    have hrecord : ∀ record, (modify (request :: ·) : Run PUnit).recordFrom record = request :: record :=
      fun _ => rfl
    rw [hrecord, hrecord, List.filter_cons, List.filter_cons, hs]
  exact recorded.bind fun _ _ _ => ofExcept answer

/-- An answer to a request that is not heard goes together with such an answer out of nowhere. -/
theorem unheard {request : Request} (hr : heard request = false) {answer : Except Error α} {a : α} {b : β}
    (ha : answer = .ok a) (h : R a b) :
    Related heard R (Run.serve request answer) (Pure.pure b) := by
  intro served served' hs
  rw [ha]
  refine ⟨Ends.ok h, ?_⟩
  -- The records differ by this request, which the filter drops.
  have hrecord : (Run.serve request (.ok a)).recordFrom served = request :: served := rfl
  rw [hrecord, List.filter_cons, hr]
  exact hs

/-- A signal stops both runs, or none, if it hears the same in both. -/
theorem checkpoint {signal : Option Signal} (h : Signal.Hears heard signal) :
    Related heard Eq (Run.checkpoint signal) (Run.checkpoint signal) := by
  cases signal with
  | none => exact pure rfl
  | some fired =>
      intro served served' hs
      rw [recordFrom_checkpoint, recordFrom_checkpoint, answerFrom_checkpoint, answerFrom_checkpoint]
      -- Both records sound the same to the signal, so it decides for both at once.
      rw [h fired rfl served served' hs]
      exact ⟨Ends.refl _, hs⟩

end Related

end Run

end ThreeWay
