import ThreeWay.Proofs.Run.Related

/-!
# Runs That Differ Only in What They Read

Two runs may come to the same answer although one of them reads contents that the other one has no need
of. Their records differ then, and a signal could tell them apart. A signal that does not listen to
contents cannot: it sees both records without the contents in them.

So two runs agree when they end in the same way from all records that are equal up to contents, and leave
such records behind. That is how related runs go together where contents are not heard, and the rules for those
carry over. `Agree.read` is the one rule that lets the parts of a run be different.

The two sides of this relation in the model are the comparison by contents and the comparison by ids: where ids
tell contents apart, the contents are the same exactly when the ids are, and what is read is not needed. A run
that reads them is put next to one that does not, part by part, and everything that surrounds the comparison is
the same code on both sides.

## Main definitions

* `unread`: A record without the contents in it.
* `Signal.IgnoresContents`: A signal that does not listen to contents.
* `Run.Agree`: Two runs that differ only in what they read.

## Theorems

* `agree_iff_related`: Runs that agree are related runs with equal answers.
* `Agree.bind`, `Agree.mapM`: Runs agree when their parts do.
* `Agree.serve`, `Agree.checkpoint`: What both runs do in the same way.
* `Agree.read`: An answer that was read agrees with the same answer out of nowhere.
* `Agree.outcome`: Runs that agree have one outcome.
-/

namespace ThreeWay

/-- Whether a request asks for a content. -/
def Request.isContent : Request → Bool
  | .content _ => true
  | _ => false

/-- A record of served requests without the contents in it. -/
def unread (served : List Request) : List Request :=
  served.filter fun request => !request.isContent

/-- A signal that does not listen to contents, or none at all. -/
def Signal.IgnoresContents (signal : Option Signal) : Prop :=
  ∀ fired ∈ signal, ∀ served other, unread served = unread other → fired served = fired other

namespace Run

variable {α β γ : Type}

/-- Two runs that end in the same way from records that differ only in contents, and leave such
    records. -/
def Agree (run other : Run α) : Prop :=
  ∀ served served', unread served = unread served' →
    run.answerFrom served = other.answerFrom served' ∧
      unread (run.recordFrom served) = unread (other.recordFrom served')

/-- Runs that agree are related runs with equal answers, where contents are not heard. -/
theorem agree_iff_related {run other : Run α} :
    Agree run other ↔ Related (fun request => !request.isContent) Eq run other := by
  -- The two definitions differ only in how they say that the ends are the same.
  refine forall₃_congr fun served served' _ => and_congr_left fun _ => ?_
  constructor
  · intro ha
    rw [ha]
    exact Ends.refl _
  · exact Ends.eq

theorem Agree.outcome {run other : Run α} (h : Agree run other) : run.outcome = other.outcome :=
  (agree_iff_related.mp h).outcome

theorem Agree.pure (a : α) : Agree (Pure.pure a : Run α) (Pure.pure a) :=
  agree_iff_related.mpr (Related.pure rfl)

theorem Agree.throw (e : Error) : Agree (throw e : Run α) (throw e) :=
  agree_iff_related.mpr (Related.throw e)

theorem Agree.ofExcept (answer : Except Error α) :
    Agree (Run.ofExcept answer) (Run.ofExcept answer) :=
  agree_iff_related.mpr (Related.ofExcept answer)

/-- Runs agree when their first parts do, and what follows any answer of those. -/
theorem Agree.bind {run other : Run α} {next next' : α → Run β} (h : Agree run other)
    (hn : ∀ a, Returns run a → Agree (next a) (next' a)) : Agree (run >>= next) (other >>= next') := by
  -- The first answers are equal and an answer of the first run, which is all that the second steps may rely on.
  refine agree_iff_related.mpr ((agree_iff_related.mp h).returns.bind fun a b hab => ?_)
  rcases hab with ⟨rfl, ha⟩
  exact agree_iff_related.mp (hn a ha)

theorem Agree.map {run other : Run α} (f : α → β) (h : Agree run other) :
    Agree (f <$> run) (f <$> other) :=
  agree_iff_related.mpr ((agree_iff_related.mp h).map fun _ _ hab => congrArg f hab)

theorem Agree.mapM {f g : γ → Run β} {xs : List γ} (h : ∀ x ∈ xs, Agree (f x) (g x)) :
    Agree (xs.mapM f) (xs.mapM g) := by
  -- Here the list is one list, so what is known of a member may depend on the member being in it.
  induction xs with
  | nil => exact Agree.pure []
  | cons x xs ih =>
      rw [List.mapM_cons, List.mapM_cons]
      refine (h x List.mem_cons_self).bind fun y _ => ?_
      exact (ih fun z hz => h z (List.mem_cons_of_mem _ hz)).bind fun ys _ => Agree.pure _

theorem Agree.serve (request : Request) (answer : Except Error α) :
    Agree (Run.serve request answer) (Run.serve request answer) :=
  agree_iff_related.mpr (Related.serve request answer)

/-- An answer that was read agrees with the same answer out of nowhere. -/
theorem Agree.read (path : Path) {answer : Except Error α} {a : α} (h : answer = .ok a) :
    Agree (Run.serve (.content path) answer) (Pure.pure a) :=
  agree_iff_related.mpr (Related.unheard rfl h rfl)

/-- A signal that does not listen to contents stops both runs, or none. -/
theorem Agree.checkpoint {signal : Option Signal} (h : Signal.IgnoresContents signal) :
    Agree (Run.checkpoint signal) (Run.checkpoint signal) :=
  agree_iff_related.mpr (Related.checkpoint h)

end Run

end ThreeWay
