import ThreeWay.Error

/-!
# Runs that can be cancelled

A diff or a scan asks for contents, listings, hashes and ignore verdicts, and may be told to stop
between two steps. A run records every request that was served, and a signal is read off that record:
so a signal may fire before the run or while any request is served, and a run stays a plain
function of its inputs.

## Main definitions

* `Request`: One question that was served.
* `Signal`: When to stop, given what was served so far.
* `Run`: A computation that records its requests and may fail.
* `Run.serve`, `Run.checkpoint`: Asking a question; stopping if the signal has fired.
* `Tokens`: Flags that several holders share.
-/

namespace ThreeWay

/-- One question that was served. -/
inductive Request where
  | content (path : Path)
  | listing (path : Path)
  | ruleFile (path : Path)
  | ignored (path : Path)
  | hash (path : RawPath)
deriving DecidableEq

/-- Whether to stop, given the requests served so far, the latest first. -/
abbrev Signal := List Request → Bool

namespace Signal

/-- Fired before the run. -/
def raised : Signal :=
  fun _ => true

/-- Never fires. -/
def quiet : Signal :=
  fun _ => false

/-- Fires while a request satisfying `p` is served. -/
def onRequest (p : Request → Bool) : Signal :=
  fun served => served.any p

end Signal

/-- A computation that records the requests it makes and may fail. -/
abbrev Run := ExceptT Error (StateM (List Request))

namespace Run

/-- An answer that needs no request. -/
def ofExcept : Except Error α → Run α
  | .ok a => pure a
  | .error e => throw e

/-- Record a request and take its answer. -/
def serve (request : Request) (answer : Except Error α) : Run α := do
  modify (request :: ·)
  ofExcept answer

/-- Record a request and take its answer, a failure included. -/
def serveAny (request : Request) (answer : Except Error α) : Run (Except Error α) := do
  -- The failure is handed on as a value, so the run goes on with it.
  modify (request :: ·)
  return answer

/-- Stop if the signal has fired. -/
def checkpoint (signal : Option Signal) : Run Unit := do
  match signal with
  | none => pure ()
  | some fired => if fired (← get) then throw .cancelled else pure ()

/-- The outcome of a run that starts with nothing served. -/
def outcome (run : Run α) : Except Error α :=
  (ExceptT.run run |>.run []).1

end Run

/-- Flags handed out to several holders. `flag` names the flag of each holder, and `raised` the
    flags that were raised. -/
structure Tokens where
  flag : List Nat
  raised : List Nat

namespace Tokens

/-- No holders. -/
def empty : Tokens :=
  ⟨[], []⟩

/-- A holder of a new flag. -/
def add (t : Tokens) : Tokens :=
  { t with flag := t.flag ++ [t.flag.length] }

/-- A holder of the flag that holder `i` has. -/
def share (t : Tokens) (i : Nat) : Tokens :=
  { t with flag := t.flag ++ (t.flag[i]?).toList }

/-- Raise the flag of holder `i`. -/
def raise (t : Tokens) (i : Nat) : Tokens :=
  { t with raised := (t.flag[i]?).toList ++ t.raised }

/-- What each holder finds when it checks its flag. -/
def check (t : Tokens) : List (Except Error Unit) :=
  t.flag.map fun f => if t.raised.contains f then .error .cancelled else .ok ()

end Tokens

end ThreeWay
