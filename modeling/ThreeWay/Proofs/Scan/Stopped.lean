import ThreeWay.Proofs.Run.Stopped
import ThreeWay.Proofs.Scan.Settle

/-!
# Scans That a Signal Stops

A scan with a signal next to the same scan without one. The signal is asked before each entry of the walk and
before each path that is settled, and the two scans have all requests between these steps in common: the
questions to the ignore rules and the hashes are asked by functions that do not know of a signal.

Without a signal a scan ends with what it found, unless the reference cannot be read. So a change map that
was cut off in the middle is never an answer: the scan was cancelled then.

The two scans are followed step by step, as `StopsOnly` is closed under sequencing. A step that does not know of
the signal is the same on both sides; only the checkpoints differ, and at a checkpoint the one side may stop.

## Theorems

* `walk_stops`, `settle_stops`: A signal only stops the walk and the settling.
* `scan_stops`: A signal only stops a scan.
* `scan_outcome_of_quiet`: Without a signal a scan has an answer.
-/

namespace ThreeWay

namespace Scanner

open Run

/-- The scanner with another signal. -/
def under (c : Scanner) (signal : Option Signal) : Scanner :=
  { c with signal }

variable {c : Scanner} {fired : Signal}

theorem isExcluded_stops (p : Path) : StopsOnly fired (c.isExcluded p) (c.isExcluded p) := by
  unfold isExcluded
  refine (StopsOnly.serve _ _).bind fun rule => ?_
  by_cases hr : rule = true
  · rw [if_pos hr]
    exact .pure _
  · rw [if_neg hr]
    exact .serveAny _ _

theorem compare_stops (p : Path) (file : RawPath) (expected : ContentId) (s : State) :
    StopsOnly fired (c.compare p file expected s) (c.compare p file expected s) := by
  refine (StopsOnly.serveAny _ _).bind fun answer => ?_
  cases answer with
  | ok found => exact .pure _
  | error e => exact .pure _

theorem visitFile_stops (below : List Bytes) (s : State) :
    StopsOnly fired (c.visitFile below s) (c.visitFile below s) := by
  refine (isExcluded_stops (pathOf below)).bind fun answer => ?_
  -- Where the file is kept, the reference decides; the state is the same on both sides, so it is one table.
  rcases answer with e | _ | _
  · exact .pure _
  · dsimp only
    cases s.remaining.lookup (pathOf below) with
    | none => exact .pure _
    | some id => exact compare_stops _ _ _ _
  · exact .pure _

/-- A signal only stops a walk. -/
theorem walk_stops (above : List Bytes) (f : Forest FileEntry Unit) (s : State) :
    StopsOnly fired ((c.under (some fired)).walk above f s) ((c.under none).walk above f s) := by
  -- Each entry is one checkpoint, then its own effect, and then the rest from the state it left. A folder that is
  -- entered has the other induction hypothesis for its own effect.
  induction f generalizing above s with
  | nil =>
      rw [walk, walk]
      exact .pure s
  | leaf name value rest ih =>
      rw [walk_leaf, walk_leaf]
      refine (StopsOnly.checkpoint fired).bind fun _ => StopsOnly.bind ?_ fun s => ih above s
      unfold visitLeaf
      by_cases hg : name = Utf8.encode gitFolderName
      · rw [if_pos hg, if_pos hg]
        exact .pure s
      · rw [if_neg hg, if_neg hg]
        exact visitFile_stops (c := c) _ s
  | folder name value members rest ihm ih =>
      rw [walk_folder, walk_folder]
      refine (StopsOnly.checkpoint fired).bind fun _ => StopsOnly.bind ?_ fun s => ih above s
      unfold visitFolder
      by_cases hg : name = Utf8.encode gitFolderName
      · rw [if_pos hg, if_pos hg]
        exact .pure s
      · rw [if_neg hg, if_neg hg]
        refine (StopsOnly.serveAny _ _).bind fun answer => ?_
        rcases answer with e | _ | _
        · exact .pure _
        · exact ihm _ s
        · exact .pure _

theorem settleOne_stops (p : Path) (expected : ContentId) (s : State) :
    StopsOnly fired (c.settleOne p expected s) (c.settleOne p expected s) := by
  refine (isExcluded_stops p).bind fun answer => ?_
  rcases answer with e | _ | _
  · exact .pure _
  · dsimp only
    by_cases hf : c.disk.isFile (c.root.join p.toRaw) = true
    · rw [if_pos hf]
      exact compare_stops _ _ _ _
    · rw [if_neg hf]
      exact .pure _
  · exact .pure _

/-- A signal only stops the settling. -/
theorem settle_stops (rest : Reference) (s : State) :
    StopsOnly fired ((c.under (some fired)).settle rest s) ((c.under none).settle rest s) := by
  -- Each path is one checkpoint and then its own question, which does not know of the signal.
  induction rest generalizing s with
  | nil =>
      rw [settle, settle]
      exact .pure s
  | cons e rest ih =>
      rw [settle_cons, settle_cons]
      refine (StopsOnly.checkpoint fired).bind fun _ => ?_
      exact (settleOne_stops (c := c) e.1 e.2 s).bind fun s => ih s

theorem walkRoot_stops (s : State) :
    StopsOnly fired ((c.under (some fired)).walkRoot s) ((c.under none).walkRoot s) := by
  -- The signal is no part of the disk, so both scans find the same root.
  have root : ∀ signal, (c.under signal).disk.stat (c.under signal).root = c.disk.stat c.root :=
    fun _ => rfl
  unfold walkRoot
  rw [root, root]
  -- The root cannot be read, is a file, or is a folder that is walked through.
  rcases c.disk.stat c.root with fault | ⟨_⟩ | ⟨_, members⟩
  · exact (StopsOnly.checkpoint fired).bind fun _ => .pure _
  · exact .pure s
  · exact walk_stops [] members s

/-- A signal only stops a scan. -/
theorem scan_stops (reference : Except Error Reference) :
    StopsOnly fired ((c.under (some fired)).scan reference) ((c.under none).scan reference) := by
  refine (StopsOnly.ofExcept reference).bind fun remaining => ?_
  refine (walkRoot_stops _).bind fun s => ?_
  exact (settle_stops s.remaining s).bind fun s => .pure s.outcome

/-- Without a signal a scan has an answer if its reference can be read. -/
theorem scan_outcome_of_quiet (quiet : Signal.IsQuiet c.signal) (reference : Except Error Reference) :
    (∃ o, (c.scan reference).outcome = .ok o) ∨
      ∃ e, reference = .error e ∧ (c.scan reference).outcome = .error e := by
  -- The reference is read before anything else, and its failure is the failure of the scan.
  cases reference with
  | error e => exact Or.inr ⟨e, rfl, rfl⟩
  | ok remaining =>
      rcases scan_gives quiet remaining with ⟨o, ho⟩
      exact Or.inl ⟨o, ho.outcome⟩

end Scanner

end ThreeWay
