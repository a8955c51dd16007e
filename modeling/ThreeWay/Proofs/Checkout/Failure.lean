import ThreeWay.Checkout.Content
import ThreeWay.Proofs.Run

/-!
# How a Checkout Fails to Answer

A checkout that is asked for a content or a listing may not be able to read what it is asked about: a file of the
disk, an object of the repository, a folder that is a file in the index. Nothing else goes wrong. In particular it
never finds fault with the members of a listing, which is left to whoever compares listings, and it is never
cancelled.

There are two reasons to know that. Who catches a failure has to know what it can be, so that nothing else is
taken for it. And a run of which only the reads can fail was cancelled by its signal, if it was cancelled at all.

The proofs follow the code of a listing and of a content from step to step. `Reads` is closed under everything
they are made of, `Reads.bind` for steps and `Reads.mapM` for lists, so each function needs a look at the failures
that it makes itself.

## Main definitions

* `Error.IsUnread`: A failure to read.
* `Reads`: An answer that fails in no other way.

## Theorems

* `Reads.bind`, `Reads.mapM`: Such answers are made of such answers.
* `reads_isHidden`, `reads_workingMembers`, `reads_namedTree`, `reads_stagedMember`: The parts of a listing.
* `reads_members`, `reads_content`: A checkout fails to read, or it answers.
-/

namespace ThreeWay

/-- A failure to read a content or a listing. -/
def Error.IsUnread : Error → Prop
  | .contentRead _ _ => True
  | .unlistable _ => True
  | _ => False

/-- An answer that is missing only where something cannot be read. -/
def Reads {α : Type} (answer : Except Error α) : Prop :=
  ∀ e, answer = .error e → e.IsUnread

namespace Reads

variable {α β : Type}

theorem ok (a : α) : Reads (.ok a) :=
  fun _ h => nomatch h

theorem of_unread {e : Error} (h : e.IsUnread) : Reads (.error e : Except Error α) :=
  fun _ he => Except.error.inj he ▸ h

theorem bind {first : Except Error α} {next : α → Except Error β} (h : Reads first)
    (hn : ∀ a, Reads (next a)) : Reads (first >>= next) := fun e he => by
  rcases Run.bind_eq_error he with he | ⟨a, _, he⟩
  · exact h e he
  · exact hn a e he

/-- A traversal fails as one of its steps does. -/
theorem mapM {f : α → Except Error β} (h : ∀ x, Reads (f x)) (xs : List α) : Reads (xs.mapM f) := by
  -- One member after the other, and putting the answers together cannot fail.
  induction xs with
  | nil => exact ok []
  | cons x xs ih =>
      rw [List.mapM_cons]
      exact (h x).bind fun y => ih.bind fun ys => ok (y :: ys)

end Reads

namespace Checkout

open Reads

variable (c : Checkout)

theorem reads_isHidden (tracked : TrackedPaths) (p : Path) (isFolder : Bool) :
    Reads (c.isHidden tracked p isFolder) := by
  rw [isHidden]
  split_ifs
  · exact ok _
  -- The rules fail on a path that cannot be looked up, and that is a failure to read.
  · refine Reads.bind (fun e he => ?_) fun _ => ok _
    rw [Ignore.isIgnored] at he
    split_ifs at he
    split at he
    · cases he
      trivial
    · cases he

theorem reads_workingMember (tracked : TrackedPaths) (folder : Path) (dir : RawPath) (name : Bytes)
    (entry : DiskEntry) : Reads (c.workingMember tracked folder dir name entry) := by
  rw [workingMember]
  -- The answers come in the order in which the code gives up: no text, reserved, hidden, and then a file that is
  -- hashed.
  split
  · exact ok _
  dsimp only
  split_ifs
  · exact ok _
  refine (c.reads_isHidden _ _ _).bind fun hidden => ?_
  split_ifs
  · exact ok _
  · split
    · exact ok _
    · split
      · exact ok _
      · exact of_unread trivial

theorem reads_workingMembers (folder : Path) : Reads (c.workingMembers folder) := by
  rw [workingMembers]
  dsimp only
  split
  · exact of_unread trivial
  · exact (Reads.mapM (fun x => c.reads_workingMember _ _ _ _ _) _).bind fun _ => ok _

theorem reads_namedTree (spec : String) (folder : Path) : Reads (c.namedTree spec folder) := by
  simp only [namedTree]
  split
  · simp only [pure_bind]
    split
    · exact ok _
    · exact of_unread trivial
  · exact of_unread trivial
  · exact of_unread trivial

theorem reads_stagedMember (folder : Path) (e : IndexEntry) : Reads (stagedMember folder e) := by
  rw [stagedMember]
  -- An entry that stands at the folder itself makes the text below it impossible to tell.
  refine Reads.bind (fun err he => ?_) fun below => ?_
  · rw [textBelow] at he
    split_ifs at he
    cases he
    trivial
  · split
    · exact ok _
    · dsimp only
      split_ifs
      · exact ok _
      · exact ok _

/-- A folder is listed, or something of it cannot be read. -/
theorem reads_members (f : Folder) : Reads (c.members f) := by
  rw [members]
  split
  · exact c.reads_workingMembers _
  · rw [stagedMembers]
    exact (Reads.mapM (reads_stagedMember _) _).bind fun _ => ok _
  · rw [namedMembers]
    exact (c.reads_namedTree _ _).bind fun _ => ok _

theorem reads_contentId (b : Blob) : Reads (c.contentId b) := by
  unfold contentId
  split
  · split
    · exact ok _
    · exact of_unread trivial
  · refine (c.reads_namedTree _ _).bind fun tree => ?_
    split
    · exact ok _
    · exact of_unread trivial
  · refine Reads.bind (fun e he => ?_) fun entry => ?_
    · rw [stagedEntry] at he
      split at he
      · cases he
      · cases he
        trivial
    · split
      · exact ok _
      · exact of_unread trivial

/-- A content is given, or it cannot be read. -/
theorem reads_content (b : Blob) : Reads (c.content b) := by
  rw [content]
  split_ifs
  · split
    · exact ok _
    · exact of_unread trivial
  · refine (c.reads_contentId b).bind fun id => ?_
    split
    · exact ok _
    · exact of_unread trivial

end Checkout

end ThreeWay
