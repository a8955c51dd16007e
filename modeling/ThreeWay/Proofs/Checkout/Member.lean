import ThreeWay.Checkout.Listing
import ThreeWay.Proofs.Run

/-!
# Answers Told Apart

A listing of the working tree asks about one name after another. A name that is no text is left out, and so is
one that is hidden. What is left is listed under its name, at the path of the folder with the name joined to it:
a folder as it is, and a file with the id of its content.

`Answered` tells the answers apart, with all that is known in each case. Whoever knows that a name has an answer
has no need to look at how it came to be. `AnsweredStaged` does the same for a path that is looked up in the index.

Both are inversions of one function of the code, proved once and for all of its branches. The listings that are
shown to be complete, the ones that are compared with a tree, and the names that a listing is read from all start
from an answer that is there, and they differ in what they know besides.

## Main definitions

* `Checkout.Answered`: The answers that a name on the disk can have.
* `Checkout.AnsweredStaged`: What can stand at a path of the index.

## Theorems

* `answered_of_workingMember`, `answered_of_stagedVariant`: There are no other answers.
-/

namespace ThreeWay.Checkout

/-- An answer about a name in a folder of the working tree. -/
inductive Answered (c : Checkout) (tracked : TrackedPaths) (folder : Path) (dir : RawPath) (name : Bytes) :
    DiskEntry → Option (String × Variant) → Prop
  | unreadable (entry : DiskEntry) (noText : Utf8.decode? name = none) :
      Answered c tracked folder dir name entry none
  | reserved (entry : DiskEntry) (text : Utf8.decode? name = some gitFolderName) :
      Answered c tracked folder dir name entry none
  | hidden (entry : DiskEntry) (raw : String) (text : Utf8.decode? name = some raw)
      (hides : c.isHidden tracked (folder.join raw) entry.isFolder = .ok true) :
      Answered c tracked folder dir name entry none
  | folder (value : Unit) (below : Forest FileEntry Unit) (raw : String) (text : Utf8.decode? name = some raw)
      (free : raw ≠ gitFolderName) (shows : c.isHidden tracked (folder.join raw) true = .ok false) :
      Answered c tracked folder dir name (.folder value below)
        (some (raw, .ofFolder (.at (folder.join raw) .workingTree)))
  | file (value : FileEntry) (raw : String) (text : Utf8.decode? name = some raw)
      (free : raw ≠ gitFolderName) (shows : c.isHidden tracked (folder.join raw) false = .ok false)
      (id : ObjectId) (read : c.disk.blobId (dir.join ⟨name⟩) = .ok id) :
      Answered c tracked folder dir name (.leaf value)
        (some (raw, .blob { Blob.at (folder.join raw) .workingTree with contentId := some ⟨id.hex⟩ }))

variable {c : Checkout} {tracked : TrackedPaths} {folder : Path} {dir : RawPath} {name : Bytes}
  {entry : DiskEntry} {member : Option (String × Variant)}

/-- A name has one of these answers, if it has one at all. -/
theorem answered_of_workingMember (h : c.workingMember tracked folder dir name entry = .ok member) :
    c.Answered tracked folder dir name entry member := by
  rw [workingMember] at h
  cases text : Utf8.decode? name with
  | none =>
      rw [text] at h
      cases h
      exact .unreadable entry text
  | some raw =>
      rw [text] at h
      dsimp only at h
      by_cases free : raw = gitFolderName
      · rw [if_pos free] at h
        cases h
        exact .reserved entry (free ▸ text)
      rw [if_neg free] at h
      -- Whether the name is hidden is asked before what stands there, so a hidden name has no other answer.
      rcases Run.bind_eq_ok h with ⟨hides, shows, h⟩
      cases hides with
      | true =>
          cases h
          exact .hidden entry raw text shows
      | false =>
          cases entry with
          | folder value below =>
              cases h
              exact .folder value below raw text free shows
          | leaf value =>
              dsimp only at h
              -- A file is hashed to be listed, and without an id the whole listing fails.
              cases read : c.disk.blobId (dir.join ⟨name⟩) with
              | error e =>
                  rw [read] at h
                  cases h
              | ok id =>
                  rw [read] at h
                  cases h
                  exact .file value raw text free shows id read

/-- What stands at a path of the index. -/
inductive AnsweredStaged (c : Checkout) (path : Path) : Variant → Prop
  | top (isRoot : path.isRoot = true) : AnsweredStaged c path (.ofFolder (.at path .index))
  | file (belowRoot : path.isRoot = false) (e : IndexEntry) (found : c.stagedEntry path = .ok (some e)) :
      AnsweredStaged c path (.blob { Blob.at path .index with contentId := some ⟨e.id.hex⟩ })
  | folder (belowRoot : path.isRoot = false) (missing : c.stagedEntry path = .ok none)
      (holds : (c.repository.index.any fun e => e.place.startsWith path) = true) :
      AnsweredStaged c path (.ofFolder (.at path .index))

/-- A path of the index has one of these answers, if something stands there. -/
theorem answered_of_stagedVariant {path : Path} {v : Variant} (h : c.stagedVariant path = .ok (some v)) :
    c.AnsweredStaged path v := by
  rw [stagedVariant] at h
  cases isRoot : path.isRoot with
  | true =>
      rw [isRoot, if_pos rfl] at h
      cases h
      exact .top isRoot
  | false =>
      rw [isRoot, if_neg Bool.false_ne_true] at h
      rcases Run.bind_eq_ok h with ⟨entry, found, h⟩
      cases entry with
      | some e =>
          cases h
          exact .file isRoot e found
      | none =>
          dsimp only at h
          -- Without an entry of its own the path is a folder if some entry lies below it.
          by_cases holds : (c.repository.index.any fun e => e.place.startsWith path) = true
          · rw [if_pos holds] at h
            cases h
            exact .folder isRoot found holds
          · rw [if_neg holds] at h
            cases h

end ThreeWay.Checkout
