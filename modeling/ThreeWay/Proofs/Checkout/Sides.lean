import ThreeWay.Checkout.Content
import ThreeWay.Proofs.Compare
import ThreeWay.Proofs.Object.Id
import ThreeWay.Proofs.Repository.History
import ThreeWay.Proofs.Run

/-!
# The Sides of a File

What a checkout says of a path that is a file: in the working tree it is a file with the id of its
content, and at a revision one with the id that the entry records and with the history of the path. Both
hold the content that is read for them, the one from the disk and the other from the object database.

An object database is trusted to keep a content under the id of that content.

`Checkout.HasFile` puts together what has to be known of a revision for that: that it resolves, that its commit
records a file at the names of the path, and that the content is stored. The last is needed only where contents
are read. Whatever is compared by ids gets by without it.

## Main definitions

* `Database.HasBlob`: A content under its own id.
* `Blob.onDisk`, `Blob.atRevision`: The two kinds of files.
* `Checkout.HasFile`: A revision that records a file.

## Theorems

* `content_congr`, `content_eq_of_id`: What is read depends on the place and on the id.
* `localVariant_file`, `namedVariant_file`: What stands at the path of a file.
* `holds_onDisk`, `holds_atRevision`: Both have a known content.
* `not_unequal_onDisk`: A file that was not changed is not found to differ.
* `lastChange_eq`: The last change of a path is told.
-/

namespace ThreeWay

/-- A content is recorded under its own id. -/
structure Database.HasBlob (db : Database) (id : ObjectId) (content : Bytes) : Prop where
  found : db.blob? id = some content
  addressed : id = .ofBlob content

/-- A file of the working tree with its content. -/
def Blob.onDisk (path : Path) (content : Bytes) : Blob :=
  { Blob.at path .workingTree with contentId := some ⟨(ObjectId.ofBlob content).hex⟩ }

/-- A file of a revision with the id of its entry and the history of its path. -/
def Blob.atRevision (path : Path) (spec : String) (id : ObjectId) (history : Ancestry) : Blob :=
  { Blob.at path (.named spec) with
    contentId := some ⟨id.hex⟩
    ancestry := some history.commits
    truncated := history.truncated }

namespace Checkout

section

variable {α : Type} {a : α}

theorem eq_ok_of_askObjects {answer : Except ObjectError α} (h : askObjects answer = .ok a) :
    answer = .ok a := by
  cases answer with
  | error e => cases h
  | ok b => rw [Except.ok.inj h]

end

/-- A revision whose commit records a file at a chain of names. -/
structure HasFile (c : Checkout) (spec : String) (start : Commit) (names : List Bytes) (leaf : Leaf)
    (content : Bytes) : Prop where
  resolved : c.repository.resolveCommit spec = .ok (some start)
  recorded : start.tree.find? names = some (.leaf leaf)
  isFile : leaf.mode.isFile = true
  blob : c.repository.objects.HasBlob leaf.id content

variable {c : Checkout} {path : Path} {content : Bytes}

/-- What is read for a file depends on where it is and on its id. -/
theorem content_congr {a b : Blob} (hp : a.path = b.path) (hr : a.revision = b.revision)
    (hi : a.contentId = b.contentId) : c.content a = c.content b := by
  rcases a with ⟨_, _, path, revision, id, _, _⟩
  rcases b with ⟨_, _, path', revision', id', _, _⟩
  simp only at hp hr hi
  rw [hp, hr, hi]
  rfl

/-- Off the working tree a file with an id is read by that id, whatever its revision. -/
theorem content_eq_of_id {a b : Blob} (hp : a.path = b.path) (ha : a.revision ≠ .workingTree)
    (hb : b.revision ≠ .workingTree) {id : ContentId} (hia : a.contentId = some id)
    (hib : b.contentId = some id) : c.content a = c.content b := by
  rw [Checkout.content, Checkout.content, if_neg ha, if_neg hb, contentId, contentId, hia, hib, hp]

theorem content_of_read {b : Blob} (hb : b.revision = .workingTree)
    (h : c.disk.read (c.fileOf b.path) = .ok content) : c.content b = .ok content := by
  rw [Checkout.content, if_pos hb, Disk.readBytes, h]
  rfl

theorem content_of_blob {b : Blob} {id : ObjectId} (hb : b.revision ≠ .workingTree)
    (hid : c.contentId b = .ok id) (h : c.repository.objects.blob? id = some content) :
    c.content b = .ok content := by
  simp only [Checkout.content, if_neg hb, hid, Run.ok_bind, h]
  rfl

section

variable {executable : Bool}
  (h : c.disk.stat (c.fileOf path) = .ok (.leaf (.regular content executable)))

include h

theorem read_file : c.disk.read (c.fileOf path) = .ok content := by
  rw [Disk.read, h]
  rfl

/-- A regular file of the working tree has the id of its content. -/
theorem localVariant_file (folder : Bool) :
    c.localVariant path folder = .ok (some (.blob (.onDisk path content))) := by
  have hid : c.disk.blobId (c.fileOf path) = .ok (.ofBlob content) := by
    rw [Disk.blobId, read_file h]
  simp only [localVariant, h, hid]
  rfl

/-- The content of a file of the working tree is read from the disk. -/
theorem holds_onDisk (byteCompare : Bool) :
    Comparator.Holds ⟨c.store, byteCompare⟩ (.onDisk path content) content where
  present := rfl
  identified := rfl
  readable :=
    have hcontent : c.content (.onDisk path content) = .ok content :=
      content_of_read rfl (read_file h)
    hcontent

end

/-- The digits of an id are read back. -/
theorem contentId_atRevision (content : Bytes) (path : Path) (spec : String) (history : Ancestry) :
    c.contentId (.atRevision path spec (.ofBlob content) history) = .ok (.ofBlob content) := by
  -- An id is told as digits and has to be read from them before it can be looked up.
  have hparse : ObjectId.parse? (ObjectId.ofBlob content).hex = some (.ofBlob content) :=
    ObjectId.parse?_ofObject _ _
  simp only [contentId, Blob.atRevision, hparse]

/-- What is read for a file of a revision stands in the object database. -/
theorem blob?_of_content {spec : String} {history : Ancestry} {found : Bytes}
    (h : c.content (.atRevision path spec (.ofBlob content) history) = .ok found) :
    c.repository.objects.blob? (.ofBlob content) = some found := by
  have hrevision : (Blob.atRevision path spec (.ofBlob content) history).revision ≠ .workingTree :=
    Revision.noConfusion
  rw [Checkout.content, if_neg hrevision, contentId_atRevision, Run.ok_bind] at h
  cases hb : c.repository.objects.blob? (.ofBlob content) with
  | none =>
      rw [hb] at h
      cases h
  | some bytes =>
      rw [hb] at h
      exact congrArg some (Except.ok.inj h)

/-- A file that was not changed since a revision is not found to differ from it. -/
theorem not_unequal_onDisk {executable : Bool}
    (h : c.disk.stat (c.fileOf path) = .ok (.leaf (.regular content executable)))
    (addressed : ∀ other, c.repository.objects.blob? (.ofBlob content) = some other → other = content)
    (spec : String) (history : Ancestry) (byteCompare : Bool) :
    Comparator.equal ⟨c.store, byteCompare⟩ (some (.blob (.onDisk path content)))
      (some (.blob (.atRevision path spec (.ofBlob content) history))) ≠ .ok false := by
  rw [ne_eq, Comparator.unequal_iff rfl rfl]
  -- The two have one id. So they could differ by their bytes only, and what is stored under the id is the content.
  rintro (⟨_, i, j, hi, hj, hne⟩ | ⟨_, x, y, hx, hy, hne⟩)
  · exact hne (Option.some.inj (hi.symm.trans hj))
  · have hdisk := (holds_onDisk h byteCompare).readable
    have hxc : x = content := Except.ok.inj (hx.symm.trans hdisk)
    have hyc : y = content := addressed y (blob?_of_content hy)
    exact hne (hxc.trans hyc.symm)

/-- The content of a file of a revision is read from the object database. -/
theorem holds_atRevision {id : ObjectId} (h : c.repository.objects.HasBlob id content)
    (path : Path) (spec : String) (history : Ancestry) (byteCompare : Bool) :
    Comparator.Holds ⟨c.store, byteCompare⟩ (.atRevision path spec id history) content where
  present := rfl
  identified := by
    rw [Blob.atRevision, h.addressed]
  readable := by
    have hid : c.contentId (.atRevision path spec id history) = .ok id := by
      rw [h.addressed]
      exact contentId_atRevision content path spec history
    have hcontent : c.content (.atRevision path spec id history) = .ok content :=
      content_of_blob Revision.noConfusion hid h.found
    exact hcontent

/-- The last change of a path is the first commit of its history. -/
theorem lastChange_eq {names : List Bytes} {start : Commit} {spec : String}
    (hspec : c.repository.resolveCommit spec = .ok (some start)) (hnames : path.treeNames = .ok names) :
    c.lastChange path spec =
      .ok ((History.all c.repository.objects start names).head?.map CommitInfo.ofCommit) := by
  -- The history of the path is known as a list, and its head is asked for.
  rw [lastChange, hspec]
  change askObjects (History.lastChange c.repository.objects start path) = _
  rw [History.lastChange_eq hnames]
  rfl

section

variable {names : List Bytes} {start : Commit} {spec : String} {leaf : Leaf}
  (h : c.HasFile spec start names leaf content) (hnames : path.treeNames = .ok names)

include h hnames

/-- A file of a revision has the id that the entry records, and the history of its path. -/
theorem namedVariant_file {history : Ancestry}
    (hhistory : History.ancestry c.repository.objects start path c.settings.ancestryLimit =
      .ok history) :
    c.namedVariant path spec = .ok (some (.blob (.atRevision path spec leaf.id history))) := by
  -- Every step has an answer: the names, the entry, its mode and the history.
  have hanswer : c.recordedVariant start path spec =
      .ok (some (.blob (.atRevision path spec leaf.id history))) := by
    simp only [recordedVariant, hnames, askObjects, Run.ok_bind, h.recorded, h.isFile, if_true,
      hhistory]
    rfl
  rw [namedVariant, h.resolved]
  exact hanswer

end

end Checkout

end ThreeWay
