import ThreeWay.Proofs.Checkout.Answers
import ThreeWay.Proofs.Checkout.Read
import ThreeWay.Proofs.Index
import ThreeWay.Proofs.Path.Parent

/-!
# Content and the Way to It

A file of a revision is read by its id. Without an id it is looked up once more, by its path: in the index as the
plain entry of that path, and in a commit as a name in the tree of the folder that holds the path. Which of these
is taken depends on how the caller came by the file, and nothing compares their answers.

They agree for every file that a checkout itself finds, at any depth. A path that is looked up is split into names,
and the folder that its parent is looked up as is the one before the last name. A name that is listed is joined to
the path of the folder, and taken off again when the file is read. An entry of the index is listed under the text
of its own bytes. The last two go wrong where a backslash in a name becomes a slash of the path, or where bytes are
no text, so they are said of names without either.

A file of a listing says nothing of how it was made: two raw paths may give the same member. So a listing is asked
for some raw path of the file, and every plain one of them will do.

So there is one statement about reading and several about finding. `Resolves` says that a file has a digest for
its id and that the same id is found without it, and from this `Resolves.faithful` gets everything about its
content, by the object that the id stands for. Each way of finding a file is then a lemma that it resolves. The
database is trusted with no more than that an object which is stored under a digest has that digest.

## Main definitions

* `Repository.Sound`: What the format of a repository rules out, and what its objects are trusted with.
* `IsPlainText`: A raw path that is text without backslashes.
* `Checkout.Resolves`: A file whose id is found again without it.
* `Checkout.RecordedAs`: The raw path that a file of a listing is made of.
* `Checkout.Faithful`: A file whose content is read with its id or without it, and has that id.

## Theorems

* `Resolves.faithful`: A file whose id is found again is read from one object.
* `contentId_of_folder`: The id of a file is the one that its folder has under its name.
* `resolves_of_namedVariant`, `resolves_of_stagedVariant`: Files that are looked up are found again.
* `resolves_of_namedMember`, `resolves_of_stagedMember`: So are files that are listed.
* `exists_recordedAs`: Every file of a listing is made of some raw path.
* `faithful_of_found`: The content of a file does not depend on how the file is found.
* `faithful_of_restaged`: A file at the head and another content of it in the index.
-/

namespace ThreeWay

open ThreeWay.Path Scanner

/-! ### What a Repository Has in It -/

/-- What the format of a repository rules out, and what its object database is trusted with. Entries of the index
    ascend and differ, and no part of their paths is empty, a dot or two dots. The entries of a tree differ, and none
    is called by nothing, by a dot or by a text with a slash. Every id is a digest, and a content
    is kept under its own id. -/
structure Repository.Sound (r : Repository) : Prop where
  ordered : Ascending IndexEntry.key r.index
  parts : ∀ e ∈ r.index, ∀ name ∈ e.names, name ≠ [] ∧ name ≠ [0x2E] ∧ name ≠ [0x2E, 0x2E] ∧ 0 ∉ name
  staged : ∀ e ∈ r.index, e.id.IsDigest
  distinct : ∀ start, .commit start ∈ r.objects → start.tree.members.Distinct
  named : ∀ start, .commit start ∈ r.objects →
    start.tree.members.AllNames fun name => name ≠ [] ∧ name ≠ [0x2E] ∧ 0x2F ∉ name
  recorded : ∀ start, .commit start ∈ r.objects → start.tree.members.AllLeaves fun leaf => leaf.id.IsDigest
  addressed : ∀ id content, r.objects.blob? id = some content → id = .ofBlob content

/-- A raw path that is text without backslashes. -/
def IsPlainText (raw : Bytes) : Prop :=
  ∃ text : String, Utf8.encode text = raw ∧ '\\' ∉ text.toList

/-- A path that is text without backslashes is made of ordinary names, if no part of it is empty or of dots. -/
theorem IndexEntry.isName_of_isPlainText {e : IndexEntry} (plain : IsPlainText e.path)
    (parts : ∀ name ∈ e.names, name ≠ [] ∧ name ≠ [0x2E] ∧ name ≠ [0x2E, 0x2E] ∧ 0 ∉ name) :
    ∀ name ∈ e.names, IsName name := by
  rcases plain with ⟨text, hraw, free⟩
  have pieces : ∀ piece ∈ text.toList.splitOn '/', '/' ∉ piece ∧ ∀ c ∈ piece, c ∈ text.toList :=
    fun _ hm => not_mem_of_mem_splitOn hm
  -- A slash among the bytes is a slash of the text, so the names are the pieces of the text.
  have hnames : e.names = (text.toList.splitOn '/').map fun piece => Utf8.encode (String.ofList piece) := by
    have hpath := encode_intercalate (text.toList.splitOn '/')
    rw [List.intercalate_splitOn, String.ofList_toList, hraw] at hpath
    rw [names, hpath, List.splitOn_intercalate _ ?_ (mt List.map_eq_nil_iff.mp (List.splitOn_ne_nil _ _))]
    intro name hm hslash
    rcases List.mem_map.mp hm with ⟨piece, hpiece, rfl⟩
    refine (pieces piece hpiece).1 ?_
    have hchar := (Utf8.mem_encode (b := RawPath.slash) (by decide) _).mp hslash
    rwa [String.toList_ofList] at hchar
  intro name hm
  have part := parts name hm
  rw [hnames] at hm
  rcases List.mem_map.mp hm with ⟨piece, hpiece, rfl⟩
  -- Two pieces that are no names are given by their bytes, and bytes differ where texts do.
  have spelled : ∀ cs : List Char, piece = cs → Utf8.encode (String.ofList piece) = Utf8.encode (String.ofList cs) :=
    fun cs h => by rw [h]
  refine ⟨String.ofList piece, rfl, ?_, ?_⟩
  · rw [String.toList_ofList]
    refine ⟨?_, (pieces piece hpiece).1, fun hback => free ((pieces piece hpiece).2 _ hback)⟩
    rw [isStep, decide_eq_true_iff]
    exact ⟨fun h => part.1 (spelled [] h), fun h => part.2.1 (spelled ['.'] h)⟩
  · rw [String.toList_ofList]
    exact fun h => part.2.2.1 (spelled ['.', '.'] h)

namespace Checkout

variable {c : Checkout} {f : Folder} {b : Blob} {id : ObjectId} {path : Path} {spec : String}

/-- A file off the working tree has a digest as its id, and the same id is found for it if it has none. -/
structure Resolves (c : Checkout) (b : Blob) (id : ObjectId) : Prop where
  recorded : b.revision ≠ .workingTree
  given : b.contentId = some ⟨id.hex⟩
  digest : id.IsDigest
  found : c.contentId { b with contentId := none } = .ok id

/-- The same is read of a file with its id and without it, and what is read has that id. -/
structure Faithful (c : Checkout) (b : Blob) : Prop where
  same : c.content { b with contentId := none } = c.content b
  identified : ∀ bytes, c.content b = .ok bytes → b.contentId = some ⟨(ObjectId.ofBlob bytes).hex⟩

theorem Resolves.contentId_eq (h : c.Resolves b id) : c.contentId b = .ok id := by
  simp only [contentId, h.given, h.digest.parse?]

/-- A file whose id is found again is read from one object. -/
theorem Resolves.faithful (h : c.Resolves b id)
    (addressed : ∀ id content, c.repository.objects.blob? id = some content → id = .ofBlob content) :
    c.Faithful b where
  same := by
    have recorded := h.recorded
    rw [content, content, if_neg recorded, if_neg recorded, h.found, h.contentId_eq]
  identified bytes read := by
    rw [content, if_neg h.recorded, h.contentId_eq, Run.ok_bind] at read
    cases hblob : c.repository.objects.blob? id with
    | none =>
        rw [hblob] at read
        cases read
    | some content =>
        rw [hblob] at read
        cases read
        rw [h.given, addressed id _ hblob]

/-! ### Files That a Lookup Finds -/

/-- A file that is looked up in the index has the id of the plain entry at its path. -/
theorem resolves_of_stagedVariant (sound : c.repository.Sound)
    (answer : c.stagedVariant path = .ok (some (.blob b))) : ∃ id, c.Resolves b id := by
  cases answered_of_stagedVariant answer with
  | file _ e found =>
      -- The entry that was found is an entry of the index, and its id is a digest like all others.
      have hmem : e ∈ c.repository.index := by
        unfold stagedEntry at found
        split at found
        · exact List.mem_of_find?_eq_some (Except.ok.inj found)
        · cases found
      refine ⟨e.id, Revision.noConfusion, rfl, sound.staged e hmem, ?_⟩
      simp only [contentId, Blob.at, found, Run.ok_bind]
      rfl

/-- The id of a file that is looked up in a tree is the one that its folder has under its name. -/
theorem contentId_of_folder {t : Tree} {leaf : Leaf} (hid : b.contentId = none)
    (hrevision : b.revision = .named spec) (hparent : b.path.parent? = some path)
    (htree : c.namedTree spec path = .ok t)
    (hentry : t.members.find? (Utf8.encode b.path.fileName) = some (.leaf leaf)) :
    c.contentId b = .ok leaf.id := by
  simp only [contentId, hid, hrevision, hparent, Option.getD_some, htree, Run.ok_bind, hentry]
  rfl

/-- A revision answers only where a path can be looked up by its names. -/
theorem exists_treeNames_of_namedVariant {v : Variant} (answer : c.namedVariant path spec = .ok (some v)) :
    ∃ names, path.treeNames = .ok names := by
  rw [namedVariant] at answer
  rcases Run.bind_eq_ok answer with ⟨start?, _, answer⟩
  cases start? with
  | none => cases answer
  | some start =>
      rcases Run.bind_eq_ok answer with ⟨names, hnames, _⟩
      exact ⟨names, eq_ok_of_askObjects hnames⟩

/-- A file that is looked up in a revision is recorded in the folder that its parent is looked up as. -/
theorem resolves_of_namedVariant (sound : c.repository.Sound)
    (answer : c.namedVariant path spec = .ok (some (.blob b))) :
    ∃ id, c.Resolves b id := by
  rcases exists_treeNames_of_namedVariant answer with ⟨names, hnames⟩
  rcases records_of_namedVariant hnames answer with ⟨leaf, history, ⟨start, hspec, hleaf, _⟩, rfl⟩
  have digest := (sound.recorded start (Repository.mem_of_resolveCommit hspec)).of_lookup
    ((Forest.Entry.lookup_folder_eq_leaf_iff _ _).mp hleaf)
  have hne : names ≠ [] := by
    rintro rfl
    cases hleaf
  -- The path is cut at its last name. The front is looked up as a folder, and the name is found in it.
  rcases treeNames_parent hnames hne with ⟨folder, above, hparent, habove, rfl⟩
  rcases Forest.Entry.folder_of_lookup_concat hleaf with ⟨id, members, hfolder⟩
  have hentry := (Forest.Entry.lookup_concat hfolder _).symm.trans hleaf
  exact ⟨leaf.id, Revision.noConfusion, rfl, digest,
    contentId_of_folder rfl rfl hparent (namedTree_of_find? hspec habove hfolder) hentry⟩

/-! ### Files That a Listing Finds -/

/-- A file that is listed from a tree is found in that tree again, by the last segment of its path. -/
theorem resolves_of_namedMember (sound : c.repository.Sound) {t : Tree} (tree : c.namedTree spec f.path = .ok t)
    {name : Bytes} {entry : TreeEntry} (member : (name, entry) ∈ t.members.entries)
    {text : String} (made : namedMember f.path spec name entry = some (text, .blob b)) (plain : IsPlainText name) :
    ∃ id, c.Resolves b id := by
  -- The folder may be a submodule that is recorded here, so the tree need not belong to the commit of the revision.
  rcases exists_commit_of_namedTree tree with ⟨commit, names, hmem, hfind⟩
  have distinct : t.members.Distinct := (sound.distinct commit hmem).of_lookup_folder hfind
  have named := ((sound.named commit hmem).of_lookup_folder hfind).2.of_mem_firstNames (List.mem_map_of_mem member)
  have hentry := (Forest.mem_entries_iff distinct).mp member
  have free : 0x5C ∉ name := by
    rcases plain with ⟨text, rfl, free⟩
    exact fun hback => free ((Utf8.mem_encode (by decide) text).mp hback)
  rcases Option.bind_eq_some_iff.mp made with ⟨text, htext, made⟩
  have segment : IsPlain text.toList := isKept_of_bytes named free text htext
  cases entry with
  | folder id members => cases made
  | leaf leaf =>
      have digest := (sound.recorded commit hmem).of_lookup
        ((Forest.Entry.lookup_folder_eq_leaf_iff _ _).mp ((Forest.Entry.lookup_concat hfind name).trans hentry))
      dsimp only at made
      split_ifs at made
      cases made
      refine ⟨leaf.id, Revision.noConfusion, rfl, digest,
        contentId_of_folder rfl rfl (parent?_join f.path segment) tree ?_⟩
      have hname : Utf8.encode (f.path.join text).fileName = name := by
        rw [fileName_join f.path segment, Utf8.encode_of_decode? htext]
      exact hname ▸ hentry

/-- The place of a plain entry leads back to the entry. -/
theorem stagedEntry_place (sound : c.repository.Sound) {e : IndexEntry} (he : e ∈ c.repository.index.plain)
    (plain : IsPlainText e.path) : c.stagedEntry e.place = .ok (some e) := by
  have parts := sound.parts e (Index.mem_plain.mp he).1
  have named := IndexEntry.isName_of_isPlainText plain parts
  have hroot := isRoot_pathOf named e.names_ne_nil
  have hnames := treeNames_pathOf fun name hm => ⟨named name hm, (parts name hm).2.2.2⟩
  -- The lookup compares bytes, and the place gives back those of the entry.
  have hbytes : (pathOf e.names).toBytes = e.path := by
    rw [toBytes_eq (isOrdinary_pathOf named), names_pathOf named, e.intercalate_names]
  rw [e.place_eq]
  simp only [stagedEntry, hroot, hnames, hbytes, Index.find?_of_mem_plain sound.ordered he]

/-- A file that is listed from the index has the id of the plain entry at its path. -/
theorem resolves_of_stagedMember (sound : c.repository.Sound) {e : IndexEntry}
    (he : e ∈ c.repository.index.plain) {name : String}
    (made : stagedMember f.path e = .ok (some (name, .blob b))) (plain : IsPlainText e.path) :
    ∃ id, c.Resolves b id := by
  rw [stagedMember] at made
  rcases Run.bind_eq_ok made with ⟨below?, _, made⟩
  cases below? with
  | none => cases made
  | some below =>
      dsimp only at made
      -- A text with a slash left is a folder, so a file has none.
      by_cases hslash : below.contains '/' = true
      · rw [if_pos hslash] at made
        cases made
      · rw [if_neg hslash] at made
        cases made
        refine ⟨e.id, Revision.noConfusion, rfl, sound.staged e (Index.mem_plain.mp he).1, ?_⟩
        simp only [contentId, Blob.at, stagedEntry_place sound he plain, Run.ok_bind]
        rfl

/-- The raw path under which a file of a listing is recorded: the path of the entry of the index that it is made
    of, or the name that it has in the tree of the folder. -/
inductive RecordedAs (c : Checkout) (f : Folder) (b : Blob) : Bytes → Prop
  | staged (e : IndexEntry) (name : String) (revision : f.revision = .index)
      (plain : e ∈ c.repository.index.plain) (made : stagedMember f.path e = .ok (some (name, .blob b))) :
      RecordedAs c f b e.path
  | named (spec : String) (t : Tree) (name : Bytes) (entry : TreeEntry) (revision : f.revision = .named spec)
      (tree : c.namedTree spec f.path = .ok t) (member : (name, entry) ∈ t.members.entries)
      (text : String) (made : namedMember f.path spec name entry = some (text, .blob b)) : RecordedAs c f b name

/-- Every file of a listing is recorded under some path. -/
theorem exists_recordedAs {found : List Variant} (off : f.revision ≠ .workingTree)
    (listed : c.members f = .ok found) (member : .blob b ∈ found) : ∃ raw, c.RecordedAs f b raw := by
  rw [members] at listed
  -- What is listed was made from the entries of the index or of a tree, each of which is some raw path.
  cases hf : f.revision with
  | workingTree => exact absurd hf off
  | index =>
      rw [hf] at listed
      dsimp only at listed
      rw [stagedMembers] at listed
      rcases Run.bind_eq_ok listed with ⟨shown, hshown, listed⟩
      cases listed
      rcases List.mem_map.mp member with ⟨⟨name, v⟩, hmem, rfl⟩
      rcases exists_entry_of_shown hshown hmem with ⟨e, he, made⟩
      exact ⟨e.path, .staged e name hf he made⟩
  | named spec =>
      rw [hf] at listed
      dsimp only at listed
      rw [namedMembers] at listed
      rcases Run.bind_eq_ok listed with ⟨t, tree, listed⟩
      cases listed
      rcases List.mem_map.mp member with ⟨⟨text, v⟩, hmem, rfl⟩
      rcases List.mem_filterMap.mp (mem_of_mem_ascending hmem) with ⟨⟨name, entry⟩, hmem, made⟩
      exact ⟨name, .named spec t name entry hf tree hmem text made⟩

/-- Where a file is looked up or listed, in the index or at a named revision, the same is read of it with its id and
    without it, and what is read has that id. A file of a listing is made of some raw path, and is asked to be made of
    one that is text without backslashes. -/
theorem faithful_of_found (sound : c.repository.Sound) {revision : Revision} (off : revision ≠ .workingTree)
    (b : Blob) :
    (∀ path, c.variant path revision = .ok (some (.blob b)) → c.Faithful b) ∧
    ∀ f found, f.revision = revision → c.members f = .ok found → .blob b ∈ found →
      (∃ raw, c.RecordedAs f b raw) ∧ ∀ raw, c.RecordedAs f b raw → IsPlainText raw → c.Faithful b := by
  refine ⟨fun path answer => ?_, fun f found hf listed member => ⟨?_, fun raw recorded plain => ?_⟩⟩
  · cases revision with
    | workingTree => exact absurd rfl off
    | index =>
        rcases resolves_of_stagedVariant sound answer with ⟨id, resolves⟩
        exact resolves.faithful sound.addressed
    | named spec =>
        rcases resolves_of_namedVariant sound answer with ⟨id, resolves⟩
        exact resolves.faithful sound.addressed
  · exact exists_recordedAs (hf ▸ off) listed member
  · cases recorded with
    | staged e name _ he made =>
        rcases resolves_of_stagedMember sound he made plain with ⟨id, resolves⟩
        exact resolves.faithful sound.addressed
    | named spec t name entry _ tree hentry text made =>
        rcases resolves_of_namedMember sound tree hentry made plain with ⟨id, resolves⟩
        exact resolves.faithful sound.addressed

namespace Restaged

/-- A commit with a file in a folder. -/
def nested : Commit where
  id := ⟨"nested"⟩
  tree := ⟨⟨"tree"⟩, .folder (Utf8.encode "d") ⟨"folder"⟩
    (.leaf (Utf8.encode "f") ⟨.regular, .ofBlob [1]⟩ .nil) .nil⟩
  parents := []
  author := .make "a" "a" 0 0
  committer := .make "a" "a" 0 0
  message := []

/-- The head stands on the commit, and another content of the file is staged. -/
def checkout : Checkout where
  disk := ⟨[Utf8.encode "w"], .nil⟩
  root := .ofString "/w"
  repository := {
    objects := [.commit nested, .blob (.ofBlob [1]) [1], .blob (.ofBlob [2]) [2]]
    index := [⟨Utf8.encode "d/f", 0, .regular, .ofBlob [2]⟩]
    references := []
    head := .detached ⟨"nested"⟩
    log := [] }
  settings := Settings.default

/-- The commit is the only one. -/
theorem eq_nested {start : Commit} (h : .commit start ∈ checkout.repository.objects) : start = nested := by
  rcases List.mem_cons.mp h with h | h
  · exact StoredObject.commit.inj h
  · rcases List.mem_cons.mp h with h | h
    · cases h
    · cases List.mem_singleton.mp h

theorem addressed (id : ObjectId) (content : Bytes)
    (h : checkout.repository.objects.blob? id = some content) : id = .ofBlob content := by
  unfold Database.blob? at h
  split at h
  · rename_i other _ hfound
    cases h
    have hid : other = id :=
      of_decide_eq_true (List.find?_some (p := fun object : StoredObject => decide (object.id = id)) hfound)
    -- Three objects, of which the commit is no content and the other two are kept under the ids of theirs.
    rcases List.mem_cons.mp (List.mem_of_find?_eq_some hfound) with h | h
    · cases h
    · rcases List.mem_cons.mp h with h | h
      · cases h
        exact hid.symm
      · cases List.mem_singleton.mp h
        exact hid.symm
  · cases h

theorem sound : checkout.repository.Sound where
  ordered := by decide
  parts := by decide
  staged e he := by
    cases List.mem_singleton.mp he
    exact ObjectId.isDigest_ofBlob [2]
  distinct start h := by
    rw [eq_nested h]
    decide
  named start h := by
    rw [eq_nested h]
    decide
  recorded start h := by
    rw [eq_nested h]
    exact ⟨⟨ObjectId.isDigest_ofBlob [1], trivial⟩, trivial⟩
  addressed := addressed

/-- The file at the head, and the file of the index. -/
def committedBlob : Blob :=
  .atRevision (.ofString "d/f") "HEAD" (.ofBlob [1]) ⟨[⟨"nested"⟩], false⟩

def stagedBlob : Blob :=
  { Blob.at (.ofString "d/f") .index with contentId := some ⟨(ObjectId.ofBlob [2]).hex⟩ }

theorem variant_committed :
    checkout.variant (.ofString "d/f") (.named "HEAD") = .ok (some (.blob committedBlob)) := by
  have file : checkout.HasFile "HEAD" nested [Utf8.encode "d", Utf8.encode "f"] ⟨.regular, .ofBlob [1]⟩ [1] :=
    ⟨rfl, rfl, rfl, by decide +kernel, rfl⟩
  exact namedVariant_file file (by decide) (by decide +kernel)

end Restaged

open Restaged in
/-- A file two levels down is looked up at the head and listed from the index, and without their ids both are read
    as with them. -/
theorem faithful_of_restaged :
    checkout.repository.Sound ∧
    checkout.variant (.ofString "d/f") (.named "HEAD") = .ok (some (.blob committedBlob)) ∧
    checkout.members (.at (.ofString "d") .index) = .ok [.blob stagedBlob] ∧
    checkout.content { committedBlob with contentId := none } = .ok [1] ∧
    checkout.content { stagedBlob with contentId := none } = .ok [2] := by
  have listed : checkout.members (.at (.ofString "d") .index) = .ok [.blob stagedBlob] := rfl
  have looked := (faithful_of_found sound (by decide) committedBlob).1 _ variant_committed
  have found := (faithful_of_found sound (by decide) stagedBlob).2 _ _ rfl listed List.mem_cons_self
  have raw : checkout.RecordedAs (.at (.ofString "d") .index) stagedBlob (Utf8.encode "d/f") :=
    .staged ⟨Utf8.encode "d/f", 0, .regular, .ofBlob [2]⟩ "f" rfl (Index.mem_plain.mpr ⟨List.mem_cons_self, rfl⟩) rfl
  have staged := found.2 _ raw ⟨"d/f", rfl, by decide⟩
  have one : checkout.content committedBlob = .ok [1] := by decide +kernel
  have two : checkout.content stagedBlob = .ok [2] := by decide +kernel
  exact ⟨sound, variant_committed, listed, looked.same.trans one, staged.same.trans two⟩

end Checkout

end ThreeWay
