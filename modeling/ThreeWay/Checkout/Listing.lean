import ThreeWay.Checkout.Basic

/-!
# Listings of a checkout

The members of a folder in the working tree, in the index, or at a revision. Every listing collects its
members under the names that it read, in ascending order of these names: a folder on the disk is read in
any order, a tree has an order of its own, and the index has one entry for each file below the folder. The
name that a member is read from is not always the name that it has, which is the last segment of its path.

Ignore rules hide only what is not tracked: a file that is in the index, or a folder with something of
the index below it, is listed whatever the rules say. Names that are no valid text are left out, and so is
the repository's folder in the working tree.

The index knows no folders; they are read off the paths of its entries. A folder that is a file in the
index cannot be listed.

## Main definitions

* `isTracked`: Whether a path is in the index, or has something of the index below it.
* `Checkout.workingMembers`, `Checkout.stagedMembers`, `Checkout.namedMembers`: The listings.
* `Checkout.members`: The same at any revision.
-/

namespace ThreeWay

/-- The texts of tracked paths, in ascending order. -/
abbrev TrackedPaths := List String

/-- Whether a path is tracked, or, for a folder, has something tracked below it. Only the first text that
    is not less than the folder with a slash is looked at: texts that continue it stand together. -/
def isTracked (tracked : TrackedPaths) (path : Path) (isFolder : Bool) : Bool :=
  if isFolder then
    let front := path.text ++ "/"
    (tracked.dropWhile (· < front)).head?.any fun text => front.toList.isPrefixOf text.toList
  else tracked.contains path.text

namespace Checkout

/-- The paths of the index at and below a folder. -/
def trackedPaths (c : Checkout) (folder : Path) : TrackedPaths :=
  ascending id <|
    ((c.repository.index.map IndexEntry.place).filter (·.startsWith folder)).map Path.text

/-- Whether a member of the working tree is hidden: it is ignored and not tracked. -/
def isHidden (c : Checkout) (tracked : TrackedPaths) (path : Path) (isFolder : Bool) :
    Except Error Bool := do
  if c.isRuleFile path then return false
  else
    let ignored ← Ignore.isIgnored c.disk c.root path isFolder
    return ignored && !isTracked tracked path isFolder

/-- A member of a folder in the working tree with its name, unless it is left out. -/
def workingMember (c : Checkout) (tracked : TrackedPaths) (folder : Path) (dir : RawPath)
    (name : Bytes) (entry : DiskEntry) : Except Error (Option (String × Variant)) :=
  match Utf8.decode? name with
  | none => .ok none
  | some text => do
    let path := folder.join text
    -- The ignore rules are not asked about it, so no failure of theirs can come from it.
    if text = gitFolderName then return none
    else if ← c.isHidden tracked path entry.isFolder then return none
    else
      match entry with
      | .folder _ _ => return some (text, .ofFolder (.at path .workingTree))
      | .leaf _ =>
        match c.disk.blobId (dir.join ⟨name⟩) with
        | .ok id =>
          return some (text, .blob { Blob.at path .workingTree with contentId := some ⟨id.hex⟩ })
        | .error e => .error (.ofObject path e)

/-- The members of a folder in the working tree. -/
def workingMembers (c : Checkout) (folder : Path) : Except Error (List Variant) := do
  let dir := c.fileOf folder
  match c.disk.list dir with
  | .error fault => .error (.ofFile (.io dir fault))
  | .ok members =>
    let tracked := c.trackedPaths folder
    let found ← members.entries.mapM fun (name, entry) =>
      c.workingMember tracked folder dir name entry
    return (ascending Prod.fst (found.filterMap id)).map Prod.snd

/-- The tree that a revision records for a folder. -/
def namedTree (c : Checkout) (spec : String) (folder : Path) : Except Error Tree := do
  let start ← match c.repository.resolveCommit spec with
    | .ok (some start) => pure start
    | .ok none => .error (.contentRead folder.text (.noCommits spec))
    | .error e => .error (.contentRead folder.text (.repository e))
  let found : Except ObjectError Tree := do
    match start.tree.find? (← folder.treeNames) with
    | none => .error (.notFound folder.text)
    | some entry => c.repository.objects.peelToTree (← c.repository.objects.ofEntry entry)
  match found with
  | .ok tree => return tree
  | .error e => .error (.ofObject folder e)

/-- A member of a folder at a revision with its name, unless it is left out. -/
def namedMember (folder : Path) (spec : String) (name : Bytes) (entry : TreeEntry) :
    Option (String × Variant) := do
  let text ← Utf8.decode? name
  let path := folder.join text
  let revision := Revision.named spec
  match entry with
  | .folder id _ => some (text, .ofFolder { Folder.at path revision with treeId := some ⟨id.hex⟩ })
  | .leaf leaf =>
    if leaf.mode.isFile then
      some (text, .blob { Blob.at path revision with contentId := some ⟨leaf.id.hex⟩ })
    else none

/-- The members of a folder at a revision. -/
def namedMembers (c : Checkout) (folder : Path) (spec : String) : Except Error (List Variant) := do
  let tree ← c.namedTree spec folder
  let found := tree.members.entries.filterMap fun (name, entry) => namedMember folder spec name entry
  return (ascending Prod.fst found).map Prod.snd

/-- The text of an entry's path below a folder. The entry of the folder itself has none. -/
def textBelow (folder : Path) (entry : Path) : Except Error (Option (List Char)) :=
  if folder.isRoot then .ok (some entry.chars)
  -- A file stands in the folder's place.
  else if entry = folder then .error (.unlistable folder.text)
  else if entry.startsWith folder then .ok (some (entry.chars.drop (folder.chars.length + 1)))
  else .ok none

/-- The member of a folder that an entry of the index belongs to, with its name: the entry itself, or
    the folder on the way to it. -/
def stagedMember (folder : Path) (e : IndexEntry) : Except Error (Option (String × Variant)) := do
  match ← textBelow folder e.place with
  | none => return none
  | some below =>
    let name := String.ofList (below.takeWhile (· ≠ '/'))
    if below.contains '/' then
      return some (name, .ofFolder (.at (folder.join name) .index))
    else
      return some (name, .blob { Blob.at e.place .index with contentId := some ⟨e.id.hex⟩ })

/-- The members of a folder in the index. -/
def stagedMembers (c : Checkout) (folder : Path) : Except Error (List Variant) := do
  let found ← c.repository.index.plain.mapM (stagedMember folder)
  -- All entries below one folder make the same member, and the first of them is kept.
  return (ascendingNew Prod.fst (found.filterMap id)).map Prod.snd

/-- The members of a folder. -/
def members (c : Checkout) (folder : Folder) : Except Error (List Variant) :=
  match folder.revision with
  | .workingTree => c.workingMembers folder.path
  | .index => c.stagedMembers folder.path
  | .named spec => c.namedMembers folder.path spec

end Checkout

end ThreeWay
