import ThreeWay.Regex.Parser
import ThreeWay.Repository.Basic
import ThreeWay.Repository.Revspec
import ThreeWay.Repository.Walk

/-!
# Resolving revisions

The object that a revision specification names. A name is tried as a full object id, then as the name of
a reference with the usual folders in front of it, then as the first digits of an object id, and last as
a description that ends in such digits.

What only a configuration or a clock could tell is not found: the upstream of a branch (`x@{upstream}`), and where
a reference stood at a date (`x@{yesterday}`).

The commit of a revision is what counts for all else. Only the head may have none: a repository without
commits has no base yet, which is different from a revision that does not exist.

## Main definitions

* `Repository.named?`: The reference that a short name stands for.
* `Repository.lookup`: The object that a name stands for.
* `Repository.resolve`: The object that a specification names.
* `Repository.resolveCommit`, `Repository.resolveTree`: Its commit and its tree.
-/

namespace ThreeWay.Repository

/-- The full names that a short name may stand for. The empty name stands for the head. -/
def fullNames (name : String) : List String :=
  if name = "" then [headName]
  else [name, "refs/" ++ name, tagFolder ++ name, branchFolder ++ name, "refs/remotes/" ++ name,
    "refs/remotes/" ++ name ++ "/" ++ headName]

/-- The reference that a short name stands for, with its object. -/
def named? (r : Repository) (name : String) : Option (String × ObjectId) :=
  (fullNames name).findSome? r.reference?

/-- The object with an id. -/
def object (r : Repository) (id : ObjectId) : Except ObjectError StoredObject :=
  match r.objects.find? id with
  | some object => .ok object
  | none => .error (.notFound id.hex)

/-- The least number of digits that may stand for an id. -/
def minDigits : Nat := 4

/-- The only object whose id starts with the digits of a text. -/
def abbreviated (r : Repository) (text : String) : Except ObjectError StoredObject :=
  match ObjectId.digits? text with
  | none | some [] => .error (.notFound text)
  | some digits =>
    if ObjectId.length < digits.length then .error (.notFound text)
    else if digits.length < minDigits then .error (.ambiguous text)
    else
      match r.objects.withPrefix digits with
      | [] => .error (.notFound text)
      | [object] => .ok object
      | _ => .error (.ambiguous text)

/-- The form of a description: a name, a number of commits, and the first digits of an id. -/
def descriptionForm : Option Regex :=
  Regex.parse? (Utf8.encode ".+-[0-9]+-g[0-9a-fA-F]+")

/-- What follows the first occurrence of `mark` in a text. -/
def after? (mark : List Char) : List Char → Option (List Char)
  | [] => none
  | c :: rest =>
    if mark.isPrefixOf (c :: rest) then some ((c :: rest).drop mark.length) else after? mark rest

/-- The object that a description stands for. -/
def described (r : Repository) (text : String) : Except ObjectError StoredObject :=
  match after? ['-', 'g'] text.toList with
  | some digits =>
    if descriptionForm.any (·.isFoundIn (Utf8.encode text)) then
      r.abbreviated (String.ofList digits)
    else .error (.notFound text)
  | none => .error (.notFound text)

/-- A second answer where the first one is that nothing was found. -/
def orElse (first : Except ObjectError α) (second : Unit → Except ObjectError α) :
    Except ObjectError α :=
  match first with
  | .error (.notFound _) => second ()
  | other => other

/-- The object that a name stands for. A lone at sign is the head. -/
def lookup (r : Repository) (name : String) : Except ObjectError StoredObject :=
  let name := if name = "@" then headName else name
  -- A full id goes before a reference of that name, and a shorter one behind it.
  let whole := if name.length = ObjectId.length then r.abbreviated name else .error (.notFound name)
  orElse whole fun _ =>
    match r.named? name with
    | some (_, id) => r.object id
    | none =>
      let short :=
        if name.length < ObjectId.length then r.abbreviated name else .error (.notFound name)
      orElse short fun _ => r.described name

/-- How far a specification has led: the object that is known, or a reference that holds it. -/
structure Progress where
  object : Option StoredObject
  reference : Option (String × ObjectId)

/-- The object reached so far. Without any, the name is looked up. -/
def reached (r : Repository) (name : String) (p : Progress) : Except ObjectError StoredObject :=
  match p.object, p.reference with
  | some object, _ => .ok object
  | none, some (_, id) => r.object id
  | none, none => if name = "" then .error (.invalidSpec name) else r.lookup name

/-- The reference that a log is read of: the one reached, or else the one that the name stands for. -/
def logged (r : Repository) (name : String) (p : Progress) :
    Except ObjectError (String × ObjectId) :=
  match p.reference with
  | some found => .ok found
  | none =>
    match r.named? name with
    | some found => .ok found
    | none => .error (.notFound name)

/-- A parent of a commit, counted from one. -/
def parent (r : Repository) (c : Commit) (n : Nat) : Except ObjectError Commit :=
  match c.parents[n - 1]?.bind r.objects.commit? with
  | some p => .ok p
  | none => .error (.notFound c.id.hex)

/-- A commit further down along first parents. -/
def ancestor (r : Repository) : Nat → Commit → Except ObjectError Commit
  | 0, c => .ok c
  | n + 1, c => do r.ancestor n (← r.parent c 1)

/-- What stands at a path below an object's tree. A slash at the end asks for a folder. -/
def atPath (r : Repository) (object : StoredObject) (text : String) :
    Except ObjectError StoredObject := do
  let tree ← r.objects.peelToTree object
  let names := (Utf8.encode text).splitOn RawPath.slash
  let folder := names.getLast? = some []
  let names := if folder then names.dropLast else names
  if text = "" then return .tree tree
  else
    match if names.contains [] then none else tree.find? names with
    | none => .error (.notFound text)
    | some entry => if folder && !entry.isFolder then .error (.notFound text) else r.objects.ofEntry entry

/-- The newest commit whose message matches, of those that can be reached. -/
def searchMessages (r : Repository) (starts : List Commit) (expression : String) :
    Except ObjectError StoredObject := do
  match if expression = "" then none else Regex.parse? (Utf8.encode expression) with
  | none => .error (.invalidSpec expression)
  | some regex =>
    match (Walk.byTime r.objects starts).find? fun c => regex.isFoundIn c.text with
    | some c => return .commit c
    | none => .error (.notFound expression)

/-- The commits that references stand for, the last reference first, each once. -/
def referencedCommits (r : Repository) : List Commit :=
  let commits := r.references.reverse.filterMap fun (_, id) =>
    match r.object id >>= r.objects.peelToCommit with
    | .ok c => some c
    | .error _ => none
  commits.foldl (fun found c => if found.any (·.id = c.id) then found else found ++ [c]) []

/-- The branch or commit that the head left when it was switched the `n`-th last time. -/
def leftAt? (r : Repository) (n : Nat) : Option String :=
  let left := (r.logOf headName).filterMap fun entry => do
    let rest ← after? "checkout: moving from ".toList entry.message.toList
    let target ← after? " to ".toList.reverse rest.reverse
    return String.ofList target.reverse
  left[n - 1]?

/-- Take one step. -/
def step (r : Repository) (name : String) (p : Progress) : RevStep → Except ObjectError Progress
  -- What stands in front of a malformed step may fail first, with an error of its own.
  | .malformed afterLookup => do
    if afterLookup then
      let _ ← r.reached name p
    .error (.invalidSpec name)
  | .parent n => do
    let c ← r.objects.peelToCommit (← r.reached name p)
    -- The parent of number zero is the commit itself.
    if n = 0 then known (.commit c) else known (.commit (← r.parent c n))
  | .ancestor n => do
    let c ← r.objects.peelToCommit (← r.reached name p)
    known (.commit (← r.ancestor n c))
  | .peel kind => do known (← r.objects.peel kind (← r.reached name p))
  | .peelTag => do known (← r.objects.peelTag (← r.reached name p))
  | .search expression => do
    let start ← r.reached name p
    match if expression = "" then none else Regex.parse? (Utf8.encode expression) with
    | none => .error (.invalidSpec expression)
    | some _ => known (← r.searchMessages [← r.objects.peelToCommit start] expression)
  | .path text =>
    if p.object.isSome || p.reference.isSome || name ≠ "" then do
      known (← r.atPath (← r.reached name p) text)
    else
      match text.toList with
      | '/' :: expression => do
        known (← r.searchMessages r.referencedCommits (String.ofList expression))
      | _ => .error (.wrongKind text)
  | .logged n =>
    if p.object.isSome then .error (.invalidSpec name)
    else do
      -- Only a reference has moves, so an object that was already reached has none.
      let (reference, id) ← r.logged name p
      if n = 0 then known (← r.object id)
      else
        match (r.logOf reference)[n]? with
        | some entry => known (← r.object entry.id)
        | none => .error (.notFound reference)
  | .checkedOut n =>
    if p.object.isSome || p.reference.isSome || name ≠ "" then .error (.invalidSpec name)
    else
      match r.leftAt? n with
      | none => .error (.notFound name)
      | some left =>
        match r.named? left with
        | some found => .ok ⟨none, some found⟩
        | none => do known (← r.abbreviated left)
  | .tracked =>
    if p.object.isSome then .error (.invalidSpec name)
    else do
      -- No branch here follows another one.
      let (reference, _) ← r.logged name p
      .error (.notFound reference)
  | .dated text =>
    if p.object.isSome then .error (.invalidSpec name) else .error (.invalidTime text)
where
  /-- A known object, without a reference. -/
  known (object : StoredObject) : Except ObjectError Progress :=
    .ok ⟨some object, none⟩

/-- The object that a specification names. -/
def resolve (r : Repository) (spec : String) : Except ObjectError StoredObject := do
  if spec.toList.contains '\x00' then .error (.invalidPath spec)
  let parsed := Revspec.ofString spec
  let p ← parsed.steps.foldlM (r.step parsed.name) ⟨none, none⟩
  r.reached parsed.name p

/-- The commit that a specification names. The head of a repository without commits has none. -/
def resolveCommit (r : Repository) (spec : String) : Except RepositoryError (Option Commit) :=
  match r.resolve spec with
  | .ok object =>
    match r.objects.peelToCommit object with
    | .ok c => .ok (some c)
    | .error e => .error (.object e)
  | .error e =>
    -- Any other specification of an unborn branch is a revision that is not there.
    if spec = headName ∧ r.isUnborn then .ok none
    else
      match e with
      | .notFound _ | .invalidSpec _ => .error (.revisionNotFound spec)
      | e => .error (.object e)

/-- The tree that a specification names. -/
def resolveTree (r : Repository) (spec : String) : Except RepositoryError (Option Tree) := do
  return (← r.resolveCommit spec).map Commit.tree

end ThreeWay.Repository
