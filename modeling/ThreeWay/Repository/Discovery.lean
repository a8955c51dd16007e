import ThreeWay.Disk.Read
import ThreeWay.Text.ByteSet

/-!
# Finding a repository

A repository lies in a folder that holds a head, objects and references. It is looked for from a place on
the disk upwards: at each folder first under the well-known name, then in the folder itself. A file of
the well-known name tells by its content where the repository lies.

The working tree of a repository is the folder that its own folder lies in. A bare repository has none,
and its configuration says so.

## Main definitions

* `Discovery.isRepository`: Whether a folder holds a repository.
* `Discovery.find`: The nearest repository from a place upwards.
* `Discovery.isBare`: Whether a repository has no working tree.
* `Discovery.workingTree`: The working tree of the nearest repository.
-/

namespace ThreeWay.Discovery

/-- A path below another, given as text. -/
def below (folder : RawPath) (name : String) : RawPath :=
  folder.join (.ofString name)

/-- Whether a folder holds a repository. -/
def isRepository (d : Disk) (folder : RawPath) : Bool :=
  d.isFile (below folder "HEAD") && d.isFolder (below folder "objects") &&
    d.isFolder (below folder "refs")

/-- Whether a byte is a blank. -/
def isSpace (b : UInt8) : Bool :=
  ByteClass.space.has b

/-- A byte string without blanks at its ends. -/
def trim (bs : Bytes) : Bytes :=
  ((bs.dropWhile isSpace).reverse.dropWhile isSpace).reverse

/-- What stands in front of the place in a file that points to a repository. -/
def pointerMark : Bytes :=
  Utf8.encode "gitdir:"

/-- The place that the content of a pointing file names. Blanks at its end do not count. -/
def pointer? (content : Bytes) : Option RawPath :=
  let text := (content.reverse.dropWhile isSpace).reverse
  if pointerMark.isPrefixOf text && pointerMark.length < text.length then
    some ⟨trim (text.drop pointerMark.length)⟩
  else none

/-- The location that a path leads to. A path that leads nowhere is no repository, and neither is
    anything below it. -/
def locate (d : Disk) (start path : RawPath) : Except RepositoryError (List Bytes) :=
  match d.resolve path true with
  | .ok (location, some _) => .ok location
  | .ok (_, none) | .error .notFound | .error .notADirectory => .error (.notARepository start)
  | .error fault => .error (.object (.unreadable path fault))

/-- Look at one path: the repository's location if the path leads to one, also by way of a file that
    points to it. A file that points to something else ends the search. -/
def tryPath (d : Disk) (start folder path : RawPath) :
    Except RepositoryError (Option (List Bytes)) :=
  match d.stat path with
  | .ok (.folder _ _) => do
    -- A folder of the right name that is no repository does not end the search.
    if isRepository d path then return some (← locate d start path) else return none
  | .ok (.leaf _) =>
    -- Only a file under the usual name points anywhere.
    if path.fileName? ≠ some (Utf8.encode gitFolderName) then .ok none
    else
      match (d.read path).toOption.bind pointer? with
      | none => .error (.object (.invalidRepository path))
      | some target => do
        let location ← locate d start (folder.join target)
        if isRepository d (Disk.rawPath location) then return some location
        else .error (.notARepository start)
  | .error _ => .ok none

/-- The location of the nearest repository from a folder upwards. -/
def climb (d : Disk) (start : RawPath) : Nat → List Bytes →
    Except RepositoryError (List Bytes)
  | 0, _ => .error (.notARepository start)
  | n + 1, here => do
    let folder := Disk.rawPath here
    match ← tryPath d start folder (below folder gitFolderName) with
    | some found => return found
    | none =>
      -- The folder itself may be the repository, when the start lies inside of it.
      match ← tryPath d start (Disk.rawPath here.dropLast) folder with
      | some found => return found
      | none => climb d start n here.dropLast

/-- The location of the nearest repository from a place upwards. -/
def find (d : Disk) (start : RawPath) : Except RepositoryError (List Bytes) := do
  let here ← locate d start start
  climb d start (here.length + 1) here

/-- The value of a key of a section in a configuration, the last one if it is given twice. A key without
    a value counts as true. -/
def configured? (section_ key : String) (content : Bytes) : Option String :=
  let lines := ((content.splitOn 0x0A).map trim).map Utf8.decodeLossy
  let step (state : String × Option String) (line : String) : String × Option String :=
    let (current, found) := state
    match line.toList with
    | '[' :: rest => (String.ofList (rest.takeWhile (· ≠ ']')), found)
    | cs =>
      let name := String.ofList (cs.takeWhile fun c => c ≠ '=' && c ≠ ' ' && c ≠ '\t')
      if current = section_ ∧ name = key then
        let value := (cs.dropWhile (· ≠ '=')).drop 1
        (current, some (if cs.contains '=' then String.ofList (value.dropWhile (· = ' ')) else "true"))
      else (current, found)
  (lines.foldl step ("", none)).2

/-- Whether a repository has no working tree. -/
def isBare (d : Disk) (repository : RawPath) : Bool :=
  match d.read (below repository "config") with
  | .ok content => (configured? "core" "bare" content).any (["true", "yes", "on", "1"].contains ·)
  | .error _ => false

/-- The working tree of the nearest repository from a place upwards. -/
def workingTree (d : Disk) (start : RawPath) : Except RepositoryError RawPath := do
  let location ← find d start
  let repository := Disk.rawPath location
  if isBare d repository then .error (.bareRepository (repository.join ⟨[]⟩))
  else
    match d.canonicalRoot (Disk.rawPath location.dropLast) with
    | .ok root => return root
    | .error e => .error (.file e)

end ThreeWay.Discovery
