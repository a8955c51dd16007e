import ThreeWay.Path.Raw
import ThreeWay.Revision

/-!
# Errors

Every way in which a question about a tree can fail, kept as its cause. The wording of each cause is
in the `message` function of its type and nowhere else.

An `Error` is what comparing, joining and scanning report. A content read fails for a reason of its
own (`Cause`), and that reason may be an error of the file system, of the object database or of the
repository.

## Main definitions

* `SystemFault`: What the operating system answered.
* `FileError`: A file that cannot be read, or settings that cannot be used.
* `ObjectError`: A request that the object database or the ignore rules refuse.
* `RepositoryError`: A repository, a revision or a path that cannot be found.
* `Error`: All of them, with cancellation and malformed listings.
-/

namespace ThreeWay

/-- What the operating system answered to a request. -/
inductive SystemFault where
  | notFound
  | notADirectory
  | isADirectory
  | nameTooLong
  | tooManyLinks
  | invalidUtf8
  | nulInPath
  | other (text : String)
deriving DecidableEq

namespace SystemFault

/-- The system's own words. -/
def words : SystemFault → String
  | .notFound => "No such file or directory"
  | .notADirectory => "Not a directory"
  | .isADirectory => "Is a directory"
  | .nameTooLong => "File name too long"
  | .tooManyLinks => "Too many levels of symbolic links"
  | .invalidUtf8 => "stream did not contain valid UTF-8"
  | .nulInPath => "file name contained an unexpected NUL byte"
  | .other text => text

/-- The system's number, where the answer has one. -/
def number? : SystemFault → Option Nat
  | .notFound => some 2
  | .notADirectory => some 20
  | .isADirectory => some 21
  | .nameTooLong => some 36
  | .tooManyLinks => some 40
  | _ => none

/-- The words, followed by the number. -/
def message (fault : SystemFault) : String :=
  match fault.number? with
  | some n => s!"{fault.words} (os error {n})"
  | none => fault.words

end SystemFault

/-- A file that cannot be read, or settings that cannot be used. -/
inductive FileError where
  | io (path : RawPath) (fault : SystemFault)
  | configSyntax (path : RawPath) (format : String) (details : String)
  | unsupportedFormat (extension : String)
  | outsideRoot (path base : RawPath)
deriving DecidableEq

namespace FileError

/-- The wording of a file error. -/
def message : FileError → String
  | .io path fault => s!"I/O error at {path}: {fault.message}"
  | .configSyntax path format details => s!"Failed to parse {format} config at {path}: {details}"
  | .unsupportedFormat extension => s!"Unsupported config format: {extension}"
  | .outsideRoot path base => s!"Path {path} is not inside {base}"

/-- What a file error is about: its path, or the extension that no format has. -/
def subject : FileError → String
  | .io path _ => path.display
  | .configSyntax path _ _ => path.display
  | .unsupportedFormat extension => extension
  | .outsideRoot path _ => path.display

end FileError

/-- A request that the object database, the index or the ignore rules refuse. -/
inductive ObjectError where
  | unreadable (path : RawPath) (fault : SystemFault)
  | invalidPath (path : String)
  | notFound (what : String)
  | wrongKind (what : String)
  | ambiguous (spec : String)
  | invalidSpec (spec : String)
  | invalidTime (text : String)
  | invalidId (text : String)
  | invalidRepository (path : RawPath)
deriving DecidableEq

namespace ObjectError

/-- The wording of an object error. An unreadable file is told apart by what the system answered. -/
def message : ObjectError → String
  | .unreadable path fault =>
    match fault with
    | .notFound =>
      s!"could not find '{path}' to open: {fault.words}; class=Os (2); code=NotFound (-3)"
    | .notADirectory =>
      s!"could not find '{path}' to open: {fault.words}; class=Os (2); code=NotFound (-3)"
    | .nameTooLong =>
      s!"invalid path for filesystem '{path}': {fault.words}; class=Os (2); code=InvalidSpec (-12)"
    | .isADirectory => s!"error reading file for hashing: {fault.words}; class=Os (2)"
    | fault => s!"could not open '{path}': {fault.words}; class=Os (2)"
  | .invalidPath path => s!"invalid path: '{path}'"
  | .notFound what => s!"{what} not found"
  | .wrongKind what => s!"{what} is of another kind"
  | .ambiguous spec => s!"'{spec}' is ambiguous"
  | .invalidSpec spec => s!"'{spec}' is not a valid revision specification"
  | .invalidTime text => s!"'{text}' is not a point in time"
  | .invalidId text => s!"'{text}' is not an object id"
  | .invalidRepository path => s!"invalid repository at '{path}'"

end ObjectError

/-- A repository, a revision or a path that cannot be found. -/
inductive RepositoryError where
  | object (e : ObjectError)
  | file (e : FileError)
  | notARepository (path : RawPath)
  | bareRepository (path : RawPath)
  | revisionNotFound (spec : String)
  | pathNotFound (path : String) (left right : Revision)
  | missingTarget
deriving DecidableEq

namespace RepositoryError

/-- The wording of a repository error. -/
def message : RepositoryError → String
  | .object e => s!"Git error: {e.message}"
  | .file e => s!"Filesystem error: {e.message}"
  | .notARepository path => s!"No git repository found at {path}"
  | .bareRepository path => s!"Repository at {path} has no working tree"
  | .revisionNotFound spec => s!"Revision '{spec}' not found"
  | .pathNotFound path left right => s!"'{path}' exists in neither {left} nor {right}"
  | .missingTarget =>
    "No target revision configured. Pass --target or set `target` in .tsync.toml"

end RepositoryError

/-- Why content or members could not be read. -/
inductive Cause where
  | noStore
  | noListing
  | noContent (revision : Revision)
  | notStaged
  | notIn (spec : String)
  | noCommits (spec : String)
  | other (text : String)
  | file (e : FileError)
  | object (e : ObjectError)
  | repository (e : RepositoryError)
deriving DecidableEq

namespace Cause

/-- The wording of a cause. -/
def message : Cause → String
  | .noStore => "no content store attached"
  | .noListing => "no member listing attached"
  | .noContent revision => s!"no content recorded at {revision}"
  | .notStaged => "not staged"
  | .notIn spec => s!"not in {spec}"
  | .noCommits spec => s!"{spec} has no commits"
  | .other text => text
  | .file e => e.message
  | .object e => e.message
  | .repository e => e.message

end Cause

/-- What is wrong with a variant handed to a diff. -/
inductive Malformation where
  | rootMissing
  | expandedRootMissing
  | memberMissing
  | emptyName
  | separatorInName
deriving DecidableEq

namespace Malformation

/-- The wording of a malformation. -/
def message : Malformation → String
  | .rootMissing => "diff root does not exist"
  | .expandedRootMissing => "expanded root does not exist"
  | .memberMissing => "listed member does not exist"
  | .emptyName => "member has an empty name"
  | .separatorInName => "member name contains a path separator"

end Malformation

/-- Every way in which comparing, joining, scanning or a question to a repository can fail. -/
inductive Error where
  | contentRead (path : String) (cause : Cause)
  | malformed (path : String) (reason : Malformation)
  | cancelled
  | tooDeep (path : String)
  | unlistable (path : String)
  | repository (e : RepositoryError)
deriving DecidableEq

namespace Error

/-- The wording of an error. -/
def message : Error → String
  | .contentRead path cause => s!"Failed to read content of '{path}': {cause.message}"
  | .malformed path reason => s!"Malformed variant '{path}': {reason.message}"
  | .cancelled => "Operation cancelled"
  | .tooDeep path => s!"Folders nested too deeply at '{path}'"
  | .unlistable path => s!"'{path}' cannot be looked up in the index"
  | .repository e => e.message

/-- A file error, met while content was read. -/
def ofFile (e : FileError) : Error :=
  .contentRead e.subject (.file e)

/-- An object error, met while content of `path` was read. -/
def ofObject (path : Path) (e : ObjectError) : Error :=
  .contentRead path.text (.object e)

/-- Whether an error is a cancellation and no failure. -/
def isCancelled : Error → Bool
  | .cancelled => true
  | _ => false

end Error

end ThreeWay
