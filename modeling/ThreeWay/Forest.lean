import ThreeWay.Text.Utf8

/-!
# Forests

The members of a folder: named leaves and named folders, one after the other, with everything below
them. A working tree is a forest of files, and a committed tree is a forest of object ids.

A forest is built like a list, so functions on it recurse on the members of the first folder and on
the rest. Names are bytes. The names of one folder differ and are held in ascending order, as `insert` puts
them, but a listing does not count on that and puts its members in order itself.

## Main definitions

* `Forest`: Named leaves and folders, each with a value.
* `Forest.Entry`: What a name stands for.
* `Forest.entries`: The names of a forest, without what lies below its folders.
* `Forest.find?`, `Forest.lookup`: What stands under a name, and at the end of a chain of names.
* `Forest.insert`, `Forest.erase`: Changing one name of a forest.
* `Forest.put`, `Forest.delete`: The same below a chain of names.
* `Forest.leaves`: Every leaf with the chain of names that leads to it.
-/

namespace ThreeWay

/-- The members of a folder. -/
inductive Forest (α β : Type) where
  | nil
  | leaf (name : Bytes) (value : α) (rest : Forest α β)
  | folder (name : Bytes) (value : β) (members rest : Forest α β)
deriving Inhabited

namespace Forest

variable {α β : Type}

/-- What a name stands for. -/
inductive Entry (α β : Type) where
  | leaf (value : α)
  | folder (value : β) (members : Forest α β)

/-- Whether an entry is a folder. -/
def Entry.isFolder : Entry α β → Bool
  | .leaf _ => false
  | .folder _ _ => true

/-- A name and what it stands for, in front of a forest. -/
def cons (name : Bytes) (entry : Entry α β) (rest : Forest α β) : Forest α β :=
  match entry with
  | .leaf value => .leaf name value rest
  | .folder value members => .folder name value members rest

/-- The names of a forest and what they stand for, in order. -/
def entries : Forest α β → List (Bytes × Entry α β)
  | .nil => []
  | .leaf name value rest => (name, .leaf value) :: rest.entries
  | .folder name value members rest => (name, .folder value members) :: rest.entries

/-- The forest with the given names in the given order. -/
def ofEntries (es : List (Bytes × Entry α β)) : Forest α β :=
  es.foldr (fun (name, entry) rest => cons name entry rest) .nil

/-- What stands under a name. -/
def find? (f : Forest α β) (name : Bytes) : Option (Entry α β) :=
  f.entries.lookup name

/-- What stands at the end of a chain of names, below an entry. -/
def Entry.lookup (e : Entry α β) : List Bytes → Option (Entry α β)
  | [] => some e
  | name :: names =>
    match e with
    | .leaf _ => none
    | .folder _ members => (members.find? name).bind fun below => below.lookup names

/-- What stands at the end of a chain of at least one name. -/
def lookup (f : Forest α β) : List Bytes → Option (Entry α β)
  | [] => none
  | name :: names => (f.find? name).bind fun below => below.lookup names

/-- Put an entry under a name, in ascending order; it replaces what stood there. -/
def insert (name : Bytes) (entry : Entry α β) : Forest α β → Forest α β
  | .nil => cons name entry .nil
  | .leaf other value rest =>
    if name < other then cons name entry (.leaf other value rest)
    else if name = other then cons name entry rest
    else .leaf other value (rest.insert name entry)
  | .folder other value members rest =>
    if name < other then cons name entry (.folder other value members rest)
    else if name = other then cons name entry rest
    else .folder other value members (rest.insert name entry)

/-- Take a name away with what stands under it. -/
def erase (name : Bytes) : Forest α β → Forest α β
  | .nil => .nil
  | .leaf other value rest =>
    if name = other then rest else .leaf other value (rest.erase name)
  | .folder other value members rest =>
    if name = other then rest else .folder other value members (rest.erase name)

/-- The members of an entry; a leaf has none. -/
def Entry.members : Entry α β → Forest α β
  | .leaf _ => .nil
  | .folder _ members => members

/-- Put an entry at the end of a chain of names. Folders on the way are made with the value `fresh`
    where they are missing. -/
def put (fresh : β) (entry : Entry α β) : List Bytes → Forest α β → Forest α β
  | [], f => f
  | [name], f => f.insert name entry
  | name :: names, f =>
    match f.find? name with
    | some (.folder value members) =>
      f.insert name (.folder value (put fresh entry names members))
    -- Nothing stands there, or a leaf does, which gives way to a folder.
    | _ => f.insert name (.folder fresh (put fresh entry names .nil))

/-- Take away what stands at the end of a chain of names. -/
def delete : List Bytes → Forest α β → Forest α β
  | [], f => f
  | [name], f => f.erase name
  | name :: names, f =>
    match f.find? name with
    | some (.folder value members) => f.insert name (.folder value (delete names members))
    | _ => f

/-- Every leaf with the chain of names that leads to it, each folder's leaves at the folder's
    place. -/
def leavesFrom (above : List Bytes) : Forest α β → List (List Bytes × α)
  | .nil => []
  | .leaf name value rest => (above ++ [name], value) :: rest.leavesFrom above
  | .folder name _ members rest =>
    members.leavesFrom (above ++ [name]) ++ rest.leavesFrom above

/-- Every leaf with the chain of names that leads to it. -/
def leaves (f : Forest α β) : List (List Bytes × α) :=
  f.leavesFrom []

/-- The number of folders on the longest way down. -/
def depth : Forest α β → Nat
  | .nil => 0
  | .leaf _ _ rest => rest.depth
  | .folder _ _ members rest => max (1 + members.depth) rest.depth

end Forest

end ThreeWay
