/-!
# TOML documents

A document is a table of named nodes. Tables come into being in four ways, and the format forbids
mixing some of them: a table that a header names may not be named by a second header nor extended by a
dotted key, a table that dotted keys made may not be named by a header, and a table written between
braces is closed.

## Main definitions

* `TomlNode`: A value or a table.
* `TomlNode.Entries`: A table's names and nodes.
* `TomlNode.update`: Change the table at the end of a chain of names.
* `TomlNode.defineTable`, `TomlNode.appendTable`, `TomlNode.defineKey`: What a header, a double header
  and a key do to a document.
-/

namespace ThreeWay

/-- How a table came into being: a header names it, a header below it implies it, or dotted keys do. -/
inductive TomlTableKind where
  | header
  | implied
  | dotted
deriving DecidableEq, Inhabited

/-- A value or a table of a document. -/
inductive TomlNode where
  | string (text : String)
  | integer (n : Int)
  | boolean (value : Bool)
  | float
  | dateTime
  | array (items : List TomlNode)
  | inline (entries : List (String × TomlNode))
  | table (kind : TomlTableKind) (entries : List (String × TomlNode))
  | tables (elements : List (List (String × TomlNode)))
deriving Inhabited

namespace TomlNode

/-- A table's names and nodes, in the order in which they were written. -/
abbrev Entries := List (String × TomlNode)

/-- Put a node under a name that is there already, or at the end. -/
def assign (entries : Entries) (name : String) (node : TomlNode) : Entries :=
  if (entries.lookup name).isSome then
    entries.map fun (k, v) => if k = name then (k, node) else (k, v)
  else entries ++ [(name, node)]

/-- Change the table at the end of a chain of names. Missing tables on the way are made with the kind
    `fresh`; a chain of dotted keys may not pass through a table that a header names. The change is told
    the kind of the table that it is made in. -/
def update (fresh : TomlTableKind) (change : TomlTableKind → Entries → Option Entries)
    (kind : TomlTableKind) (entries : Entries) : List String → Option Entries
  | [] => change kind entries
  | name :: path =>
    match entries.lookup name with
    | none => do
      let below ← update fresh change fresh [] path
      return entries ++ [(name, .table fresh below)]
    | some (.table inner below) =>
      if fresh = .dotted ∧ inner = .header then none
      else do
        let below ← update fresh change inner below path
        return assign entries name (.table inner below)
    | some (.tables elements) =>
      match elements.getLast? with
      | none => none
      | some last => do
        let last ← update fresh change .header last path
        return assign entries name (.tables (elements.dropLast ++ [last]))
    | some _ => none

/-- The table that a header names: a new one, or one that was only implied so far. -/
def defineTable (document : Entries) (path : List String) : Option Entries :=
  match path.getLast? with
  | none => none
  | some name =>
    update .implied (fun _ entries =>
      match entries.lookup name with
      | none => some (entries ++ [(name, .table .header [])])
      | some (.table .implied below) => some (assign entries name (.table .header below))
      | some _ => none) .header document path.dropLast

/-- A new table at the end of the list of tables that a double header names. -/
def appendTable (document : Entries) (path : List String) : Option Entries :=
  match path.getLast? with
  | none => none
  | some name =>
    update .implied (fun _ entries =>
      match entries.lookup name with
      | none => some (entries ++ [(name, .tables [[]])])
      | some (.tables elements) => some (assign entries name (.tables (elements ++ [[]])))
      | some _ => none) .header document path.dropLast

/-- A node under a key of a table. The names in front of the last one make dotted tables, and only those
    may be extended by dotted keys. -/
def defineKey (kind : TomlTableKind) (entries : Entries) (key : List String) (node : TomlNode) :
    Option Entries :=
  match key.getLast? with
  | none => none
  | some name =>
    update .dotted (fun kind entries =>
      if decide (kind = .dotted) = key.dropLast.isEmpty then none
      else if (entries.lookup name).isSome then none
      else some (entries ++ [(name, node)])) kind entries key.dropLast

/-- A node under a key of the table that a header names. -/
def defineBelow (document : Entries) (header key : List String) (node : TomlNode) :
    Option Entries :=
  update .implied (fun kind entries => defineKey kind entries key node) .header document header

end TomlNode

end ThreeWay
