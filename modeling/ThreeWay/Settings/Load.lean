import ThreeWay.Disk.Read
import ThreeWay.Settings.Json
import ThreeWay.Settings.Toml
import ThreeWay.Settings.Yaml
import ThreeWay.Text.Lowercase

/-!
# Loading settings

The extension of a settings file tells its format. A repository keeps its settings at its root, under
one of a few names; the first one that is there counts.

## Main definitions

* `Settings.load`: The settings in a file.
* `Settings.loadRoot`: The settings of a repository.
-/

namespace ThreeWay.Settings

/-- The extension of a file in lower case; empty where there is none. -/
def extensionOf (path : RawPath) : String :=
  lowercase (Utf8.decodeLossy (path.extension?.getD []))

/-- The settings that a text writes in the format with an extension. -/
def parse (path : RawPath) (extension text : String) : Except FileError Settings :=
  let read (format : String) (settings : Option Settings) : Except FileError Settings :=
    match settings with
    | some s => .ok s
    | none => .error (.configSyntax path format "not a settings file of this format")
  match extension with
  | "toml" => read "TOML" (ofToml? text)
  | "json" => read "JSON" (ofJson? text)
  | "yaml" | "yml" => read "YAML" (ofYaml? text)
  | _ => .error (.unsupportedFormat extension)

/-- The settings in a file. -/
def load (d : Disk) (path : RawPath) : Except FileError Settings := do
  let text ← d.readText path
  parse path (extensionOf path) text

/-- The settings of the repository at a root; the usual ones if it has no settings file. -/
def loadRoot (d : Disk) (root : RawPath) : Except FileError Settings :=
  -- The first file decides alone, even if it is malformed and a later one is not.
  match settingsFileNames.map (fun name => root.join (.ofString name)) |>.find? d.isFile with
  | some path => load d path
  | none => .ok default

end ThreeWay.Settings
