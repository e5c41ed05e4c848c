import Offside.FileTree
import Offside.Json.Form

/-!
# Settings of a project

A project may keep its settings in a file in its directory: the options of rendering, the
extension of its sources, and the directory to build into. The file is read into memory whole
before its fields are looked at, so that also the fields that are passed over must be plain and
not nested beyond a limit. Without the file everything has its default.
-/

namespace Offside

/-- The settings of a project. -/
structure Settings where
  options : Options := {}
  /-- The extension of source files. -/
  extension : Text := "haml".toList
  /-- The directory that a build writes to. -/
  outDir : Text := "dist".toList
  deriving DecidableEq, Repr

namespace Settings

/-- The file that holds the settings. -/
def file : Path :=
  .ofText "./indentml.json".toList

/-- The deepest nesting that is read. -/
def nestingLimit : Nat :=
  127

/-- In settings an empty object is as good as null. -/
def isNothing : Json → Bool
  | .null => true
  | .object [] => true
  | _ => false

/-- The keys of the settings: those of the options, and two more. -/
def keys : List Text :=
  Options.keys ++ ["extension".toList, "outDir".toList]

/-- Settings from their fields. -/
def ofFields? : List (Option Json) → Option Settings
  | [formatOutput, voidStyle, indentUnit, extension, outDir] => do
    let default : Settings := {}
    return {
      options := ← Options.ofFields? isNothing [formatOutput, voidStyle, indentUnit]
      extension := ← Json.withDefault default.extension Json.text? extension
      outDir := ← Json.withDefault default.outDir Json.text? outDir }
  | _ => none

/-- Settings from their JSON form, which is always an object. -/
def ofJson? (value : Json) : Option Settings :=
  if value.isPlain ∧ value.depth ≤ nestingLimit then
    (value.objectFields? keys).bind ofFields?
  else none

/-- Why settings cannot be had. -/
inductive LoadError where
  | unreadable
  | malformed
  deriving DecidableEq, Repr

/-- How a failure to load settings is reported. -/
def LoadError.message : LoadError → Text
  | .unreadable => "Failed to read ".toList ++ file.toText
  | .malformed => "Failed to parse ".toList ++ file.toText

/-- The settings in the working directory. -/
def load (tree : FileTree) : Except LoadError Settings :=
  if tree.exists? file then
    match tree.readText? file with
    | none => .error .unreadable
    | some text =>
      match (Json.parse? text).bind ofJson? with
      | some settings => .ok settings
      | none => .error .malformed
  else .ok {}

end Settings

end Offside
