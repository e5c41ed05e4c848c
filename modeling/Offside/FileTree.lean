import Offside.Path
import Std.Data.TreeMap

/-!
# File trees

A file tree maps places to files and directories. A place is the list of names on the way from
the root to it; the root itself is always a directory. Places are kept in order, name by name and
each name by its characters, and that is the order in which files are listed.

Paths are resolved against a working directory: each segment is a step from a directory that
exists, an empty segment or `.` stays where it is, and `..` goes back up. There are no links. Names
and whole paths have a greatest length; that of a path goes by its spelling and not by what it
names.
-/

namespace Offside

/-- A place in a file tree: the names on the way from the root. -/
abbrev Place := List Text

/-- What a place may hold. -/
inductive Node where
  | directory
  | file (content : ByteArray)

instance : DecidableEq Node
  | .directory, .directory => isTrue rfl
  | .directory, .file _ => isFalse nofun
  | .file _, .directory => isFalse nofun
  | .file a, .file b =>
    match ByteArray.decEq a b with
    | isTrue h => isTrue (congrArg Node.file h)
    | isFalse h => isFalse fun e => h (Node.file.inj e)

/-- Files and directories by their places, and the directory that relative paths start from. -/
structure FileTree where
  nodes : Std.TreeMap Place Node := {}
  workingDirectory : Place := []

namespace FileTree

/-- Why an operation on a path fails. -/
inductive Fault where
  /-- Something on the way, or the thing itself, does not exist. -/
  | missing
  /-- Something on the way is a file. -/
  | notDirectory
  /-- A name that no file can have. -/
  | badName
  /-- A path whose spelling is too long. -/
  | tooLong
  /-- There is something else already. -/
  | occupied
  deriving DecidableEq, Repr

/-! ### Places -/

/-- What a place holds. -/
def get? (t : FileTree) (place : Place) : Option Node :=
  if place = [] then some .directory else t.nodes[place]?

/-- A tree with one place set. -/
def set (t : FileTree) (place : Place) (node : Node) : FileTree :=
  { t with nodes := t.nodes.insert place node }

/-- A place other than the root holds what it was set to, and every other place keeps its own. -/
theorem get?_set {place : Place} (hplace : place ≠ []) (t : FileTree) (node : Node) (p : Place) :
    (t.set place node).get? p = if p = place then some node else t.get? p := by
  unfold get? set
  by_cases hp : p = []
  · rw [if_pos hp, if_pos hp, if_neg]
    rw [hp]
    exact hplace.symm
  · rw [if_neg hp, if_neg hp, Std.TreeMap.getElem?_insert]
    by_cases h : p = place
    · rw [if_pos h, if_pos (Std.compare_eq_iff_eq.mpr h.symm)]
    · rw [if_neg h, if_neg fun hc => h (Std.compare_eq_iff_eq.mp hc).symm]

/-- A tree with one place set and a directory at each place on the way to it. -/
def plant (t : FileTree) (place : Place) (node : Node) : FileTree :=
  let onTheWay : List Place := (List.range' 1 (place.length - 1)).map fun n => place.take n
  (onTheWay.foldl (fun t p => if (t.get? p).isSome then t else t.set p .directory) t).set place node

/-! ### Paths -/

/-- A name that a file can have: short enough, and without the character that ends names. -/
def isName (name : Text) : Bool :=
  Text.byteLength name ≤ 255 && !name.contains '\x00'

/-- The greatest length of a path, in bytes. -/
def pathLimit : Nat :=
  4095

/-- A path that is short enough to be looked up. -/
def isShort (p : Path) : Bool :=
  Text.byteLength p.toText ≤ pathLimit

/-- One segment further from a place. -/
def walk (t : FileTree) (place : Place) (segment : Text) : Except Fault Place :=
  match t.get? place with
  | none => .error .missing
  | some (.file _) => .error .notDirectory
  | some .directory =>
    if !Path.isStep segment then .ok place
    else if segment = ['.', '.'] then .ok place.dropLast
    else if isName segment then .ok (place ++ [segment])
    else .error .badName

/-- The place that a path starts from. -/
def start (t : FileTree) (p : Path) : Place :=
  if p.anchor = .root then [] else t.workingDirectory

/-- The place that a path names, which need not hold anything. -/
def resolve (t : FileTree) (p : Path) : Except Fault Place :=
  if p.isEmpty then .error .missing
  else if !isShort p then .error .tooLong
  else p.segments.foldlM t.walk (t.start p)

/-- What a path names. -/
def node (t : FileTree) (p : Path) : Except Fault Node := do
  match t.get? (← t.resolve p) with
  | some node => return node
  | none => .error .missing

/-- Whether a path names anything. -/
def exists? (t : FileTree) (p : Path) : Bool :=
  match t.node p with
  | .ok _ => true
  | .error _ => false

/-! ### Reading and writing -/

/-- The content of a file. -/
def read (t : FileTree) (p : Path) : Except Fault ByteArray := do
  match ← t.node p with
  | .file content => return content
  | .directory => .error .occupied

/-- The text of a file, if it is UTF-8. -/
def readText? (t : FileTree) (p : Path) : Option Text :=
  match t.read p with
  | .ok content => (String.fromUTF8? content).map String.toList
  | .error _ => none

/-- Writes a file, over one that is there. -/
def write (t : FileTree) (p : Path) (content : ByteArray) : Except Fault FileTree := do
  let place ← t.resolve p
  match t.get? place with
  | some .directory => .error .occupied
  | _ => return t.set place (.file content)

/-- One segment further from a place, which is made a directory if it does not exist. -/
def digStep : FileTree × Place → Text → Except Fault (FileTree × Place)
  | (t, place), segment => do
    let next ← t.walk place segment
    return (if (t.get? next).isSome then t else t.set next .directory, next)

/-- Makes a directory, and every directory on the way to it that is missing. There is nothing to
make for the empty path. -/
def makeDirectories (t : FileTree) (p : Path) : Except Fault FileTree := do
  if p.isEmpty then return t
  else if !isShort p then .error .tooLong
  else
    let (t', place) ← p.segments.foldlM digStep (t, t.start p)
    if t'.get? place = some .directory then return t' else .error .occupied

/-! ### Listing -/

/-- The way from one place to another inside it. -/
def inside? (outer place : Place) : Option Place :=
  if outer.isPrefixOf place then some (place.drop outer.length) else none

/-- The path to the directory of a file that is so far inside another. -/
def holder (p : Path) (names : Place) : Path :=
  match names.dropLast with
  | [] => p
  | inner => p.joinNames inner

/-- The files below a path, in order, each as a path that starts with the given one; the path
itself if it names a file. A directory whose own path is too long is passed over. -/
def filesBelow (t : FileTree) (p : Path) : List Path :=
  match t.resolve p with
  | .error _ => []
  | .ok place =>
    match t.get? place with
    | none => []
    | some (.file _) => [p]
    | some .directory =>
      let inner := t.nodes.toList.filterMap fun
        | (_, .directory) => none
        | (q, .file _) => inside? place q
      (inner.filter fun names => isShort (holder p names)).map p.joinNames

/-- The files that are not as they were in an earlier tree. -/
def changes (before after : FileTree) : List (Place × ByteArray) :=
  after.nodes.toList.filterMap fun
    | (_, .directory) => none
    | (place, .file content) =>
      if before.get? place = some (.file content) then none else some (place, content)

end FileTree

end Offside
