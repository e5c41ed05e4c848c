import Offside.Text.Basic

/-!
# Paths

A path is kept as it is spelled, in the segments between its slashes, since it is shown as it was
given. What it means depends on its components alone: a root, if it starts with a slash; a leading
`.`; and its steps, which are the segments other than `.` and the empty one. So `a//b/` and
`a/./b` have the same components and `./a` and `a` have not.
-/

namespace Offside

/-- What a path starts from. -/
inductive Path.Anchor where
  /-- Nothing is said: the path is relative. -/
  | relative
  /-- A leading `.`: the path is relative, and says so. -/
  | here
  /-- A leading slash. -/
  | root
  deriving DecidableEq, Repr

/-- A path: what it starts from, and the segments after that. -/
structure Path where
  anchor : Path.Anchor := .relative
  segments : List Text := []
  deriving DecidableEq, Repr

namespace Path

/-- One component of a path. -/
inductive Component where
  | root
  | here
  | parent
  | name (text : Text)
  deriving DecidableEq, Repr

/-! ### Spelling -/

/-- The path with this spelling. -/
def ofText (t : Text) : Path :=
  match List.splitOn '/' t with
  | [] => {}
  | [[]] => {}
  | [] :: rest => ⟨.root, rest⟩
  | ['.'] :: rest => ⟨.here, rest⟩
  | segments => ⟨.relative, segments⟩

/-- The spelling of a path. -/
def toText (p : Path) : Text :=
  match p.anchor with
  | .relative => ['/'].intercalate p.segments
  | .here => '.' :: p.segments.flatMap ('/' :: ·)
  | .root => '/' :: ['/'].intercalate p.segments

/-- The path without any text. -/
def isEmpty (p : Path) : Bool :=
  p = {}

/-! ### Components -/

/-- A segment that leads somewhere: neither empty nor `.`. -/
def isStep (segment : Text) : Bool :=
  segment ≠ [] && segment ≠ ['.']

/-- The component of a step. -/
def Component.ofStep (segment : Text) : Component :=
  if segment = ['.', '.'] then .parent else .name segment

/-- The component of an anchor. -/
def Anchor.components : Anchor → List Component
  | .relative => []
  | .here => [.here]
  | .root => [.root]

/-- The components of a path. -/
def components (p : Path) : List Component :=
  p.anchor.components ++ (p.segments.filter isStep).map .ofStep

/-- Segments without those at the end that are no steps. -/
def trimSegments (segments : List Text) : List Text :=
  (segments.reverse.dropWhile fun s => !isStep s).reverse

/-- The segments after the first `n` steps. -/
def dropSteps : Nat → List Text → List Text
  | 0, segments => segments
  | _ + 1, [] => []
  | n + 1, s :: rest => if isStep s then dropSteps n rest else dropSteps (n + 1) rest

/-- A path relative to another whose components it starts with, spelled as it was between its
first and its last step. -/
def stripBase? (p base : Path) : Option Path :=
  if base.components.isPrefixOf p.components then
    match base.components.length with
    | 0 => some { p with segments := trimSegments p.segments }
    | n =>
      let rest := dropSteps (n - p.anchor.components.length) p.segments
      some { segments := trimSegments (rest.dropWhile fun s => !isStep s) }
  else none

/-- The path to what holds the thing that a path names; the root and the empty path have none. -/
def parent? (p : Path) : Option Path :=
  match trimSegments p.segments, p.anchor with
  | [], .here => some {}
  | [], _ => none
  | segments, anchor => some ⟨anchor, trimSegments segments.dropLast⟩

/-! ### Joining -/

/-- The segments of a relative path, its leading `.` among them. -/
def joinSegments (p : Path) : List Text :=
  if p.isEmpty then [[]]
  else if p.anchor = .here then ['.'] :: p.segments
  else p.segments

/-- One path after another: a slash goes between them unless the first is empty or ends in one,
and an absolute path starts anew. -/
def join (p q : Path) : Path :=
  if q.anchor = .root then q
  else if p.isEmpty then q
  else
    let base := if p.segments.getLast? = some [] then p.segments.dropLast else p.segments
    ⟨p.anchor, base ++ q.joinSegments⟩

/-- A path followed by the names of things inside. -/
def joinNames (p : Path) (names : List Text) : Path :=
  p.join { segments := names }

/-! ### File names -/

/-- The last component of a path, if it is a name. -/
def fileName? (p : Path) : Option Text :=
  match (trimSegments p.segments).getLast? with
  | none => none
  | some s => if s = ['.', '.'] then none else some s

/-- A name up to its last dot, and what follows the dot. A dot at the start does not count. -/
def splitExtension (name : Text) : Text × Option Text :=
  match Text.dropTail (· != '.') name with
  | [] => (name, none)
  | stem =>
    if stem = ['.'] then (name, none) else (stem.dropLast, some (Text.takeTail (· != '.') name))

/-- The extension of the last component. -/
def extension? (p : Path) : Option Text :=
  p.fileName?.bind fun name => (splitExtension name).2

/-- A path with a new extension on the stem of its last component, and nothing after it. A path
that does not end in a name stays as it is. -/
def setExtension (p : Path) (extension : Text) : Path :=
  match p.fileName? with
  | none => p
  | some name =>
    let file := (splitExtension name).1 ++ '.' :: extension
    { p with segments := (trimSegments p.segments).dropLast ++ [file] }

/-- A path with its extension replaced. The old extension is cut off the end of the spelling
first, so a name that starts with two dots and has no other becomes the parent directory, which
takes no extension. -/
def withExtension (p : Path) (extension : Text) : Path :=
  match p.extension? with
  | none => p.setExtension extension
  | some old => (ofText (p.toText.take (p.toText.length - old.length))).setExtension extension

end Path

end Offside
