import Offside.Ansi
import Offside.Document
import Offside.FileTree

/-!
# Sessions

A command works on a file tree, reads the standard input, and writes lines to the output and to
the error output. A step that fails ends the command with a report of what it was about; a
rendering that is refused ends it without one. What was written before stays written.
-/

namespace Offside

namespace Cli

/-- The world of a command. -/
structure Session where
  tree : FileTree
  /-- What has not been read of the standard input. -/
  input : ByteArray := .empty
  /-- The lines written to the output. -/
  output : Array Text := #[]
  /-- The lines written to the error output. -/
  errors : Array Text := #[]

/-- The text of lines that are written one after the other. -/
def textOf (lines : List Text) : String :=
  String.ofList (lines.flatMap (· ++ ['\n']))

/-- Why a command ends early. -/
inductive Halt where
  /-- A step failed; the text says which. -/
  | failed (report : Text)
  /-- A padding or a highlighting was refused. -/
  | refused
  deriving DecidableEq, Repr

/-- A step of a command. -/
abbrev Action := ExceptT Halt (StateM Session)

namespace Action

/-- Writes a line to the output. -/
def say (line : Text) : Action Unit :=
  modify fun s => { s with output := s.output.push line }

/-- Writes a line to the error output. -/
def complain (line : Text) : Action Unit :=
  modify fun s => { s with errors := s.errors.push line }

/-- Ends the command with a report on something named. -/
def fail (what : String) (name : Text) : Action α :=
  throw (.failed ("Failed to ".toList ++ what.toList ++ " '".toList ++ name ++ ['\x27']))

/-- The text of a file. -/
def readFile (p : Path) : Action Text := do
  match (← get).tree.readText? p with
  | some text => return text
  | none => fail "read" p.toText

/-- The text of the file with this name, or what is left of the standard input for a dash. -/
def readSource (name : Text) : Action Text := do
  if name = ['-'] then
    let input := (← get).input
    modify fun s => { s with input := .empty }
    match String.fromUTF8? input with
    | some text => return text.toList
    | none => throw (.failed "Failed to read stdin".toList)
  else
    match (← get).tree.readText? (.ofText name) with
    | some text => return text
    | none => fail "read" name

/-- Writes markup to a file, with a line end after it. -/
def writePage (p : Path) (shown : Text) (markup : Text) : Action Unit := do
  let content := (String.ofList (markup ++ ['\n'])).toUTF8
  match (← get).tree.write p content with
  | .ok tree => modify fun s => { s with tree }
  | .error _ => fail "write" shown

/-- Makes a directory and those on the way to it. -/
def makeDirectories (p : Path) : Action Unit := do
  match (← get).tree.makeDirectories p with
  | .ok tree => modify fun s => { s with tree }
  | .error _ => fail "create" p.toText

end Action

/-! ### Lines -/

/-- Where a diagnostic belongs: the file, and the line if it has one. -/
def location (file : Text) (d : Diagnostic) : Text :=
  match d.line with
  | some line => file ++ ':' :: Text.decimal line
  | none => file

/-- A diagnostic beside the rendering of its file. -/
def remark (file : Text) (d : Diagnostic) : Text :=
  location file d ++ ": ".toList ++ d.message

/-- The style of a severity. -/
def severityStyle : Severity → Ansi.Style
  | .error => { colour := .red, bold := true }
  | .warning => { colour := .yellow, bold := true }
  | .info => { colour := .cyan, bold := true }

/-- A diagnostic as the result of a check. -/
def finding (coloured : Bool) (file : Text) (d : Diagnostic) : Text :=
  location file d ++ ": ".toList ++ Ansi.paint coloured (severityStyle d.severity) d.severity.name ++
    ": ".toList ++ (d.code.elim [] fun code => '[' :: code ++ "] ".toList) ++ d.message

end Cli

end Offside
