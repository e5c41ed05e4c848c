import Offside.Tag.Basic

/-!
# Diagnostics

What is odd about a source is reported and never stops its rendering. A diagnostic has a code
that says what was found, the line it was found on, and a sentence.
-/

namespace Offside

/-- How grave a diagnostic is. -/
inductive Severity where
  | error
  | warning
  | info
  deriving DecidableEq, Repr

namespace Severity

/-- All severities. -/
def all : List Severity :=
  [.error, .warning, .info]

/-- The name of a severity. -/
def name : Severity → Text
  | .error => "error".toList
  | .warning => "warning".toList
  | .info => "info".toList

/-- The severity with exactly this name. -/
def ofName? (name : Text) : Option Severity :=
  all.find? (·.name = name)

/-- A severity's name names it. -/
@[simp] theorem ofName?_name (s : Severity) : ofName? s.name = some s := by
  cases s <;> decide

end Severity

/-- A remark on a source. -/
structure Diagnostic where
  severity : Severity
  message : Text
  /-- The number of the line, counted from one. -/
  line : Option Nat := none
  code : Option Text := none
  deriving DecidableEq, Repr

namespace Diagnostic

/-- The indentation of a line mixes tabs and spaces. -/
def mixedIndent (line : Nat) : Diagnostic :=
  { severity := .warning
    message := "Indentation mixes tabs and spaces; each counts as one column".toList
    line := some line
    code := some "W004".toList }

/-- A line of metadata is text like any other. -/
def metadata (line : Nat) (content : Text) : Diagnostic :=
  { severity := .info
    message := ['\x27'] ++ content ++ "' is passed through as text".toList
    line := some line
    code := some "I001".toList }

/-- What a tag line passed over. -/
def ofIssue (line : Nat) : Tag.Issue → Diagnostic
  | .unclosedBlock =>
    { severity := .warning
      message := "Attribute block opened with '\x7b' but never closed; kept as text".toList
      line := some line
      code := some "W001".toList }
  | .bareEntry piece =>
    { severity := .warning
      message :=
        "Ignoring attribute entry '".toList ++ piece ++ "' (expected 'key: value')".toList
      line := some line
      code := some "W003".toList }
  | .contentOnVoid content =>
    { severity := .warning
      message :=
        "Self-closing tag cannot hold content; dropped '".toList ++ content ++ ['\x27']
      line := some line
      code := some "W002".toList }

end Diagnostic

end Offside
