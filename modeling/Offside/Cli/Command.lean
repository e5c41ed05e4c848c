import Offside.Cli.Arguments
import Offside.Cli.Session
import Offside.Json.Form
import Offside.Markup.Highlight
import Offside.Settings
import Offside.Site

/-!
# Commands

What each command does, and the outcome of a command line: the exit status, the lines written and
the file tree afterwards. The settings of the project are loaded before any command.

A build that is asked to watch goes on until it is stopped, and what it does then depends on when
sources change. It has no outcome, so only the build that it starts with is described here.
-/

namespace Offside

namespace Cli

/-- A rendering that goes through, or the end of the command. -/
def settle (name : Text) : Except RenderError Rendered → Action Rendered
  | .ok rendered => return rendered
  | .error (.nesting _) => Action.fail "transpile" name
  | .error (.tooWide _) => throw .refused

/-- Renders one file. -/
def render (coloured : Bool) (options : Options) (file : Text) (out : Option Text)
    (highlighted : Bool) : Action Nat := do
  let text ← Action.readSource file
  let rendered ← settle file ((Renderer.mk options .html).render text)
  rendered.diagnostics.forM fun d => Action.complain (remark file d)
  match out with
  | some path => Action.writePage (.ofText path) path rendered.output
  | none =>
    if highlighted then
      match highlight coloured rendered.output with
      | .ok painted => Action.say painted
      | .error _ => throw .refused
    else Action.say rendered.output
  return 0

/-- What a check finds in a source; a nesting error is a finding like any other. -/
def findings (options : Options) (text : Text) : Action (List Diagnostic) :=
  match (Renderer.mk options .html).render text with
  | .ok rendered => return rendered.diagnostics
  | .error (.nesting e) => return [{ severity := .error, message := e.message, line := e.line }]
  | .error (.tooWide _) => throw .refused

/-- Checks one file; says whether it has errors. -/
def checkFile (coloured : Bool) (options : Options) (file : Text) : Action Bool := do
  let found ← findings options (← Action.readSource file)
  if found = [] then
    Action.say (file ++ ": ".toList ++ Ansi.paint coloured { colour := .green } "OK".toList)
  else
    found.forM fun d => Action.say (finding coloured file d)
  return found.any (·.severity = .error)

/-- Checks files one after the other. -/
def check (coloured : Bool) (options : Options) (files : List Text) : Action Nat := do
  let failed ← files.mapM (checkFile coloured options)
  return if failed.any id then 1 else 0

/-- What is shown of a tag line. -/
def tagRecord (line : Line) : Json :=
  (Json.record [("line", .ofNat (line.number + 1)), ("indent", .ofNat line.indent),
    ("spec", (Tag.read .html line.content).tag.toJson)]).sorted

/-- Shows the tag lines of a file, one record a line. -/
def parse (file : Text) : Action Nat := do
  let text ← Action.readSource file
  let tagLines := (Line.ofSource text).filter fun line => line.kind = .tag
  tagLines.forM fun line => Action.say (tagRecord line).write
  return 0

/-! ### Building a site -/

/-- What a build works with. -/
structure BuildPlan where
  coloured : Bool
  quiet : Bool
  dir : Path
  out : Path
  extension : Text
  options : Options

/-- What a build has done so far. -/
structure BuildReport where
  written : Nat := 0
  failed : Nat := 0
  warnings : Nat := 0
  deriving DecidableEq, Repr

namespace BuildPlan

/-- Writes a line to the output unless the build is to be quiet. -/
def say (plan : BuildPlan) (line : Text) : Action Unit :=
  if plan.quiet then return () else Action.say line

/-- Renders one source to its page. A source that cannot be rendered is reported and passed
over. -/
def buildSource (plan : BuildPlan) (report : BuildReport) (source : Path) : Action BuildReport := do
  let shown := source.toText
  let text ← Action.readFile source
  match (Renderer.mk plan.options .html).render text with
  | .error (.tooWide _) => throw .refused
  | .error (.nesting e) =>
    Action.complain (shown ++ ": ".toList ++
      Ansi.paint plan.coloured { colour := .red, bold := true } "error:".toList ++ ' ' :: e.message)
    return { report with failed := report.failed + 1 }
  | .ok rendered =>
    rendered.diagnostics.forM fun d => Action.complain (remark shown d)
    let page := Site.page plan.dir plan.out source
    match page.parent? with
    | some parent => Action.makeDirectories parent
    | none => pure ()
    Action.writePage page page.toText rendered.output
    plan.say ("  ".toList ++ Ansi.paint plan.coloured { colour := .green } "Wrote".toList ++
      ' ' :: page.toText)
    return { report with
      written := report.written + 1
      warnings := report.warnings + rendered.diagnostics.length }

/-- Renders sources one after the other. -/
def buildSources (plan : BuildPlan) (report : BuildReport) : List Path → Action BuildReport
  | [] => return report
  | source :: rest => do
    let report ← plan.buildSource report source
    plan.buildSources report rest

/-- The line that ends a build. -/
def summary (plan : BuildPlan) (report : BuildReport) : Text :=
  Ansi.paint plan.coloured { colour := .green, bold := true } "Build complete:".toList ++
    ' ' :: Text.decimal report.written ++ " written, ".toList ++ Text.decimal report.failed ++
      " failed, ".toList ++ Text.decimal report.warnings ++ " warnings".toList

/-- Renders a site. -/
def build (plan : BuildPlan) : Action Nat := do
  let sources := Site.sources (← get).tree plan.dir plan.extension
  if sources = [] then
    plan.say (Ansi.paint plan.coloured { colour := .yellow, bold := true }
      "Nothing to build:".toList ++ " no .".toList ++ plan.extension ++ " files under ".toList ++
        plan.dir.toText)
  let report ← plan.buildSources {} sources
  plan.say (plan.summary report)
  return if report.failed = 0 then 0 else 1

end BuildPlan

/-! ### Command lines -/

/-- Does what a command says. Watching is left out: of a build that is to watch this is the first
build, before it waits for changes, with the status that a build by itself would have. -/
def perform (coloured quiet : Bool) (settings : Settings) : Command → Action Nat
  | .render file overrides out highlighted =>
    render coloured (overrides.apply settings.options) file out highlighted
  | .check files => check coloured settings.options files
  | .parse file => parse file
  | .build dir out overrides _ =>
    BuildPlan.build
      { coloured
        quiet
        dir := .ofText dir
        out := .ofText (out.getD settings.outDir)
        extension := settings.extension
        options := overrides.apply settings.options }

/-- Loads the settings and does what a command says. -/
def execute (coloured quiet : Bool) (command : Command) : Action Nat := do
  match Settings.load (← get).tree with
  | .ok settings => perform coloured quiet settings command
  | .error e => throw (.failed e.message)

/-- What a command line leaves behind. -/
structure Outcome where
  status : Nat
  output : List Text
  errors : List Text
  tree : FileTree

/-- The outcome of a session that has ended. -/
def Session.outcome (session : Session) : Except Halt Nat → Outcome
  | .ok status => ⟨status, session.output.toList, session.errors.toList, session.tree⟩
  | .error (.failed report) =>
    ⟨1, session.output.toList, session.errors.toList ++ ["Error: ".toList ++ report], session.tree⟩
  | .error .refused => ⟨101, session.output.toList, session.errors.toList, session.tree⟩

/-- How the command line is used. -/
def usage : List Text :=
  ["Usage: iml [--quiet] [--verbose] <render|check|parse|build> [arguments]".toList]

/-- The outcome of a command line. -/
def run (coloured : Bool) (arguments : List Text) (tree : FileTree) (input : ByteArray) : Outcome :=
  match Request.ofArguments arguments with
  | .version => ⟨0, ["iml 0.1.0".toList], [], tree⟩
  | .help => ⟨0, usage, [], tree⟩
  | .invalid => ⟨2, [], usage, tree⟩
  | .run quiet command =>
    let (result, session) := (execute coloured quiet command).run.run { tree, input }
    session.outcome result

end Cli

end Offside
