import Offside.Options

/-!
# Arguments

The command line names a command, files and options. A switch is on when it is given; a valued
option takes the rest of its argument after `=`, or the next argument unless that starts with a
dash. A lone dash is a word like any other, and after `--` every argument is a word. Nothing may
be given twice, and nothing is abbreviated. Arguments are read from left to right, and the first
that asks for help or the version, or is wrong, settles what happens.
-/

namespace Offside

namespace Cli

/-- Options of rendering that are given on the command line. -/
structure Overrides where
  mode : Option VoidStyle := none
  noFormat : Bool := false
  indent : Option Nat := none
  deriving DecidableEq, Repr

/-- The options with those of the command line in place of their own. -/
def Overrides.apply (given : Overrides) (options : Options) : Options where
  formatOutput := if given.noFormat then false else options.formatOutput
  voidStyle := given.mode.getD options.voidStyle
  indentUnit := given.indent.getD options.indentUnit

/-- What is to be done. -/
inductive Command where
  /-- Renders one file, to another file or to the output. -/
  | render (file : Text) (overrides : Overrides) (out : Option Text) (highlight : Bool)
  /-- Reports the diagnostics of some files. -/
  | check (files : List Text)
  /-- Shows the tags of a file. -/
  | parse (file : Text)
  /-- Renders a site; `watch` asks to go on and do so again whenever it changes. -/
  | build (dir : Text) (out : Option Text) (overrides : Overrides) (watch : Bool)
  deriving DecidableEq, Repr

/-- What the command line asks for. -/
inductive Request where
  | run (quiet : Bool) (command : Command)
  | version
  | help
  | invalid
  deriving DecidableEq, Repr

/-! ### Words -/

/-- The form of an argument. -/
inductive Word where
  /-- `--`, after which every argument is a plain word. -/
  | terminator
  /-- `--name` or `--name=value`. -/
  | long (name : Text) (value : Option Text)
  /-- `-` and some letters. -/
  | short (letters : Text)
  /-- Anything else. -/
  | plain
  deriving DecidableEq, Repr

/-- The form of an argument. -/
def Word.ofText : Text → Word
  | ['-', '-'] => .terminator
  | '-' :: '-' :: rest =>
    match Text.cutAt '=' rest with
    | some (name, value) => .long name (some value)
    | none => .long rest none
  | '-' :: c :: letters => .short (c :: letters)
  | _ => .plain

/-- An argument that can be the value of the option before it. -/
def isValue (argument : Text) : Bool :=
  Word.ofText argument = .plain

/-! ### Switches and valued options -/

/-- The switches. -/
inductive Switch where
  | quiet
  | verbose
  | noFormat
  | highlight
  | watch
  deriving DecidableEq, Repr

/-- The options that take a value. -/
inductive Valued where
  | mode
  | indent
  | out
  deriving DecidableEq, Repr

/-- The name of a switch. -/
def Switch.name : Switch → Text
  | .quiet => "quiet".toList
  | .verbose => "verbose".toList
  | .noFormat => "no-format".toList
  | .highlight => "highlight".toList
  | .watch => "watch".toList

/-- The name of a valued option. -/
def Valued.name : Valued → Text
  | .mode => "mode".toList
  | .indent => "indent".toList
  | .out => "out".toList

/-- What may be given at one level of the command line. -/
structure Grammar where
  switches : List Switch
  valued : List Valued := []
  /-- The greatest number of words, if there is one. -/
  words : Option Nat := none
  /-- The outer level, where the first word names the command. -/
  outer : Bool := false

/-- What has been given so far. -/
structure Given where
  switches : List Switch := []
  mode : Option VoidStyle := none
  indent : Option Nat := none
  out : Option Text := none
  words : List Text := []
  deriving DecidableEq, Repr

/-- Why the reading of arguments ends early. -/
inductive Stop where
  | version
  | help
  | invalid
  deriving DecidableEq, Repr

/-- The number below `2 ^ 64` that a text names in digits, after a plus sign if it likes. -/
def number? (t : Text) : Option Nat :=
  let digits :=
    match t with
    | '+' :: rest => rest
    | t => t
  (Text.decimal? digits).filter (· < Text.wordLimit)

namespace Given

/-- Turns a switch on, once. -/
def turnOn (given : Given) (s : Switch) : Except Stop Given :=
  if s ∈ given.switches then .error .invalid
  else .ok { given with switches := s :: given.switches }

/-- Gives a valued option its value, once. -/
def assign (given : Given) (option : Valued) (value : Text) : Except Stop Given :=
  match option with
  | .mode =>
    match given.mode, VoidStyle.ofName? value with
    | none, some style => .ok { given with mode := some style }
    | _, _ => .error .invalid
  | .indent =>
    match given.indent, number? value with
    | none, some n => .ok { given with indent := some n }
    | _, _ => .error .invalid
  | .out =>
    match given.out with
    | none => .ok { given with out := some value }
    | some _ => .error .invalid

/-- Adds a word, if there may be one more. -/
def addWord (grammar : Grammar) (given : Given) (word : Text) : Except Stop Given :=
  if grammar.words.any (· ≤ given.words.length) then .error .invalid
  else .ok { given with words := given.words ++ [word] }

/-- The meaning of one letter after a dash. -/
def addLetter (grammar : Grammar) (given : Given) (letter : Char) : Except Stop Given :=
  if letter = 'v' then given.turnOn .verbose
  else if letter = 'h' then .error .help
  else if letter = 'V' ∧ grammar.outer = true then .error .version
  else .error .invalid

/-- The options of rendering among what was given. -/
def overrides (given : Given) : Overrides where
  mode := given.mode
  noFormat := .noFormat ∈ given.switches
  indent := given.indent

end Given

/-- Reads the arguments of one level. At the outer level the reading ends at the first word, and
the arguments from there on are left. -/
def scan (grammar : Grammar) (given : Given) : List Text → Except Stop (Given × List Text)
  | [] => .ok (given, [])
  | argument :: rest =>
    match Word.ofText argument with
    | .terminator =>
      if grammar.outer then .error .invalid
      else (rest.foldlM (Given.addWord grammar) given).map (·, [])
    | .plain =>
      if grammar.outer then .ok (given, argument :: rest)
      else
        match given.addWord grammar argument with
        | .ok given => scan grammar given rest
        | .error stop => .error stop
    | .short letters =>
      match letters.foldlM (Given.addLetter grammar) given with
      | .ok given => scan grammar given rest
      | .error stop => .error stop
    | .long name value =>
      match grammar.switches.find? (·.name = name), value with
      | some s, none =>
        match given.turnOn s with
        | .ok given => scan grammar given rest
        | .error stop => .error stop
      | some _, some _ => .error .invalid
      | none, value =>
        match grammar.valued.find? (·.name = name), value, rest with
        | some option, some value, rest =>
          match given.assign option value with
          | .ok given => scan grammar given rest
          | .error stop => .error stop
        | some option, none, value :: rest =>
          match if isValue value then given.assign option value else .error .invalid with
          | .ok given => scan grammar given rest
          | .error stop => .error stop
        | some _, none, [] => .error .invalid
        | none, none, _ =>
          if name = "help".toList then .error .help
          else if name = "version".toList ∧ grammar.outer = true then .error .version
          else .error .invalid
        | none, some _, _ => .error .invalid

/-! ### Commands -/

/-- The arguments before the command. -/
def outerGrammar : Grammar :=
  { switches := [.quiet, .verbose], outer := true }

/-- The arguments of `render`. -/
def renderGrammar : Grammar :=
  { switches := [.quiet, .verbose, .noFormat, .highlight]
    valued := [.mode, .indent, .out]
    words := some 1 }

/-- The arguments of `check`. -/
def checkGrammar : Grammar :=
  { switches := [.quiet, .verbose] }

/-- The arguments of `parse`. -/
def parseGrammar : Grammar :=
  { switches := [.quiet, .verbose], words := some 1 }

/-- The arguments of `build`. -/
def buildGrammar : Grammar :=
  { switches := [.quiet, .verbose, .noFormat, .watch]
    valued := [.mode, .indent, .out]
    words := some 1 }

/-- The commands: their names, their arguments, and what is asked for by what was given. -/
def commands : List (Text × Grammar × (Given → Option Command)) :=
  [("render".toList, renderGrammar, fun given =>
      match given.words with
      | [file] => some (.render file given.overrides given.out (.highlight ∈ given.switches))
      | _ => none),
    ("check".toList, checkGrammar, fun given => some (.check given.words)),
    ("parse".toList, parseGrammar, fun given =>
      match given.words with
      | [file] => some (.parse file)
      | _ => none),
    ("build".toList, buildGrammar, fun given =>
      match given.words with
      | [dir] => some (.build dir given.out given.overrides (.watch ∈ given.switches))
      | _ => none)]

/-- The request that a stop settles. -/
def Stop.request : Stop → Request
  | .version => .version
  | .help => .help
  | .invalid => .invalid

/-- The request for help on commands. -/
def helpRequest : List Text → Request
  | [] => .help
  | [name] =>
    if name = "help".toList || (commands.lookup name).isSome then .help else .invalid
  | _ => .invalid

/-- What the arguments after the name of a command ask for. -/
def commandRequest (outer : Given) (name : Text) (arguments : List Text) : Request :=
  match commands.lookup name with
  | none => if name = "help".toList then helpRequest arguments else .invalid
  | some (grammar, command?) =>
    match scan grammar {} arguments with
    | .error stop => stop.request
    | .ok (given, _) =>
      match command? given with
      | none => .invalid
      | some command => .run (.quiet ∈ outer.switches ++ given.switches) command

/-- What a command line asks for. -/
def Request.ofArguments (arguments : List Text) : Request :=
  match scan outerGrammar {} arguments with
  | .error stop => stop.request
  | .ok (_, []) => .invalid
  | .ok (outer, name :: rest) => commandRequest outer name rest

end Cli

end Offside
