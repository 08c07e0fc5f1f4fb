import LexGen.Scan.Policy

/-!
# Arguments of the command

A command line consists of common options, a task, and the options and texts of the task. An
option has a long name after two dashes, and most have a letter after one dash. A value follows
its option as the next argument, after an equals sign, or directly after the letter, and letters
of options without a value may be joined. What does not start with a dash is a text, so is a dash
alone, and so is everything after two dashes alone. An option is given at most once at its place.
-/

namespace LexGen.Command

inductive OutputFormat where
  | text | json
  deriving DecidableEq, Repr

/-- What the command is asked to do, with the file of the rules. -/
inductive Task where
  /-- Print the tokens of the texts, or of the standard input if there are none. -/
  | tokenize (rules : String) (policy : TrailingPolicy) (format : OutputFormat) (keepGoing : Bool)
      (texts : List String)
  /-- Store the table in a file. -/
  | compile (rules output : String)
  /-- Print the diagram of the automaton. -/
  | dot (rules : String) (unminimized : Bool)
  /-- List the rules and the alphabet. -/
  | rules (rules : String)
  deriving DecidableEq, Repr

structure Invocation where
  verbose : Bool
  task : Task
  deriving DecidableEq, Repr

/-- Why there is nothing to run. -/
inductive Stop where
  /-- The arguments make no sense. -/
  | usage
  /-- The version was asked for. -/
  | version
  deriving DecidableEq, Repr

/-- An option as it may be given. -/
structure OptionSpec where
  name : String
  letter : Option Char
  hasValue : Bool
  deriving DecidableEq, Repr

/-- Options as they were given, by their names; those without a value have an empty one. -/
structure Given where
  options : List (String × String)
  texts : List String
  deriving DecidableEq, Repr

def versionName : String := "version"

namespace Given

def empty : Given := ⟨[], []⟩

/-- Note an option. A second time is refused, and asking for the version ends the reading. -/
def add (given : Given) (option : OptionSpec) (value : String) : Except Stop Given :=
  if option.name = versionName then .error .version
  else if (given.options.lookup option.name).isSome then .error .usage
  else .ok { given with options := given.options ++ [(option.name, value)] }

def has (given : Given) (name : String) : Bool := (given.options.lookup name).isSome

def value? (given : Given) (name : String) : Option String := given.options.lookup name

end Given

/-- Read the letters after a dash. An option that is still without its value is returned. -/
def readLetters (specs : List OptionSpec) (given : Given) :
    List Char → Except Stop (Given × Option OptionSpec)
  | [] => .ok (given, none)
  | letter :: rest =>
    match specs.find? (·.letter == some letter) with
    | none => .error .usage
    | some option =>
      if option.hasValue then
        match rest with
        | [] => .ok (given, some option)
        | '=' :: value => (given.add option (String.ofList value)).map (·, none)
        | value => (given.add option (String.ofList value)).map (·, none)
      else
        match given.add option "" with
        | .error stop => .error stop
        | .ok given => readLetters specs given rest

/-- Read the name after two dashes, and a value behind an equals sign. -/
def readName (specs : List OptionSpec) (given : Given) (text : List Char) :
    Except Stop (Given × Option OptionSpec) :=
  match specs.find? (·.name.toList == text.takeWhile (· != '=')) with
  | none => .error .usage
  | some option =>
    match text.dropWhile (· != '=') with
    | [] =>
      if option.hasValue then .ok (given, some option) else (given.add option "").map (·, none)
    | _ :: value =>
      if option.hasValue then (given.add option (String.ofList value)).map (·, none)
      else .error .usage

/-- How an argument is read. -/
inductive Kind where
  | name (text : List Char)
  | letters (text : List Char)
  /-- All that follows is text. -/
  | separator
  | text
  deriving DecidableEq, Repr

def Kind.of (argument : String) : Kind :=
  match argument.toList with
  | ['-', '-'] => .separator
  | '-' :: '-' :: rest => .name rest
  | '-' :: letter :: rest => .letters (letter :: rest)
  | _ => .text

/-- Read options, and texts between them, up to the end. If `single` holds, the first text ends
the reading. The arguments that are left are returned. `pending` is an option that still needs
its value. -/
def readOptions (specs : List OptionSpec) (single : Bool) (given : Given)
    (pending : Option OptionSpec) : List String → Except Stop (Given × List String)
  | [] => if pending.isSome then .error .usage else .ok (given, [])
  | argument :: rest =>
    match pending, Kind.of argument with
    | some option, .text => do
      readOptions specs single (← given.add option argument) none rest
    | some _, _ => .error .usage
    | none, .text =>
      if single then .ok (given, argument :: rest)
      else readOptions specs single { given with texts := given.texts ++ [argument] } none rest
    | none, .separator =>
      if single then .error .usage else .ok ({ given with texts := given.texts ++ rest }, [])
    | none, .name text => do
      let (given, pending) ← readName specs given text
      readOptions specs single given pending rest
    | none, .letters text => do
      let (given, pending) ← readLetters specs given text
      readOptions specs single given pending rest

def verboseSpec : OptionSpec := ⟨"verbose", some 'v', false⟩

def rulesSpec : OptionSpec := ⟨"rules", some 'r', true⟩

/-- The options in front of the task. -/
def commonSpecs : List OptionSpec := [verboseSpec, ⟨versionName, some 'V', false⟩]

def tokenizeSpecs : List OptionSpec :=
  [verboseSpec, rulesSpec, ⟨"trailing", some 't', true⟩, ⟨"format", some 'f', true⟩,
    ⟨"keep-going", some 'k', false⟩]

def compileSpecs : List OptionSpec := [verboseSpec, rulesSpec, ⟨"output", some 'o', true⟩]

def dotSpecs : List OptionSpec := [verboseSpec, rulesSpec, ⟨"unminimized", none, false⟩]

def rulesSpecs : List OptionSpec := [verboseSpec, rulesSpec]

/-- The path that an option gives; it is needed and not empty. -/
def Given.path (given : Given) (name : String) : Except Stop String :=
  match given.value? name with
  | some path => if path.isEmpty then .error .usage else .ok path
  | none => .error .usage

def Given.policy (given : Given) : Except Stop TrailingPolicy :=
  match given.value? "trailing" with
  | none => .ok .drop
  | some name =>
    match TrailingPolicy.ofName? name with
    | some policy => .ok policy
    | none => .error .usage

def Given.format (given : Given) : Except Stop OutputFormat :=
  match given.value? "format" with
  | none => .ok .text
  | some "text" => .ok .text
  | some "json" => .ok .json
  | some _ => .error .usage

/-- The options of a task that takes no texts. -/
def readTask (specs : List OptionSpec) (arguments : List String) : Except Stop Given := do
  let (given, _) ← readOptions specs false .empty none arguments
  if given.texts.isEmpty then return given else throw .usage

/-- What the arguments ask for. -/
def Invocation.ofArguments (arguments : List String) : Except Stop Invocation := do
  let (common, rest) ← readOptions commonSpecs true .empty none arguments
  let verbose (given : Given) : Bool := common.has "verbose" || given.has "verbose"
  match rest with
  | "tokenize" :: rest =>
    let (given, _) ← readOptions tokenizeSpecs false .empty none rest
    return ⟨verbose given, .tokenize (← given.path "rules") (← given.policy) (← given.format)
      (given.has "keep-going") given.texts⟩
  | "compile" :: rest =>
    let given ← readTask compileSpecs rest
    return ⟨verbose given, .compile (← given.path "rules") (← given.path "output")⟩
  | "dot" :: rest =>
    let given ← readTask dotSpecs rest
    return ⟨verbose given, .dot (← given.path "rules") (given.has "unminimized")⟩
  | "rules" :: rest =>
    let given ← readTask rulesSpecs rest
    return ⟨verbose given, .rules (← given.path "rules")⟩
  | _ => throw .usage

end LexGen.Command
