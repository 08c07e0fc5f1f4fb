import LexGen.Command.Arguments
import LexGen.Command.Dump
import LexGen.Dfa.Diagram
import LexGen.Json.Writer
import LexGen.Rule.Text
import LexGen.Scan.Stored

/-!
# Running the command

Each task reads the rule file, compiles the rules and reports. The command does its reading and
writing through a `System`, so the same definitions run on the real one and on a directory held
in memory. What a task prints is an `Outcome`; a failure is printed after all else, as a message
and the chain of its causes.
-/

namespace LexGen.Command

/-- Why a file cannot be read or written. -/
inductive FileError where
  | notFound
  | notDirectory
  | isDirectory
  | nameTooLong
  | notUtf8
  | other (message : String)
  deriving DecidableEq, Repr

def FileError.message : FileError → String
  | notFound => "No such file or directory (os error 2)"
  | notDirectory => "Not a directory (os error 20)"
  | isDirectory => "Is a directory (os error 21)"
  | nameTooLong => "File name too long (os error 36)"
  | notUtf8 => "stream did not contain valid UTF-8"
  | other message => message

/-- What the command needs from its surroundings. -/
structure System (m : Type → Type) where
  readFile : (path : String) → m (Except FileError String)
  readInput : m (Except FileError String)
  writeFile : (path content : String) → m (Except FileError Unit)

/-- What the command prints and the code it ends with. -/
structure Outcome where
  code : Nat
  stdout : String
  stderr : String
  deriving DecidableEq, Repr

/-- A message and its causes, the nearest first. -/
structure Failure where
  message : String
  causes : List String
  deriving DecidableEq, Repr

/-- The causes as they are listed; several are numbered. -/
def Failure.causeLines : List String → List String
  | [] => []
  | [cause] => ["", "Caused by:", "    " ++ cause]
  | causes =>
    "" :: "Caused by:" :: causes.zipIdx.map fun (cause, number) =>
      let number := number.repr
      "".pushn ' ' (5 - number.length) ++ number ++ ": " ++ cause

def Failure.print (failure : Failure) : String :=
  String.join ((("Error: " ++ failure.message) :: causeLines failure.causes).map (· ++ "\n"))

namespace Outcome

def succeed (stdout : String) : Outcome := ⟨0, stdout, ""⟩

def fail (failure : Failure) : Outcome := ⟨1, "", failure.print⟩

/-- Print something to the error output before all else. -/
def after (notes : String) (outcome : Outcome) : Outcome :=
  { outcome with stderr := notes ++ outcome.stderr }

end Outcome

/-- An error of the rules with the pattern's own error as its cause. -/
def LexerError.causes (error : LexerError) : List String :=
  match error with
  | .rules (.malformedPattern _ cause) => [error.message, cause.message]
  | _ => [error.message]

/-- The lexer of a rule file, and the notes that are printed on the way to it. -/
def prepare (verbose : Bool) (path : String) (content : Except FileError String) :
    String × Except Failure Lexer :=
  match content with
  | .error error => ("", .error ⟨"failed to read rule file " ++ path, [error.message]⟩)
  | .ok text =>
    match RuleSet.ofText text with
    | .error error => ("", .error ⟨"failed to parse rule file " ++ path, [error.message]⟩)
    | .ok ruleSet =>
      let notes := if verbose then Dump.rulesLine ruleSet else ""
      match Lexer.ofRules ruleSet with
      | .error error =>
        (notes, .error ⟨"failed to compile rule file " ++ path, LexerError.causes error⟩)
      | .ok lexer => (if verbose then notes ++ Dump.lexer lexer else notes, .ok lexer)

/-- A token on a line of the text format. -/
def tokenLine (token : Token) : String :=
  "'" ++ token.value ++ "', " ++ token.tokenType.name ++ "\n"

def printTokens (format : OutputFormat) (tokens : List Token) : String :=
  match format with
  | .text => String.join (tokens.map tokenLine)
  | .json => (Json.array (tokens.map Token.toJson)).pretty ++ "\n"

/-- Scan an input and print its tokens. With `keepGoing` the fragments that cannot be scanned are
reported and left out. -/
def scan (scanner : Scanner) (format : OutputFormat) (keepGoing : Bool) (input : String) :
    Outcome :=
  if keepGoing then
    let (tokens, errors) := scanner.tokenizeSkipping input
    let stdout := printTokens format tokens
    let reports := String.join (errors.map fun error => "error: " ++ error.message ++ "\n")
    if errors.isEmpty then .succeed stdout
    else
      { Outcome.fail ⟨errors.length.repr ++ " fragment(s) were not recognized", []⟩ with
        stdout := stdout }.after reports
  else
    match scanner.tokenize input with
    | .ok tokens => .succeed (printTokens format tokens)
    | .error error => .fail ⟨error.message, []⟩

/-- The input that the texts of the command line make together. -/
def joinTexts (texts : List String) : String := " ".intercalate texts

/-- A rule on a line of the list of rules. -/
def ruleLine (rule : Rule) : String :=
  let number := rule.priority.repr
  "".pushn ' ' (3 - number.length) ++ number ++ "  '" ++ rule.pattern ++ "' -> " ++
    rule.tokenType.name ++ "\n"

/-- The list of the rules and what they are compiled to. -/
def listing (lexer : Lexer) : String :=
  String.join (lexer.ruleSet.rules.map ruleLine) ++
    "alphabet = " ++ Dump.alphabet lexer.alphabet ++ "\n" ++
    "minimized DFA: " ++ lexer.minimized.size.repr ++ " states\n"

def Task.rulesPath : Task → String
  | tokenize path .. => path
  | compile path _ => path
  | dot path _ => path
  | rules path => path

/-- Do a task with the lexer of its rule file. -/
def perform {m : Type → Type} [Monad m] (system : System m) (lexer : Lexer) : Task → m Outcome
  | .tokenize _ policy format keepGoing texts => do
    let scanner := (lexer.withPolicy policy).scanner
    if texts.isEmpty then
      match ← system.readInput with
      | .ok input => return scan scanner format keepGoing input
      | .error error => return .fail ⟨"failed to read stdin", [error.message]⟩
    else return scan scanner format keepGoing (joinTexts texts)
  | .compile _ output => do
    let content := lexer.scanner.table.toSavedTable.toJson.compact
    match ← system.writeFile output content with
    | .ok _ =>
      return .succeed ("Wrote " ++ output ++ ", " ++ content.utf8ByteSize.repr ++ " bytes\n")
    | .error error => return .fail ⟨"failed to write " ++ output, [error.message]⟩
  | .dot _ unminimized =>
    let dfa := if unminimized then lexer.determinized else lexer.minimized
    return .succeed (dfa.diagram.dot ++ "\n")
  | .rules _ => return .succeed (listing lexer)

/-- Run the command. -/
def Invocation.run {m : Type → Type} [Monad m] (system : System m) (invocation : Invocation) :
    m Outcome := do
  let path := invocation.task.rulesPath
  let (notes, prepared) := prepare invocation.verbose path (← system.readFile path)
  match prepared with
  | .ok lexer => return (← perform system lexer invocation.task).after notes
  | .error failure => return (Outcome.fail failure).after notes

/-- Run the command with its arguments. -/
def run {m : Type → Type} [Monad m] (system : System m) (arguments : List String) : m Outcome :=
  match Invocation.ofArguments arguments with
  | .ok invocation => invocation.run system
  | .error .version => return .succeed "munch 0.1.0\n"
  | .error .usage =>
    return ⟨2, "", "usage: munch [-v] (tokenize|compile|dot|rules) -r FILE [options] [TEXT..]\n"⟩

end LexGen.Command
