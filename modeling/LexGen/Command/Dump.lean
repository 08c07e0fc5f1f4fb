import LexGen.Lexer
import LexGen.Text.Quoted

/-!
# Dumps

With the option `--verbose` the results of all steps are written out in full. A dump shows the
name of a type with its fields in braces, a list in brackets, and a set or a map in braces.
-/

namespace LexGen.Command.Dump

def listed (items : List String) : String := "[" ++ ", ".intercalate items ++ "]"

def braced (items : List String) : String := "\x7b" ++ ", ".intercalate items ++ "\x7d"

/-- A value of a type with a single part that has no name. -/
def tagged (name part : String) : String := name ++ "(" ++ part ++ ")"

/-- A value of a type with named fields. -/
def record (name : String) (fields : List (String × String)) : String :=
  name ++ " \x7b " ++ ", ".intercalate (fields.map fun (field, value) => field ++ ": " ++ value) ++
    " \x7d"

def optional (value : Option String) : String := value.elim "None" (tagged "Some")

def bool (value : Bool) : String := if value then "true" else "false"

/-- The entry of a map. -/
def entry (key value : String) : String := key ++ ": " ++ value

def tokenType (tokenType : TokenType) : String := tagged "TokenType" (Text.quoted tokenType.name)

def rule (rule : Rule) : String :=
  record "Rule" [
    ("pattern", Text.quoted rule.pattern),
    ("token_type", tokenType rule.tokenType),
    ("priority", rule.priority.repr)]

def ruleSet (set : RuleSet) : String := record "RuleSet" [("rules", listed (set.rules.map rule))]

def alphabet (alphabet : Alphabet) : String := braced (alphabet.symbols.map Text.quotedChar)

def nfaNumber (state : Nat) : String := tagged "StateId" state.repr

def edge (edge : Edge) : String :=
  "(" ++ optional (edge.label.map Text.quotedChar) ++ ", " ++ nfaNumber edge.target ++ ")"

def nfaState (state : NfaState) : String :=
  record "NfaState" [
    ("transitions", listed (state.edges.map edge)),
    ("accepting", bool state.accepting)]

def nfa (nfa : Nfa) : String :=
  record "Nfa" [
    ("states", listed (nfa.states.toList.map nfaState)),
    ("start", nfaNumber nfa.start),
    ("end", optional (nfa.finish.map nfaNumber))]

def combined (combined : Combined) : String :=
  record "CombinedNfa" [
    ("nfa", nfa combined.nfa),
    ("token_types", braced (combined.tags.map fun (state, tag) =>
      entry (nfaNumber state) (tokenType tag.tokenType))),
    ("priorities", braced (combined.tags.map fun (state, tag) =>
      entry (nfaNumber state) tag.priority.repr))]

def tag (tag : RuleTag) : String :=
  record "AcceptTag" [("token_type", tokenType tag.tokenType), ("priority", tag.priority.repr)]

def dfaNumber (state : Nat) : String := tagged "DfaId" state.repr

def dfaState (state : DfaState) : String :=
  record "DfaState" [
    ("nfa_states", braced (state.subset.members.map Nat.repr)),
    ("transitions", braced (state.moves.entries.map fun (c, target) =>
      entry (Text.quotedChar c) (dfaNumber target))),
    ("accepting", bool state.accepting),
    ("tag", optional (state.tag.map tag))]

def dfa (dfa : Dfa) : String :=
  record "Dfa" [
    ("states", listed (dfa.states.toList.map dfaState)),
    ("start", dfaNumber dfa.start)]

/-- A line that gives a step's result with the number of its states. -/
def step (name : String) (states : Nat) (dump : String) : String :=
  name ++ " (" ++ states.repr ++ " states) = " ++ dump ++ "\n"

def rulesLine (set : RuleSet) : String := "rules = " ++ ruleSet set ++ "\n"

/-- The lines for the steps of a lexer's construction. -/
def lexer (lexer : Lexer) : String :=
  "alphabet = " ++ alphabet lexer.alphabet ++ "\n" ++
    step "nfa" lexer.combined.nfa.size (combined lexer.combined) ++
    step "dfa" lexer.determinized.size (dfa lexer.determinized) ++
    step "minimized" lexer.minimized.size (dfa lexer.minimized)

end LexGen.Command.Dump
