import LexGen.Rule.Basic
import LexGen.Text.Blank

/-!
# Rule text

Rules are written one on a line as `pattern;name`. The first semicolon ends the pattern, and
blanks around both halves do not count. Lines that are blank, that start with `#` or that have no
semicolon hold no rule and take no priority.
-/

namespace LexGen

/-- Why a rule text is refused. Lines are counted from 1. -/
inductive RuleTextError where
  | emptyPattern (line : Nat)
  | emptyTokenName (line : Nat)
  deriving DecidableEq, Repr

def RuleTextError.message : RuleTextError → String
  | emptyPattern line => "line " ++ line.repr ++ ": empty pattern"
  | emptyTokenName line => "line " ++ line.repr ++ ": empty token name"

namespace RuleSet

/-- The rule on a line, if the line holds one. -/
def readLine (number : Nat) (line : List Char) :
    Except RuleTextError (Option (String × TokenType)) :=
  let line := Text.trim line
  if line.head? = some '#' then .ok none
  else
    match Text.cut? ';' line with
    | none => .ok none
    | some (pattern, name) =>
      if (Text.trim pattern).isEmpty then .error (.emptyPattern number)
      else if (Text.trim name).isEmpty then .error (.emptyTokenName number)
      else .ok (some (String.ofList (Text.trim pattern), ⟨String.ofList (Text.trim name)⟩))

/-- The rules on the lines of a text, the first of which has the given number. -/
def readLines (number : Nat) : List (List Char) → Except RuleTextError (List (String × TokenType))
  | [] => .ok []
  | line :: rest => do
    match ← readLine number line with
    | some rule => return rule :: (← readLines (number + 1) rest)
    | none => readLines (number + 1) rest

def ofText (text : String) : Except RuleTextError RuleSet :=
  (readLines 1 (Text.lines text.toList)).map RuleSet.mk

end RuleSet

end LexGen
