import LexGen.Text.Quoted

/-!
# Broken preconditions

An operation that is called outside the conditions it is made for reports a fault. No rule set
leads to one, and no table whose parts fit together.
-/

namespace LexGen

inductive Fault where
  /-- A literal of the automaton is not in the alphabet. -/
  | uncoveredLiteral (c : Char)
  /-- A move of the automaton is on a character that is not in the alphabet. -/
  | uncoveredMove (c : Char)
  /-- A move has no column in the table. -/
  | missingColumn
  /-- A state accepts without a token, or has a token without accepting. -/
  | untaggedAcceptance
  /-- There is no element of that index. -/
  | indexOutOfBounds (size index : Nat)
  deriving DecidableEq, Repr

def Fault.message : Fault → String
  | uncoveredLiteral c => "alphabet is missing NFA symbol " ++ Text.quotedChar c
  | uncoveredMove c => "alphabet is missing DFA symbol " ++ Text.quotedChar c
  | missingColumn => "alphabet is missing DFA symbol"
  | untaggedAcceptance => "table needs a token for every accepting state"
  | indexOutOfBounds size index =>
    "index out of bounds: the len is " ++ size.repr ++ " but the index is " ++ index.repr

end LexGen
