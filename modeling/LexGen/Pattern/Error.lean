import LexGen.Pattern.Symbol

/-!
# Why a pattern is refused
-/

namespace LexGen

inductive PatternError where
  /-- Some parenthesis has no partner. -/
  | unbalancedParentheses
  /-- An operator has too few operands. -/
  | missingOperand (op : Operator)
  /-- The pattern has no operand at all. -/
  | empty
  /-- A character class has no member. -/
  | emptyClass (content : String)
  /-- A reserved character is a member of a character class. -/
  | reservedInClass (c : Char)
  /-- Several operands are left without an operator between them. -/
  | leftover (count : Nat)
  deriving DecidableEq, Repr

namespace PatternError

def message : PatternError → String
  | unbalancedParentheses => "unbalanced parentheses"
  | missingOperand op => "operator `" ++ op.char.toString ++ "` is missing an operand"
  | empty => "empty expression"
  | emptyClass content => "character class `[" ++ content ++ "]` matches nothing"
  | reservedInClass c => "reserved character `" ++ c.toString ++ "` inside a character class"
  | leftover count => count.repr ++ " unconnected fragments left over"

end PatternError

end LexGen
