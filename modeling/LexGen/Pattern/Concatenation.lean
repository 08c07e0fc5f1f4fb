import LexGen.Pattern.Symbol

/-!
# Implicit concatenation

Where one operand ends and the next one starts without an operator between them, the two are
concatenated. `Pattern.concatenated` writes the mark that stands for this.
-/

namespace LexGen.Pattern

/-- An operand can end with this character. -/
def endsOperand (c : Char) : Bool :=
  Symbol.isLiteral c || c == ')' || c == '*' || c == '+' || c == '?'

/-- An operand can start with this character. -/
def startsOperand (c : Char) : Bool := Symbol.isLiteral c || c == '('

/-- The pattern with every concatenation written out. -/
def concatenated : List Char → List Char
  | a :: b :: rest =>
    if endsOperand a && startsOperand b then a :: '·' :: concatenated (b :: rest)
    else a :: concatenated (b :: rest)
  | [a] => [a]
  | [] => []

end LexGen.Pattern
