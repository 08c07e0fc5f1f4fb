/-!
# The characters of a pattern

A pattern is a text in which seven characters are reserved: three repetition marks, two joining
marks and two parentheses. There is no escape, so a reserved character can never stand for
itself. The joining mark `·` may be written, but mostly it is left out and added by
`Pattern.concatenated`.
-/

namespace LexGen

/-- A mark that stands behind its single operand. -/
inductive Repetition where
  | star | optional | plus
  deriving DecidableEq, Repr

/-- A mark that stands between its two operands. -/
inductive Joint where
  | union | concat
  deriving DecidableEq, Repr

inductive Operator where
  | unary (mark : Repetition)
  | binary (mark : Joint)
  deriving DecidableEq, Repr

inductive Symbol where
  | literal (c : Char)
  | operator (op : Operator)
  | openParen
  | closeParen
  deriving DecidableEq, Repr

namespace Operator

def char : Operator → Char
  | .binary .union => '|'
  | .unary .star => '*'
  | .unary .optional => '?'
  | .unary .plus => '+'
  | .binary .concat => '·'

/-- Repetition binds tighter than concatenation, and concatenation tighter than union. -/
def precedence : Operator → Nat
  | .binary .union => 1
  | .binary .concat => 2
  | .unary _ => 3

end Operator

namespace Symbol

/-- The reserved characters. -/
def reserved : List Char := ['|', '*', '?', '+', '(', ')', '·']

/-- The character can be a literal. -/
def isLiteral (c : Char) : Bool := !reserved.contains c

def ofChar : Char → Symbol
  | '|' => .operator (.binary .union)
  | '*' => .operator (.unary .star)
  | '?' => .operator (.unary .optional)
  | '+' => .operator (.unary .plus)
  | '(' => .openParen
  | ')' => .closeParen
  | '·' => .operator (.binary .concat)
  | c => .literal c

def char : Symbol → Char
  | .literal c => c
  | .operator op => op.char
  | .openParen => '('
  | .closeParen => ')'

@[simp]
theorem char_ofChar (c : Char) : (ofChar c).char = c := by
  unfold ofChar
  split <;> rfl

/-- The character of an operator is read as the operator. -/
theorem ofChar_char (op : Operator) : ofChar op.char = .operator op := by
  rcases op with ⟨⟨⟩⟩ | ⟨⟨⟩⟩ <;> rfl

/-- A character that can be a literal is read as that literal. -/
theorem ofChar_eq_literal_iff {c d : Char} :
    ofChar c = .literal d ↔ isLiteral c = true ∧ d = c := by
  unfold ofChar
  split <;> simp_all [isLiteral, reserved, eq_comm]

end Symbol

end LexGen
