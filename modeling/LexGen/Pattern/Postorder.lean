import LexGen.Pattern.Concatenation
import LexGen.Pattern.Error

/-!
# Patterns in postorder

In postorder each operator stands behind its operands, so neither precedence nor parentheses are
needed. `Postorder.arrange` reads the symbols of a pattern from left to right and holds back the
operators whose second operand is not complete. An operator that arrives releases the held ones
that bind at least as tightly, which makes equal operators group to the left. A parenthesis that
closes releases all since its partner.
-/

namespace LexGen

/-- An element of a pattern in postorder. -/
inductive Item where
  | literal (c : Char)
  | operator (op : Operator)
  deriving DecidableEq, Repr

def Item.char : Item → Char
  | .literal c => c
  | .operator op => op.char

/-- What is held back: an operator, or a parenthesis that is still open. -/
inductive Held where
  | operator (op : Operator)
  | paren
  deriving DecidableEq, Repr

namespace Postorder

/-- Release the operators on top that bind at least as tightly as `op`. -/
def release (op : Operator) : List Held → List Item × List Held
  | .operator top :: held =>
    if top.precedence < op.precedence then ([], .operator top :: held)
    else
      let (items, held) := release op held
      (.operator top :: items, held)
  | held => ([], held)

/-- Release the operators down to the last open parenthesis and close it. -/
def close? : List Held → Option (List Item × List Held)
  | .paren :: held => some ([], held)
  | .operator top :: held => (close? held).map fun (items, held) => (.operator top :: items, held)
  | [] => none

/-- Release all; every parenthesis must have been closed. -/
def drain : List Held → Except PatternError (List Item)
  | [] => .ok []
  | .operator top :: held => (drain held).map (.operator top :: ·)
  | .paren :: _ => .error .unbalancedParentheses

/-- The symbols in postorder, after what is held back. -/
def arrange (held : List Held) : List Symbol → Except PatternError (List Item)
  | [] => drain held
  | .literal c :: rest => (arrange held rest).map (.literal c :: ·)
  | .openParen :: rest => arrange (.paren :: held) rest
  | .closeParen :: rest =>
    match close? held with
    | none => .error .unbalancedParentheses
    | some (items, held) => (arrange held rest).map (items ++ ·)
  | .operator op :: rest =>
    let (items, held) := release op held
    (arrange (.operator op :: held) rest).map (items ++ ·)

end Postorder

/-- A pattern without classes in postorder. -/
def Pattern.postorder (pattern : List Char) : Except PatternError (List Item) :=
  Postorder.arrange [] ((Pattern.concatenated pattern).map Symbol.ofChar)

end LexGen
