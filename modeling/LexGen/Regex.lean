import LexGen.Pattern.CharClass
import LexGen.Pattern.Postorder

/-!
# Regular expressions

The syntax tree of a pattern. `Regex.parse` reads a pattern: its classes are expanded, its
symbols are brought into postorder, and the tree is built from there with a stack of operands.
-/

namespace LexGen

inductive Regex where
  | literal (c : Char)
  | concat (left right : Regex)
  | union (left right : Regex)
  | repeated (mark : Repetition) (inner : Regex)
  deriving DecidableEq, Repr

namespace Regex

def joined : Joint → Regex → Regex → Regex
  | .concat => concat
  | .union => union

/-- The tree with its operators behind their operands. -/
def postorder : Regex → List Item
  | literal c => [.literal c]
  | concat left right => left.postorder ++ right.postorder ++ [.operator (.binary .concat)]
  | union left right => left.postorder ++ right.postorder ++ [.operator (.binary .union)]
  | repeated mark inner => inner.postorder ++ [.operator (.unary mark)]

/-- The tree of a sequence in postorder. The stack holds the operands read so far, the last one on
top. -/
def ofPostorder (stack : List Regex) : List Item → Except PatternError Regex
  | .literal c :: rest => ofPostorder (literal c :: stack) rest
  | .operator (.unary mark) :: rest =>
    match stack with
    | inner :: stack => ofPostorder (repeated mark inner :: stack) rest
    | _ => .error (.missingOperand (.unary mark))
  | .operator (.binary mark) :: rest =>
    match stack with
    | right :: left :: stack => ofPostorder (joined mark left right :: stack) rest
    | _ => .error (.missingOperand (.binary mark))
  | [] =>
    match stack with
    | [regex] => .ok regex
    | [] => .error .empty
    | stack => .error (.leftover stack.length)

/-- Behind a whole operand in postorder the operand's tree is on top of the stack. -/
@[simp]
theorem ofPostorder_append (regex : Regex) (stack : List Regex) (rest : List Item) :
    ofPostorder stack (regex.postorder ++ rest) = ofPostorder (regex :: stack) rest := by
  induction regex generalizing stack rest with
  | literal c => rfl
  | concat left right ihl ihr => simp [postorder, ihl, ihr, ofPostorder, joined]
  | union left right ihl ihr => simp [postorder, ihl, ihr, ofPostorder, joined]
  | repeated mark inner ih => simp [postorder, ih, ofPostorder]

/-- A tree can be read back from its postorder. -/
theorem ofPostorder_postorder (regex : Regex) : ofPostorder [] regex.postorder = .ok regex := by
  simpa [ofPostorder] using ofPostorder_append regex [] []

/-- Read a pattern. -/
def parse (pattern : String) : Except PatternError Regex := do
  ofPostorder [] (← Pattern.postorder (← Pattern.expanded pattern.toList))

end Regex

end LexGen
