import LexGen.Pattern.Error

/-!
# Character classes

A class is written in brackets, from `[` to the nearest `]` after it, and stands for any one of
its members. `Pattern.expanded` replaces each class by the union of its members in parentheses
and leaves the rest of the pattern as it is. A `[` that no `]` follows is an ordinary character.

Inside a class `x-y` is a range wherever a character, a dash and a further character are all
still to be read; any other character is a member itself. So a dash at the end is a member, and
so is a dash after a range with one character left.
-/

namespace LexGen

namespace CharClass

/-- The character of a code point, unless the code point is a surrogate or too large. -/
def ofCodePoint? (n : Nat) : Option Char := if n.isValidChar then some (Char.ofNat n) else none

/-- The characters from `low` to `high`; none if `high` comes first. -/
def range (low high : Char) : List Char :=
  (List.range' low.toNat (high.toNat + 1 - low.toNat)).filterMap ofCodePoint?

/-- The members that the text between the brackets lists, with repeats. -/
def members : List Char → List Char
  | low :: '-' :: high :: rest => range low high ++ members rest
  | c :: rest => c :: members rest
  | [] => []

/-- The members of a class that may stand in a pattern: there is one, and none is reserved. -/
def read (content : List Char) : Except PatternError (List Char) :=
  let listed := members content
  match listed.find? (!Symbol.isLiteral ·) with
  | some c => .error (.reservedInClass c)
  | none => if listed.isEmpty then .error (.emptyClass (String.ofList content)) else .ok listed

/-- The union of the members in parentheses. -/
def unionText (members : List Char) : List Char := '(' :: members.intersperse '|' ++ [')']

end CharClass

/-- A pattern cut at its classes. -/
inductive Piece where
  | char (c : Char)
  | charClass (content : List Char)
  deriving DecidableEq, Repr

namespace Piece

/-- Cut a pattern at its classes. `opened` holds, in reverse order, what was read since a `[` that
is still without its `]`. -/
def cut : (opened : Option (List Char)) → List Char → List Piece
  | none, [] => []
  | some content, [] => .char '[' :: content.reverse.map .char
  | none, c :: rest => if c = '[' then cut (some []) rest else .char c :: cut none rest
  | some content, c :: rest =>
    if c = ']' then .charClass content.reverse :: cut none rest else cut (some (c :: content)) rest

/-- The text without a class that the piece stands for. -/
def expanded : Piece → Except PatternError (List Char)
  | .char c => .ok [c]
  | .charClass content => (CharClass.read content).map CharClass.unionText

end Piece

/-- The pattern with its classes written as unions. The leftmost bad class gives the error. -/
def Pattern.expanded (pattern : List Char) : Except PatternError (List Char) :=
  ((Piece.cut none pattern).mapM Piece.expanded).map List.flatten

end LexGen
