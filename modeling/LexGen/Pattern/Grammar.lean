import LexGen.Regex

/-!
# The grammar of patterns

`Pattern.Derives` relates a pattern to its syntax trees by the grammar alone: it counts no
parentheses, holds back no operator and inserts no mark. A derivation has a level for each
strength of binding, from unions down to atoms, and union and concatenation group to the left.
The grammar is over the pieces of a pattern, in which every class is one piece.
-/

namespace LexGen

/-- The strengths of binding, the loosest first. -/
inductive Level where
  | union | concat | repeated | atom
  deriving DecidableEq, Repr

namespace Regex

/-- The union of literals that a class with these members stands for. -/
def ofMembers (first : Char) (others : List Char) : Regex :=
  others.foldl (fun regex c => union regex (literal c)) (literal first)

end Regex

/-- The pieces derive the tree at the level. -/
inductive Piece.Derives : Level → List Piece → Regex → Prop where
  | literal {c : Char} : Symbol.isLiteral c = true → Derives .atom [.char c] (.literal c)
  | charClass {content others : List Char} {first : Char} :
    CharClass.members content = first :: others →
      (∀ c ∈ first :: others, Symbol.isLiteral c = true) →
      Derives .atom [.charClass content] (.ofMembers first others)
  | group {inner : List Piece} {regex : Regex} :
    Derives .union inner regex → Derives .atom (.char '(' :: inner ++ [.char ')']) regex
  | ofAtom {pieces : List Piece} {regex : Regex} :
    Derives .atom pieces regex → Derives .repeated pieces regex
  | repeated {inner : List Piece} {regex : Regex} (mark : Repetition) :
    Derives .repeated inner regex →
      Derives .repeated (inner ++ [.char (Operator.unary mark).char]) (.repeated mark regex)
  | ofRepeated {pieces : List Piece} {regex : Regex} :
    Derives .repeated pieces regex → Derives .concat pieces regex
  | juxtaposed {front back : List Piece} {left right : Regex} :
    Derives .concat front left → Derives .repeated back right →
      Derives .concat (front ++ back) (.concat left right)
  | concat {front back : List Piece} {left right : Regex} :
    Derives .concat front left → Derives .repeated back right →
      Derives .concat (front ++ .char (Operator.binary .concat).char :: back) (.concat left right)
  | ofConcat {pieces : List Piece} {regex : Regex} :
    Derives .concat pieces regex → Derives .union pieces regex
  | union {front back : List Piece} {left right : Regex} :
    Derives .union front left → Derives .concat back right →
      Derives .union (front ++ .char (Operator.binary .union).char :: back) (.union left right)

/-- The pattern has the syntax tree. -/
def Pattern.Derives (pattern : List Char) (regex : Regex) : Prop :=
  Piece.Derives .union (Piece.cut none pattern) regex

/-- The text has the syntax tree if nothing in it is a class, so that brackets are ordinary
characters. -/
def Pattern.DerivesPlain (text : List Char) (regex : Regex) : Prop :=
  Piece.Derives .union (text.map .char) regex

end LexGen
