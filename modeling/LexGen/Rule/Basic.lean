import LexGen.Alphabet
import LexGen.Pattern.CharClass

/-!
# Rules

A rule says that the words of a pattern are tokens of a type. Rules are ordered: the position of
a rule is its priority, and of two rules that match the same word the earlier one wins.
-/

namespace LexGen

/-- The name of a kind of token. -/
structure TokenType where
  name : String
  deriving DecidableEq, Repr

/-- What an accepting state stands for: the token type of a rule and that rule's priority. -/
structure RuleTag where
  tokenType : TokenType
  priority : Nat
  deriving DecidableEq, Repr

structure Rule where
  pattern : String
  tokenType : TokenType
  priority : Nat
  deriving DecidableEq, Repr

def Rule.tag (rule : Rule) : RuleTag := ⟨rule.tokenType, rule.priority⟩

/-- Rules in the order of their declaration, which gives them their priorities. -/
structure RuleSet where
  entries : List (String × TokenType)
  deriving DecidableEq, Repr

/-- Why a rule set has no lexer. -/
inductive RuleError where
  /-- A pattern is refused. -/
  | malformedPattern (pattern : String) (cause : PatternError)
  /-- There is no rule. -/
  | emptyRuleSet
  deriving DecidableEq, Repr

def RuleError.message : RuleError → String
  | malformedPattern pattern cause => "malformed pattern `" ++ pattern ++ "`: " ++ cause.message
  | emptyRuleSet => "rule set is empty"

/-- The alphabet of the literals of patterns that have no classes. -/
def Alphabet.ofPatterns (patterns : List (List Char)) : Alphabet :=
  .ofList (patterns.flatten.filter Symbol.isLiteral)

namespace RuleSet

def empty : RuleSet := ⟨[]⟩

/-- Add a rule behind the others. -/
def push (rules : RuleSet) (pattern : String) (tokenType : TokenType) : RuleSet :=
  ⟨rules.entries ++ [(pattern, tokenType)]⟩

def size (rules : RuleSet) : Nat := rules.entries.length

def isEmpty (rules : RuleSet) : Bool := rules.entries.isEmpty

/-- The rules with their priorities, from 0 on. -/
def rules (set : RuleSet) : List Rule :=
  set.entries.zipIdx.map fun ((pattern, tokenType), priority) => ⟨pattern, tokenType, priority⟩

/-- The literals of all rules. -/
def alphabet (set : RuleSet) : Except RuleError Alphabet :=
  (set.rules.mapM fun rule =>
    (Pattern.expanded rule.pattern.toList).mapError (.malformedPattern rule.pattern)).map
      Alphabet.ofPatterns

end RuleSet

end LexGen
