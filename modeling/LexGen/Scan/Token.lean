import LexGen.Rule.Basic

/-!
# Tokens
-/

namespace LexGen

structure Token where
  tokenType : TokenType
  value : String
  deriving DecidableEq, Repr

/-- A token as it is shown to a reader. -/
def Token.display (token : Token) : String := token.tokenType.name ++ " '" ++ token.value ++ "'"

end LexGen
