import LexGen.Scan.Policy
import LexGen.Scan.Token
import LexGen.Table.Stored

/-!
# The stored form of tokens and policies
-/

namespace LexGen

def Token.toJson (token : Token) : Json :=
  .object [("token_type", token.tokenType.toJson), ("value", .string token.value)]

def Token.ofJson? (json : Json) : Option Token := do
  match ← json.record? ["token_type", "value"] with
  | [tokenType, value] => return ⟨← TokenType.ofJson? tokenType, ← value.string?⟩
  | _ => none

def TrailingPolicy.toJson (policy : TrailingPolicy) : Json := .string policy.name

/-- A policy is stored by its name, or as an object with its name as the only field and nothing as
its value. -/
def TrailingPolicy.ofJson? (json : Json) : Option TrailingPolicy := do
  let name ← match json with
    | .string name => some name
    | .object [(name, .null)] => some name
    | _ => none
  [drop, rescan, reject].find? (·.name == name)

end LexGen
