import LexGen.Json.Decode
import LexGen.Table.Basic

/-!
# The stored form of tables

A table is stored as JSON: a record of the data, the accept entries, the alphabet, the number of
states and the initial state. Reading it back keeps the alphabet in the order it is given in.
-/

namespace LexGen

def TokenType.toJson (tokenType : TokenType) : Json := .string tokenType.name

def TokenType.ofJson? (json : Json) : Option TokenType := json.string?.map TokenType.mk

def RuleTag.toJson (tag : RuleTag) : Json :=
  .object [("token_type", tag.tokenType.toJson), ("priority", .natural tag.priority)]

def RuleTag.ofJson? (json : Json) : Option RuleTag := do
  match ← json.record? ["token_type", "priority"] with
  | [tokenType, priority] => return ⟨← TokenType.ofJson? tokenType, ← priority.word?⟩
  | _ => none

/-- What a state accepts: a tag or nothing. -/
def RuleTag.entryToJson (tag : Option RuleTag) : Json := tag.elim .null RuleTag.toJson

/-- The symbols of an alphabet in the order of their columns. -/
def Alphabet.columnsToJson (columns : List Char) : Json :=
  .object [("symbols", .array (columns.map fun c => .string c.toString))]

def Alphabet.columnsOfJson? (json : Json) : Option (List Char) := do
  match ← json.record? ["symbols"] with
  | [symbols] => symbols.list? Json.char?
  | _ => none

namespace SavedTable

def toJson (saved : SavedTable) : Json :=
  .object [
    ("data", .array (saved.data.toList.map .natural)),
    ("accept", .array (saved.accept.toList.map RuleTag.entryToJson)),
    ("alphabet", Alphabet.columnsToJson saved.columns),
    ("states", .natural saved.states),
    ("initial_state", .natural saved.initial)]

def ofJson? (json : Json) : Option SavedTable := do
  match ← json.record? ["data", "accept", "alphabet", "states", "initial_state"] with
  | [data, accept, alphabet, states, initial] =>
    return {
      data := (← data.list? Json.word?).toArray
      accept := (← accept.list? (Json.optional? RuleTag.ofJson?)).toArray
      columns := ← Alphabet.columnsOfJson? alphabet
      states := ← states.word?
      initial := ← initial.word? }
  | _ => none

end SavedTable

end LexGen
