import LexGen.Json.Basic

/-!
# Reading values out of JSON

The shapes that stored values share: records, which are objects or lists of their fields, numbers
that fit in 32 bits, and single characters.
-/

namespace LexGen.Json

/-- A number that fits in 32 bits. -/
def word? : Json → Option Nat
  | natural value => if value < 4294967296 then some value else none
  | _ => none

def string? : Json → Option String
  | string value => some value
  | _ => none

/-- A text of one character. -/
def char? : Json → Option Char
  | string value =>
    match value.toList with
    | [c] => some c
    | _ => none
  | _ => none

/-- A list of values of one kind. -/
def list? {α : Type} (item? : Json → Option α) : Json → Option (List α)
  | array items => items.mapM item?
  | _ => none

/-- A value that may be absent. -/
def optional? {α : Type} (value? : Json → Option α) : Json → Option (Option α)
  | null => some none
  | json => (value? json).map some

/-- The fields of a record in a given order. A record is an object with these fields, and perhaps
others, or the list of just these fields. -/
def record? (names : List String) : Json → Option (List Json)
  | object fields => names.mapM fun name => fields.lookup name
  | array items => if items.length = names.length then some items else none
  | _ => none

end LexGen.Json
