import LexGen.Json.Basic

/-!
# Writing JSON

Two layouts of one value: `compact`, with no blank at all, and `pretty`, with two spaces per level
and one item or field on each line. In a string only the quote, the backslash and the control
characters below U+0020 are escaped.
-/

namespace LexGen.Json

/-- The written form of one character of a string. -/
def escapedChar (c : Char) : List Char :=
  if c = '"' then ['\\', '"']
  else if c = '\\' then ['\\', '\\']
  else if c = '\x08' then ['\\', 'b']
  else if c = '\x0c' then ['\\', 'f']
  else if c = '\n' then ['\\', 'n']
  else if c = '\r' then ['\\', 'r']
  else if c = '\t' then ['\\', 't']
  else if c.toNat < 0x10 then ['\\', 'u', '0', '0', '0'] ++ Nat.toDigits 16 c.toNat
  else if c.toNat < 0x20 then ['\\', 'u', '0', '0'] ++ Nat.toDigits 16 c.toNat
  else [c]

def quotedString (text : String) : String :=
  String.ofList ('"' :: text.toList.flatMap escapedChar ++ ['"'])

mutual

/-- The value on one line, without blanks. -/
def compact : Json → String
  | null => "null"
  | bool value => if value then "true" else "false"
  | natural value => value.repr
  | decimal text => text
  | string value => quotedString value
  | array items => "[" ++ ",".intercalate (compactItems items) ++ "]"
  | object fields => "\x7b" ++ ",".intercalate (compactFields fields) ++ "\x7d"

def compactItems : List Json → List String
  | [] => []
  | item :: rest => compact item :: compactItems rest

def compactFields : List (String × Json) → List String
  | [] => []
  | (name, value) :: rest => (quotedString name ++ ":" ++ compact value) :: compactFields rest

end

/-- Lines between two brackets, each one level deeper than the brackets. -/
def bracketed (opening closing indent : String) : List String → String
  | [] => opening ++ closing
  | items =>
    opening ++ "\n" ++ ",\n".intercalate (items.map ((indent ++ "  ") ++ ·)) ++ "\n" ++ indent ++
      closing

mutual

/-- The value over several lines, where the line it starts on is indented by `indent`. -/
def prettyAt (indent : String) : Json → String
  | array items => bracketed "[" "]" indent (prettyItems (indent ++ "  ") items)
  | object fields => bracketed "\x7b" "\x7d" indent (prettyFields (indent ++ "  ") fields)
  | null => "null"
  | bool value => if value then "true" else "false"
  | natural value => value.repr
  | decimal text => text
  | string value => quotedString value

def prettyItems (indent : String) : List Json → List String
  | [] => []
  | item :: rest => prettyAt indent item :: prettyItems indent rest

def prettyFields (indent : String) : List (String × Json) → List String
  | [] => []
  | (name, value) :: rest =>
    (quotedString name ++ ": " ++ prettyAt indent value) :: prettyFields indent rest

end

def pretty (value : Json) : String := prettyAt "" value

end LexGen.Json
