import LexGen.Text.Printable

/-!
# Quoted characters and texts

A message that shows a character or a text puts it between quotes. Five characters have a short
escape, the quote in use and the backslash are escaped by a backslash, and a hidden character is
written by its code point.
-/

namespace LexGen.Text

/-- The written form of one character between quotes of the kind `quote`. -/
def escaped (quote c : Char) : List Char :=
  if c = '\x00' then ['\\', '0']
  else if c = '\t' then ['\\', 't']
  else if c = '\r' then ['\\', 'r']
  else if c = '\n' then ['\\', 'n']
  else if c = '\\' ∨ c = quote then ['\\', c]
  else if isHidden c then ['\\', 'u', '\x7b'] ++ Nat.toDigits 16 c.toNat ++ ['\x7d']
  else [c]

/-- A character between single quotes. -/
def quotedChar (c : Char) : String :=
  String.ofList ('\'' :: escaped '\'' c ++ ['\''])

/-- A text between double quotes. -/
def quoted (text : String) : String :=
  String.ofList ('"' :: text.toList.flatMap (escaped '"') ++ ['"'])

end LexGen.Text
