import LexGen.Json.Basic

/-!
# Reading JSON

`read?` reads a text that holds one JSON value and nothing else. Of two fields with one name the
later one counts. The reader descends into arrays and objects under a bound that the length of
the text gives: each character opens at most two levels of calls.
-/

namespace LexGen.Json

def isSpace (c : Char) : Bool := c == ' ' || c == '\t' || c == '\n' || c == '\r'

def skipSpace (text : List Char) : List Char := text.dropWhile isSpace

/-- The value of a hexadecimal digit. -/
def hexValue? (c : Char) : Option Nat :=
  if '0' ≤ c ∧ c ≤ '9' then some (c.toNat - '0'.toNat)
  else if 'a' ≤ c ∧ c ≤ 'f' then some (c.toNat - 'a'.toNat + 10)
  else if 'A' ≤ c ∧ c ≤ 'F' then some (c.toNat - 'A'.toNat + 10)
  else none

/-- The number that four hexadecimal digits write. -/
def unit? (a b c d : Char) : Option Nat := do
  return (((← hexValue? a) * 16 + (← hexValue? b)) * 16 + (← hexValue? c)) * 16 + (← hexValue? d)

/-- The character that a backslash followed by one letter stands for. -/
def shortEscape? : Char → Option Char
  | '"' => some '"'
  | '\\' => some '\\'
  | '/' => some '/'
  | 'b' => some '\x08'
  | 'f' => some '\x0c'
  | 'n' => some '\n'
  | 'r' => some '\r'
  | 't' => some '\t'
  | _ => none

/-- The rest of a string after its opening quote. The characters read so far are held in reverse
order. A character outside the basic plane is written as a pair of surrogate units. -/
def readString (done : List Char) : List Char → Option (String × List Char)
  | '"' :: rest => some (String.ofList done.reverse, rest)
  | '\\' :: 'u' :: a :: b :: c :: d :: rest =>
    match unit? a b c d with
    | none => none
    | some high =>
      if 0xd800 ≤ high ∧ high < 0xdc00 then
        match rest with
        | '\\' :: 'u' :: e :: f :: g :: h :: rest =>
          match unit? e f g h with
          | none => none
          | some low =>
            if 0xdc00 ≤ low ∧ low < 0xe000 then
              readString
                (Char.ofNat (0x10000 + (high - 0xd800) * 0x400 + (low - 0xdc00)) :: done) rest
            else none
        | _ => none
      else if 0xdc00 ≤ high ∧ high < 0xe000 then none
      else readString (Char.ofNat high :: done) rest
  | '\\' :: c :: rest =>
    match shortEscape? c with
    | some meaning => readString (meaning :: done) rest
    | none => none
  | c :: rest => if c.toNat < 0x20 ∨ c = '\\' then none else readString (c :: done) rest
  | [] => none

/-- A whole number without superfluous zeros at its start. -/
def isWholePart (digits : List Char) : Bool :=
  !digits.isEmpty && digits.all Char.isDigit && (digits.length == 1 || digits.head? != some '0')

/-- Nothing, or an exponent mark, a sign or none, and digits to the end. -/
def isExponentPart : List Char → Bool
  | [] => true
  | mark :: rest =>
    let digits := match rest with
      | sign :: digits => if sign == '+' || sign == '-' then digits else rest
      | [] => []
    (mark == 'e' || mark == 'E') && !digits.isEmpty && digits.all Char.isDigit

/-- Nothing, or a point and digits, then perhaps an exponent. -/
def isFractionPart : List Char → Bool
  | '.' :: rest =>
    !(rest.takeWhile Char.isDigit).isEmpty && isExponentPart (rest.dropWhile Char.isDigit)
  | rest => isExponentPart rest

/-- The number that a text writes, if it writes one. -/
def number? (text : List Char) : Option Json :=
  if isWholePart text then
    some (natural (text.foldl (fun value digit => value * 10 + (digit.toNat - '0'.toNat)) 0))
  else
    let unsigned := if text.head? == some '-' then text.tail else text
    if isWholePart (unsigned.takeWhile Char.isDigit) &&
        isFractionPart (unsigned.dropWhile Char.isDigit) then
      some (decimal (String.ofList text))
    else none

/-- Characters that a number may hold. -/
def isNumberChar (c : Char) : Bool :=
  c.isDigit || c == '-' || c == '+' || c == '.' || c == 'e' || c == 'E'

mutual

/-- One value at the start of the text, and the text after it. -/
def readValue : Nat → List Char → Option (Json × List Char)
  | 0, _ => none
  | fuel + 1, text =>
    match skipSpace text with
    | 'n' :: 'u' :: 'l' :: 'l' :: rest => some (null, rest)
    | 't' :: 'r' :: 'u' :: 'e' :: rest => some (bool true, rest)
    | 'f' :: 'a' :: 'l' :: 's' :: 'e' :: rest => some (bool false, rest)
    | '"' :: rest => (readString [] rest).map fun (value, rest) => (string value, rest)
    | '[' :: rest =>
      match skipSpace rest with
      | ']' :: rest => some (array [], rest)
      | rest => (readItems fuel rest).map fun (items, rest) => (array items, rest)
    | '\x7b' :: rest =>
      match skipSpace rest with
      | '\x7d' :: rest => some (object [], rest)
      | rest => (readFields fuel [] rest).map fun (fields, rest) => (object fields, rest)
    | rest =>
      (number? (rest.takeWhile isNumberChar)).map fun value =>
        (value, rest.dropWhile isNumberChar)

/-- The items of an array up to its closing bracket. -/
def readItems : Nat → List Char → Option (List Json × List Char)
  | 0, _ => none
  | fuel + 1, text =>
    match readValue fuel text with
    | none => none
    | some (item, rest) =>
      match skipSpace rest with
      | ',' :: rest => (readItems fuel rest).map fun (items, rest) => (item :: items, rest)
      | ']' :: rest => some ([item], rest)
      | _ => none

/-- The fields of an object up to its closing bracket, added to those already read. -/
def readFields : Nat → List (String × Json) → List Char → Option (List (String × Json) × List Char)
  | 0, _, _ => none
  | fuel + 1, done, text =>
    match skipSpace text with
    | '"' :: rest =>
      match readString [] rest with
      | none => none
      | some (name, rest) =>
        match skipSpace rest with
        | ':' :: rest =>
          match readValue fuel rest with
          | none => none
          | some (value, rest) =>
            match skipSpace rest with
            | ',' :: rest => readFields fuel (putField name value done) rest
            | '\x7d' :: rest => some (putField name value done, rest)
            | _ => none
        | _ => none
    | _ => none

end

/-- The value that a whole text writes. -/
def read? (text : String) : Option Json :=
  match readValue (2 * text.toList.length + 2) text.toList with
  | some (value, rest) => if (skipSpace rest).isEmpty then some value else none
  | none => none

end LexGen.Json
