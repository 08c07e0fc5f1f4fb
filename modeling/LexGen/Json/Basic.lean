/-!
# JSON values

Saved tables and token lists are written as JSON. A number is kept in one of two forms: a natural
number written without sign, fraction or exponent is a `natural`, and every other number keeps
its text, since nothing here computes with it. The order of the fields of an object carries no
meaning, so `same` compares objects field by field.
-/

namespace LexGen

inductive Json where
  | null
  | bool (value : Bool)
  | natural (value : Nat)
  | decimal (text : String)
  | string (value : String)
  | array (items : List Json)
  | object (fields : List (String × Json))
  deriving Inhabited, Repr

namespace Json

/-- Replace the field of that name, or add it at the end. -/
def putField (name : String) (value : Json) : List (String × Json) → List (String × Json)
  | [] => [(name, value)]
  | field :: rest =>
    if field.1 = name then (name, value) :: rest else field :: putField name value rest

/-- The value of a field of an object. -/
def field? (name : String) : Json → Option Json
  | object fields => fields.lookup name
  | _ => none

/-- Replace or add fields of an object; any other value stays as it is. -/
def putFields (changes : List (String × Json)) : Json → Json
  | object fields =>
    object (changes.foldl (fun done change => putField change.1 change.2 done) fields)
  | other => other

mutual

/-- The two values agree, whatever the order of the fields of their objects. -/
def same : Json → Json → Bool
  | null, null => true
  | bool a, bool b => a == b
  | natural a, natural b => a == b
  | decimal a, decimal b => a == b
  | string a, string b => a == b
  | array as, array bs => sameItems as bs
  | object as, object bs => as.length == bs.length && sameFields as bs
  | _, _ => false

/-- Item by item. -/
def sameItems : List Json → List Json → Bool
  | [], [] => true
  | a :: as, b :: bs => same a b && sameItems as bs
  | _, _ => false

/-- Every field of the first list stands in the second. -/
def sameFields : List (String × Json) → List (String × Json) → Bool
  | [], _ => true
  | (name, a) :: as, bs =>
    (match bs.lookup name with
      | some b => same a b
      | none => false) && sameFields as bs

end

end Json

end LexGen
