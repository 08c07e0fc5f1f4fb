import LexGen.Table.Basic

/-!
# Checking stored tables

`SavedTable.check` lets a stored table through if its parts fit together, and otherwise names the
first thing that does not: the number of states, the sizes of the two arrays, the error state's
entry, and then the first number that is not a state's, the initial state before the data.

How many entries there should be is a product that is taken in a machine word
(`SavedTable.expectedEntries`). So the parts of what is let through fit together if the word holds
this product, and need not if it does not.
-/

namespace LexGen

inductive TableError where
  | noStates
  | dataLength (expected found : Nat)
  | acceptLength (expected found : Nat)
  | acceptingErrorState
  | stateOutOfRange (state : Nat)
  deriving DecidableEq, Repr

def TableError.message : TableError → String
  | noStates => "table has no error state"
  | dataLength expected found =>
    "expected " ++ expected.repr ++ " transition entries, found " ++ found.repr
  | acceptLength expected found =>
    "expected " ++ expected.repr ++ " accept entries, found " ++ found.repr
  | acceptingErrorState => "error state must not accept"
  | stateOutOfRange state => "state " ++ state.repr ++ " is out of range"

/-- The first number in a stored table that is not the number of a state. -/
def SavedTable.outOfRange? (saved : SavedTable) : Option Nat :=
  (saved.initial :: saved.data.toList).find? (decide <| saved.states ≤ ·)

/-- The number of entries that a stored table should have, one for each state and column, counted in
a machine word of 64 bits. Of a greater number the word keeps the remainder. Where arithmetic is
watched for overflow, the check stops here instead. -/
def SavedTable.expectedEntries (saved : SavedTable) : Nat :=
  (saved.states.toUInt64 * saved.columns.length.toUInt64).toNat

/-- The stored table as it is, if nothing is found wrong with it. -/
def SavedTable.check (saved : SavedTable) : Except TableError SavedTable :=
  if saved.states = 0 then .error .noStates
  else if saved.data.size = saved.expectedEntries then
    if saved.accept.size = saved.states then
      if saved.accept[saved.states - 1]? = some none then
        match saved.outOfRange? with
        | some state => .error (.stateOutOfRange state)
        | none => .ok saved
      else .error .acceptingErrorState
    else .error (.acceptLength saved.states saved.accept.size)
  else .error (.dataLength saved.expectedEntries saved.data.size)

end LexGen
