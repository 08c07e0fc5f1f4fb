import LexGen.Fault
import LexGen.Rule.Basic

/-!
# Transition tables

A table has a row for each state and a column for each symbol. The last state is the error state:
it accepts nothing and is never left, whatever its row says. A character without a column leads
to the error state.

`SavedTable` is a table as it is stored, with no promise about its contents. `Table` is one whose
parts fit together, so every look-up on the way from its initial state succeeds and stays among
its states.
-/

namespace LexGen

structure SavedTable where
  /-- The rows one after the other. -/
  data : Array Nat
  /-- What each state accepts. -/
  accept : Array (Option RuleTag)
  /-- The symbols in the order of their columns. -/
  columns : List Char
  states : Nat
  initial : Nat
  deriving DecidableEq, Repr

namespace SavedTable

/-- The number of the error state. -/
def errorState (saved : SavedTable) : Nat := saved.states - 1

/-- The number of rows of the table apart from the error state's. -/
def size (saved : SavedTable) : Nat := saved.states - 1

def isError (saved : SavedTable) (state : Nat) : Bool := state == saved.errorState

/-- The place in `data` of a state's entry in a column. A place behind the end is none, also where a
machine word does not hold it. -/
def cell (saved : SavedTable) (state column : Nat) : Nat := state * saved.columns.length + column

/-- The first column of a character. -/
def column? (saved : SavedTable) (c : Char) : Option Nat := saved.columns.idxOf? c

/-- The state after a character, where `column?` finds the columns. The number of the state need not
be one of the table. -/
def nextBy? (saved : SavedTable) (column? : Char → Option Nat) (state : Nat) (c : Char) :
    Except Fault Nat :=
  if saved.isError state then .ok state
  else
    match column? c with
    | none => .ok saved.errorState
    | some column =>
      match saved.data[saved.cell state column]? with
      | some target => .ok target
      | none => .error (.indexOutOfBounds saved.data.size (saved.cell state column))

/-- The state after a character. The number of the state need not be one of the table. -/
def next? (saved : SavedTable) : Nat → Char → Except Fault Nat :=
  saved.nextBy? saved.column?

/-- What a state accepts. The number of the state need not be one of the table. -/
def accept? (saved : SavedTable) (state : Nat) : Except Fault (Option RuleTag) :=
  match saved.accept[state]? with
  | some tag => .ok tag
  | none => .error (.indexOutOfBounds saved.accept.size state)

end SavedTable

/-- A table whose parts fit together. -/
structure Table extends SavedTable where
  states_pos : 0 < states
  data_size : data.size = states * columns.length
  accept_size : accept.size = states
  error_accept : accept[states - 1]? = some none
  initial_lt : initial < states
  data_lt : ∀ target ∈ data, target < states
  deriving DecidableEq

namespace Table

theorem cell_lt {table : Table} {state column : Nat} (hs : state < table.states)
    (hc : column < table.columns.length) :
    table.cell state column < table.data.size := by
  have : (state + 1) * table.columns.length ≤ table.states * table.columns.length :=
    Nat.mul_le_mul_right _ hs
  rw [Nat.add_mul, Nat.one_mul] at this
  rw [table.data_size, SavedTable.cell]
  omega

/-- The initial state. -/
def start (table : Table) : Fin table.states := ⟨table.initial, table.initial_lt⟩

/-- The error state. -/
def stuck (table : Table) : Fin table.states :=
  ⟨table.errorState, Nat.sub_lt table.states_pos (by decide)⟩

/-- The state after a character. -/
def next (table : Table) (state : Fin table.states) (c : Char) : Fin table.states :=
  if state = table.stuck then state
  else
    match h : table.columns.idxOf? c with
    | none => table.stuck
    | some column =>
      have : table.cell state column < table.data.size :=
        cell_lt state.isLt (List.idxOf?_eq_some_iff.1 h).1
      ⟨table.data[table.cell state column], table.data_lt _ (Array.getElem_mem this)⟩

/-- The error state is never left. -/
@[simp]
theorem next_stuck (table : Table) (c : Char) : table.next table.stuck c = table.stuck := by
  simp [next]

/-- What a state accepts. -/
def tag (table : Table) (state : Fin table.states) : Option RuleTag :=
  have : state.val < table.accept.size := by rw [table.accept_size]; exact state.isLt
  table.accept[state.val]

def tokenType (table : Table) (state : Fin table.states) : Option TokenType :=
  (table.tag state).map (·.tokenType)

/-- The state after a word. -/
def walk (table : Table) (word : List Char) : Fin table.states := word.foldl table.next table.start

end Table

end LexGen
