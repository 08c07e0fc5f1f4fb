import LexGen.Proofs.Table.Flattened
import LexGen.Proofs.Table.Loaded

/-!
# Tables with other columns

A search among the columns of a table may find any of them for a character, or none. Whatever it
finds, there is a table in which the first column of each character is the right one: it has a column
for every character, and in this column stand the entries of the one that the search finds
(`Table.nextBy?_withColumns`). So what holds of tables whose columns are looked up in their order
holds of every search.
-/

namespace LexGen

namespace Table

variable {table : Table} {column? : Char → Option Nat} {characters : List Char}

/-- The state that stands in the row of a state and the column that is found for a character, and the
error state if there is none. -/
def entry (table : Table) (column? : Char → Option Nat) (state : Nat) (c : Char) : Nat :=
  ((column? c).bind fun column => table.data[table.cell state column]?).getD table.errorState

theorem entry_lt (state : Nat) (c : Char) : table.entry column? state c < table.states := by
  rw [entry]
  cases hentry : (column? c).bind fun column => table.data[table.cell state column]? with
  | none => exact table.stuck.isLt
  | some target =>
    obtain ⟨column, _, hdata⟩ := Option.bind_eq_some_iff.1 hentry
    exact table.data_lt target (Array.mem_of_getElem? hdata)

/-- The rows of all states with one entry for each of the characters. -/
def entries (table : Table) (column? : Char → Option Nat) (characters : List Char) :
    List (List Nat) :=
  (List.range table.states).map fun state => characters.map (table.entry column? state)

theorem length_of_mem_entries {row : List Nat} (h : row ∈ table.entries column? characters) :
    row.length = characters.length := by
  obtain ⟨state, _, rfl⟩ := List.mem_map.1 h
  exact List.length_map _

/-- The table with a column for each of the characters. -/
def withColumns (table : Table) (column? : Char → Option Nat) (characters : List Char) : Table where
  data := (table.entries column? characters).flatten.toArray
  accept := table.accept
  columns := characters
  states := table.states
  initial := table.initial
  states_pos := table.states_pos
  data_size := by
    rw [List.size_toArray, length_flatten_of_forall fun _ h => length_of_mem_entries h, entries,
      List.length_map, List.length_range]
  accept_size := table.accept_size
  error_accept := table.error_accept
  initial_lt := table.initial_lt
  data_lt target h := by
    obtain ⟨row, hrow, htarget⟩ := List.mem_flatten.1 (List.mem_toArray.1 h)
    obtain ⟨state, _, rfl⟩ := List.mem_map.1 hrow
    obtain ⟨c, _, rfl⟩ := List.mem_map.1 htarget
    exact entry_lt state c

theorem getElem?_data_withColumns {state column : Nat} {c : Char} (hs : state < table.states)
    (hc : characters.idxOf? c = some column) :
    (table.withColumns column? characters).data[
      (table.withColumns column? characters).cell state column]? =
        some (table.entry column? state c) := by
  obtain ⟨hcolumn, hsymbol, _⟩ := List.idxOf?_eq_some_iff.1 hc
  have hsymbol : characters[column] = c := by simpa using hsymbol
  show (table.entries column? characters).flatten.toArray[state * characters.length + column]? = _
  rw [List.getElem?_toArray, getElem?_flatten_of_forall (fun _ h => length_of_mem_entries h) hcolumn,
    entries, List.getElem?_map, List.getElem?_range hs, Option.map_some, Option.bind_some,
    List.getElem?_map, List.getElem?_eq_getElem hcolumn, hsymbol, Option.map_some]

/-- Where a column is found for a character, the entry is the look-up's. -/
theorem nextBy?_eq (hcolumn : ∀ c column, column? c = some column → column < table.columns.length)
    {state : Nat} (hs : state < table.states) (herror : table.isError state = false) (c : Char) :
    table.nextBy? column? state c = .ok (table.entry column? state c) := by
  rw [SavedTable.nextBy?, if_neg (by simp [herror]), entry]
  cases hfound : column? c with
  | none => rfl
  | some column =>
    have hlt := cell_lt hs (hcolumn c column hfound)
    simp only [Option.bind_some, Array.getElem?_eq_getElem hlt, Option.getD_some]

/-- With a column for every character the first one leads where the search leads. -/
theorem nextBy?_withColumns
    (hcolumn : ∀ c column, column? c = some column → column < table.columns.length)
    (hall : ∀ c, c ∈ characters) (state : Fin (table.withColumns column? characters).states)
    (c : Char) : table.nextBy? column? state.val c =
      .ok ((table.withColumns column? characters).next state c).val := by
  have herror : table.isError state.val =
      decide (state = (table.withColumns column? characters).stuck) :=
    @isError_eq (table.withColumns column? characters) state
  rw [next]
  by_cases hstuck : state = (table.withColumns column? characters).stuck
  · rw [if_pos hstuck, SavedTable.nextBy?, herror, if_pos (decide_eq_true hstuck)]
  · rw [if_neg hstuck, nextBy?_eq hcolumn state.isLt (by simpa [hstuck] using herror)]
    split
    next hnone => exact absurd (hall c) (List.idxOf?_eq_none_iff.1 hnone)
    next column hfirst =>
      obtain ⟨_, hget⟩ := Array.getElem?_eq_some_iff.1
        (@getElem?_data_withColumns table column? characters _ _ _ state.isLt hfirst)
      exact congrArg Except.ok hget.symm

end Table

end LexGen
