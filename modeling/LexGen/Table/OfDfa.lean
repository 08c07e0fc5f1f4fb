import LexGen.Dfa.Basic
import LexGen.Table.Basic

/-!
# The table of an automaton

The states of a deterministic automaton keep their numbers, and one row behind theirs is the error
state's. Each state must accept exactly if it has a tag, and the alphabet must have a column for
every move.
-/

namespace LexGen

/-- What keeps a state from being a row of a table. -/
def DfaState.rowFault? (alphabet : Alphabet) (state : DfaState) : Option Fault :=
  if state.accepting != state.tag.isSome then some .untaggedAcceptance
  else if state.moves.entries.all (decide <| ·.1 ∈ alphabet) then none
  else some .missingColumn

/-- The row of a state, where `stuck` is the error state. -/
def DfaState.row (alphabet : Alphabet) (stuck : Nat) (state : DfaState) : List Nat :=
  alphabet.symbols.map fun c => (state.moves.next? c).getD stuck

namespace Table

/-- The rows of an automaton and of its error state. -/
def rows (dfa : Dfa) (alphabet : Alphabet) : List (List Nat) :=
  dfa.states.toList.map (DfaState.row alphabet dfa.size) ++
    [List.replicate alphabet.size dfa.size]

theorem length_of_mem_rows {dfa : Dfa} {alphabet : Alphabet} {row : List Nat}
    (h : row ∈ rows dfa alphabet) : row.length = alphabet.size := by
  simp only [rows, List.mem_append, List.mem_map, List.mem_singleton] at h
  rcases h with ⟨state, _, rfl⟩ | rfl
  · simp [DfaState.row, Alphabet.size]
  · simp

theorem length_flatten_of_forall {α : Type} {lists : List (List α)} {n : Nat}
    (h : ∀ list ∈ lists, list.length = n) : lists.flatten.length = lists.length * n := by
  induction lists with
  | nil => simp
  | cons list rest ih =>
    rw [List.flatten_cons, List.length_append, h list (List.mem_cons_self ..),
      ih fun list hl => h list (List.mem_cons_of_mem _ hl), List.length_cons, Nat.add_mul,
      Nat.one_mul, Nat.add_comm]

theorem lt_of_mem_rows {dfa : Dfa} {alphabet : Alphabet} {target : Nat}
    (h : target ∈ (rows dfa alphabet).flatten) : target < dfa.size + 1 := by
  simp only [rows, List.mem_flatten, List.mem_append, List.mem_map, List.mem_singleton] at h
  obtain ⟨_, ⟨state, hs, rfl⟩ | rfl, ht⟩ := h
  · simp only [DfaState.row, List.mem_map] at ht
    obtain ⟨c, _, rfl⟩ := ht
    cases hn : state.moves.next? c with
    | none => simp
    | some target =>
      exact Nat.lt_succ_of_lt
        (dfa.target_lt state (Array.mem_toList_iff.1 hs) target (Moves.mem_targets_of_next? hn))
  · simp [List.eq_of_mem_replicate ht]

/-- The table with the rows of an automaton. -/
def flattened (dfa : Dfa) (alphabet : Alphabet) : Table where
  data := (rows dfa alphabet).flatten.toArray
  accept := (dfa.states.toList.map DfaState.tag ++ [none]).toArray
  columns := alphabet.symbols
  states := dfa.size + 1
  initial := dfa.start
  states_pos := Nat.succ_pos _
  data_size := by
    rw [List.size_toArray, length_flatten_of_forall fun _ h => length_of_mem_rows h]
    simp [rows, Dfa.size, Alphabet.size]
  accept_size := by simp [Dfa.size]
  error_accept := by simp [Dfa.size]
  initial_lt := Nat.lt_succ_of_lt dfa.start_lt
  data_lt target h := lt_of_mem_rows (List.mem_toArray.1 h)

/-- The table of an automaton. The first state that cannot be a row gives the fault. -/
def ofDfa (dfa : Dfa) (alphabet : Alphabet) : Except Fault Table :=
  match dfa.states.toList.findSome? (DfaState.rowFault? alphabet) with
  | some fault => .error fault
  | none => .ok (flattened dfa alphabet)

end Table

end LexGen
