import LexGen.Dfa.Separation
import LexGen.Proofs.Dfa.Moves
import LexGen.Table.OfDfa

/-!
# The table of an automaton

The rows of an automaton all have the length of the alphabet, so a state's entry in a column is
where `SavedTable.cell` says. If the alphabet has a column for every move, the table makes the moves
of the automaton, and goes to the error state where there is none (`Table.next_flattened`). Its
walks are the runs of the automaton (`Table.foldl_next_flattened`).
-/

namespace LexGen

/-- Where all lists have the same length, a place in their join is a place in one of them. -/
theorem getElem?_flatten_of_forall {α : Type} {lists : List (List α)} {n i j : Nat}
    (h : ∀ list ∈ lists, list.length = n) (hj : j < n) :
    lists.flatten[i * n + j]? = lists[i]?.bind (·[j]?) := by
  induction lists generalizing i with
  | nil => simp
  | cons list rest ih =>
    have hlength : list.length = n := h list (List.mem_cons_self ..)
    rw [List.flatten_cons]
    cases i with
    | zero =>
      rw [Nat.zero_mul, Nat.zero_add, List.getElem?_append_left (hlength ▸ hj)]
      rfl
    | succ i =>
      have hplace : (i + 1) * n + j = list.length + (i * n + j) := by
        rw [Nat.succ_mul, hlength]
        omega
      rw [hplace, List.getElem?_append_right (Nat.le_add_right ..), Nat.add_sub_cancel_left,
        ih fun other ho => h other (List.mem_cons_of_mem _ ho), List.getElem?_cons_succ]

namespace Table

/-! ## The error state -/

theorem tag_stuck (table : Table) : table.tag table.stuck = none := by
  have haccept : table.accept[table.states - 1]? = some none := table.error_accept
  obtain ⟨_, hnone⟩ := Array.getElem?_eq_some_iff.1 haccept
  exact hnone

theorem tokenType_stuck (table : Table) : table.tokenType table.stuck = none := by
  rw [tokenType, tag_stuck]
  rfl

/-- A walk does not come back from the error state. -/
theorem foldl_next_stuck (table : Table) (word : List Char) :
    word.foldl table.next table.stuck = table.stuck := by
  induction word with
  | nil => rfl
  | cons c word ih => rw [List.foldl_cons, next_stuck, ih]

/-! ## Rows -/

variable {dfa : Dfa} {alphabet : Alphabet}

/-- The rows are those of the states, and behind them that of the error state, which has no moves.
-/
theorem getElem?_rows {state : Nat} (hs : state ≤ dfa.size) :
    (rows dfa alphabet)[state]? =
      some (alphabet.symbols.map fun c => (dfa.next? state c).getD dfa.size) := by
  have hlength : (dfa.states.toList.map (DfaState.row alphabet dfa.size)).length = dfa.size := by
    rw [List.length_map, Array.length_toList, Dfa.size]
  rcases Nat.lt_or_eq_of_le hs with hlt | rfl
  · have hmoves : dfa.moves state = dfa.states[state].moves := by
      rw [Dfa.moves, Array.getElem?_eq_getElem hlt]
    rw [rows, List.getElem?_append_left (by omega), List.getElem?_map, Array.getElem?_toList,
      Array.getElem?_eq_getElem hlt, Option.map_some, DfaState.row]
    simp only [Dfa.next?, hmoves]
  · have hnone : ∀ c, dfa.next? dfa.size c = none := by
      intro c
      rw [Option.eq_none_iff_forall_ne_some]
      intro target hnext
      exact Nat.lt_irrefl _ (Dfa.lt_size_of_next? hnext)
    rw [rows, List.getElem?_append_right (Nat.le_of_eq hlength), hlength, Nat.sub_self]
    simp [hnone, Alphabet.size]

/-- At a state's place in the column of a symbol stands the target of the move. -/
theorem getElem?_data_flattened {state column : Nat} {c : Char} (hs : state ≤ dfa.size)
    (hc : alphabet.symbols.idxOf? c = some column) :
    (flattened dfa alphabet).data[(flattened dfa alphabet).cell state column]? =
      some ((dfa.next? state c).getD dfa.size) := by
  obtain ⟨hcolumn, hsymbol, _⟩ := List.idxOf?_eq_some_iff.1 hc
  have hsymbol : alphabet.symbols[column] = c := by simpa using hsymbol
  show (rows dfa alphabet).flatten.toArray[state * alphabet.size + column]? = _
  rw [List.getElem?_toArray, getElem?_flatten_of_forall (fun _ h => length_of_mem_rows h) hcolumn,
    getElem?_rows hs, Option.bind_some, List.getElem?_map, List.getElem?_eq_getElem hcolumn,
    hsymbol, Option.map_some]

theorem tag_flattened {state : Fin (flattened dfa alphabet).states} (hs : state.val < dfa.size) :
    (flattened dfa alphabet).tag state = dfa.tag? state.val := by
  have hlength : state.val < (dfa.states.toList.map DfaState.tag).length := by
    rw [List.length_map, Array.length_toList]
    exact hs
  have htag : (flattened dfa alphabet).accept[state.val]? = some dfa.states[state.val].tag := by
    show (dfa.states.toList.map DfaState.tag ++ [none]).toArray[state.val]? = _
    rw [List.getElem?_toArray, List.getElem?_append_left hlength, List.getElem?_map,
      Array.getElem?_toList, Array.getElem?_eq_getElem hs, Option.map_some]
  obtain ⟨_, hget⟩ := Array.getElem?_eq_some_iff.1 htag
  rw [tag, hget, Dfa.tag?, Array.getElem?_eq_getElem hs, Option.bind_some]

/-- What a table accepts its automaton accepts. -/
theorem exists_tag?_of_mem_accept {tag : RuleTag} (h : some tag ∈ (flattened dfa alphabet).accept) :
    ∃ state, dfa.tag? state = some tag := by
  have hmem : some tag ∈ dfa.states.toList.map DfaState.tag ++ [none] := List.mem_toArray.1 h
  rcases List.mem_append.1 hmem with hmem | hmem
  · obtain ⟨entry, hentry, htag⟩ := List.mem_map.1 hmem
    obtain ⟨state, hstate⟩ := List.getElem?_of_mem hentry
    refine ⟨state, ?_⟩
    rw [Dfa.tag?, ← Array.getElem?_toList, hstate]
    exact htag
  · cases List.mem_singleton.1 hmem

/-! ## Walks -/

section Moves

variable (hmoves : dfa.MovesWithin alphabet)

include hmoves

/-- The table makes the moves of the automaton, or goes to the error state. -/
theorem next_flattened {state : Fin (flattened dfa alphabet).states} (hs : state.val < dfa.size)
    (c : Char) :
    ((flattened dfa alphabet).next state c).val = (dfa.next? state.val c).getD dfa.size := by
  have hstuck : state ≠ (flattened dfa alphabet).stuck := by
    intro heq
    have hval : state.val = dfa.size := congrArg Fin.val heq
    omega
  rw [next, if_neg hstuck]
  split
  next hnone =>
    have hc : c ∉ alphabet := List.idxOf?_eq_none_iff.1 hnone
    have hmove : dfa.next? state.val c = none := by
      rw [← Option.not_isSome_iff_eq_none]
      exact fun hsome => hc (hmoves _ c hsome)
    rw [hmove]
    rfl
  next column hcolumn =>
    have hcell := getElem?_data_flattened (Nat.le_of_lt hs) hcolumn
    obtain ⟨_, hget⟩ := Array.getElem?_eq_some_iff.1 hcell
    exact hget

/-- The walks of the table are the runs of the automaton. -/
theorem foldl_next_flattened {state : Fin (flattened dfa alphabet).states}
    (hs : state.val < dfa.size) (word : List Char) :
    (word.foldl (flattened dfa alphabet).next state).val =
      (dfa.runFrom state.val word).getD dfa.size := by
  induction word generalizing state with
  | nil => rfl
  | cons c word ih =>
    have hval := next_flattened hmoves hs c
    rw [List.foldl_cons, Dfa.runFrom_cons]
    cases hnext : dfa.next? state.val c with
    | none =>
      rw [hnext] at hval
      have hstuck : (flattened dfa alphabet).next state c = (flattened dfa alphabet).stuck :=
        Fin.ext hval
      rw [hstuck, foldl_next_stuck]
      rfl
    | some next =>
      rw [hnext, Option.getD_some] at hval
      rw [ih (hval ▸ Dfa.lt_of_next? hnext), hval, Option.bind_some]

theorem val_walk_flattened (word : List Char) :
    ((flattened dfa alphabet).walk word).val = (dfa.run word).getD dfa.size :=
  foldl_next_flattened hmoves dfa.start_lt word

/-- A walk ends in the error state exactly if the automaton gets stuck. -/
theorem walk_flattened_eq_stuck_iff (word : List Char) :
    (flattened dfa alphabet).walk word = (flattened dfa alphabet).stuck ↔ dfa.run word = none := by
  have hstuck : (flattened dfa alphabet).stuck.val = dfa.size := rfl
  rw [Fin.ext_iff, val_walk_flattened hmoves, hstuck]
  cases hrun : dfa.run word with
  | none => simp
  | some last => simpa using Nat.ne_of_lt (Dfa.lt_of_runFrom dfa.start_lt hrun)

/-- After a word the table has the tag of the state that the automaton runs into. -/
theorem tag_walk_flattened (word : List Char) :
    (flattened dfa alphabet).tag ((flattened dfa alphabet).walk word) =
      (dfa.run word).bind dfa.tag? := by
  cases hrun : dfa.run word with
  | none =>
    rw [(walk_flattened_eq_stuck_iff hmoves word).2 hrun, tag_stuck, Option.bind_none]
  | some last =>
    have hval := val_walk_flattened hmoves word
    rw [hrun, Option.getD_some] at hval
    have hlt : last < dfa.size := Dfa.lt_of_runFrom dfa.start_lt hrun
    rw [tag_flattened (hval ▸ hlt), hval, Option.bind_some]

theorem tokenType_walk_flattened (word : List Char) :
    (flattened dfa alphabet).tokenType ((flattened dfa alphabet).walk word) =
      (dfa.run word).bind dfa.tokenType := by
  rw [tokenType, tag_walk_flattened hmoves, Option.map_bind]
  exact Option.bind_congr fun last _ => (dfa.tokenType_eq last).symm

/-- No column is missing, so only a state that accepts without a tag, or has one without accepting,
keeps an automaton from having a table. -/
theorem ofDfa_eq : ofDfa dfa alphabet =
    if ∀ entry ∈ dfa.states, entry.accepting = entry.tag.isSome then .ok (flattened dfa alphabet)
    else .error .untaggedAcceptance := by
  have hrow : ∀ entry ∈ dfa.states, entry.rowFault? alphabet =
      if entry.accepting = entry.tag.isSome then none else some .untaggedAcceptance := by
    intro entry hentry
    have hcolumns : entry.moves.entries.all (decide <| ·.1 ∈ alphabet) = true := by
      rw [List.all_eq_true]
      rintro ⟨c, target⟩ hmove
      rcases Array.getElem?_of_mem hentry with ⟨state, hstate⟩
      have hnext : dfa.next? state c = some target :=
        Dfa.next?_eq_some_iff.2 ⟨entry, hstate, hmove⟩
      exact decide_eq_true (hmoves state c (Option.isSome_of_eq_some hnext))
    rw [DfaState.rowFault?, hcolumns]
    by_cases htag : entry.accepting = entry.tag.isSome <;> simp [htag]
  rw [ofDfa]
  cases hfault : dfa.states.toList.findSome? (DfaState.rowFault? alphabet) with
  | none =>
    rw [List.findSome?_eq_none_iff] at hfault
    refine (if_pos ?_).symm
    intro entry hentry
    have hnone := hfault entry (Array.mem_toList_iff.2 hentry)
    rw [hrow entry hentry] at hnone
    by_contra htag
    rw [if_neg htag] at hnone
    cases hnone
  | some fault =>
    obtain ⟨entry, hentry, hsome⟩ := List.exists_of_findSome?_eq_some hfault
    have hmem := Array.mem_toList_iff.1 hentry
    rw [hrow entry hmem] at hsome
    split at hsome
    next => cases hsome
    next htag =>
      cases hsome
      exact (if_neg fun hall => htag (hall entry hmem)).symm

/-- An automaton whose states accept exactly if they have a tag has a table. -/
theorem ofDfa_eq_ok (htagged : ∀ entry ∈ dfa.states, entry.accepting = entry.tag.isSome) :
    ofDfa dfa alphabet = .ok (flattened dfa alphabet) := by
  rw [ofDfa_eq hmoves, if_pos htagged]

end Moves

end Table

end LexGen
