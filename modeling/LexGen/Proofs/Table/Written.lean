import LexGen.Proofs.Checked
import LexGen.Proofs.Table.Flattened
import LexGen.Proofs.Table.Loaded

/-!
# Tables written move by move

The entries of a table can be made from an array that holds the error state everywhere, by writing
the target of one move after the other at its place (`Dfa.writeMoves`). Each move has a place of its
own and none is in the row of the error state, so no write fails or undoes another, and the array is
that of the rows in the end (`Dfa.writeMoves_eq_ok`). A walk through the table then follows the
automaton over every word, and no look-up on the way fails (`Table.ofDfa_follows`).
-/

namespace LexGen

namespace Dfa

/-- The moves of all states, each with the number of the state it leaves. -/
def numberedMoves (dfa : Dfa) : List (Nat × Char × Nat) :=
  dfa.states.toList.zipIdx.flatMap fun (entry, state) =>
    entry.moves.entries.map fun (c, target) => (state, c, target)

/-- Write the target of a move at its place in an array of rows. -/
def writeMove (alphabet : Alphabet) (data : Array Nat) (move : Nat × Char × Nat) :
    Except Fault (Array Nat) :=
  let (state, c, target) := move
  match alphabet.indexOf? c with
  | none => .error .missingColumn
  | some column =>
    let place := state * alphabet.size + column
    if h : place < data.size then .ok (data.set place target h)
    else .error (.indexOutOfBounds data.size place)

/-- The array with all moves written. What is not written is the error state. -/
def writeMoves (dfa : Dfa) (alphabet : Alphabet) : Except Fault (Array Nat) :=
  dfa.numberedMoves.foldlM (writeMove alphabet)
    (Array.replicate ((dfa.size + 1) * alphabet.size) dfa.size)

variable {dfa : Dfa} {alphabet : Alphabet}

theorem mem_numberedMoves_iff {state target : Nat} {c : Char} :
    (state, c, target) ∈ dfa.numberedMoves ↔ dfa.next? state c = some target := by
  rw [next?_eq_some_iff, numberedMoves, List.mem_flatMap]
  constructor
  · rintro ⟨⟨entry, number⟩, hentry, hmap⟩
    rcases List.mem_map.1 hmap with ⟨move, hmove, heq⟩
    rw [List.mem_zipIdx_iff_getElem?, Array.getElem?_toList] at hentry
    cases heq
    exact ⟨entry, hentry, hmove⟩
  · rintro ⟨entry, hentry, hmove⟩
    refine ⟨(entry, state), ?_, List.mem_map.2 ⟨_, hmove, rfl⟩⟩
    rw [List.mem_zipIdx_iff_getElem?, Array.getElem?_toList]
    exact hentry

end Dfa

/-! ## Entries -/

/-- Places in rows of the same length differ if they are in different rows or columns. -/
theorem row_column_eq_of_place_eq {n row column otherRow otherColumn : Nat} (hcolumn : column < n)
    (hother : otherColumn < n) (h : row * n + column = otherRow * n + otherColumn) :
    row = otherRow ∧ column = otherColumn := by
  have hrows : ∀ i j, j < n → (i * n + j) / n = i := by
    intro i j hj
    rw [Nat.mul_comm, Nat.mul_add_div (by omega), Nat.div_eq_of_lt hj, Nat.add_zero]
  have hrow : row = otherRow := by
    rw [← hrows row column hcolumn, h, hrows otherRow otherColumn hother]
  subst hrow
  exact ⟨rfl, Nat.add_left_cancel h⟩

/-- An array has a row for each state up to the error state `stuck`, and in it for each symbol the
state that `target?` gives, or `stuck`. -/
structure HasEntries (alphabet : Alphabet) (stuck : Nat) (target? : Nat → Char → Option Nat)
    (data : Array Nat) : Prop where
  size_eq : data.size = (stuck + 1) * alphabet.size
  getElem?_eq : ∀ state c column, state ≤ stuck → alphabet.indexOf? c = some column →
    data[state * alphabet.size + column]? = some ((target? state c).getD stuck)

namespace HasEntries

variable {alphabet : Alphabet} {stuck : Nat} {target? : Nat → Char → Option Nat}
  {data : Array Nat}

/-- A row and a column have a place. -/
theorem place_lt (h : HasEntries alphabet stuck target? data) {state column : Nat} {c : Char}
    (hstate : state ≤ stuck) (hc : alphabet.indexOf? c = some column) :
    state * alphabet.size + column < data.size :=
  (Array.getElem?_eq_some_iff.1 (h.getElem?_eq state c column hstate hc)).1

theorem replicate : HasEntries alphabet stuck (fun _ _ => none)
    (Array.replicate ((stuck + 1) * alphabet.size) stuck) where
  size_eq := Array.size_replicate
  getElem?_eq state c column hstate hc := by
    have hcolumn : column < alphabet.size := Alphabet.indexOf?_lt hc
    have hplace : state * alphabet.size + column < (stuck + 1) * alphabet.size :=
      calc
        _ < (state + 1) * alphabet.size := by rw [Nat.succ_mul]; omega
        _ ≤ (stuck + 1) * alphabet.size := Nat.mul_le_mul_right _ (by omega)
    rw [Array.getElem?_replicate, if_pos hplace, Option.getD_none]

/-- There is only one array with these entries. -/
theorem unique {other : Array Nat} (h : HasEntries alphabet stuck target? data)
    (ho : HasEntries alphabet stuck target? other) : data = other := by
  apply Array.ext_getElem?
  intro place
  by_cases hplace : place < (stuck + 1) * alphabet.size
  · have hpos : 0 < alphabet.size := by
      apply Nat.pos_of_ne_zero
      intro hzero
      simp [hzero] at hplace
    have hstate : place / alphabet.size ≤ stuck :=
      Nat.le_of_lt_succ ((Nat.div_lt_iff_lt_mul hpos).2 hplace)
    have hlt : place % alphabet.size < alphabet.symbols.length := Nat.mod_lt place hpos
    have hcolumn := Alphabet.indexOf?_eq_some_iff.2 (List.getElem?_eq_getElem hlt)
    rw [← Nat.div_add_mod' place alphabet.size, h.getElem?_eq _ _ _ hstate hcolumn,
      ho.getElem?_eq _ _ _ hstate hcolumn]
  · rw [Array.getElem?_eq_none (by rw [h.size_eq]; omega),
      Array.getElem?_eq_none (by rw [ho.size_eq]; omega)]

/-- Writing a move changes the entry of its state and its character and no other. -/
theorem writeMove (h : HasEntries alphabet stuck target? data) {state target : Nat} {c : Char}
    (hstate : state ≤ stuck) (hc : c ∈ alphabet) :
    ∃ written, Dfa.writeMove alphabet data (state, c, target) = .ok written ∧
      HasEntries alphabet stuck
        (fun other d => if other = state ∧ d = c then some target else target? other d)
        written := by
  rcases Option.isSome_iff_exists.1 (List.isSome_idxOf?.2 hc) with ⟨column, hcolumn⟩
  have hindex : alphabet.indexOf? c = some column := hcolumn
  have hlt := h.place_lt hstate hindex
  refine ⟨data.set _ target hlt, ?_, ?_, ?_⟩
  · rw [Dfa.writeMove, hindex]
    exact dif_pos hlt
  · rw [Array.size_set, h.size_eq]
  · intro other d otherColumn hother hd
    rw [Array.getElem?_set]
    -- Equal places are equal rows and columns, and a column belongs to one symbol.
    by_cases hplace : state * alphabet.size + column = other * alphabet.size + otherColumn
    · have hsame := row_column_eq_of_place_eq (Alphabet.indexOf?_lt hindex)
        (Alphabet.indexOf?_lt hd) hplace
      have hsymbol : d = c := by
        rw [← hsame.2, Alphabet.indexOf?_eq_some_iff] at hd
        rw [Alphabet.indexOf?_eq_some_iff, hd] at hindex
        exact Option.some.inj hindex
      rw [if_pos hplace, if_pos ⟨hsame.1.symm, hsymbol⟩, Option.getD_some]
    · have hdifferent : ¬ (other = state ∧ d = c) := by
        rintro ⟨rfl, rfl⟩
        rw [hindex, Option.some.injEq] at hd
        exact hplace (hd ▸ rfl)
      rw [if_neg hplace, if_neg hdifferent, h.getElem?_eq _ _ _ hother hd]

end HasEntries

namespace Dfa

variable {dfa : Dfa} {alphabet : Alphabet}

/-- If the moves that the array does not have yet are among those that are to be written, then it
has all of them in the end. -/
theorem exists_foldlM_writeMove (hmoves : dfa.MovesWithin alphabet)
    {moves : List (Nat × Char × Nat)}
    (hlisted : ∀ move ∈ moves, dfa.next? move.1 move.2.1 = some move.2.2)
    {target? : Nat → Char → Option Nat} {data : Array Nat}
    (hleft : ∀ state c, target? state c = dfa.next? state c ∨ ∃ target, (state, c, target) ∈ moves)
    (h : HasEntries alphabet dfa.size target? data) :
    ∃ written, moves.foldlM (writeMove alphabet) data = .ok written ∧
      HasEntries alphabet dfa.size dfa.next? written := by
  induction moves generalizing target? data with
  | nil =>
    have htarget : target? = dfa.next? := by
      funext state c
      simpa using hleft state c
    exact ⟨data, rfl, htarget ▸ h⟩
  | cons move moves ih =>
    rcases move with ⟨state, c, target⟩
    have hnext : dfa.next? state c = some target := hlisted _ (List.mem_cons_self ..)
    have hstate : state ≤ dfa.size := Nat.le_of_lt (lt_size_of_next? hnext)
    have hc : c ∈ alphabet := hmoves state c (Option.isSome_of_eq_some hnext)
    rcases h.writeMove hstate hc with ⟨written, hwrite, hentries⟩
    rw [List.foldlM_cons, hwrite]
    refine ih (fun other hother => hlisted other (List.mem_cons_of_mem _ hother)) ?_ hentries
    intro other d
    -- The move that has been written is in the array now; any other one is where it was.
    by_cases heq : other = state ∧ d = c
    · rw [if_pos heq, heq.1, heq.2]
      exact .inl hnext.symm
    · rw [if_neg heq]
      rcases hleft other d with hdone | ⟨_, hmem⟩
      · exact .inl hdone
      · rcases List.mem_cons.1 hmem with hhead | hmem
        · cases hhead
          exact absurd ⟨rfl, rfl⟩ heq
        · exact .inr ⟨_, hmem⟩

/-- Writing the moves one by one gives the entries of the table. -/
theorem writeMoves_eq_ok (hmoves : dfa.MovesWithin alphabet) :
    dfa.writeMoves alphabet = .ok (Table.flattened dfa alphabet).data := by
  have hleft : ∀ state c, none = dfa.next? state c ∨
      ∃ target, (state, c, target) ∈ dfa.numberedMoves := by
    intro state c
    simp only [mem_numberedMoves_iff]
    cases dfa.next? state c <;> simp
  rcases exists_foldlM_writeMove hmoves (fun _ hmove => mem_numberedMoves_iff.1 hmove) hleft
    HasEntries.replicate with ⟨written, hwritten, hentries⟩
  have hflattened : HasEntries alphabet dfa.size dfa.next? (Table.flattened dfa alphabet).data :=
    ⟨(Table.flattened dfa alphabet).data_size,
      fun _ _ _ hstate hcolumn => Table.getElem?_data_flattened hstate hcolumn⟩
  rw [writeMoves, hwritten, hentries.unique hflattened]

end Dfa

namespace Table

/-- A walk by numbers takes the steps of the table, and none of them fails. -/
theorem foldlM_next?_eq (table : Table) (word : List Char) (state : Fin table.states) :
    word.foldlM table.next? state.val = .ok (word.foldl table.next state).val :=
  Checked.foldlM_eq_ok next?_eq word state

/-- A walk over a word ends in the state with the number of the automaton's last state, which has
the same tag, and in the error state exactly if the automaton gets stuck. -/
structure Follows (table : Table) (dfa : Dfa) (word : List Char) (state : Nat) : Prop where
  walk_eq : word.foldlM table.next? table.initial = .ok state
  isError_iff : table.isError state = true ↔ dfa.run word = none
  eq_last : ∀ last, dfa.run word = some last → state = last
  accept?_eq : table.accept? state = .ok ((dfa.run word).bind dfa.tag?)

/-- The table of an automaton with tags at just its accepting states follows it over every word,
also if the alphabet has other symbols too. -/
theorem ofDfa_follows {dfa : Dfa} {alphabet : Alphabet}
    (htagged : ∀ entry ∈ dfa.states, entry.accepting = entry.tag.isSome)
    (hcover : ∀ c ∈ dfa.moveChars, c ∈ alphabet) :
    ∃ table, ofDfa dfa alphabet = .ok table ∧ dfa.writeMoves alphabet = .ok table.data ∧
      ∀ word, ∃ state, table.Follows dfa word state := by
  have hmoves : dfa.MovesWithin alphabet := Dfa.movesWithin_iff.2 hcover
  refine ⟨_, ofDfa_eq_ok hmoves htagged, Dfa.writeMoves_eq_ok hmoves, ?_⟩
  intro word
  refine ⟨((flattened dfa alphabet).walk word).val, ?_, ?_, ?_, ?_⟩
  · exact foldlM_next?_eq _ word (flattened dfa alphabet).start
  · rw [isError_eq, decide_eq_true_eq]
    exact walk_flattened_eq_stuck_iff hmoves word
  · intro last hlast
    rw [val_walk_flattened hmoves, hlast, Option.getD_some]
  · rw [accept?_eq, tag_walk_flattened hmoves]

/-- An automaton with a state that leads nowhere and one that is not reachable, and an alphabet in
which no move is on `b`: a walk over `aéé` comes to the accepting state, and neither the column of
`b` nor a character without a column leads anywhere. -/
theorem ofDfa_follows_unused_column : ∃ (dfa : Dfa) (table : Table),
    ofDfa dfa (.ofList ['é', 'c', 'b', 'a']) = .ok table ∧
    ['a', 'é', 'é'].foldlM table.next? table.initial = .ok 0 ∧
    table.accept? 0 = .ok (some ⟨⟨"word"⟩, 7⟩) ∧
    ∀ word ∈ [['a', 'b'], ['a', 'é', 'x']], ∃ state,
      word.foldlM table.next? table.initial = .ok state ∧ table.isError state = true := by
  let dfa : Dfa := ⟨#[
    ⟨.empty, ⟨[('é', 0)], by decide⟩, true, some ⟨⟨"word"⟩, 7⟩⟩,
    ⟨.empty, ⟨[('a', 0), ('c', 2)], by decide⟩, false, none⟩,
    ⟨.empty, ⟨[('c', 2)], by decide⟩, false, none⟩,
    ⟨.empty, ⟨[('a', 1), ('é', 3)], by decide⟩, true, some ⟨⟨"end"⟩, 0⟩⟩], 1, by decide, by decide⟩
  have htagged : ∀ entry ∈ dfa.states, entry.accepting = entry.tag.isSome := by
    simp [dfa]
  have hcover : ∀ c ∈ dfa.moveChars, c ∈ Alphabet.ofList ['é', 'c', 'b', 'a'] := by
    have hchars : dfa.moveChars = ['é', 'a', 'c', 'c', 'a', 'é'] := by rfl
    simp [hchars]
  rcases ofDfa_follows htagged hcover with ⟨table, htable, _, hfollows⟩
  refine ⟨dfa, table, htable, ?_, ?_, ?_⟩
  · rcases hfollows ['a', 'é', 'é'] with ⟨state, h⟩
    rw [h.walk_eq, h.eq_last 0 rfl]
  · rcases hfollows ['a', 'é', 'é'] with ⟨state, h⟩
    rw [← h.eq_last 0 rfl]
    exact h.accept?_eq
  · intro word hword
    rcases hfollows word with ⟨state, h⟩
    have hrun : dfa.run word = none := by
      simp only [List.mem_cons, List.not_mem_nil, or_false] at hword
      rcases hword with rfl | rfl <;> rfl
    exact ⟨state, h.walk_eq, h.isError_iff.2 hrun⟩

end Table

end LexGen
