import LexGen.Proofs.Lexer.LongestMatch
import LexGen.Proofs.Scan.Safety

/-!
# Words that can still become tokens

A word is viable if some rule matches it or a longer word that starts with it. No state of a lexer
is in vain: each of its two automata and its table have only states that some word leads to and from
which some word leads on to acceptance, the error state of the table apart. So a walk through the
table is in the error state exactly after the words that are not viable
(`Lexer.Staged.walk_ne_stuck_iff`), and a scan goes on as long as any rule can still match
(`Lexer.stopsInTime`).

Where the loop of a scan breaks is not seen from what it remembers. `SavedScanner.lastAcceptLeaving`
is this loop with what it leaves unread beside its result, and what it has read is told by the walk
(`SavedScanner.Simulates.leaves_iff`).
-/

namespace LexGen

/-- Some rule matches the word or a longer one that starts with it. -/
def RuleSet.Viable (set : RuleSet) (word : List Char) : Prop :=
  ∃ back, ∃ rule ∈ set.rules, rule.Matches (word ++ back)

namespace Table

/-- Some word leads to the state, and some word leads on from it to a token type. -/
def Useful (table : Table) (state : Fin table.states) : Prop :=
  (∃ word, table.walk word = state) ∧
    ∃ (word : List Char) (tokenType : TokenType),
      table.tokenType (word.foldl table.next state) = some tokenType

variable {dfa : Dfa} {alphabet : Alphabet}

/-- The table of a trim automaton has only its error state in vain. -/
theorem useful_flattened (htrim : dfa.Trim) (htagged : dfa.Tagged)
    (hmoves : dfa.MovesWithin alphabet) {state : Fin (flattened dfa alphabet).states}
    (h : state ≠ (flattened dfa alphabet).stuck) : (flattened dfa alphabet).Useful state := by
  have hs : state.val < dfa.size := by
    have hlt : state.val < dfa.size + 1 := state.isLt
    have hne : state.val ≠ dfa.size := fun hval => h (Fin.ext hval)
    omega
  obtain ⟨⟨front, hfront⟩, back, last, hlast, haccepting⟩ := htrim.useful hs
  constructor
  · refine ⟨front, Fin.ext ?_⟩
    rw [val_walk_flattened hmoves, hfront, Option.getD_some]
  · have hval := foldl_next_flattened hmoves hs back
    rw [hlast, Option.getD_some] at hval
    rw [htagged.isAccepting_eq] at haccepting
    obtain ⟨tag, htag⟩ := Option.isSome_iff_exists.1 haccepting
    refine ⟨back, tag.tokenType, ?_⟩
    rw [tokenType, tag_flattened (hval ▸ Dfa.lt_of_runFrom hs hlast), hval, htag, Option.map_some]

end Table

/-! ## Where the loop breaks -/

namespace SavedScanner

/-- The loop of `lastAccept`, with the text from the character on at which it breaks, which is empty
if it does not. -/
def lastAcceptLeaving (saved : SavedScanner) (state offset : Nat)
    (last : Option (Nat × TokenType)) :
    List Char → Except ScanFault (Option (Nat × TokenType) × List Char)
  | [] => .ok (last, [])
  | c :: rest => do
    let next ← saved.next state c
    if saved.table.isError next then return (last, c :: rest)
    let tag ← saved.accept next
    let stop := offset + c.utf8Size
    saved.lastAcceptLeaving next stop ((tag.map fun tag => (stop, tag.tokenType)).or last) rest

/-- It is the loop of `lastAccept`. -/
theorem map_fst_lastAcceptLeaving (saved : SavedScanner) (state offset : Nat)
    (last : Option (Nat × TokenType)) (text : List Char) :
    (saved.lastAcceptLeaving state offset last text).map Prod.fst =
      saved.lastAccept state offset last text := by
  induction text generalizing state offset last with
  | nil => rfl
  | cons c rest ih =>
    rw [lastAcceptLeaving, lastAccept]
    cases saved.next state c with
    | error fault => rfl
    | ok next =>
      show Except.map Prod.fst (if saved.table.isError next = true then _ else _) =
        if saved.table.isError next = true then _ else _
      split
      next => rfl
      next =>
        cases saved.accept next with
        | error fault => rfl
        | ok tag => exact ih _ _ _

namespace Simulates

variable {saved : SavedScanner} {scanner : Scanner} (h : saved.Simulates scanner)

include h

/-- At a character that leads to the error state the loop breaks. -/
theorem lastAcceptLeaving_of_stuck {state : Fin scanner.table.states} {c : Char}
    (hstuck : scanner.table.next state c = scanner.table.stuck) (offset : Nat)
    (last : Option (Nat × TokenType)) (rest : List Char) :
    saved.lastAcceptLeaving state.val offset last (c :: rest) = .ok (last, c :: rest) := by
  rw [lastAcceptLeaving, h.next_eq]
  show (if saved.table.isError (scanner.table.next state c).val then _ else _) = _
  rw [h.isError_eq, if_pos (decide_eq_true hstuck)]
  rfl

/-- At any other character it goes on. -/
theorem exists_lastAcceptLeaving_cons {state : Fin scanner.table.states} {c : Char}
    (hstuck : scanner.table.next state c ≠ scanner.table.stuck) (offset : Nat)
    (last : Option (Nat × TokenType)) (rest : List Char) :
    ∃ stop found, saved.lastAcceptLeaving state.val offset last (c :: rest) =
      saved.lastAcceptLeaving (scanner.table.next state c).val stop found rest := by
  rw [lastAcceptLeaving, h.next_eq]
  show ∃ stop found, (if saved.table.isError (scanner.table.next state c).val then _ else _) = _
  rw [h.isError_eq, if_neg (by simpa using hstuck), h.accept_eq]
  exact ⟨_, _, rfl⟩

/-- The loop leaves an end part of the text: it has read what is in front of it. -/
theorem exists_leaving (text : List Char) (state : Fin scanner.table.states) (offset : Nat)
    (last : Option (Nat × TokenType)) : ∃ found front left, text = front ++ left ∧
      saved.lastAcceptLeaving state.val offset last text = .ok (found, left) := by
  induction text generalizing state offset last with
  | nil => exact ⟨last, [], [], rfl, rfl⟩
  | cons c rest ih =>
    by_cases hstuck : scanner.table.next state c = scanner.table.stuck
    · exact ⟨last, [], c :: rest, rfl, h.lastAcceptLeaving_of_stuck hstuck offset last rest⟩
    · obtain ⟨stop, remembered, hcons⟩ := h.exists_lastAcceptLeaving_cons hstuck offset last rest
      obtain ⟨found, front, left, rfl, hleaving⟩ := ih (scanner.table.next state c) stop remembered
      exact ⟨found, c :: front, left, rfl, hcons.trans hleaving⟩

theorem not_leaving_of_length_lt {text left : List Char} (hlt : text.length < left.length)
    (state : Fin scanner.table.states) (offset : Nat) (last : Option (Nat × TokenType)) :
    ¬ ∃ found, saved.lastAcceptLeaving state.val offset last text = .ok (found, left) := by
  intro hleaving
  obtain ⟨found, hfound⟩ := hleaving
  obtain ⟨other, front, back, rfl, hother⟩ := h.exists_leaving text state offset last
  cases hfound.symm.trans hother
  rw [List.length_append] at hlt
  omega

/-- The loop breaks at the first character that leads to the error state, and nowhere else. -/
theorem leaves_iff {front left : List Char} {state : Fin scanner.table.states}
    (hstate : state ≠ scanner.table.stuck) (offset : Nat) (last : Option (Nat × TokenType)) :
    (∃ found, saved.lastAcceptLeaving state.val offset last (front ++ left) = .ok (found, left)) ↔
      front.foldl scanner.table.next state ≠ scanner.table.stuck ∧
        ∀ c rest, left = c :: rest →
          (front ++ [c]).foldl scanner.table.next state = scanner.table.stuck := by
  induction front generalizing state offset last with
  | nil =>
    cases left with
    | nil => simp [lastAcceptLeaving, hstate]
    | cons c rest =>
      by_cases hstuck : scanner.table.next state c = scanner.table.stuck
      · simp [h.lastAcceptLeaving_of_stuck hstuck, hstate, hstuck]
      · obtain ⟨stop, found, hcons⟩ := h.exists_lastAcceptLeaving_cons hstuck offset last rest
        have hlt : rest.length < (c :: rest).length := Nat.lt_succ_self rest.length
        constructor
        · intro hleaving
          rw [List.nil_append, hcons] at hleaving
          exact absurd hleaving (h.not_leaving_of_length_lt hlt _ stop found)
        · intro hbreak
          exact absurd (hbreak.2 c rest rfl) hstuck
  | cons a front ih =>
    rw [List.cons_append]
    by_cases hstuck : scanner.table.next state a = scanner.table.stuck
    · rw [h.lastAcceptLeaving_of_stuck hstuck, List.foldl_cons, hstuck, Table.foldl_next_stuck]
      constructor
      · intro hleaving
        obtain ⟨found, hfound⟩ := hleaving
        have hlength := congrArg List.length (Prod.mk.inj (Except.ok.inj hfound)).2
        rw [List.length_cons, List.length_append] at hlength
        omega
      · intro hwalk
        exact absurd rfl hwalk.1
    · obtain ⟨stop, found, hcons⟩ :=
        h.exists_lastAcceptLeaving_cons hstuck offset last (front ++ left)
      rw [hcons]
      exact ih hstuck stop found

end Simulates

end SavedScanner

namespace Lexer

variable {set : RuleSet} {lexer : Lexer}

namespace Staged

/-- The automaton gets stuck exactly on the words that no rule can match any more. -/
theorem run_eq_none_iff (h : Staged set lexer) {word : List Char} :
    lexer.minimized.run word = none ↔ ¬ set.Viable word := by
  rw [h.trim.run_eq_none_iff]
  simp only [h.decides.assigned_eq_none_iff]
  constructor
  · rintro hnone ⟨back, rule, hrule, hmatches⟩
    exact hnone back rule hrule hmatches
  · intro hnot back rule hrule hmatches
    exact hnot ⟨back, rule, hrule, hmatches⟩

theorem walk_ne_stuck_iff (h : Staged set lexer) {word : List Char} :
    lexer.scanner.table.walk word ≠ lexer.scanner.table.stuck ↔ set.Viable word := by
  rw [h.scanner_eq]
  show (Table.flattened lexer.minimized lexer.alphabet).walk word ≠
    (Table.flattened lexer.minimized lexer.alphabet).stuck ↔ _
  rw [Ne, Table.walk_flattened_eq_stuck_iff h.movesWithin, h.run_eq_none_iff, Classical.not_not]

/-- The empty word does not lead to the error state. -/
theorem start_ne_stuck (h : Staged set lexer) :
    lexer.scanner.table.start ≠ lexer.scanner.table.stuck := by
  rw [h.scanner_eq]
  intro hstuck
  have hrun : lexer.minimized.run [] = none :=
    (Table.walk_flattened_eq_stuck_iff h.movesWithin []).1 hstuck
  cases hrun

theorem useful_table (h : Staged set lexer) :
    ∀ state, state ≠ lexer.scanner.table.stuck → lexer.scanner.table.Useful state := by
  rw [h.scanner_eq]
  intro state hs
  exact Table.useful_flattened h.trim h.tagged h.movesWithin hs

end Staged

/-- The scanner of a lexer with its table as it is stored. -/
def savedScanner (lexer : Lexer) : SavedScanner :=
  .ofScanner lexer.scanner lexer.scanner.table.column?

/-- The table and the automata of a lexer know which words are viable, and their states are of use.
The loop of a scan goes on as long as what it has read is viable and breaks at the next character, and
what is found does not depend on the text from there on. -/
structure StopsInTime (set : RuleSet) (lexer : Lexer) : Prop where
  walk_ne_stuck_iff : ∀ word,
    lexer.scanner.table.walk word ≠ lexer.scanner.table.stuck ↔ set.Viable word
  useful_table : ∀ state, state ≠ lexer.scanner.table.stuck → lexer.scanner.table.Useful state
  useful_determinized : ∀ state, state < lexer.determinized.size → lexer.determinized.Useful state
  useful_minimized : ∀ state, state < lexer.minimized.size → lexer.minimized.Useful state
  exists_leaving : ∀ text offset last, ∃ found front left, text = front ++ left ∧
    lexer.savedScanner.lastAcceptLeaving lexer.savedScanner.table.initial offset last text =
      .ok (found, left) ∧
    lexer.savedScanner.lastAccept lexer.savedScanner.table.initial offset last text = .ok found
  leaves_iff : ∀ front left offset last,
    (∃ found, lexer.savedScanner.lastAcceptLeaving lexer.savedScanner.table.initial offset last
        (front ++ left) = .ok (found, left)) ↔
      set.Viable front ∧ ∀ c rest, left = c :: rest → ¬ set.Viable (front ++ [c])
  longest_append : ∀ front c rest, ¬ set.Viable (front ++ [c]) →
    lexer.scanner.longest (front ++ c :: rest) =
      (lexer.scanner.longest front).map fun found => { found with rest := found.rest ++ c :: rest }

/-- A lexer is in the error state exactly after the words that no rule can match any more, and no
other state of it is in vain. -/
theorem stopsInTime (h : Lexer.ofRules set = .ok lexer) : StopsInTime set lexer := by
  have hstaged := staged_of_ofRules h
  have hsimulates : lexer.savedScanner.Simulates lexer.scanner :=
    SavedScanner.simulates_ofScanner lexer.scanner
  constructor
  case walk_ne_stuck_iff => exact fun _ => hstaged.walk_ne_stuck_iff
  case useful_table => exact hstaged.useful_table
  case useful_determinized => exact fun _ hs => hstaged.trim_determinized.useful hs
  case useful_minimized => exact fun _ hs => hstaged.trim.useful hs
  case exists_leaving =>
    intro text offset last
    obtain ⟨found, front, left, htext, hleaving⟩ :=
      hsimulates.exists_leaving text lexer.scanner.table.start offset last
    have hfound := lexer.savedScanner.map_fst_lastAcceptLeaving lexer.scanner.table.start.val offset
      last text
    rw [hleaving] at hfound
    exact ⟨found, front, left, htext, hleaving, hfound.symm⟩
  case leaves_iff =>
    intro front left offset last
    refine (hsimulates.leaves_iff hstaged.start_ne_stuck offset last).trans ?_
    refine and_congr hstaged.walk_ne_stuck_iff ?_
    simp only [← hstaged.walk_ne_stuck_iff, Classical.not_not]
    rfl
  case longest_append =>
    intro front c rest hnot
    apply Table.longest_append_of_stuck
    by_contra hstuck
    exact hnot (hstaged.walk_ne_stuck_iff.1 hstuck)

/-- Behind `ab` the rule `(ab?)*c` can go on with `a` but not with `b`, so the loop breaks at the second
`b` of `abbc`. -/
theorem stopsInTime_nested_star : ∃ lexer, Lexer.ofRules ⟨[("(ab?)*c", ⟨"word"⟩)]⟩ = .ok lexer ∧
    StopsInTime ⟨[("(ab?)*c", ⟨"word"⟩)]⟩ lexer ∧
    RuleSet.Viable ⟨[("(ab?)*c", ⟨"word"⟩)]⟩ ['a', 'b', 'a'] ∧
    ¬ RuleSet.Viable ⟨[("(ab?)*c", ⟨"word"⟩)]⟩ ['a', 'b', 'b'] ∧
    ∃ found, lexer.savedScanner.lastAcceptLeaving lexer.savedScanner.table.initial 0 none
      ['a', 'b', 'b', 'c'] = .ok (found, ['b', 'c']) := by
  obtain ⟨lexer, hlexer⟩ : ∃ lexer, Lexer.ofRules ⟨[("(ab?)*c", ⟨"word"⟩)]⟩ = .ok lexer :=
    Checked.exists_eq_ok_iff.2 (by decide +kernel)
  have hwalks : (Lexer.ofRules ⟨[("(ab?)*c", ⟨"word"⟩)]⟩).toOption.map (fun lexer =>
      (decide (lexer.scanner.table.walk ['a', 'b', 'a'] ≠ lexer.scanner.table.stuck),
        decide (lexer.scanner.table.walk ['a', 'b', 'b'] ≠ lexer.scanner.table.stuck))) =
      some (true, false) := by decide +kernel
  rw [hlexer] at hwalks
  obtain ⟨hviable, hstuck⟩ := Prod.mk.inj (Option.some.inj hwalks)
  have hstops := stopsInTime hlexer
  have hgo := (hstops.walk_ne_stuck_iff _).1 (of_decide_eq_true hviable)
  have hbreak := mt (hstops.walk_ne_stuck_iff _).2 (of_decide_eq_false hstuck)
  refine ⟨lexer, hlexer, hstops, hgo, hbreak, ?_⟩
  apply (hstops.leaves_iff ['a', 'b'] ['b', 'c'] 0 none).2
  constructor
  · obtain ⟨back, hback⟩ := hgo
    exact ⟨'a' :: back, hback⟩
  · intro c rest hleft
    cases hleft
    exact hbreak

end Lexer

end LexGen
