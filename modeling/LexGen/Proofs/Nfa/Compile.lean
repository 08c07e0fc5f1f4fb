import LexGen.Nfa.Closure
import LexGen.Proofs.Nfa.Thompson
import LexGen.Proofs.Pattern.Grammatical

/-!
# Compiled patterns

A pattern is compiled exactly if the grammar derives a syntax tree for it, and its automaton then
accepts the words that this tree stands for. Both halves are put together from the reader
(`Regex.parse_eq_ok_iff_derives`) and from the blocks (`Nfa.Hosts.path_iff`).
-/

namespace LexGen

/-- A class stands for its members, each as a word of one character. -/
theorem Regex.matches_ofMembers_iff {first : Char} {others word : List Char} :
    (ofMembers first others).Matches word ↔ ∃ c ∈ first :: others, word = [c] := by
  have hfold : ∀ regex : Regex,
      (others.foldl (fun regex c => union regex (literal c)) regex).Matches word ↔
        regex.Matches word ∨ ∃ c ∈ others, word = [c] := by
    induction others with
    | nil => simp
    | cons c others ih =>
      intro regex
      rw [List.foldl_cons, ih, matches_union_iff, matches_literal_iff, or_assoc]
      simp
  rw [ofMembers, hfold, matches_literal_iff]
  simp

namespace Nfa

theorem hosts_ofRegex (regex : Regex) : (ofRegex regex).Hosts 0 (regex.block 0 ⟨[], true⟩) := by
  intro i state hi
  rw [states_ofRegex, Nat.zero_add, List.getElem?_toArray, hi]

theorem size_ofRegex (regex : Regex) : (ofRegex regex).size = regex.size := by
  rw [size, states_ofRegex, List.size_toArray, Regex.length_block]

/-- The automaton of an expression recognizes the words of the expression. -/
theorem recognizes_ofRegex_iff {regex : Regex} {word : List Char} :
    (ofRegex regex).Recognizes word ↔ regex.Matches word := by
  have hhosts := hosts_ofRegex regex
  have hstart : (ofRegex regex).start = 0 + regex.entry := (Nat.zero_add _).symm
  rw [Recognizes, hstart]
  constructor
  · rintro ⟨state, hpath, haccepting⟩
    exact ((hhosts.path_iff haccepting).1 hpath).2
  · intro hm
    exact ⟨0 + regex.size - 1, hhosts.path_of_matches hm, hhosts.isAccepting_last⟩

theorem compile_eq_ok_iff {pattern : String} {nfa : Nfa} :
    compile pattern = .ok nfa ↔
      ∃ regex, Pattern.Derives pattern.toList regex ∧ ofRegex regex = nfa := by
  rw [compile, Checked.map_eq_ok_iff]
  simp only [Regex.parse_eq_ok_iff_derives]

/-- Exactly the patterns of the grammar are compiled, where a class is read up to the nearest `]`,
and the automaton accepts the words that the syntax tree of the pattern stands for. -/
theorem compile_grammar_and_language (pattern : String) :
    ((∃ nfa, compile pattern = .ok nfa) ↔
      ∃ pieces regex, Piece.Reads pattern.toList pieces ∧ Piece.Derives .union pieces regex) ∧
    ∀ nfa pieces regex, compile pattern = .ok nfa → Piece.Reads pattern.toList pieces →
      Piece.Derives .union pieces regex →
        ∀ word, nfa.accepts word = true ↔ regex.Matches word := by
  constructor
  · constructor
    · rintro ⟨nfa, h⟩
      obtain ⟨regex, hderives, -⟩ := compile_eq_ok_iff.1 h
      exact ⟨_, regex, Piece.reads_cut pattern.toList, hderives⟩
    · rintro ⟨pieces, regex, hreads, hderives⟩
      rw [← hreads.cut_eq] at hderives
      exact ⟨ofRegex regex, compile_eq_ok_iff.2 ⟨regex, hderives, rfl⟩⟩
  · intro nfa pieces regex h hreads hderives word
    rw [← hreads.cut_eq] at hderives
    obtain ⟨compiled, hcompiled, rfl⟩ := compile_eq_ok_iff.1 h
    obtain rfl : compiled = regex := hcompiled.unique hderives
    rw [accepts_iff, recognizes_ofRegex_iff]

/-- The pattern `a[b-c]*` is compiled, and its automaton accepts exactly what its tree stands for. -/
theorem compile_repeated_class :
    ∃ nfa pieces regex, compile "a[b-c]*" = .ok nfa ∧ Piece.Reads "a[b-c]*".toList pieces ∧
      Piece.Derives .union pieces regex ∧ nfa.accepts "abcb".toList = true ∧
      ∀ word, nfa.accepts word = true ↔ regex.Matches word := by
  have hparse : Regex.parse "a[b-c]*" = .ok (.concat (.literal 'a')
      (.repeated .star (.union (.literal 'b') (.literal 'c')))) := by decide
  have hcompile := compile_eq_ok_iff.2 ⟨_, Regex.derives_of_parse hparse, rfl⟩
  have hreads : Piece.Reads "a[b-c]*".toList
      [.char 'a', .charClass ['b', '-', 'c'], .char '*'] := Piece.reads_iff.2 (by decide)
  have hderives := Regex.derives_of_parse hparse
  rw [Pattern.Derives, hreads.cut_eq] at hderives
  have hlanguage :=
    (compile_grammar_and_language "a[b-c]*").2 _ _ _ hcompile hreads hderives
  refine ⟨_, _, _, hcompile, hreads, hderives, ?_, hlanguage⟩
  exact (hlanguage _).2 (.concat (.literal 'a')
    (.starAppend (.unionLeft (.literal 'b'))
      (.starAppend (.unionRight (.literal 'c'))
        (.starAppend (.unionLeft (.literal 'b')) .starNil))))

end Nfa

end LexGen
