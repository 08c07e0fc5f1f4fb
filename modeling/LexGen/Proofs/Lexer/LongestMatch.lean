import LexGen.Proofs.Lexer.Stages
import LexGen.Proofs.Scan.Longest

/-!
# The longest match of a lexer

The table of a rule set has the token type of the rule that wins after each word that a rule matches,
and none after the others (`Lexer.Staged.tokenType_walk_eq_some_iff`). What its scanner finds at an
offset is thus said by the rules alone: the longest part of the text from there on that any rule
matches, with the token type of the first rule that matches it (`Lexer.matchAt_longest`).
-/

namespace LexGen

/-- Verdict and token type of the state after a word say the same about token types. -/
theorem Dfa.Trim.bind_tokenType_run_eq_some_iff {dfa : Dfa} (h : dfa.Trim) {word : List Char}
    {tokenType : TokenType} : (dfa.run word).bind dfa.tokenType = some tokenType ↔
      dfa.assigned dfa.start word = some (some tokenType) := by
  have hassigned : dfa.assigned dfa.start word = (dfa.run word).bind dfa.verdict := rfl
  rw [hassigned]
  cases hrun : dfa.run word with
  | none =>
    rw [Option.bind_none, Option.bind_none]
    constructor <;> intro hnone <;> cases hnone
  | some last =>
    rw [Option.bind_some, Option.bind_some, verdict]
    constructor
    · intro htype
      rw [h.accepting_of_tokenType last tokenType htype, htype]
      rfl
    · intro hverdict
      split at hverdict
      · exact Option.some.inj hverdict
      · cases hverdict

namespace Scanner

/-- There is a match at an offset if the offset is a position and the text from there on starts with
a lexeme. -/
theorem matchAt_eq_some_iff {scanner : Scanner} {text : String} {start : Nat} {found : Match} :
    scanner.matchAt text start = some found ↔
      ∃ before lexeme, text.toList = before ++ (lexeme.chars ++ lexeme.rest) ∧
        start = Text.byteLength before ∧
        scanner.longest (lexeme.chars ++ lexeme.rest) = some lexeme ∧
        found = ⟨lexeme.tokenType, String.ofList lexeme.chars, start,
          start + Text.byteLength lexeme.chars⟩ := by
  unfold matchAt
  constructor
  · intro h
    obtain ⟨rest, hrest, h⟩ := Option.bind_eq_some_iff.1 h
    obtain ⟨lexeme, hlexeme, h⟩ := Option.bind_eq_some_iff.1 h
    obtain ⟨before, happend, hstart⟩ := Text.dropBytes?_eq_some_iff.1 hrest
    obtain ⟨_, hparts⟩ := Table.longest_append hlexeme
    refine ⟨before, lexeme, ?_, hstart, ?_, (Option.some.inj h).symm⟩
    · rw [hparts]
      exact happend
    · rw [hparts]
      exact hlexeme
  · rintro ⟨before, lexeme, happend, hstart, hlexeme, rfl⟩
    rw [Text.dropBytes?_eq_some_iff.2 ⟨before, happend, hstart⟩]
    show (scanner.longest (lexeme.chars ++ lexeme.rest) >>= _) = _
    rw [hlexeme]
    rfl

end Scanner

namespace Lexer

variable {set : RuleSet} {lexer : Lexer}

namespace Staged

/-- After a word the table has the token type of the rule that wins the word. -/
theorem tokenType_walk_eq_some_iff (h : Staged set lexer) {word : List Char}
    {tokenType : TokenType} :
    lexer.scanner.table.tokenType (lexer.scanner.table.walk word) = some tokenType ↔
      ∃ rule, set.Wins word rule ∧ rule.tokenType = tokenType := by
  rw [h.scanner_eq]
  show (Table.flattened lexer.minimized lexer.alphabet).tokenType
    ((Table.flattened lexer.minimized lexer.alphabet).walk word) = _ ↔ _
  rw [Table.tokenType_walk_flattened h.movesWithin, h.trim.bind_tokenType_run_eq_some_iff,
    h.decides]
  simp only [Option.some.injEq]

/-- After a word that no rule matches the table has no token type. -/
theorem tokenType_walk_eq_none_iff (h : Staged set lexer) {word : List Char} :
    lexer.scanner.table.tokenType (lexer.scanner.table.walk word) = none ↔
      ∀ rule ∈ set.rules, ¬ rule.Matches word :=
  RuleSet.eq_none_iff_of_wins fun _ => h.tokenType_walk_eq_some_iff

/-- The lexeme at the start of a text is the longest part that a rule matches, with the token type
of the rule that wins it. -/
theorem longest_eq_some_iff (h : Staged set lexer) {lexeme : Lexeme} :
    lexer.scanner.longest (lexeme.chars ++ lexeme.rest) = some lexeme ↔
      lexeme.chars ≠ [] ∧
        (∃ rule, set.Wins lexeme.chars rule ∧ rule.tokenType = lexeme.tokenType) ∧
        ∀ front back, front ++ back = lexeme.chars ++ lexeme.rest →
          lexeme.chars.length < front.length → ∀ rule ∈ set.rules, ¬ rule.Matches front := by
  rw [Scanner.longest, Table.longest_eq_some_iff]
  constructor
  · intro hlongest
    refine ⟨hlongest.ne_nil, h.tokenType_walk_eq_some_iff.1 hlongest.tokenType_eq, ?_⟩
    intro front back happend hlength
    have hnone := hlongest.tokenType_eq_none front back happend hlength
    exact h.tokenType_walk_eq_none_iff.1 hnone
  · rintro ⟨hne, hwins, hmaximal⟩
    refine ⟨hne, rfl, h.tokenType_walk_eq_some_iff.2 hwins, ?_⟩
    intro front back happend hlength
    exact h.tokenType_walk_eq_none_iff.2 (hmaximal front back happend hlength)

/-- A text starts with a lexeme exactly if a rule matches some part at its start. -/
theorem exists_longest_iff (h : Staged set lexer) {text : List Char} :
    (∃ lexeme, lexer.scanner.longest text = some lexeme) ↔
      ∃ front back, text = front ++ back ∧ front ≠ [] ∧ ∃ rule ∈ set.rules, rule.Matches front := by
  constructor
  · rintro ⟨lexeme, hlexeme⟩
    obtain ⟨_, hparts⟩ := Table.longest_append hlexeme
    rw [← hparts] at hlexeme
    obtain ⟨hne, ⟨rule, hrule, _⟩, _⟩ := h.longest_eq_some_iff.1 hlexeme
    exact ⟨lexeme.chars, lexeme.rest, hparts.symm, hne, rule, hrule.1, hrule.2.1⟩
  · rintro ⟨front, back, rfl, hne, rule, hrule, hmatches⟩
    cases hlongest : lexer.scanner.longest (front ++ back) with
    | some lexeme => exact ⟨lexeme, rfl⟩
    | none =>
      have hnone := Table.longest_eq_none_iff.1 hlongest front back rfl hne
      exact absurd hmatches (h.tokenType_walk_eq_none_iff.1 hnone rule hrule)

end Staged

/-- At an offset there is a match exactly if the offset is a position in the text and some rule
matches a part of the text that starts there and is not empty. The match is the longest such part,
and its token type is that of the first rule that matches it. -/
theorem matchAt_longest (h : Lexer.ofRules set = .ok lexer) (input : String) (start : Nat) :
    ((lexer.scanner.matchAt input start).isSome = true ↔
      ∃ before rest, input.toList = before ++ rest ∧ start = Text.byteLength before ∧
        ∃ front back, rest = front ++ back ∧ front ≠ [] ∧
          ∃ rule ∈ set.rules, rule.Matches front) ∧
    ∀ found, lexer.scanner.matchAt input start = some found →
      ∃ before chars rest, input.toList = before ++ (chars ++ rest) ∧
        start = Text.byteLength before ∧ found.start = start ∧
        found.stop = Text.byteLength (before ++ chars) ∧ found.text = String.ofList chars ∧
        chars ≠ [] ∧ (∃ rule, set.Wins chars rule ∧ rule.tokenType = found.tokenType) ∧
        ∀ front back, front ++ back = chars ++ rest → chars.length < front.length →
          ∀ rule ∈ set.rules, ¬ rule.Matches front := by
  have hstaged := staged_of_ofRules h
  constructor
  · rw [Option.isSome_iff_exists]
    constructor
    · rintro ⟨found, hfound⟩
      obtain ⟨before, lexeme, happend, hstart, hlexeme, _⟩ := Scanner.matchAt_eq_some_iff.1 hfound
      exact ⟨before, _, happend, hstart, hstaged.exists_longest_iff.1 ⟨lexeme, hlexeme⟩⟩
    · rintro ⟨before, rest, happend, hstart, hmatches⟩
      obtain ⟨lexeme, hlexeme⟩ := hstaged.exists_longest_iff.2 hmatches
      obtain ⟨_, hparts⟩ := Table.longest_append hlexeme
      rw [← hparts] at happend hlexeme
      exact ⟨_, Scanner.matchAt_eq_some_iff.2 ⟨before, lexeme, happend, hstart, hlexeme, rfl⟩⟩
  · intro found hfound
    obtain ⟨before, lexeme, happend, hstart, hlexeme, rfl⟩ := Scanner.matchAt_eq_some_iff.1 hfound
    obtain ⟨hne, hwins, hmaximal⟩ := hstaged.longest_eq_some_iff.1 hlexeme
    refine ⟨before, lexeme.chars, lexeme.rest, happend, hstart, rfl, ?_, rfl, hne, hwins, hmaximal⟩
    rw [Text.byteLength_append, hstart]

/-- Behind the first character of `xab` both rules match `ab`, which is longer than the match `a` of
the first one. The first rule wins it. -/
theorem matchAt_longest_xab : ∃ lexer,
    Lexer.ofRules ⟨[("ab?", ⟨"word"⟩), ("ab", ⟨"pair"⟩)]⟩ = .ok lexer ∧
      lexer.scanner.matchAt "xab" 1 = some ⟨⟨"word"⟩, "ab", 1, 3⟩ ∧
      ∃ rule, RuleSet.Wins ⟨[("ab?", ⟨"word"⟩), ("ab", ⟨"pair"⟩)]⟩ ['a', 'b'] rule ∧
        rule.tokenType = ⟨"word"⟩ := by
  have hmatch : (Lexer.ofRules ⟨[("ab?", ⟨"word"⟩), ("ab", ⟨"pair"⟩)]⟩).toOption.bind
      (fun lexer => lexer.scanner.matchAt "xab" 1) = some ⟨⟨"word"⟩, "ab", 1, 3⟩ := by
    decide +kernel
  obtain ⟨lexer, hlexer⟩ : ∃ lexer,
      Lexer.ofRules ⟨[("ab?", ⟨"word"⟩), ("ab", ⟨"pair"⟩)]⟩ = .ok lexer :=
    Checked.exists_eq_ok_iff.2 (by decide +kernel)
  rw [hlexer] at hmatch
  obtain ⟨_, chars, _, _, _, _, _, htext, _, hwins, _⟩ :=
    (matchAt_longest hlexer "xab" 1).2 _ hmatch
  have hchars : chars = ['a', 'b'] := by
    rw [← String.toList_ofList (l := chars), ← htext]
    rfl
  rw [hchars] at hwins
  exact ⟨lexer, hlexer, hmatch, hwins⟩

end Lexer

end LexGen
