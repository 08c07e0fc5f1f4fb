import LexGen.Command.Run
import LexGen.Proofs.Lexer.LongestMatch
import LexGen.Proofs.Rule.Sheet
import LexGen.Proofs.Scan.Fragmentwise
import LexGen.Proofs.Scan.Rejoined

/-!
# Tokens on lines

The text format escapes nothing, and still the lines show which tokens they stand for
(`Command.tokensOnLines?_printTokens`). A value is a part of a fragment and holds no blank, so the
first space of a line is the one that divides value and name, whatever quotes and commas stand
before it. A name comes from a line of the rule text, so it holds no line feed, and each line feed
ends a token. Thus different lists of tokens are printed differently, be they from the same rules or
not (`Command.printTokens_decodable`).
-/

namespace LexGen

/-- The value holds no blank, and the name is on one line. -/
structure Token.FitsLine (token : Token) : Prop where
  value : ∀ c ∈ token.value.toList, Text.isBlank c = false
  name : '\n' ∉ token.tokenType.name.toList

namespace Command

/-! ## Reading lines back -/

/-- The token that a line shows. Its value stands behind the first character and before the two that
end at the first space, and its name behind that space. -/
def tokenOnLine? (line : List Char) : Option Token :=
  (Text.cut? ' ' line).map fun (front, name) =>
    ⟨⟨String.ofList name⟩, String.ofList (front.drop 1).dropLast.dropLast⟩

/-- The tokens that the lines of a text show. Behind the last line end there is no token. -/
def tokensOnLines? (text : String) : Option (List Token) :=
  (Text.lines text.toList).dropLast.mapM tokenOnLine?

/-- A line without its end. -/
def tokenChars (token : Token) : List Char :=
  '\'' :: token.value.toList ++ '\'' :: ',' :: ' ' :: token.tokenType.name.toList

theorem toList_tokenLine (token : Token) :
    (tokenLine token).toList = tokenChars token ++ ['\n'] := by
  simp [tokenLine, tokenChars]

theorem not_mem_tokenChars {token : Token} (h : token.FitsLine) : '\n' ∉ tokenChars token := by
  have hvalue : '\n' ∉ token.value.toList := by
    intro hmem
    have hblank := h.value _ hmem
    cases hblank
  simp [tokenChars, hvalue, h.name]

theorem tokenOnLine?_tokenChars {token : Token} (h : token.FitsLine) :
    tokenOnLine? (tokenChars token) = some token := by
  have hspace : ' ' ∉ '\'' :: token.value.toList ++ ['\'', ','] := by
    have hvalue : ' ' ∉ token.value.toList := by
      intro hmem
      have hblank := h.value _ hmem
      cases hblank
    simp [hvalue]
  have hline : tokenChars token =
      ('\'' :: token.value.toList ++ ['\'', ',']) ++ ' ' :: token.tokenType.name.toList := by
    simp [tokenChars]
  have hvalue : (token.value.toList ++ ['\'', ',']).dropLast.dropLast = token.value.toList := by
    simp
  rw [tokenOnLine?, hline, Text.cut?_append_cons hspace, Option.map_some]
  simp only [List.cons_append, List.drop_succ_cons, List.drop_zero, hvalue, String.ofList_toList]

theorem toList_printTokens (tokens : List Token) :
    (printTokens .text tokens).toList = (tokens.map tokenChars).flatMap (· ++ ['\n']) := by
  have hjoin : printTokens .text tokens = String.join (tokens.map tokenLine) := rfl
  rw [hjoin, String.toList_join, List.flatMap_map, List.flatMap_map]
  exact List.flatMap_congr fun token _ => toList_tokenLine token

theorem mapM_tokenOnLine? {tokens : List Token} (h : ∀ token ∈ tokens, token.FitsLine) :
    (tokens.map tokenChars).mapM tokenOnLine? = some tokens := by
  induction tokens with
  | nil => rfl
  | cons token rest ih =>
    obtain ⟨htoken, hrest⟩ := List.forall_mem_cons.1 h
    rw [List.map_cons, List.mapM_cons, tokenOnLine?_tokenChars htoken, ih hrest]
    rfl

/-- Tokens that fit on lines are read back from the lines. -/
theorem tokensOnLines?_printTokens {tokens : List Token} (h : ∀ token ∈ tokens, token.FitsLine) :
    tokensOnLines? (printTokens .text tokens) = some tokens := by
  have hnewline : ∀ line ∈ tokens.map tokenChars, '\n' ∉ line := by
    rw [List.forall_mem_map]
    exact fun token htoken => not_mem_tokenChars (h token htoken)
  have hlines := Text.lines_flatMap_append hnewline []
  rw [List.append_nil, ← toList_printTokens] at hlines
  have hlast : Text.lines [] = [[]] := rfl
  rw [tokensOnLines?, hlines, hlast, List.dropLast_concat, mapM_tokenOnLine? h]

end Command

/-! ## Printed tokens fit on lines -/

/-- A name in a rule text is on one line. -/
theorem RuleSet.not_mem_name_of_ofText {text : String} {set : RuleSet} (h : ofText text = .ok set)
    {rule : Rule} (hrule : rule ∈ set.rules) : '\n' ∉ rule.tokenType.name.toList := by
  obtain ⟨sheet, rfl, rfl⟩ := ofText_eq_ok_iff.1 h
  obtain ⟨⟨entry, priority⟩, hentry, rfl⟩ := List.mem_map.1 hrule
  obtain ⟨written, _, hwritten⟩ := List.mem_map.1 (List.fst_mem_of_mem_zipIdx hentry)
  cases hwritten
  exact written.trimmed_name.newline

namespace Scanner

variable {scanner : Scanner}

/-- The tokens of the fragments that can be scanned can stand alone. -/
theorem stands_of_tokenizeSkipping {text : String} {token : Token}
    (h : token ∈ (scanner.tokenizeSkipping text).1) : scanner.table.Stands token := by
  rw [tokenizeSkipping, tokenizeFragmentsSkipping_eq] at h
  obtain ⟨fragment, hfragment, htoken⟩ := List.mem_flatMap.1 h
  have hblank := (Text.isFragment_of_mem_fragments hfragment).2
  rw [tokens] at htoken
  split at htoken
  next found hfound => exact stands_of_scan hblank hfound token htoken
  next => cases htoken

end Scanner

namespace Lexer

variable {set : RuleSet} {lexer : Lexer}

/-- A token that can stand alone has the token type of a rule. -/
theorem Staged.exists_rule_of_stands (h : Staged set lexer) {token : Token}
    (htoken : lexer.scanner.table.Stands token) :
    ∃ rule ∈ set.rules, rule.tokenType = token.tokenType := by
  have hlongest : lexer.scanner.longest (token.value.toList ++ []) =
      some ⟨token.tokenType, token.value.toList, []⟩ := by
    rw [List.append_nil]
    exact htoken.longest_eq
  obtain ⟨_, ⟨rule, hwins, htype⟩, _⟩ :=
    (@longest_eq_some_iff _ _ h ⟨token.tokenType, token.value.toList, []⟩).1 hlongest
  exact ⟨rule, hwins.1, htype⟩

/-- The tokens are those that the rules of some rule text give for some input under some policy,
with or without stopping at the first fragment that cannot be scanned. -/
def Gives (tokens : List Token) : Prop :=
  ∃ (text input : String) (set : RuleSet) (lexer : Lexer) (policy : TrailingPolicy),
    RuleSet.ofText text = .ok set ∧ Lexer.ofRules set = .ok lexer ∧
      ((lexer.withPolicy policy).scanner.tokenize input = .ok tokens ∨
        ((lexer.withPolicy policy).scanner.tokenizeSkipping input).1 = tokens)

theorem Gives.fitsLine {tokens : List Token} (h : Gives tokens) :
    ∀ token ∈ tokens, token.FitsLine := by
  obtain ⟨text, input, set, lexer, policy, htext, hlexer, htokens⟩ := h
  intro token htoken
  have hstands : lexer.scanner.table.Stands token := by
    rcases htokens with htokenize | rfl
    · exact Scanner.stands_of_tokenize htokenize token htoken
    · exact @Scanner.stands_of_tokenizeSkipping (lexer.withPolicy policy).scanner _ _ htoken
  obtain ⟨rule, hrule, htype⟩ := (staged_of_ofRules hlexer).exists_rule_of_stands hstands
  exact ⟨hstands.isFragment.2, htype ▸ RuleSet.not_mem_name_of_ofText htext hrule⟩

end Lexer

namespace Command

/-- What is printed of tokens can be read back, so the printed lines determine the tokens, whatever
rules and inputs they come from. -/
theorem printTokens_decodable :
    (∀ tokens, Lexer.Gives tokens → tokensOnLines? (printTokens .text tokens) = some tokens) ∧
    ∀ first second, Lexer.Gives first → Lexer.Gives second →
      printTokens .text first = printTokens .text second → first = second := by
  have hread : ∀ tokens, Lexer.Gives tokens →
      tokensOnLines? (printTokens .text tokens) = some tokens :=
    fun tokens h => tokensOnLines?_printTokens h.fitsLine
  refine ⟨hread, ?_⟩
  intro first second hfirst hsecond hprint
  have hsame := hread first hfirst
  rw [hprint, hread second hsecond] at hsame
  exact (Option.some.inj hsame).symm

/-- The value of the first token and both names hold quotes, commas and spaces like those of the
format. -/
theorem printTokens_decodable_quotes :
    Lexer.Gives [⟨⟨"b', 'c"⟩, "',"⟩, ⟨⟨"é', d"⟩, "a"⟩] ∧
      printTokens .text [⟨⟨"b', 'c"⟩, "',"⟩, ⟨⟨"é', d"⟩, "a"⟩] =
        "'',', b', 'c\n'a', é', d\n" ∧
      tokensOnLines? "'',', b', 'c\n'a', é', d\n" =
        some [⟨⟨"b', 'c"⟩, "',"⟩, ⟨⟨"é', d"⟩, "a"⟩] := by
  have hgives : Lexer.Gives [⟨⟨"b', 'c"⟩, "',"⟩, ⟨⟨"é', d"⟩, "a"⟩] := by
    have htext : RuleSet.ofText "',;b', 'c\na;é', d\n" =
        .ok ⟨[("',", ⟨"b', 'c"⟩), ("a", ⟨"é', d"⟩)]⟩ := rfl
    have htokens : (Lexer.ofRules ⟨[("',", ⟨"b', 'c"⟩), ("a", ⟨"é', d"⟩)]⟩).toOption.bind
        (fun lexer => ((lexer.withPolicy .rescan).scanner.tokenize "',a").toOption) =
          some [⟨⟨"b', 'c"⟩, "',"⟩, ⟨⟨"é', d"⟩, "a"⟩] := by decide +kernel
    obtain ⟨lexer, hlexer, htokens⟩ := Option.bind_eq_some_iff.1 htokens
    exact ⟨_, "',a", _, lexer, .rescan, htext, Checked.toOption_eq_some_iff.1 hlexer,
      .inl (Checked.toOption_eq_some_iff.1 htokens)⟩
  have hprint : printTokens .text [⟨⟨"b', 'c"⟩, "',"⟩, ⟨⟨"é', d"⟩, "a"⟩] =
      "'',', b', 'c\n'a', é', d\n" := by decide
  have hread := printTokens_decodable.1 _ hgives
  rw [hprint] at hread
  exact ⟨hgives, hprint, hread⟩

end Command

end LexGen
