import LexGen.Lexer
import LexGen.Proofs.Checked
import LexGen.Proofs.Scan.Longest

/-!
# Tokens by themselves

What a scan cuts out of a fragment is the longest match of itself: a longer part of it there is not,
and the walk over it is the one that has found it (`Table.longest_chars`). So each token of a text
is a fragment that is matched as a whole (`Scanner.stands_of_tokenize`), and such a fragment is
scanned to its token whatever becomes of characters that are left over, since none are
(`Scanner.scan_of_stands`). Tokens with a space between any two of them are tokenized to themselves
(`Scanner.tokenize_rejoined`).
-/

namespace LexGen

namespace Table

variable {table : Table}

/-- A longest part of a text is the longest part of itself. -/
theorem IsLongest.alone {state : Fin table.states} {text : List Char} {found : Lexeme}
    (h : table.IsLongest state text found) :
    table.IsLongest state found.chars { found with rest := [] } where
  ne_nil := h.ne_nil
  append_eq := List.append_nil _
  tokenType_eq := h.tokenType_eq
  tokenType_eq_none front back happend hlength := by
    have hle : front.length ≤ found.chars.length := by
      rw [← happend, List.length_append]
      exact Nat.le_add_right ..
    exact absurd hlength (Nat.not_lt.2 hle)

theorem longest_chars {state : Fin table.states} {text : List Char} {found : Lexeme}
    (h : table.longest state text = some found) :
    table.longest state found.chars = some { found with rest := [] } :=
  longest_eq_some_iff.2 (longest_eq_some_iff.1 h).alone

/-- The token can stand alone: its value is a fragment, and the token is the match of all of it. -/
structure Stands (table : Table) (token : Token) : Prop where
  isFragment : Text.IsFragment token.value.toList
  longest_eq : table.longest table.start token.value.toList =
    some ⟨token.tokenType, token.value.toList, []⟩

/-- A match in a text without blanks can stand alone. -/
theorem stands_of_longest {text : List Char} {found : Lexeme}
    (hblank : ∀ c ∈ text, Text.isBlank c = false)
    (h : table.longest table.start text = some found) : table.Stands found.token := by
  obtain ⟨hne, happend⟩ := longest_append h
  have hvalue : found.token.value.toList = found.chars := String.toList_ofList
  constructor
  · rw [hvalue]
    refine ⟨hne, ?_⟩
    intro c hc
    apply hblank
    rw [← happend]
    exact List.mem_append_left _ hc
  · rw [hvalue]
    exact longest_chars h

end Table

namespace Scanner

variable {scanner : Scanner}

/-- The matches that a text without blanks is cut into can stand alone. -/
theorem stands_of_segment {text : List Char} {tokens : List Token}
    (hblank : ∀ c ∈ text, Text.isBlank c = false) (h : scanner.segment text = .ok tokens) :
    ∀ token ∈ tokens, scanner.table.Stands token := by
  fun_induction scanner.segment text generalizing tokens with
  | case1 =>
    cases h
    simp
  | case2 => cases h
  | case3 text _ found hfound ih =>
    obtain ⟨others, hothers, rfl⟩ := Checked.map_eq_ok_iff.1 h
    obtain ⟨_, happend⟩ := Table.longest_append hfound
    have hrest : ∀ c ∈ found.rest, Text.isBlank c = false := by
      intro c hc
      apply hblank
      rw [← happend]
      exact List.mem_append_right _ hc
    exact List.forall_mem_cons.2 ⟨Table.stands_of_longest hblank hfound, ih hrest hothers⟩

/-- The tokens of a fragment can stand alone, whatever the policy. -/
theorem stands_of_scan {fragment : List Char} {tokens : List Token}
    (hblank : ∀ c ∈ fragment, Text.isBlank c = false) (h : scanner.scan fragment = .ok tokens) :
    ∀ token ∈ tokens, scanner.table.Stands token := by
  by_cases hne : fragment = []
  · subst hne
    cases h
    simp
  cases hlongest : scanner.longest fragment with
  | none =>
    rw [scan_of_longest_eq_none hne hlongest] at h
    cases h
  | some found =>
    have hfound := Table.stands_of_longest hblank hlongest
    rw [scan_of_longest_eq_some hlongest] at h
    split at h
    next =>
      cases h
      simpa using hfound
    next =>
      cases hpolicy : scanner.policy with
      | drop =>
        rw [hpolicy] at h
        cases h
        simpa using hfound
      | reject =>
        rw [hpolicy] at h
        cases h
      | rescan =>
        rw [hpolicy] at h
        apply stands_of_segment hblank
        rw [segment_of_longest_eq_some hlongest]
        exact h

theorem stands_of_tokenizeFragments {fragments : List (List Char)} {tokens : List Token}
    (hblank : ∀ fragment ∈ fragments, ∀ c ∈ fragment, Text.isBlank c = false)
    (h : scanner.tokenizeFragments fragments = .ok tokens) :
    ∀ token ∈ tokens, scanner.table.Stands token := by
  induction fragments generalizing tokens with
  | nil =>
    cases h
    simp
  | cons fragment rest ih =>
    obtain ⟨hfragment, hrest⟩ := List.forall_mem_cons.1 hblank
    rw [tokenizeFragments] at h
    obtain ⟨found, hfound, h⟩ := Checked.bind_eq_ok_iff.1 h
    obtain ⟨others, hothers, h⟩ := Checked.bind_eq_ok_iff.1 h
    cases h
    exact List.forall_mem_append.2 ⟨stands_of_scan hfragment hfound, ih hrest hothers⟩

/-- The tokens of a text can stand alone. -/
theorem stands_of_tokenize {text : String} {tokens : List Token}
    (h : scanner.tokenize text = .ok tokens) : ∀ token ∈ tokens, scanner.table.Stands token :=
  stands_of_tokenizeFragments (fun _ hf => (Text.isFragment_of_mem_fragments hf).2) h

/-- A token that can stand alone is what its value is scanned to. -/
theorem scan_of_stands {token : Token} (h : scanner.table.Stands token) :
    scanner.scan token.value.toList = .ok [token] := by
  have hlongest : scanner.longest token.value.toList =
      some ⟨token.tokenType, token.value.toList, []⟩ := h.longest_eq
  have htoken : Lexeme.token ⟨token.tokenType, token.value.toList, []⟩ = token := by
    rw [Lexeme.token, String.ofList_toList]
  rw [scan_of_longest_eq_some hlongest, if_pos rfl, htoken]

theorem tokenizeFragments_of_stands {tokens : List Token}
    (h : ∀ token ∈ tokens, scanner.table.Stands token) :
    scanner.tokenizeFragments (tokens.map (·.value.toList)) = .ok tokens := by
  induction tokens with
  | nil => rfl
  | cons token rest ih =>
    obtain ⟨htoken, hrest⟩ := List.forall_mem_cons.1 h
    rw [List.map_cons, tokenizeFragments, scan_of_stands htoken, ih hrest]
    rfl

/-- Tokens that can stand alone are tokenized to themselves when a space stands between any two. -/
theorem tokenize_intercalate_of_stands {tokens : List Token}
    (h : ∀ token ∈ tokens, scanner.table.Stands token) :
    scanner.tokenize (" ".intercalate (tokens.map (·.value))) = .ok tokens := by
  have hspace : " ".toList = [' '] := rfl
  have hparts : ∀ part ∈ tokens.map (·.value.toList), Text.IsFragment part := by
    intro part hpart
    obtain ⟨token, htoken, rfl⟩ := List.mem_map.1 hpart
    exact (h token htoken).isFragment
  have hblank : Text.isBlank ' ' = true := rfl
  have hvalues : (tokens.map (·.value)).map String.toList = tokens.map (·.value.toList) :=
    List.map_map
  rw [tokenize, String.toList_intercalate, hspace, hvalues,
    Text.fragments_intercalate hblank hparts, tokenizeFragments_of_stands h]

/-- The values of the tokens of a text are not empty and hold no blank, and joined by single spaces
they are tokenized to the same tokens, whatever the two policies. -/
theorem tokenize_rejoined (table : Table) (before after : TrailingPolicy) (text : String)
    (tokens : List Token) (h : (Scanner.mk table before).tokenize text = .ok tokens) :
    (∀ token ∈ tokens, token.value ≠ "" ∧ ∀ c ∈ token.value.toList, Text.isBlank c = false) ∧
      (Scanner.mk table after).tokenize (" ".intercalate (tokens.map (·.value))) = .ok tokens := by
  have hstands := stands_of_tokenize h
  constructor
  · intro token htoken
    obtain ⟨hne, hblank⟩ := (hstands token htoken).isFragment
    refine ⟨?_, hblank⟩
    intro hempty
    rw [hempty] at hne
    exact hne rfl
  · exact tokenize_intercalate_of_stands hstands

/-- Of `abc` the match `ab` is kept, behind which `abcd` was attempted, and `c` is dropped. Joined
with the second token it leaves nothing over. -/
theorem tokenize_rejoined_dropped : ∃ table : Table,
    (Scanner.mk table .drop).tokenize "abc\tabcd" =
      .ok [⟨⟨"short"⟩, "ab"⟩, ⟨⟨"long"⟩, "abcd"⟩] ∧
    (Scanner.mk table .reject).tokenize "ab abcd" =
      .ok [⟨⟨"short"⟩, "ab"⟩, ⟨⟨"long"⟩, "abcd"⟩] := by
  have htokens : (Lexer.ofRules ⟨[("ab", ⟨"short"⟩), ("abcd", ⟨"long"⟩)]⟩).toOption.bind
      (fun lexer => ((Scanner.mk lexer.scanner.table .drop).tokenize "abc\tabcd").toOption) =
        some [⟨⟨"short"⟩, "ab"⟩, ⟨⟨"long"⟩, "abcd"⟩] := by decide +kernel
  obtain ⟨lexer, _, htokens⟩ := Option.bind_eq_some_iff.1 htokens
  have htokenize := Checked.toOption_eq_some_iff.1 htokens
  exact ⟨lexer.scanner.table, htokenize, (tokenize_rejoined _ .drop .reject _ _ htokenize).2⟩

end Scanner

end LexGen
