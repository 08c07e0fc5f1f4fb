import LexGen.Lexer
import LexGen.Proofs.Dfa.Uniqueness
import LexGen.Proofs.Table.Flattened

/-!
# The steps from rules to a lexer

The deterministic automaton of a rule set resolves which rule wins a word
(`Combined.Built.resolves_subsetDfa`), and merging states keeps the token type of the winner
(`Dfa.Decides.merged`). `Lexer.Staged` says what the steps come to: a trim automaton with separated
states that assigns to each word the token type of the rule that wins, and the table of this
automaton. Every rule set with one automaton for all rules has such a lexer (`Lexer.exists_staged`),
so the later steps have no faults, and there is no other one (`Lexer.staged_of_ofRules`).
-/

namespace LexGen

/-- What is assigned to a word is the token type of the rule that wins the word. -/
def Dfa.Decides (dfa : Dfa) (set : RuleSet) : Prop :=
  ∀ word verdict, dfa.assigned dfa.start word = some verdict ↔
    ∃ rule, set.Wins word rule ∧ some rule.tokenType = verdict

/-- The state after a word has the tag of the rule that wins the word. -/
def Dfa.Resolves (dfa : Dfa) (set : RuleSet) : Prop :=
  ∀ word tag, (dfa.run word).bind dfa.tag? = some tag ↔
    ∃ rule, set.Wins word rule ∧ rule.tag = tag

/-- Where the tags say which rule wins, the verdicts say its token type. -/
theorem Dfa.Resolves.decides {dfa : Dfa} {set : RuleSet} (h : dfa.Resolves set)
    (htagged : dfa.Tagged) : dfa.Decides set := by
  intro word verdict
  have hassigned : dfa.assigned dfa.start word =
      ((dfa.run word).bind dfa.tag?).map fun tag => some tag.tokenType := by
    rw [assigned, ← run, Option.map_bind]
    congr 1
    funext state
    exact htagged.verdict_eq state
  rw [hassigned, Option.map_eq_some_iff]
  constructor
  · rintro ⟨tag, htag, rfl⟩
    obtain ⟨rule, hrule, rfl⟩ := (h word tag).1 htag
    exact ⟨rule, hrule, rfl⟩
  · rintro ⟨rule, hrule, rfl⟩
    exact ⟨rule.tag, (h word rule.tag).2 ⟨rule, hrule, rfl⟩, rfl⟩

namespace Combined.Built

variable {set : RuleSet} {regexes : List Regex} {combined : Combined} {alphabet : Alphabet}

/-- The tags of the states after a word are those of the rules that match it. -/
theorem mem_tags_iff (h : Built set regexes combined) {word : List Char} {states : StateSet}
    (hrun : combined.nfa.run word = some states) (tag : RuleTag) :
    tag ∈ states.members.filterMap combined.tag? ↔
      ∃ rule ∈ set.rules, rule.Matches word ∧ rule.tag = tag := by
  rw [← h.path_and_tag_iff, List.mem_filterMap]
  simp only [StateSet.mem_members, Nfa.mem_of_run hrun]

/-- The deterministic automaton resolves which rule wins. -/
theorem resolves_subsetDfa (h : Built set regexes combined)
    (hcover : ∀ c ∈ combined.nfa.literals, c ∈ alphabet) :
    (combined.nfa.subsetDfa combined.nfa.move? combined.tag? alphabet).Resolves set := by
  intro word tag
  cases hrun : (combined.nfa.subsetDfa combined.nfa.move? combined.tag? alphabet).run word with
  | none =>
    have hstuck := Nfa.run_eq_none_iff.1 ((Nfa.run_subsetDfa_eq_none_iff hcover).1 hrun)
    constructor
    · intro htag
      cases htag
    · rintro ⟨rule, hwins, _⟩
      obtain ⟨target, hpath, _⟩ := h.path_and_tag_iff.2 ⟨rule, hwins.1, hwins.2.1, rfl⟩
      exact absurd hpath (hstuck target)
  | some last =>
    obtain ⟨states, hstates, hlast⟩ := (Nfa.run_subsetDfa_eq_some_iff hcover).1 hrun
    rw [Option.bind_some, Nfa.tag?_subsetDfa hlast]
    exact RuleSet.best?_eq_some_iff (h.mem_tags_iff hstates)

theorem tagged_subsetDfa (h : Built set regexes combined) :
    (combined.nfa.subsetDfa combined.nfa.move? combined.tag? alphabet).Tagged := by
  apply Nfa.tagged_subsetDfa
  intro state
  rw [Bool.eq_iff_iff, h.isAccepting_iff, Option.isSome_iff_exists]

theorem trim_subsetDfa (h : Built set regexes combined)
    (hcover : ∀ c ∈ combined.nfa.literals, c ∈ alphabet) :
    (combined.nfa.subsetDfa combined.nfa.move? combined.tag? alphabet).Trim := by
  apply Nfa.trim_subsetDfa hcover h.live
  intro state tag htag
  exact h.isAccepting_iff.2 ⟨tag, htag⟩

end Combined.Built

namespace Dfa.Decides

variable {set : RuleSet} {dfa : Dfa} {alphabet : Alphabet}

theorem assigned_eq_none_iff (h : dfa.Decides set) {word : List Char} :
    dfa.assigned dfa.start word = none ↔ ∀ rule ∈ set.rules, ¬ rule.Matches word :=
  RuleSet.eq_none_iff_of_wins (h word)

/-- Merging the states of an automaton keeps what it decides. -/
theorem merged (h : dfa.Decides set) (hmoves : dfa.MovesWithin alphabet) :
    (dfa.merged alphabet).Decides set := by
  intro word verdict
  rw [← h word verdict]
  exact Eq.congr_left (assigned_merged hmoves dfa.start_lt word)

end Dfa.Decides

namespace Lexer

/-- The parts of the lexer are the results of the steps, and what the steps ask for holds: the
alphabet is that of the literals, no move is outside it, and exactly the states that accept have a
tag. -/
structure Steps (set : RuleSet) (lexer : Lexer) : Prop where
  combined_eq : Combined.ofRules set = .ok lexer.combined
  alphabet_eq : set.alphabet = .ok lexer.alphabet
  mem_alphabet_iff : ∀ c, c ∈ lexer.alphabet ↔ c ∈ lexer.combined.nfa.literals
  determinized_eq : Dfa.ofCombined lexer.combined lexer.alphabet = .ok lexer.determinized
  movesWithin_determinized : lexer.determinized.MovesWithin lexer.alphabet
  minimized_eq : lexer.determinized.minimize lexer.alphabet = .ok lexer.minimized
  movesWithin : lexer.minimized.MovesWithin lexer.alphabet
  tagged : lexer.minimized.Tagged
  table_eq : Table.ofDfa lexer.minimized lexer.alphabet = .ok lexer.scanner.table

namespace Steps

variable {set : RuleSet} {lexer : Lexer}

theorem mem_alphabet_of_mem_literals (h : Steps set lexer) :
    ∀ c ∈ lexer.combined.nfa.literals, c ∈ lexer.alphabet :=
  fun c hc => (h.mem_alphabet_iff c).2 hc

theorem determinized_eq_subsetDfa (h : Steps set lexer) : lexer.determinized =
    lexer.combined.nfa.subsetDfa lexer.combined.nfa.move? lexer.combined.tag? lexer.alphabet := by
  have heq : Dfa.ofCombined lexer.combined lexer.alphabet = .ok _ :=
    Nfa.determinize_eq_ok h.mem_alphabet_of_mem_literals
  rw [h.determinized_eq] at heq
  exact Except.ok.inj heq

theorem minimized_eq_merged (h : Steps set lexer) :
    lexer.minimized = lexer.determinized.merged lexer.alphabet := by
  have heq := h.minimized_eq
  rw [Dfa.minimize_eq_ok h.movesWithin_determinized] at heq
  exact (Except.ok.inj heq).symm

/-- The deterministic automaton on the way to a lexer is trim. -/
theorem trim_determinized (h : Steps set lexer) : lexer.determinized.Trim := by
  obtain ⟨_, hbuilt⟩ := Combined.exists_built_of_ofRules h.combined_eq
  rw [h.determinized_eq_subsetDfa]
  exact hbuilt.trim_subsetDfa h.mem_alphabet_of_mem_literals

/-- The deterministic automaton on the way to a lexer resolves which rule wins. -/
theorem resolves_determinized (h : Steps set lexer) : lexer.determinized.Resolves set := by
  obtain ⟨_, hbuilt⟩ := Combined.exists_built_of_ofRules h.combined_eq
  rw [h.determinized_eq_subsetDfa]
  exact hbuilt.resolves_subsetDfa h.mem_alphabet_of_mem_literals

end Steps

/-- What the steps from a rule set to its lexer come to. -/
structure Staged (set : RuleSet) (lexer : Lexer) : Prop extends Steps set lexer where
  trim : lexer.minimized.Trim
  separated : lexer.minimized.Separated
  decides : lexer.minimized.Decides set
  scanner_eq : lexer.scanner = .ofTable (.flattened lexer.minimized lexer.alphabet)

/-- The automaton of a rule set goes through all later steps. -/
theorem exists_staged {set : RuleSet} {combined : Combined}
    (h : Combined.ofRules set = .ok combined) :
    ∃ lexer, ofRules set = .ok lexer ∧ Staged set lexer := by
  obtain ⟨regexes, hbuilt⟩ := Combined.exists_built_of_ofRules h
  obtain ⟨alphabet, halphabet, hliterals⟩ := hbuilt.exists_alphabet
  have hcover : ∀ c ∈ combined.nfa.literals, c ∈ alphabet := fun c hc => (hliterals c).2 hc
  have hdeterminize : Dfa.ofCombined combined alphabet = .ok _ := Nfa.determinize_eq_ok hcover
  have hmoves : (combined.nfa.subsetDfa combined.nfa.move? combined.tag? alphabet).MovesWithin
      alphabet := Nfa.movesWithin_subsetDfa
  have htrim := hbuilt.trim_subsetDfa hcover
  have hresolves := hbuilt.resolves_subsetDfa hcover
  have htagged : (combined.nfa.subsetDfa combined.nfa.move? combined.tag? alphabet).Tagged :=
    hbuilt.tagged_subsetDfa
  -- From here on only these facts about the deterministic automaton are needed.
  generalize combined.nfa.subsetDfa combined.nfa.move? combined.tag? alphabet = determinized
    at hdeterminize hmoves htrim hresolves htagged
  have hmerged := (hresolves.decides htagged).merged hmoves
  have hwithin : (determinized.merged alphabet).MovesWithin alphabet := Dfa.movesWithin_merged
  have hminimize := Dfa.minimize_eq_ok hmoves
  have htable := Table.ofDfa_eq_ok hwithin htagged.merged
  refine ⟨⟨set, alphabet, combined, determinized, determinized.merged alphabet,
    .ofTable (.flattened (determinized.merged alphabet) alphabet)⟩, ?_, ?_⟩
  · unfold ofRules
    simp only [Checked.bind_eq_ok_iff, Checked.mapError_eq_ok_iff]
    exact ⟨_, h, _, halphabet, _, hdeterminize, _, hminimize, _, htable, rfl⟩
  · refine ⟨⟨h, halphabet, hliterals, hdeterminize, hmoves, hminimize, hwithin, htagged.merged,
      htable⟩, htrim.merged hmoves, ?_, hmerged, rfl⟩
    intro a b ha hb hsame
    by_contra hne
    obtain ⟨word, hword⟩ := htrim.separated_merged hmoves ha hb hne
    exact hword (hsame word)

theorem staged_of_ofRules {set : RuleSet} {lexer : Lexer} (h : ofRules set = .ok lexer) :
    Staged set lexer := by
  obtain ⟨combined, hcombined, _⟩ := Checked.bind_eq_ok_iff.1 h
  obtain ⟨other, hother, hstaged⟩ := exists_staged (Checked.mapError_eq_ok_iff.1 hcombined)
  rw [h] at hother
  cases hother
  exact hstaged

end Lexer

end LexGen
