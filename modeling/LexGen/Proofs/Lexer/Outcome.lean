import LexGen.Proofs.Lexer.Stages

/-!
# When there is a lexer

A rule set gives no lexer exactly if it is empty or if the pattern of some rule gives no automaton
by itself. The error then names the first such rule, and the cause is the pattern's own
(`Combined.ofRules_eq_malformed_iff`). With an automaton for all rules each later step goes through
(`Lexer.exists_staged`), so what these steps check of their input always holds
(`Lexer.outcome_ofRules`).
-/

namespace LexGen

/-- The pattern of the rule gives no automaton. -/
def Rule.Refused (rule : Rule) : Prop := ∃ cause, Nfa.compile rule.pattern = .error cause

theorem Rule.not_refused_iff {rule : Rule} :
    ¬ rule.Refused ↔ ∃ regex, Regex.parse rule.pattern = .ok regex := by
  rw [Refused, Nfa.compile]
  cases Regex.parse rule.pattern <;> simp [Except.map]

namespace Combined

variable {set : RuleSet}

theorem ofRules_eq_empty_iff : ofRules set = .error .emptyRuleSet ↔ set.rules = [] := by
  rw [ofRules_eq]
  split
  next hempty => exact iff_of_true rfl hempty
  next hempty =>
    refine iff_of_false ?_ hempty
    rw [Checked.map_eq_error_iff, Checked.mapM_eq_error_iff]
    rintro ⟨_, rule, _, _, hrule, _⟩
    obtain ⟨_, _, heq⟩ := Checked.mapError_eq_error_iff.1 hrule
    cases heq

/-- A rule set is refused for the pattern of its first rule whose pattern gives no automaton. -/
theorem ofRules_eq_malformed_iff {pattern : String} {cause : PatternError} :
    ofRules set = .error (.malformedPattern pattern cause) ↔
      ∃ rule, set.First Rule.Refused rule ∧ rule.pattern = pattern ∧
        Nfa.compile pattern = .error cause := by
  rw [ofRules_eq]
  split
  next hempty =>
    refine iff_of_false (by cases ·) ?_
    rintro ⟨rule, ⟨hrule, _⟩, _⟩
    rw [hempty] at hrule
    cases hrule
  next =>
    constructor
    · intro h
      obtain ⟨front, rule, back, hrules, hrule, hfront⟩ :=
        Checked.mapM_eq_error_iff.1 (Checked.map_eq_error_iff.1 h)
      obtain ⟨_, hparse, heq⟩ := Checked.mapError_eq_error_iff.1 hrule
      cases heq
      have hcompile : Nfa.compile rule.pattern = .error cause := Checked.map_eq_error_iff.2 hparse
      refine ⟨rule, RuleSet.first_iff.2 ⟨front, back, hrules, ⟨cause, hcompile⟩, ?_⟩, rfl, hcompile⟩
      intro earlier hearlier
      obtain ⟨regex, hregex⟩ := hfront earlier hearlier
      exact Rule.not_refused_iff.2 ⟨regex, Checked.mapError_eq_ok_iff.1 hregex⟩
    · rintro ⟨rule, hfirst, rfl, hcompile⟩
      obtain ⟨front, back, hrules, _, hfront⟩ := RuleSet.first_iff.1 hfirst
      apply Checked.map_eq_error_iff.2
      refine Checked.mapM_eq_error_iff.2 ⟨front, rule, back, hrules, ?_, ?_⟩
      · exact Checked.mapError_eq_error_iff.2 ⟨cause, Checked.map_eq_error_iff.1 hcompile, rfl⟩
      · intro earlier hearlier
        obtain ⟨regex, hregex⟩ := Rule.not_refused_iff.1 (hfront earlier hearlier)
        exact ⟨regex, Checked.mapError_eq_ok_iff.2 hregex⟩

theorem exists_malformed_iff :
    (∃ pattern cause, ofRules set = .error (.malformedPattern pattern cause)) ↔
      ∃ rule ∈ set.rules, rule.Refused := by
  simp only [ofRules_eq_malformed_iff, ← RuleSet.exists_first_iff]
  constructor
  · rintro ⟨_, _, rule, hrule, _⟩
    exact ⟨rule, hrule⟩
  · rintro ⟨rule, hrule⟩
    obtain ⟨cause, hcause⟩ := hrule.2.1
    exact ⟨rule.pattern, cause, rule, hrule, rfl, hcause⟩

/-- There is an automaton for the rules exactly if there are rules and none of them is refused. -/
theorem exists_eq_ok_iff : (∃ combined, ofRules set = .ok combined) ↔
    set.rules ≠ [] ∧ ∀ rule ∈ set.rules, ¬ rule.Refused := by
  have hmalformed := @exists_malformed_iff set
  rw [Ne, ← ofRules_eq_empty_iff]
  cases hrules : ofRules set with
  | ok combined =>
    rw [hrules] at hmalformed
    refine iff_of_true ⟨combined, rfl⟩ ⟨(by cases ·), ?_⟩
    intro rule hrule hrefused
    obtain ⟨_, _, h⟩ := hmalformed.2 ⟨rule, hrule, hrefused⟩
    cases h
  | error error =>
    refine iff_of_false (fun ⟨_, h⟩ => by cases h) ?_
    rintro ⟨hne, hrefused⟩
    cases error with
    | emptyRuleSet => exact hne rfl
    | malformedPattern pattern cause =>
      obtain ⟨rule, hrule, h⟩ := hmalformed.1 ⟨pattern, cause, hrules⟩
      exact hrefused rule hrule h

end Combined

namespace Lexer

variable {set : RuleSet}

/-- The rules are the only reason for an error. -/
theorem ofRules_eq_error_iff {cause : LexerError} : ofRules set = .error cause ↔
    ∃ error, Combined.ofRules set = .error error ∧ .rules error = cause := by
  cases hcombined : Combined.ofRules set with
  | ok combined =>
    obtain ⟨lexer, hlexer, _⟩ := exists_staged hcombined
    rw [hlexer]
    constructor
    · intro h
      cases h
    · rintro ⟨_, h, _⟩
      cases h
  | error error =>
    have hlexer : ofRules set = .error (.rules error) := by
      rw [ofRules, hcombined]
      rfl
    rw [hlexer]
    simp

theorem exists_eq_ok_iff : (∃ lexer, ofRules set = .ok lexer) ↔
    ∃ combined, Combined.ofRules set = .ok combined := by
  constructor
  · rintro ⟨lexer, hlexer⟩
    exact ⟨lexer.combined, (staged_of_ofRules hlexer).combined_eq⟩
  · rintro ⟨combined, hcombined⟩
    obtain ⟨lexer, hlexer, _⟩ := exists_staged hcombined
    exact ⟨lexer, hlexer⟩

/-- What a rule set gives: one of two errors or a lexer. -/
structure Outcome (set : RuleSet) : Prop where
  empty_iff : ofRules set = .error (.rules .emptyRuleSet) ↔ set.rules = []
  malformed_iff : ∀ pattern cause,
    ofRules set = .error (.rules (.malformedPattern pattern cause)) ↔
      ∃ rule, set.First Rule.Refused rule ∧ rule.pattern = pattern ∧
        Nfa.compile pattern = .error cause
  exists_malformed_iff :
    (∃ pattern cause, ofRules set = .error (.rules (.malformedPattern pattern cause))) ↔
      ∃ rule ∈ set.rules, rule.Refused
  exists_lexer_iff : (∃ lexer, ofRules set = .ok lexer) ↔
    set.rules ≠ [] ∧ ∀ rule ∈ set.rules, ¬ rule.Refused
  no_fault : ∀ fault, ofRules set ≠ .error (.fault fault)
  /-- Once there is an automaton for the rules, what the later steps ask for holds. -/
  exists_steps : ∀ combined, Combined.ofRules set = .ok combined →
    ∃ lexer, ofRules set = .ok lexer ∧ lexer.combined = combined ∧ Steps set lexer

/-- A rule set gives an error exactly if it is empty or some rule is refused, and never a fault. -/
theorem outcome_ofRules (set : RuleSet) : Outcome set where
  empty_iff := by
    simp [ofRules_eq_error_iff, Combined.ofRules_eq_empty_iff]
  malformed_iff pattern cause := by
    simp [ofRules_eq_error_iff, Combined.ofRules_eq_malformed_iff]
  exists_malformed_iff := by
    simp [ofRules_eq_error_iff, Combined.exists_malformed_iff]
  exists_lexer_iff := exists_eq_ok_iff.trans Combined.exists_eq_ok_iff
  no_fault fault h := by
    obtain ⟨_, _, heq⟩ := ofRules_eq_error_iff.1 h
    cases heq
  exists_steps combined hcombined := by
    obtain ⟨lexer, hlexer, hstaged⟩ := exists_staged hcombined
    have hsame : lexer.combined = combined := by
      have heq := hstaged.combined_eq
      rw [hcombined] at heq
      exact (Except.ok.inj heq).symm
    exact ⟨lexer, hlexer, hsame, hstaged.toSteps⟩

/-- Brackets without a partner and written concatenation marks: the alphabet of the rules is that of
their automaton. Of two rules that are refused, the first one is named. -/
theorem outcome_ofRules_stray_brackets :
    (∃ lexer, ofRules ⟨[("a]·[b-c]", ⟨"x"⟩), ("d[", ⟨"y"⟩)]⟩ = .ok lexer ∧
      lexer.alphabet.symbols = ['[', ']', 'a', 'b', 'c', 'd'] ∧
      ∀ c, c ∈ lexer.alphabet ↔ c ∈ lexer.combined.nfa.literals) ∧
    ofRules ⟨[("a]·[b-c]", ⟨"x"⟩), ("d[]", ⟨"y"⟩), ("(", ⟨"z"⟩)]⟩ =
      .error (.rules (.malformedPattern "d[]" (.emptyClass ""))) := by
  constructor
  · obtain ⟨combined, hcombined⟩ : ∃ combined,
        Combined.ofRules ⟨[("a]·[b-c]", ⟨"x"⟩), ("d[", ⟨"y"⟩)]⟩ = .ok combined :=
      Checked.exists_eq_ok_iff.2 (by rfl)
    obtain ⟨lexer, hlexer, _, hsteps⟩ := (outcome_ofRules _).exists_steps combined hcombined
    have hsymbols : (RuleSet.alphabet ⟨[("a]·[b-c]", ⟨"x"⟩), ("d[", ⟨"y"⟩)]⟩).toOption.map
        Alphabet.symbols = some ['[', ']', 'a', 'b', 'c', 'd'] := by rfl
    rw [hsteps.alphabet_eq] at hsymbols
    exact ⟨lexer, hlexer, Option.some.inj hsymbols, hsteps.mem_alphabet_iff⟩
  · have hfirst : RuleSet.First ⟨[("a]·[b-c]", ⟨"x"⟩), ("d[]", ⟨"y"⟩), ("(", ⟨"z"⟩)]⟩ Rule.Refused
        ⟨"d[]", ⟨"y"⟩, 1⟩ := by
      refine RuleSet.first_iff.2 ⟨[⟨"a]·[b-c]", ⟨"x"⟩, 0⟩], [⟨"(", ⟨"z"⟩, 2⟩], rfl, ⟨_, rfl⟩, ?_⟩
      rintro earlier hearlier ⟨_, hcause⟩
      rw [List.mem_singleton.1 hearlier] at hcause
      cases hcause
    exact ((outcome_ofRules _).malformed_iff _ _).2 ⟨_, hfirst, rfl, rfl⟩

end Lexer

end LexGen
