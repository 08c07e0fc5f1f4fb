import LexGen.Dfa.OfNfa
import LexGen.Proofs.Dfa.Moves
import LexGen.Proofs.Rule.Blocks
import LexGen.Proofs.Rule.Winner

/-!
# Automata built from rule sets

`Combined.Built` says what a rule set that is accepted was built into. In such an automaton the
tags of the states that a word leads to are those of the rules that match the word
(`Combined.Built.path_and_tag_iff`). The alphabet of the rule set is that of the literals of the
automaton (`Combined.Built.exists_alphabet`).
-/

namespace LexGen

/-! ## Literals -/

/-- Every rule has a text without classes, and the literals of its tree are those of the text. -/
theorem Rule.exists_texts {rules : List Rule} {regexes : List Regex}
    (h : List.Forall₂ (fun rule regex => Pattern.Derives rule.pattern.toList regex) rules regexes) :
    ∃ texts, rules.mapM (fun rule => (Pattern.expanded rule.pattern.toList).mapError
        (RuleError.malformedPattern rule.pattern)) = .ok texts ∧
      List.Forall₂ (fun regex text =>
        regex.postorder.filterMap Item.literal? = text.filter Symbol.isLiteral) regexes texts := by
  simp only [Checked.mapM_eq_ok_iff, Checked.mapError_eq_ok_iff]
  induction h with
  | nil => exact ⟨[], .nil, .nil⟩
  | cons hderives _ ih =>
    obtain ⟨texts, hexpanded, hliterals⟩ := ih
    obtain ⟨text, htext, hliteral⟩ := Regex.literals_of_parse (Pattern.Derives.parse_eq hderives)
    exact ⟨text :: texts, .cons htext hexpanded, .cons hliteral hliterals⟩

/-- The alphabet of texts is that of the literals of their trees. -/
theorem Alphabet.ofPatterns_eq {trees : List Regex} {texts : List (List Char)}
    (h : List.Forall₂ (fun regex text =>
      regex.postorder.filterMap Item.literal? = text.filter Symbol.isLiteral) trees texts) :
    ofPatterns texts = .ofList (trees.flatMap fun regex =>
      regex.postorder.filterMap Item.literal?) := by
  rw [ofPatterns]
  congr 1
  induction h with
  | nil => rfl
  | cons hliteral _ ih =>
    rw [List.flatten_cons, List.filter_append, List.flatMap_cons, ih, hliteral]

/-! ## What is built -/

namespace Combined

/-- The automaton has been built from the trees of the rules' patterns. -/
structure Built (set : RuleSet) (regexes : List Regex) (combined : Combined) : Prop where
  ne_nil : set.rules ≠ []
  derives : List.Forall₂ (fun rule regex => Pattern.Derives rule.pattern.toList regex)
    set.rules regexes
  nfa_eq : combined.nfa = nfaOf regexes
  tags_eq : combined.tags = (ends 1 regexes).zip (set.rules.map Rule.tag)

theorem ofRules_eq (set : RuleSet) : ofRules set =
    if set.rules = [] then .error .emptyRuleSet
    else (set.rules.mapM fun rule =>
        (Regex.parse rule.pattern).mapError (RuleError.malformedPattern rule.pattern)).map
      fun regexes => ⟨nfaOf regexes, (ends 1 regexes).zip (set.rules.map Rule.tag)⟩ := by
  rw [ofRules]
  by_cases hempty : set.rules = []
  · rw [if_pos hempty, if_pos (RuleSet.rules_eq_nil_iff.1 hempty)]
    rfl
  · rw [if_neg hempty, if_neg fun h => hempty (RuleSet.rules_eq_nil_iff.2 h)]
    rfl

theorem exists_built_of_ofRules {set : RuleSet} {combined : Combined}
    (h : ofRules set = .ok combined) : ∃ regexes, Built set regexes combined := by
  rw [ofRules_eq] at h
  split at h
  next => cases h
  next hempty =>
    obtain ⟨regexes, hregexes, rfl⟩ := Checked.map_eq_ok_iff.1 h
    refine ⟨regexes, hempty, ?_, rfl, rfl⟩
    refine (Checked.mapM_eq_ok_iff.1 hregexes).imp ?_
    intro rule regex hparse
    exact Regex.derives_of_parse (Checked.mapError_eq_ok_iff.1 hparse)

namespace Built

variable {set : RuleSet} {regexes : List Regex} {combined : Combined}

theorem length_eq (h : Built set regexes combined) :
    (placed 1 regexes).length = set.rules.length := by
  rw [length_placed, h.derives.length_eq]

/-- The rules with the blocks of their patterns. -/
def pairs (set : RuleSet) (regexes : List Regex) : List ((Nat × Regex) × Rule) :=
  (placed 1 regexes).zip set.rules

theorem exists_mem_pairs_of_placed (h : Built set regexes combined) {block : Nat × Regex}
    (hm : block ∈ placed 1 regexes) : ∃ rule, (block, rule) ∈ pairs set regexes := by
  have hfst : (pairs set regexes).map Prod.fst = placed 1 regexes :=
    List.map_fst_zip (Nat.le_of_eq h.length_eq)
  rw [← hfst] at hm
  obtain ⟨⟨_, rule⟩, hpair, rfl⟩ := List.mem_map.1 hm
  exact ⟨rule, hpair⟩

theorem exists_mem_pairs_of_rule (h : Built set regexes combined) {rule : Rule}
    (hm : rule ∈ set.rules) : ∃ block, (block, rule) ∈ pairs set regexes := by
  have hsnd : (pairs set regexes).map Prod.snd = set.rules :=
    List.map_snd_zip (Nat.le_of_eq h.length_eq.symm)
  rw [← hsnd] at hm
  obtain ⟨⟨block, _⟩, hpair, rfl⟩ := List.mem_map.1 hm
  exact ⟨block, hpair⟩

theorem derives_of_mem_pairs (h : Built set regexes combined) {b : Nat} {regex : Regex}
    {rule : Rule} (hm : ((b, regex), rule) ∈ pairs set regexes) :
    Pattern.Derives rule.pattern.toList regex := by
  have hzip : (regex, rule) ∈ regexes.zip set.rules := by
    have hsnd : (placed 1 regexes).map Prod.snd = regexes := map_snd_placed
    rw [← hsnd, List.zip_map_left, List.mem_map]
    exact ⟨_, hm, rfl⟩
  exact List.forall₂_zip h.derives.flip hzip

theorem matches_iff (h : Built set regexes combined) {b : Nat} {regex : Regex} {rule : Rule}
    (hm : ((b, regex), rule) ∈ pairs set regexes) {word : List Char} :
    rule.Matches word ↔ regex.Matches word := by
  have hderives := h.derives_of_mem_pairs hm
  constructor
  · rintro ⟨other, hother, hmatches⟩
    rwa [Pattern.Derives.unique hderives hother]
  · exact fun hmatches => ⟨regex, hderives, hmatches⟩

/-- The ends of the blocks have the tags of their rules, and no other state has a tag. -/
theorem tag?_eq_some_iff (h : Built set regexes combined) {state : Nat} {tag : RuleTag} :
    combined.tag? state = some tag ↔
      ∃ b regex rule, ((b, regex), rule) ∈ pairs set regexes ∧
        b + regex.size - 1 = state ∧ rule.tag = tag := by
  have hzip : combined.tags =
      (pairs set regexes).map (Prod.map (fun p => p.1 + p.2.size - 1) Rule.tag) := by
    rw [h.tags_eq, ends_eq, List.zip_map, pairs]
  have hlength : (ends 1 regexes).length = (set.rules.map Rule.tag).length := by
    rw [ends_eq, List.length_map, List.length_map, h.length_eq]
  have hnodup : (combined.tags.map Prod.fst).Nodup := by
    rw [h.tags_eq, List.map_fst_zip (Nat.le_of_eq hlength)]
    exact nodup_ends
  rw [tag?, lookup_eq_some_iff_mem hnodup, hzip, List.mem_map]
  constructor
  · rintro ⟨⟨⟨b, regex⟩, rule⟩, hm, heq⟩
    cases heq
    exact ⟨b, regex, rule, hm, rfl, rfl⟩
  · rintro ⟨b, regex, rule, hm, rfl, rfl⟩
    exact ⟨_, hm, rfl⟩

/-- Exactly the states with a tag accept. -/
theorem isAccepting_iff (h : Built set regexes combined) {state : Nat} :
    combined.nfa.isAccepting state = true ↔ ∃ tag, combined.tag? state = some tag := by
  rw [h.nfa_eq, isAccepting_nfaOf_iff, ends_eq, List.mem_map]
  simp only [h.tag?_eq_some_iff]
  constructor
  · rintro ⟨⟨b, regex⟩, hm, heq⟩
    obtain ⟨rule, hpair⟩ := h.exists_mem_pairs_of_placed hm
    exact ⟨rule.tag, b, regex, rule, hpair, heq, rfl⟩
  · rintro ⟨_, b, regex, rule, hpair, heq, _⟩
    exact ⟨(b, regex), (List.of_mem_zip hpair).1, heq⟩

/-- A word leads to the tags of the rules that match it. -/
theorem path_and_tag_iff (h : Built set regexes combined) {word : List Char} {tag : RuleTag} :
    (∃ target, combined.nfa.Path combined.nfa.start word target ∧
        combined.tag? target = some tag) ↔
      ∃ rule ∈ set.rules, rule.Matches word ∧ rule.tag = tag := by
  have hstart : combined.nfa.start = 0 := by
    rw [h.nfa_eq]
    rfl
  constructor
  · rintro ⟨target, hpath, htag⟩
    have haccepting := h.isAccepting_iff.2 ⟨tag, htag⟩
    rw [h.nfa_eq] at haccepting
    rw [hstart, h.nfa_eq] at hpath
    obtain ⟨b, regex, hm, rfl, hmatches⟩ := path_nfaOf_iff.1 ⟨hpath, haccepting⟩
    obtain ⟨rule, hpair⟩ := h.exists_mem_pairs_of_placed hm
    have hown : combined.tag? (b + regex.size - 1) = some rule.tag :=
      h.tag?_eq_some_iff.2 ⟨b, regex, rule, hpair, rfl, rfl⟩
    rw [hown] at htag
    exact ⟨rule, (List.of_mem_zip hpair).2, (h.matches_iff hpair).2 hmatches,
      Option.some.inj htag⟩
  · rintro ⟨rule, hrule, hmatches, rfl⟩
    obtain ⟨⟨b, regex⟩, hpair⟩ := h.exists_mem_pairs_of_rule hrule
    have hm := (h.matches_iff hpair).1 hmatches
    have hpath := path_nfaOf_iff.2 ⟨b, regex, (List.of_mem_zip hpair).1, rfl, hm⟩
    rw [hstart, h.nfa_eq]
    exact ⟨_, hpath.1, h.tag?_eq_some_iff.2 ⟨b, regex, rule, hpair, rfl, rfl⟩⟩

theorem regexes_ne_nil (h : Built set regexes combined) : regexes ≠ [] := by
  intro hnil
  apply h.ne_nil
  have hlength := h.derives.length_eq
  rw [hnil] at hlength
  exact List.eq_nil_of_length_eq_zero hlength

theorem live (h : Built set regexes combined) : combined.nfa.Live := by
  rw [h.nfa_eq]
  exact live_nfaOf h.regexes_ne_nil

/-- A rule set with an automaton has an alphabet: the literals of the automaton. -/
theorem exists_alphabet (h : Built set regexes combined) :
    ∃ alphabet, set.alphabet = .ok alphabet ∧ ∀ c, c ∈ alphabet ↔ c ∈ combined.nfa.literals := by
  obtain ⟨texts, htexts, hliterals⟩ := Rule.exists_texts h.derives
  refine ⟨Alphabet.ofPatterns texts, Checked.map_eq_ok_iff.2 ⟨texts, htexts, rfl⟩, ?_⟩
  intro c
  rw [Alphabet.ofPatterns_eq hliterals, Alphabet.mem_ofList, h.nfa_eq, literals_nfaOf]

end Built

end Combined

end LexGen
