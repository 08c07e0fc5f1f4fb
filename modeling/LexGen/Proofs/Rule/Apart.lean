import LexGen.Proofs.Nfa.Arena
import LexGen.Proofs.Nfa.Compile
import LexGen.Proofs.Rule.Built

/-!
# Rules side by side

The automaton of a rule set can be built rule after rule in one arena that begins with the shared
start (`Combined.assemble`). A rule is built behind the others and adds an edge of the start, and
nothing else of what is there is changed, so the rules are blocks that no edge joins
(`Combined.assemble_eq`). What the rules have in common is the start alone: each has an end of its
own with its tag, and the end is reached by the words that the pattern of the rule accepts, whatever
the other rules are (`Combined.exists_keepsApart`).
-/

namespace LexGen

namespace Combined

/-! ## Rule after rule -/

/-- Build the pattern of a rule behind what is there, let it accept with the tag of the rule, and
lead the start into it. -/
def addRule (built : List NfaState × List (Nat × RuleTag)) (rule : Rule) :
    Except RuleError (List NfaState × List (Nat × RuleTag)) :=
  let (arena, tags) := built
  ((Arena.buildInto arena rule.pattern).mapError (.malformedPattern rule.pattern)).map
    fun (arena, fragment) =>
      (Arena.link (Arena.accept arena fragment.finish) 0 none fragment.start,
        tags ++ [(fragment.finish, rule.tag)])

/-- The states of a rule set and the tags of its ends. -/
def assemble (set : RuleSet) : Except RuleError (List NfaState × List (Nat × RuleTag)) :=
  if set.isEmpty then .error .emptyRuleSet else set.rules.foldlM addRule ([Arena.fresh], [])

section Append

variable {base : Nat} {front back : List Regex}

theorem blocks_append : blocks base (front ++ back) =
    blocks base front ++ blocks (base + (blocks base front).length) back := by
  induction front generalizing base with
  | nil => rfl
  | cons regex front ih => simp [ih, Nat.add_assoc]

theorem entries_append : entries base (front ++ back) =
    entries base front ++ entries (base + (blocks base front).length) back := by
  induction front generalizing base with
  | nil => rfl
  | cons regex front ih => simp [entries, ih, Nat.add_assoc]

end Append

/-- The states of several expressions. -/
def statesOf (regexes : List Regex) : List NfaState :=
  Regex.junction (entries 1 regexes) :: blocks 1 regexes

/-- A rule adds the block of its pattern and an edge of the start. -/
theorem addRule_eq (regexes : List Regex) (tags : List (Nat × RuleTag)) (rule : Rule) :
    addRule (statesOf regexes, tags) rule =
      ((Regex.parse rule.pattern).mapError (.malformedPattern rule.pattern)).map fun regex =>
        (statesOf (regexes ++ [regex]),
          tags ++ [(1 + (blocks 1 regexes).length + regex.size - 1, rule.tag)]) := by
  have hlength : (statesOf regexes).length = 1 + (blocks 1 regexes).length := by
    rw [statesOf, List.length_cons, Nat.add_comm]
  rw [addRule, Arena.buildInto_eq]
  cases Regex.parse rule.pattern with
  | error cause => rfl
  | ok regex =>
    simp only [Except.mapError, Except.map, Arena.fragment, Arena.accept_block]
    rw [hlength, statesOf, statesOf, blocks_append, entries_append]
    simp [entries, blocks, Arena.link, Regex.junction]

/-- Rules are added behind those whose expressions have been built already. -/
theorem foldlM_addRule (rules : List Rule) (regexes : List Regex) (tags : List (Nat × RuleTag)) :
    rules.foldlM addRule (statesOf regexes, tags) =
      (rules.mapM fun rule =>
        (Regex.parse rule.pattern).mapError (RuleError.malformedPattern rule.pattern)).map
      fun others => (statesOf (regexes ++ others),
        tags ++ (ends (1 + (blocks 1 regexes).length) others).zip (rules.map Rule.tag)) := by
  induction rules generalizing regexes tags with
  | nil => simp [pure, Except.pure, Except.map, ends]
  | cons rule rules ih =>
    rw [List.foldlM_cons, List.mapM_cons, addRule_eq]
    cases (Regex.parse rule.pattern).mapError (RuleError.malformedPattern rule.pattern) with
    | error cause => rfl
    | ok regex =>
      -- With one more rule built the rest of the rules is added in the same way.
      show List.foldlM addRule (statesOf (regexes ++ [regex]), _) rules = _
      rw [ih]
      cases rules.mapM fun rule =>
          (Regex.parse rule.pattern).mapError (RuleError.malformedPattern rule.pattern) with
      | error cause => rfl
      | ok others =>
        simp [bind, Except.bind, pure, Except.pure, ends, blocks_append, blocks, Nat.add_assoc]

/-- Building the rules in one arena gives the automaton of the rule set with its tags. -/
theorem assemble_eq (set : RuleSet) : assemble set =
    (ofRules set).map fun combined => (combined.nfa.states.toList, combined.tags) := by
  have hstart : ([Arena.fresh], []) = (statesOf [], ([] : List (Nat × RuleTag))) := rfl
  rw [assemble, ofRules_eq, hstart, foldlM_addRule]
  by_cases hempty : set.rules = []
  · rw [if_pos hempty, if_pos (RuleSet.rules_eq_nil_iff.1 hempty)]
    rfl
  · rw [if_neg hempty, if_neg fun h => hempty (RuleSet.rules_eq_nil_iff.2 h), Checked.map_map]
    rfl

/-! ## What the rules share -/

section Edges

variable {base : Nat} {regexes : List Regex}

theorem le_of_mem_entries {state : Nat} (h : state ∈ entries base regexes) : base ≤ state := by
  rw [entries_eq, List.mem_map] at h
  rcases h with ⟨⟨b, regex⟩, hm, rfl⟩
  exact Nat.le_trans (le_of_mem_placed hm) (Nat.le_add_right ..)

/-- An edge of a block does not lead in front of the blocks. -/
theorem le_target_of_mem_blocks {state : NfaState} {edge : Edge} (hs : state ∈ blocks base regexes)
    (he : edge ∈ state.edges) : base ≤ edge.target := by
  induction regexes generalizing base with
  | nil => simp [blocks] at hs
  | cons regex rest ih =>
    rw [blocks_cons, List.mem_append] at hs
    rcases hs with hs | hs
    · rcases Regex.target_of_mem_block hs he with h | h
      · exact h.1
      · cases h
    · exact Nat.le_trans (Nat.le_add_right ..) (ih hs)

/-- No edge leads to the start. -/
theorem zero_not_mem_targets (regexes : List Regex) (label : Option Char) (source : Nat) :
    0 ∉ (nfaOf regexes).targets label source := by
  intro htarget
  have hedge := Nfa.mem_targets_iff.1 htarget
  rw [Nfa.edges] at hedge
  cases hstate : (nfaOf regexes).states[source]? with
  | none => simp [hstate] at hedge
  | some state =>
    rw [hstate] at hedge
    rcases List.mem_cons.1 (Array.mem_def.1 (Array.mem_of_getElem? hstate)) with rfl | hstate
    · have hle : 1 ≤ 0 := le_of_mem_entries (Regex.mem_edges_junction.1 hedge).2
      omega
    · have hle : 1 ≤ 0 := le_target_of_mem_blocks hstate hedge
      omega

end Edges

/-- Blocks with the same end are the same. -/
theorem eq_of_end_eq {base : Nat} {regexes : List Regex} {block other : Nat × Regex}
    (hblock : block ∈ placed base regexes) (hother : other ∈ placed base regexes)
    (h : block.1 + block.2.size - 1 = other.1 + other.2.size - 1) : block = other := by
  have hnodup : ((placed base regexes).map fun p => p.1 + p.2.size - 1).Nodup := by
    rw [← ends_eq]
    exact nodup_ends
  exact List.inj_on_of_nodup_map hnodup hblock hother h

/-- The end of a block is reached by the words of its expression. -/
theorem path_end_iff {regexes : List Regex} {b : Nat} {regex : Regex} {word : List Char}
    (hm : (b, regex) ∈ placed 1 regexes) :
    (nfaOf regexes).Path 0 word (b + regex.size - 1) ↔ regex.Matches word := by
  have haccepting : (nfaOf regexes).isAccepting (b + regex.size - 1) = true :=
    (hosts_of_mem_placed (hosts_nfaOf regexes) hm).isAccepting_last
  constructor
  · intro hpath
    rcases path_nfaOf_iff.1 ⟨hpath, haccepting⟩ with ⟨c, other, hother, hend, hmatches⟩
    cases eq_of_end_eq hm hother hend
    exact hmatches
  · intro hmatches
    exact (path_nfaOf_iff.2 ⟨b, regex, hm, rfl, hmatches⟩).1

/-- Each rule has an end of its own. The ends are all that accepts and all that has a tag, no edge
leads to the start, and a word leads to the end of a rule exactly if the automaton of the rule's
pattern accepts it. -/
structure KeepsApart (set : RuleSet) (combined : Combined) (finishes : List Nat) : Prop where
  length_eq : finishes.length = set.rules.length
  nodup : finishes.Nodup
  isAccepting_iff : ∀ state, combined.nfa.isAccepting state = true ↔ state ∈ finishes
  tag?_finish : ∀ (i : Nat) (rule : Rule) (finish : Nat), set.rules[i]? = some rule →
    finishes[i]? = some finish → combined.tag? finish = some ⟨rule.tokenType, i⟩
  tag?_other : ∀ state, state ∉ finishes → combined.tag? state = none
  start_not_mem : ∀ label source, combined.nfa.start ∉ combined.nfa.targets label source
  mem_run_iff : ∀ (i : Nat) (rule : Rule) (finish : Nat) (nfa : Nfa), set.rules[i]? = some rule →
    finishes[i]? = some finish → Nfa.compile rule.pattern = .ok nfa → ∀ word,
      (∃ states, combined.nfa.run word = some states ∧ finish ∈ states) ↔ nfa.accepts word = true

namespace Built

variable {set : RuleSet} {regexes : List Regex} {combined : Combined}

theorem exists_mem_pairs_of_getElem? {i finish : Nat} {rule : Rule}
    (hrule : set.rules[i]? = some rule) (hfinish : (ends 1 regexes)[i]? = some finish) :
    ∃ b regex, ((b, regex), rule) ∈ pairs set regexes ∧ b + regex.size - 1 = finish := by
  rw [ends_eq, List.getElem?_map, Option.map_eq_some_iff] at hfinish
  rcases hfinish with ⟨⟨b, regex⟩, hblock, hend⟩
  exact ⟨b, regex, List.mem_of_getElem? (List.getElem?_zip_eq_some.2 ⟨hblock, hrule⟩), hend⟩

theorem keepsApart (h : Built set regexes combined) : KeepsApart set combined (ends 1 regexes) where
  length_eq := by rw [ends_eq, List.length_map, h.length_eq]
  nodup := nodup_ends
  isAccepting_iff state := by rw [h.nfa_eq, isAccepting_nfaOf_iff]
  tag?_finish i rule finish hrule hfinish := by
    rcases exists_mem_pairs_of_getElem? hrule hfinish with ⟨b, regex, hpair, hend⟩
    rw [h.tag?_eq_some_iff]
    refine ⟨b, regex, rule, hpair, hend, ?_⟩
    rw [Rule.tag, RuleSet.priority_eq_of_getElem? hrule]
  tag?_other state hstate := by
    rw [Option.eq_none_iff_forall_ne_some]
    intro tag htag
    have haccepting := h.isAccepting_iff.2 ⟨tag, htag⟩
    rw [h.nfa_eq, isAccepting_nfaOf_iff] at haccepting
    exact hstate haccepting
  start_not_mem label source := by
    rw [h.nfa_eq]
    exact zero_not_mem_targets regexes label source
  mem_run_iff i rule finish nfa hrule hfinish hnfa word := by
    rcases exists_mem_pairs_of_getElem? hrule hfinish with ⟨b, regex, hpair, rfl⟩
    rcases Nfa.compile_eq_ok_iff.1 hnfa with ⟨other, hother, rfl⟩
    cases (h.derives_of_mem_pairs hpair).unique hother
    rw [Nfa.exists_mem_run_iff, h.nfa_eq, Nfa.accepts_iff, Nfa.recognizes_ofRegex_iff]
    exact path_end_iff (List.of_mem_zip hpair).1

end Built

theorem exists_ofRules_eq_ok {set : RuleSet} (hne : set.rules ≠ [])
    (hcompile : ∀ rule ∈ set.rules, ∃ nfa, Nfa.compile rule.pattern = .ok nfa) :
    ∃ combined, ofRules set = .ok combined := by
  rw [ofRules_eq, if_neg hne]
  cases hparse : set.rules.mapM fun rule =>
      (Regex.parse rule.pattern).mapError (RuleError.malformedPattern rule.pattern) with
  | ok regexes => exact ⟨_, rfl⟩
  | error cause =>
    rcases Checked.mapM_eq_error_iff.1 hparse with ⟨front, rule, back, hrules, hrule, _⟩
    rcases Checked.mapError_eq_error_iff.1 hrule with ⟨inner, hinner, _⟩
    have hmem : rule ∈ set.rules := by
      rw [hrules]
      exact List.mem_append_right _ (List.mem_cons_self ..)
    rcases hcompile rule hmem with ⟨nfa, hnfa⟩
    rw [Nfa.compile, hinner] at hnfa
    cases hnfa

/-- If all patterns can be compiled, the automaton of the rule set keeps the rules apart, and it is
the one that comes out of building them one after the other in one arena. -/
theorem exists_keepsApart {set : RuleSet} (hne : set.rules ≠ [])
    (hcompile : ∀ rule ∈ set.rules, ∃ nfa, Nfa.compile rule.pattern = .ok nfa) :
    ∃ combined finishes, ofRules set = .ok combined ∧
      assemble set = .ok (combined.nfa.states.toList, combined.tags) ∧
      KeepsApart set combined finishes := by
  rcases exists_ofRules_eq_ok hne hcompile with ⟨combined, hcombined⟩
  rcases exists_built_of_ofRules hcombined with ⟨regexes, hbuilt⟩
  refine ⟨combined, ends 1 regexes, hcombined, ?_, hbuilt.keepsApart⟩
  rw [assemble_eq, hcombined]
  rfl

/-- Two rules with the same pattern, which also matches the empty word, and a third one: after `aa`
the automaton is in the ends of the first two, which have different tags. -/
theorem exists_keepsApart_of_twins : ∃ (combined : Combined) (first second third : Nat),
    ofRules ⟨[("a*", ⟨"word"⟩), ("a*", ⟨"other"⟩), ("ab?", ⟨"pair"⟩)]⟩ = .ok combined ∧
    combined.tag? first = some ⟨⟨"word"⟩, 0⟩ ∧ combined.tag? second = some ⟨⟨"other"⟩, 1⟩ ∧
    combined.tag? third = some ⟨⟨"pair"⟩, 2⟩ ∧
    ∃ states, combined.nfa.run ['a', 'a'] = some states ∧
      first ∈ states ∧ second ∈ states ∧ third ∉ states := by
  let set : RuleSet := ⟨[("a*", ⟨"word"⟩), ("a*", ⟨"other"⟩), ("ab?", ⟨"pair"⟩)]⟩
  have hcompile : ∀ rule ∈ set.rules, ∃ nfa, Nfa.compile rule.pattern = .ok nfa := by
    simp only [Checked.exists_eq_ok_iff]
    decide
  have hne : set.rules ≠ [] := by decide
  have hstarred : Nfa.compile "a*" = .ok (.ofRegex (.repeated .star (.literal 'a'))) :=
    Nfa.compile_eq_ok_iff.2 ⟨_, Regex.derives_of_parse (by decide), rfl⟩
  have hpair : Nfa.compile "ab?" =
      .ok (.ofRegex (.concat (.literal 'a') (.repeated .optional (.literal 'b')))) :=
    Nfa.compile_eq_ok_iff.2 ⟨_, Regex.derives_of_parse (by decide), rfl⟩
  rcases exists_keepsApart hne hcompile with ⟨combined, finishes, hcombined, _, h⟩
  have hlength : finishes.length = 3 := h.length_eq
  rcases List.length_eq_three.1 hlength with ⟨first, second, third, rfl⟩
  refine ⟨combined, first, second, third, hcombined, h.tag?_finish 0 _ _ rfl rfl,
    h.tag?_finish 1 _ _ rfl rfl, h.tag?_finish 2 _ _ rfl rfl, ?_⟩
  have hfirst := h.mem_run_iff 0 _ _ _ rfl rfl hstarred ['a', 'a']
  have hsecond := h.mem_run_iff 1 _ _ _ rfl rfl hstarred ['a', 'a']
  have hthird := h.mem_run_iff 2 _ _ _ rfl rfl hpair ['a', 'a']
  rcases hfirst.2 (by decide +kernel) with ⟨states, hstates, hmem⟩
  rw [hstates] at hsecond hthird
  refine ⟨states, hstates, hmem, ?_, ?_⟩
  · rcases hsecond.2 (by decide +kernel) with ⟨other, hother, hmem⟩
    cases hother
    exact hmem
  · intro hmem
    exact absurd (hthird.1 ⟨states, rfl, hmem⟩) (by decide +kernel)

end Combined

end LexGen
