import LexGen.Proofs.Lexer.Stages

/-!
# Which rule a tag names

After a word the deterministic automaton has the tag of the rule that wins the word. States that
accept the same token type for different rules may be merged, and what a merged state has then is
the tag of the first rule that wins some word leading there (`Dfa.Resolves.tag?_merged_iff`). The
token type after a word is still that of the winner, so only priorities are lost
(`Dfa.exists_keepsPriority`).
-/

namespace LexGen

/-- The rule wins some word that leads to the state. -/
def Dfa.WonAt (dfa : Dfa) (set : RuleSet) (state : Nat) (rule : Rule) : Prop :=
  ∃ word, dfa.run word = some state ∧ set.Wins word rule

/-- What the tags of an automaton for a rule set and of its minimal form say about the rules. -/
structure Dfa.KeepsPriority (determinized minimized : Dfa) (set : RuleSet) : Prop where
  isSome_tag?_iff : ∀ word, ((determinized.run word).bind determinized.tag?).isSome = true ↔
    ∃ rule ∈ set.rules, rule.Matches word
  resolves : determinized.Resolves set
  /-- Both get stuck, or both do not and the token types are the same. -/
  tokenType_eq : ∀ word, (minimized.run word).map minimized.tokenType =
    (determinized.run word).map determinized.tokenType
  tag?_iff : ∀ state tag, minimized.tag? state = some tag ↔
    ∃ rule, set.First (minimized.WonAt set state) rule ∧ rule.tag = tag
  tagged_determinized : determinized.Tagged
  tagged_minimized : minimized.Tagged

namespace Dfa.Resolves

variable {dfa : Dfa} {set : RuleSet} {alphabet : Alphabet}

theorem isSome_tag?_iff (h : dfa.Resolves set) (word : List Char) :
    ((dfa.run word).bind dfa.tag?).isSome = true ↔ ∃ rule ∈ set.rules, rule.Matches word := by
  rw [Option.isSome_iff_exists, ← RuleSet.exists_wins_iff]
  constructor
  · rintro ⟨tag, htag⟩
    obtain ⟨rule, hrule, _⟩ := (h word tag).1 htag
    exact ⟨rule, hrule⟩
  · rintro ⟨rule, hrule⟩
    exact ⟨rule.tag, (h word rule.tag).2 ⟨rule, hrule, rfl⟩⟩

/-- A merged state has the tag of the first rule that wins a word leading to it. -/
theorem tag?_merged_iff (h : dfa.Resolves set) (htrim : dfa.Trim)
    (hmoves : dfa.MovesWithin alphabet) {state : Nat} {tag : RuleTag} :
    (dfa.merged alphabet).tag? state = some tag ↔
      ∃ rule, set.First ((dfa.merged alphabet).WonAt set state) rule ∧ rule.tag = tag := by
  rcases Nat.lt_or_ge state (dfa.merged alphabet).size with hstate | hstate
  · rw [size_merged] at hstate
    obtain ⟨old, hold, rfl⟩ := exists_classNumber_eq hstate
    obtain ⟨tags, hbest, hmem⟩ := @exists_tags_merged dfa alphabet old hold
    rw [hbest]
    apply RuleSet.best?_eq_some_iff
    -- The members of a class are what the words leading to the merged state led to before.
    intro tag
    rw [hmem]
    constructor
    · rintro ⟨other, hother, hnumber, htag⟩
      obtain ⟨word, hword⟩ := htrim.reachable hother
      obtain ⟨rule, hwins, rfl⟩ := (h word tag).1 (by rw [hword, Option.bind_some, htag])
      have hrun : (dfa.merged alphabet).run word =
          some (classNumber (dfa.classes alphabet) old) := by
        rw [run_merged hmoves, hword, Option.map_some, hnumber]
      exact ⟨rule, hwins.1, ⟨word, hrun, hwins⟩, rfl⟩
    · rintro ⟨rule, _, ⟨word, hrun, hwins⟩, rfl⟩
      obtain ⟨other, hother, htag⟩ :=
        Option.bind_eq_some_iff.1 ((h word rule.tag).2 ⟨rule, hwins, rfl⟩)
      rw [run_merged hmoves, hother, Option.map_some] at hrun
      exact ⟨other, lt_of_runFrom dfa.start_lt hother, Option.some.inj hrun, htag⟩
  · -- There is no such state, so it has no tag and no word leads to it.
    rw [tag?, Array.getElem?_eq_none hstate]
    constructor
    · intro htag
      cases htag
    · rintro ⟨rule, ⟨_, ⟨word, hrun, _⟩, _⟩, _⟩
      have hlt := lt_of_runFrom (dfa.merged alphabet).start_lt hrun
      exact absurd hlt (Nat.not_lt.2 hstate)

theorem keepsPriority (h : dfa.Resolves set) (htrim : dfa.Trim) (htagged : dfa.Tagged)
    (hmoves : dfa.MovesWithin alphabet) : KeepsPriority dfa (dfa.merged alphabet) set where
  isSome_tag?_iff := h.isSome_tag?_iff
  resolves := h
  tokenType_eq := map_tokenType_run_merged hmoves htrim.typesAccept
  tag?_iff _ _ := h.tag?_merged_iff htrim hmoves
  tagged_determinized := htagged
  tagged_minimized := htagged.merged

end Dfa.Resolves

/-- With an alphabet that holds all literals, the deterministic automaton of a rule set and its
minimal form say by their tags which rule wins, however many rules overlap or share a token type. -/
theorem Dfa.exists_keepsPriority {set : RuleSet} {combined : Combined} {alphabet : Alphabet}
    (hcombined : Combined.ofRules set = .ok combined)
    (hcover : ∀ c ∈ combined.nfa.literals, c ∈ alphabet) :
    ∃ determinized minimized, Dfa.ofCombined combined alphabet = .ok determinized ∧
      determinized.minimize alphabet = .ok minimized ∧
      KeepsPriority determinized minimized set := by
  obtain ⟨_, hbuilt⟩ := Combined.exists_built_of_ofRules hcombined
  have hmoves : (combined.nfa.subsetDfa combined.nfa.move? combined.tag? alphabet).MovesWithin
      alphabet := Nfa.movesWithin_subsetDfa
  exact ⟨_, _, Nfa.determinize_eq_ok hcover, minimize_eq_ok hmoves,
    (hbuilt.resolves_subsetDfa hcover).keepsPriority (hbuilt.trim_subsetDfa hcover)
      hbuilt.tagged_subsetDfa hmoves⟩

/-- Of the rules `ab`, `ac` and `a(b|d)` the first two share a token type. The second wins `ac`, and
the merged state after this word has the tag of the first, which wins `ab`. -/
theorem Dfa.exists_keepsPriority_shared_type : ∃ set combined determinized minimized,
    set = ⟨[("ab", ⟨"pair"⟩), ("ac", ⟨"pair"⟩), ("a(b|d)", ⟨"other"⟩)]⟩ ∧
    Combined.ofRules set = .ok combined ∧
    Dfa.ofCombined combined (.ofList ['a', 'b', 'c', 'd', 'z']) = .ok determinized ∧
    determinized.minimize (.ofList ['a', 'b', 'c', 'd', 'z']) = .ok minimized ∧
    (determinized.run ['a', 'c']).bind determinized.tag? = some ⟨⟨"pair"⟩, 1⟩ ∧
    (minimized.run ['a', 'c']).bind minimized.tag? = some ⟨⟨"pair"⟩, 0⟩ ∧
    KeepsPriority determinized minimized set := by
  let set : RuleSet := ⟨[("ab", ⟨"pair"⟩), ("ac", ⟨"pair"⟩), ("a(b|d)", ⟨"other"⟩)]⟩
  let alphabet : Alphabet := .ofList ['a', 'b', 'c', 'd', 'z']
  obtain ⟨combined, hcombined⟩ : ∃ combined, Combined.ofRules set = .ok combined :=
    Checked.exists_eq_ok_iff.2 (by rfl)
  have hcover : ∀ c ∈ combined.nfa.literals, c ∈ alphabet := by
    have hliterals : (Combined.ofRules set).toOption.map (·.nfa.literals) =
        some ['a', 'b', 'a', 'c', 'a', 'b', 'd'] := by rfl
    rw [hcombined] at hliterals
    have hliterals : combined.nfa.literals = _ := Option.some.inj hliterals
    simp [hliterals, alphabet]
  obtain ⟨determinized, minimized, hdeterminized, hminimized, hkeeps⟩ :=
    exists_keepsPriority hcombined hcover
  have hbefore : ((Combined.ofRules set).toOption.bind fun built =>
      (Dfa.ofCombined built alphabet).toOption.bind fun dfa =>
        (dfa.run ['a', 'c']).bind dfa.tag?) = some ⟨⟨"pair"⟩, 1⟩ := by decide +kernel
  have hafter : ((Combined.ofRules set).toOption.bind fun built =>
      (Dfa.ofCombined built alphabet).toOption.bind fun dfa =>
        (dfa.minimize alphabet).toOption.bind fun least =>
          (least.run ['a', 'c']).bind least.tag?) = some ⟨⟨"pair"⟩, 0⟩ := by decide +kernel
  simp only [hcombined, hdeterminized, hminimized, Except.toOption, Option.bind_some]
    at hbefore hafter
  exact ⟨set, combined, determinized, minimized, rfl, hcombined, hdeterminized, hminimized,
    hbefore, hafter, hkeeps⟩

end LexGen
