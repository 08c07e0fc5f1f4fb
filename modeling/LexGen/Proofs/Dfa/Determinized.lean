import LexGen.Nfa.OfRegex
import LexGen.Proofs.Dfa.Subsets

/-!
# Determinization is exact

After a word the deterministic automaton is in the state that stands for all states to which paths
over the word lead in the nondeterministic one, and it is stuck if there are none
(`Dfa.Determinizes`). With an alphabet that holds all literals this is so for every automaton, and
more symbols in the alphabet make no difference (`Dfa.exists_determinizes`).
-/

namespace LexGen

/-- After each word one automaton is in the state for what the paths of the other lead to. -/
structure Dfa.Determinizes (dfa : Dfa) (nfa : Nfa) : Prop where
  run_eq_none_iff : ∀ word, dfa.run word = none ↔ ∀ state, ¬ nfa.Path nfa.start word state
  mem_subset_iff : ∀ word last, dfa.run word = some last →
    ∀ state, state ∈ dfa.subset last ↔ nfa.Path nfa.start word state
  isAccepting_iff : ∀ word last, dfa.run word = some last →
    (dfa.isAccepting last = true ↔
      ∃ state, nfa.Path nfa.start word state ∧ nfa.isAccepting state = true)
  accepts_eq : ∀ word, dfa.accepts word = nfa.accepts word

namespace Nfa

variable {nfa : Nfa} {tagOf : Nat → Option RuleTag} {alphabet : Alphabet}

theorem accepts_subsetDfa (hcover : ∀ c ∈ nfa.literals, c ∈ alphabet) (word : List Char) :
    (nfa.subsetDfa nfa.move? tagOf alphabet).accepts word = nfa.accepts word := by
  rw [Dfa.accepts, accepts]
  cases hrun : (nfa.subsetDfa nfa.move? tagOf alphabet).run word with
  | none => rw [(run_subsetDfa_eq_none_iff hcover).1 hrun, Option.any_none, Option.any_none]
  | some last =>
    obtain ⟨set, hset, hlast⟩ := (run_subsetDfa_eq_some_iff hcover).1 hrun
    rw [hset, Option.any_some, Option.any_some, isAccepting_subsetDfa hlast]

theorem determinizes_subsetDfa (hcover : ∀ c ∈ nfa.literals, c ∈ alphabet) :
    (nfa.subsetDfa nfa.move? tagOf alphabet).Determinizes nfa where
  run_eq_none_iff _ := (run_subsetDfa_eq_none_iff hcover).trans run_eq_none_iff
  mem_subset_iff word last hrun state := by
    obtain ⟨set, hset, hlast⟩ := (run_subsetDfa_eq_some_iff hcover).1 hrun
    rw [subset_subsetDfa hlast, mem_of_run hset]
  isAccepting_iff word last hrun := by
    obtain ⟨set, hset, hlast⟩ := (run_subsetDfa_eq_some_iff hcover).1 hrun
    rw [isAccepting_subsetDfa hlast, acceptsIn_iff]
    simp only [mem_of_run hset]
  accepts_eq := accepts_subsetDfa hcover

end Nfa

/-- With an alphabet that holds all literals every automaton is determinized, be it that of a
pattern or that of a rule set. -/
theorem Dfa.exists_determinizes (alphabet : Alphabet) :
    (∀ nfa : Nfa, (∀ c ∈ nfa.literals, c ∈ alphabet) →
      ∃ dfa, Dfa.ofNfa nfa alphabet = .ok dfa ∧ dfa.Determinizes nfa) ∧
    ∀ combined : Combined, (∀ c ∈ combined.nfa.literals, c ∈ alphabet) →
      ∃ dfa, Dfa.ofCombined combined alphabet = .ok dfa ∧ dfa.Determinizes combined.nfa := by
  constructor
  · intro nfa hcover
    exact ⟨_, Nfa.determinize_eq_ok hcover, Nfa.determinizes_subsetDfa hcover⟩
  · intro combined hcover
    exact ⟨_, Nfa.determinize_eq_ok hcover, Nfa.determinizes_subsetDfa hcover⟩

/-- The pattern `(a*)*` has a cycle of silent edges. With one symbol more than it needs, its
automaton is determinized, and so is that of the rules `(a*)*` and `a`. -/
theorem Dfa.exists_determinizes_nested_star :
    (∃ nfa dfa, Nfa.compile "(a*)*" = .ok nfa ∧ Dfa.ofNfa nfa (.ofList ['a', 'z']) = .ok dfa ∧
      dfa.Determinizes nfa) ∧
    ∃ combined dfa, Combined.ofRules ⟨[("(a*)*", ⟨"many"⟩), ("a", ⟨"one"⟩)]⟩ = .ok combined ∧
      Dfa.ofCombined combined (.ofList ['a', 'z']) = .ok dfa ∧ dfa.Determinizes combined.nfa := by
  have hcompile : Nfa.compile "(a*)*" =
      .ok (.ofRegex (.repeated .star (.repeated .star (.literal 'a')))) := by rfl
  have hcombined : Combined.ofRules ⟨[("(a*)*", ⟨"many"⟩), ("a", ⟨"one"⟩)]⟩ =
      .ok ⟨Combined.nfaOf [.repeated .star (.repeated .star (.literal 'a')), .literal 'a'],
        [(6, ⟨⟨"many"⟩, 0⟩), (8, ⟨⟨"one"⟩, 1⟩)]⟩ := by rfl
  have hpattern : ∀ c ∈ (Nfa.ofRegex (.repeated .star (.repeated .star (.literal 'a')))).literals,
      c ∈ Alphabet.ofList ['a', 'z'] := by
    have hliterals : (Nfa.ofRegex (.repeated .star (.repeated .star (.literal 'a')))).literals =
        ['a'] := by rfl
    simp [hliterals]
  have hrules : ∀ c ∈ (Combined.nfaOf [.repeated .star (.repeated .star (.literal 'a')),
      .literal 'a']).literals, c ∈ Alphabet.ofList ['a', 'z'] := by
    have hliterals : (Combined.nfaOf [.repeated .star (.repeated .star (.literal 'a')),
        .literal 'a']).literals = ['a', 'a'] := by rfl
    simp [hliterals]
  obtain ⟨dfa, hdfa⟩ := (Dfa.exists_determinizes (.ofList ['a', 'z'])).1 _ hpattern
  obtain ⟨dfa', hdfa'⟩ := (Dfa.exists_determinizes (.ofList ['a', 'z'])).2 ⟨_, _⟩ hrules
  exact ⟨⟨_, dfa, hcompile, hdfa⟩, ⟨_, dfa', hcombined, hdfa'⟩⟩

end LexGen
