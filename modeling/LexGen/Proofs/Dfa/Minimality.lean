import LexGen.Proofs.Dfa.Merge
import LexGen.Proofs.Dfa.Subsets
import LexGen.Proofs.Nfa.Compile
import LexGen.Proofs.Rule.Built
import Mathlib.Data.Fintype.Card

/-!
# Minimal automata are minimal

An automaton is minimal if its states are reachable, words separate them, and no automaton that
assigns the same to every word has fewer states (`Dfa.IsMinimal`). The last follows from the others
for a trim automaton: the words that lead to its states must lead to different states of a rival
(`Dfa.Trim.size_le_card`). What rule sets and single patterns are made into is trim, and merging
separates the states (`Dfa.isMinimal_minimize`).
-/

namespace LexGen

/-- A deterministic automaton with states of any type. Moves may be missing, and the verdict on a
state is acceptance, with a token type or without one, or nothing. -/
structure PartialAutomaton (State : Type) where
  start : State
  next? : State → Char → Option State
  verdict : State → Option (Option TokenType)

namespace PartialAutomaton

variable {State : Type}

def runFrom (automaton : PartialAutomaton State) (state : State) (word : List Char) :
    Option State := word.foldlM automaton.next? state

/-- What a word is assigned from a state on. -/
def assigned (automaton : PartialAutomaton State) (state : State) (word : List Char) :
    Option (Option TokenType) := (automaton.runFrom state word).bind automaton.verdict

theorem assigned_append (automaton : PartialAutomaton State) (state : State)
    (front back : List Char) : automaton.assigned state (front ++ back) =
      (automaton.runFrom state front).bind fun middle => automaton.assigned middle back := by
  rw [assigned, runFrom, List.foldlM_append]
  exact Option.bind_assoc ..

end PartialAutomaton

namespace Dfa

/-- All states are reachable, any two of them are separated by a word that is not assigned the same
from both, and no automaton that assigns the same to every word has fewer states. -/
structure IsMinimal (dfa : Dfa) : Prop where
  reachable : ∀ state, state < dfa.size → dfa.Reachable state
  separated : ∀ a b, a < dfa.size → b < dfa.size → a ≠ b →
    ∃ word, dfa.assigned a word ≠ dfa.assigned b word
  least : ∀ (State : Type) [Fintype State] (rival : PartialAutomaton State),
    (∀ word, rival.assigned rival.start word = dfa.assigned dfa.start word) →
      dfa.size ≤ Fintype.card State

variable {dfa : Dfa} {alphabet : Alphabet}

namespace Trim

/-- A rival comes to some state over each word that leads to a state, and from there it assigns what
is assigned from that state on. -/
theorem exists_rival_state (h : dfa.Trim) {State : Type} {rival : PartialAutomaton State}
    (hrival : ∀ word, rival.assigned rival.start word = dfa.assigned dfa.start word) {state : Nat}
    (hs : state < dfa.size) :
    ∃ other, ∀ word, rival.assigned other word = dfa.assigned state word := by
  obtain ⟨front, hfront⟩ := h.reachable hs
  obtain ⟨back, verdict, hverdict⟩ := h.live state hs
  have hword : ∀ word, rival.assigned rival.start (front ++ word) = dfa.assigned state word := by
    intro word
    rw [hrival, assigned_append_of_runFrom word hfront]
  cases hrun : rival.runFrom rival.start front with
  | none =>
    have hback := hword back
    rw [PartialAutomaton.assigned_append, hrun, hverdict] at hback
    cases hback
  | some other =>
    refine ⟨other, ?_⟩
    intro word
    rw [← hword word, PartialAutomaton.assigned_append, hrun, Option.bind_some]

/-- If words separate the states of a trim automaton, no automaton that assigns the same to every
word has fewer states. -/
theorem size_le_card (h : dfa.Trim)
    (hseparated : ∀ a b, a < dfa.size → b < dfa.size → a ≠ b →
      ∃ word, dfa.assigned a word ≠ dfa.assigned b word)
    {State : Type} [Fintype State] {rival : PartialAutomaton State}
    (hrival : ∀ word, rival.assigned rival.start word = dfa.assigned dfa.start word) :
    dfa.size ≤ Fintype.card State := by
  choose other hother using fun state : Fin dfa.size => h.exists_rival_state hrival state.isLt
  have hinjective : Function.Injective other := by
    intro a b hab
    by_contra hne
    obtain ⟨word, hword⟩ := hseparated a b a.isLt b.isLt (fun heq => hne (Fin.ext heq))
    apply hword
    rw [← hother a word, ← hother b word, hab]
  have hcard := Fintype.card_le_of_injective other hinjective
  rwa [Fintype.card_fin] at hcard

/-- The merged automaton of a trim one is minimal. -/
theorem isMinimal_merged (h : dfa.Trim)
    (hmoves : dfa.MovesWithin alphabet) :
    (dfa.merged alphabet).IsMinimal where
  reachable _ hs := (h.merged hmoves).reachable hs
  separated _ _ ha hb hne := h.separated_merged hmoves ha hb hne
  least _ _ _ hrival := (h.merged hmoves).size_le_card
    (fun _ _ ha hb hne => h.separated_merged hmoves ha hb hne) hrival

end Trim

end Dfa

/-- From every state of the automaton of an expression a path leads to its last state. -/
theorem Nfa.live_ofRegex (regex : Regex) : (ofRegex regex).Live := by
  intro state hs
  rw [size_ofRegex] at hs
  have hhosts := hosts_ofRegex regex
  obtain ⟨word, hword⟩ := hhosts.exists_path_last (Nat.zero_le state) (by omega)
  exact ⟨word, _, hword, hhosts.isAccepting_last⟩

/-- The deterministic automaton of one that covers its alphabet, and the minimal automaton of that.
-/
theorem Nfa.exists_minimize {nfa : Nfa} {tagOf : Nat → Option RuleTag} {alphabet : Alphabet}
    (hlive : nfa.Live) (hcover : ∀ c ∈ nfa.literals, c ∈ alphabet)
    (htags : ∀ state tag, tagOf state = some tag → nfa.isAccepting state = true) :
    ∃ determinized minimized, nfa.determinize tagOf alphabet = .ok determinized ∧
      determinized.minimize alphabet = .ok minimized ∧ minimized.IsMinimal := by
  have htrim := trim_subsetDfa hcover hlive htags
  have hmoves : (nfa.subsetDfa nfa.move? tagOf alphabet).MovesWithin alphabet :=
    movesWithin_subsetDfa
  exact ⟨_, _, determinize_eq_ok hcover, Dfa.minimize_eq_ok hmoves, htrim.isMinimal_merged hmoves⟩

namespace Dfa

/-- With an alphabet that holds all literals, rule sets and single patterns have minimal
automata. -/
theorem isMinimal_minimize :
    (∀ (set : RuleSet) (combined : Combined) (alphabet : Alphabet),
      Combined.ofRules set = .ok combined → (∀ c ∈ combined.nfa.literals, c ∈ alphabet) →
        ∃ determinized minimized, Dfa.ofCombined combined alphabet = .ok determinized ∧
          determinized.minimize alphabet = .ok minimized ∧ minimized.IsMinimal) ∧
    ∀ (pattern : String) (nfa : Nfa) (alphabet : Alphabet),
      Nfa.compile pattern = .ok nfa → (∀ c ∈ nfa.literals, c ∈ alphabet) →
        ∃ determinized minimized, Dfa.ofNfa nfa alphabet = .ok determinized ∧
          determinized.minimize alphabet = .ok minimized ∧ minimized.IsMinimal := by
  constructor
  · intro set combined alphabet h hcover
    obtain ⟨regexes, hbuilt⟩ := Combined.exists_built_of_ofRules h
    refine Nfa.exists_minimize hbuilt.live hcover ?_
    intro state tag htag
    exact hbuilt.isAccepting_iff.2 ⟨tag, htag⟩
  · intro pattern nfa alphabet h hcover
    obtain ⟨regex, -, rfl⟩ := Nfa.compile_eq_ok_iff.1 h
    refine Nfa.exists_minimize (Nfa.live_ofRegex regex) hcover ?_
    intro state tag htag
    cases htag

/-- The pattern `a|b` has a minimal automaton, as the only rule of a rule set and by itself. -/
theorem isMinimal_minimize_letters :
    (∃ combined determinized minimized,
      Combined.ofRules ⟨[("a|b", ⟨"letter"⟩)]⟩ = .ok combined ∧
        Dfa.ofCombined combined (.ofList ['a', 'b']) = .ok determinized ∧
          determinized.minimize (.ofList ['a', 'b']) = .ok minimized ∧ minimized.IsMinimal) ∧
    ∃ nfa determinized minimized, Nfa.compile "a|b" = .ok nfa ∧
      Dfa.ofNfa nfa (.ofList ['a', 'b']) = .ok determinized ∧
        determinized.minimize (.ofList ['a', 'b']) = .ok minimized ∧ minimized.IsMinimal := by
  have hcombined : Combined.ofRules ⟨[("a|b", ⟨"letter"⟩)]⟩ =
      .ok ⟨Combined.nfaOf [.union (.literal 'a') (.literal 'b')], [(6, ⟨⟨"letter"⟩, 0⟩)]⟩ := by rfl
  have hcompile : Nfa.compile "a|b" = .ok (.ofRegex (.union (.literal 'a') (.literal 'b'))) := by
    rfl
  obtain ⟨determinized, minimized, hrules⟩ :=
    isMinimal_minimize.1 _ _ (.ofList ['a', 'b']) hcombined
      (fun _ hc => Alphabet.mem_ofList.2 hc)
  obtain ⟨determinized', minimized', hpattern⟩ :=
    isMinimal_minimize.2 _ _ (.ofList ['a', 'b']) hcompile
      (fun _ hc => Alphabet.mem_ofList.2 hc)
  exact ⟨⟨_, determinized, minimized, hcombined, hrules⟩,
    ⟨_, determinized', minimized', hcompile, hpattern⟩⟩

end Dfa

end LexGen
