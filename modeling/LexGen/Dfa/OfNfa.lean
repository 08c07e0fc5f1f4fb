import LexGen.Dfa.Basic
import LexGen.Discovery
import LexGen.Fault
import LexGen.Nfa.Run
import LexGen.Rule.Combined

/-!
# Subset construction

The deterministic automaton has a state for each set of states that the nondeterministic one can
be in, and numbers these sets in the order in which a breadth-first search meets them. The
alphabet has to hold all literals, unless it is empty, and then the automaton never moves. A state
takes the best tag among the members of its set.
-/

namespace LexGen

/-- The first of the characters that is not in the alphabet. An empty alphabet asks for none. -/
def Alphabet.uncovered? (alphabet : Alphabet) (symbols : List Char) : Option Char :=
  if alphabet.isEmpty then none else symbols.find? (decide <| ¬ · ∈ alphabet)

/-- The tag of the highest priority, which is the least number; the first one of several. -/
def RuleTag.best? (tags : List RuleTag) : Option RuleTag := tags.minOn? (·.priority)

namespace Nfa

/-- The sets that `move` leads to in one step, in the order of the symbols. -/
def successors (move : List Nat → Char → Option StateSet) (alphabet : Alphabet) (set : StateSet) :
    List StateSet :=
  let states := set.members
  alphabet.symbols.filterMap (move states)

/-- The sets that the automaton can be in. There are no more than subsets of its states. -/
def subsets (nfa : Nfa) (move : List Nat → Char → Option StateSet) (alphabet : Alphabet) :
    List StateSet :=
  Discovery.discover (successors move alphabet) (1 <<< nfa.size) 0 [nfa.initial]

/-- The state that stands for a set, if `found` lists the sets by their numbers. -/
def subsetState (nfa : Nfa) (move : List Nat → Char → Option StateSet)
    (tagOf : Nat → Option RuleTag) (alphabet : Alphabet) (found : List StateSet) (set : StateSet) :
    DfaState :=
  let states := set.members
  { subset := set
    moves := .ofAlphabet alphabet fun c => (move states c).bind found.idxOf?
    accepting := states.any nfa.isAccepting
    tag := RuleTag.best? (states.filterMap tagOf) }

/-- The automaton of the subsets, where `move` gives the set after one more character. -/
def subsetDfa (nfa : Nfa) (move : List Nat → Char → Option StateSet)
    (tagOf : Nat → Option RuleTag) (alphabet : Alphabet) : Dfa where
  states := ((nfa.subsets move alphabet).map
    (nfa.subsetState move tagOf alphabet (nfa.subsets move alphabet))).toArray
  start := 0
  start_lt := by
    rw [List.size_toArray, List.length_map]
    exact Discovery.length_le_length_discover (successors move alphabet) _ 0 [nfa.initial]
  target_lt state hs target ht := by
    simp only [List.mem_toArray, List.mem_map] at hs
    obtain ⟨set, _, rfl⟩ := hs
    obtain ⟨c, _, hc⟩ := Moves.exists_of_mem_ofAlphabet ht
    obtain ⟨next, _, hn⟩ := Option.bind_eq_some_iff.1 hc
    obtain ⟨h, _⟩ := List.idxOf?_eq_some_iff.1 hn
    simpa using h

/-- The deterministic automaton, where `tagOf` gives the tags of the accepting states. -/
def determinize (nfa : Nfa) (tagOf : Nat → Option RuleTag) (alphabet : Alphabet) :
    Except Fault Dfa :=
  match alphabet.uncovered? nfa.literals with
  | some c => .error (.uncoveredLiteral c)
  | none => .ok (nfa.subsetDfa (nfa.moveBy? nfa.reaches) tagOf alphabet)

end Nfa

/-- The deterministic automaton of a single pattern, which carries no tags. -/
def Dfa.ofNfa (nfa : Nfa) (alphabet : Alphabet) : Except Fault Dfa :=
  nfa.determinize (fun _ => none) alphabet

/-- The deterministic automaton of a rule set. -/
def Dfa.ofCombined (combined : Combined) (alphabet : Alphabet) : Except Fault Dfa :=
  combined.nfa.determinize combined.tag? alphabet

end LexGen
