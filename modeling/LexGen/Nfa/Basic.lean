/-!
# Nondeterministic automata

The states of an automaton are numbered from 0. An edge without a label can be taken without
reading a character. The order of a state's edges is the order in which they were added.
-/

namespace LexGen

/-- A move to another state, on a character or silently. -/
structure Edge where
  label : Option Char
  target : Nat
  deriving DecidableEq, Repr

structure NfaState where
  edges : List Edge
  accepting : Bool
  deriving DecidableEq, Repr

/-- An automaton with a start state. Several rules in one automaton have several ends, so a single
final state is optional. Every edge leads to a state. -/
structure Nfa where
  states : Array NfaState
  start : Nat
  finish : Option Nat
  start_lt : start < states.size
  target_lt : ∀ state ∈ states, ∀ edge ∈ state.edges, edge.target < states.size

namespace Nfa

def size (nfa : Nfa) : Nat := nfa.states.size

/-- The edges out of a state. -/
def edges (nfa : Nfa) (state : Nat) : List Edge :=
  match nfa.states[state]? with
  | some entry => entry.edges
  | none => []

def isAccepting (nfa : Nfa) (state : Nat) : Bool :=
  match nfa.states[state]? with
  | some entry => entry.accepting
  | none => false

/-- The states that an edge with the given label leads to from a state. -/
def targets (nfa : Nfa) (label : Option Char) (state : Nat) : List Nat :=
  ((nfa.edges state).filter (·.label == label)).map (·.target)

/-- The labels of all edges in the order of their states, with repeats. -/
def literals (nfa : Nfa) : List Char :=
  nfa.states.toList.flatMap fun state => state.edges.filterMap (·.label)

end Nfa

end LexGen
