import LexGen.Dfa.Basic
import LexGen.Discovery

/-!
# Canonical forms

The canonical form of an automaton lists the states that can be reached, numbered in the order in
which a breadth-first search from the start meets them, and keeps of each state what a scanner
can see: acceptance, token type and moves. Automata that differ in nothing else have the same
form.
-/

namespace LexGen

structure CanonicalState where
  accepting : Bool
  tokenType : Option TokenType
  moves : List (Char × Nat)
  deriving DecidableEq, Repr

namespace Dfa

/-- The states that can be reached, in the order of a breadth-first search. -/
def reached (dfa : Dfa) : List Nat :=
  Discovery.discover (fun state => (dfa.moves state).targets) dfa.size 0 [dfa.start]

/-- What a scanner sees of a state, if `numbering` lists the states by their numbers. -/
def canonicalState (dfa : Dfa) (numbering : List Nat) (state : Nat) : CanonicalState where
  accepting := dfa.isAccepting state
  tokenType := dfa.tokenType state
  moves := (dfa.moves state).entries.filterMap fun (c, target) =>
    (numbering.idxOf? target).map (c, ·)

def canonical (dfa : Dfa) : List CanonicalState :=
  let numbering := dfa.reached
  numbering.map (dfa.canonicalState numbering)

end Dfa

end LexGen
