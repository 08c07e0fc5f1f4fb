import LexGen.Nfa.Basic
import LexGen.StateSet

/-!
# Running a nondeterministic automaton

After each character the automaton is in a set of states: those that the word read so far can
lead to. `closure` adds what silent edges reach. It is a search in which every state enters the
pending list at most once, since it is marked as seen when it enters, so the number of states
bounds its steps.

A construction that asks for many moves looks up the closures of single states in a table. It
makes the same moves (`moveBy?_reaches`).
-/

namespace LexGen.Nfa

/-- Mark a state as seen and pending, unless it is seen already. -/
def mark (search : List Nat × StateSet) (state : Nat) : List Nat × StateSet :=
  if state ∈ search.2 then search else (state :: search.1, search.2.insert state)

/-- Follow the edges from the pending states to all that they reach. -/
def saturate (next : Nat → List Nat) : (bound : Nat) → (pending : List Nat) → StateSet → StateSet
  | 0, _, seen => seen
  | _ + 1, [], seen => seen
  | bound + 1, state :: pending, seen =>
    let (pending, seen) := (next state).foldl mark (pending, seen)
    saturate next bound pending seen

/-- The given states together with all that silent edges reach from them. -/
def closure (nfa : Nfa) (states : List Nat) : StateSet :=
  saturate (nfa.targets none) (states.length + nfa.size) states (StateSet.ofList states)

/-- The states before any character is read. -/
def initial (nfa : Nfa) : StateSet := nfa.closure [nfa.start]

/-- The states that edges with a given character lead to from the given states, with repeats. -/
def step (nfa : Nfa) (states : List Nat) (c : Char) : List Nat :=
  states.flatMap (nfa.targets (some c))

theorem mem_step {nfa : Nfa} {states : List Nat} {c : Char} {target : Nat} :
    target ∈ nfa.step states c ↔ ∃ source ∈ states, target ∈ nfa.targets (some c) source := by
  simp [step, List.mem_flatMap]

/-- The set of states after one more character, if there are any. -/
def move? (nfa : Nfa) (states : List Nat) (c : Char) : Option StateSet :=
  match nfa.step states c with
  | [] => none
  | next => some (nfa.closure next)

/-- For each state the states that silent edges reach from it. A set is computed when it is asked
for the first time. -/
def reaches (nfa : Nfa) : Array (Thunk StateSet) :=
  (Array.range nfa.size).map fun state => Thunk.mk fun _ => nfa.closure [state]

/-- What silent edges reach from the given states, put together from `reaches`. -/
def gather (reaches : Array (Thunk StateSet)) (states : List Nat) : StateSet :=
  states.foldr (fun state set => (reaches[state]?.elim .empty Thunk.get).union set) .empty

/-- `move?` with the silent edges looked up in a table. -/
def moveBy? (nfa : Nfa) (reaches : Array (Thunk StateSet)) (states : List Nat) (c : Char) :
    Option StateSet :=
  match nfa.step states c with
  | [] => none
  | next => some (gather reaches next)

/-- The states after a word; none if some character could not be read. -/
def run (nfa : Nfa) (word : List Char) : Option StateSet :=
  word.foldlM (fun set c => nfa.move? set.members c) nfa.initial

/-- The set holds an accepting state. -/
def acceptsIn (nfa : Nfa) (set : StateSet) : Bool := set.members.any nfa.isAccepting

def accepts (nfa : Nfa) (word : List Char) : Bool := (nfa.run word).any nfa.acceptsIn

end LexGen.Nfa
