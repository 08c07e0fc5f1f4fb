import LexGen.Alphabet
import LexGen.Rule.Basic
import LexGen.StateSet

/-!
# Deterministic automata

From a state at most one move is possible on a character; where there is none, the automaton is
stuck. A state stands for a set of states of the nondeterministic automaton it was made from, and
an accepting state may carry the tag of the rule that has matched.
-/

namespace LexGen

/-- The moves of a state in ascending order of their characters. -/
structure Moves where
  entries : List (Char × Nat)
  ascending : entries.Pairwise (·.1 < ·.1)
  deriving DecidableEq, Repr

namespace Moves

def empty : Moves := ⟨[], .nil⟩

/-- The state that the move on a character leads to. -/
def next? (moves : Moves) (c : Char) : Option Nat := moves.entries.lookup c

def targets (moves : Moves) : List Nat := moves.entries.map (·.2)

/-- The moves on those symbols of an alphabet for which `target` gives a state. -/
def ofAlphabet (alphabet : Alphabet) (target : Char → Option Nat) : Moves where
  entries := alphabet.symbols.filterMap fun c => (target c).map (c, ·)
  ascending := by
    refine alphabet.ascending.filterMap _ ?_
    intro c d hlt move hm other ho
    simp only [Option.map_eq_some_iff] at hm ho
    obtain ⟨_, _, rfl⟩ := hm
    obtain ⟨_, _, rfl⟩ := ho
    exact hlt

/-- The moves on symbols of an alphabet. -/
def within (alphabet : Alphabet) (moves : Moves) : Moves :=
  ⟨moves.entries.filter (decide <| ·.1 ∈ alphabet), moves.ascending.filter _⟩

/-- The moves with their targets renumbered. -/
def renumber (number : Nat → Nat) (moves : Moves) : Moves :=
  ⟨moves.entries.map fun (c, target) => (c, number target),
    List.pairwise_map.2 moves.ascending⟩

theorem mem_targets_of_next? {moves : Moves} {c : Char} {target : Nat}
    (h : moves.next? c = some target) : target ∈ moves.targets := by
  unfold Moves.next? at h
  unfold Moves.targets
  generalize moves.entries = entries at h ⊢
  induction entries with
  | nil => simp at h
  | cons entry rest ih =>
    rw [List.lookup_cons] at h
    split at h
    · simp_all
    · exact List.mem_cons_of_mem _ (ih h)

theorem lookup_filterMap {symbols : List Char} {target : Char → Option Nat} {c : Char} :
    (symbols.filterMap fun d => (target d).map (d, ·)).lookup c =
      if c ∈ symbols then target c else none := by
  induction symbols with
  | nil => rfl
  | cons d rest ih =>
    rw [List.filterMap_cons]
    by_cases hd : c = d
    · subst hd
      cases ht : target c with
      | none => simp [ht, ih]
      | some state => simp
    · cases ht : target d with
      | none => simp [ih, hd]
      | some state =>
        have hb : (c == d) = false := by simpa using hd
        simp [List.lookup_cons, hb, ih, hd]

@[simp]
theorem next?_ofAlphabet {alphabet : Alphabet} {target : Char → Option Nat} {c : Char} :
    (ofAlphabet alphabet target).next? c = if c ∈ alphabet then target c else none :=
  lookup_filterMap

@[simp]
theorem next?_renumber {number : Nat → Nat} {moves : Moves} {c : Char} :
    (moves.renumber number).next? c = (moves.next? c).map number := by
  simp only [next?, renumber]
  generalize moves.entries = entries
  induction entries with
  | nil => rfl
  | cons entry rest ih =>
    rw [List.map_cons, List.lookup_cons, List.lookup_cons, ih]
    split <;> rfl

@[simp]
theorem next?_within {alphabet : Alphabet} {moves : Moves} {c : Char} :
    (moves.within alphabet).next? c = if c ∈ alphabet then moves.next? c else none := by
  simp only [next?, within]
  generalize moves.entries = entries
  induction entries with
  | nil => simp
  | cons entry rest ih =>
    obtain ⟨d, state⟩ := entry
    rw [List.filter_cons]
    by_cases hd : c = d
    · subst hd
      by_cases hm : c ∈ alphabet
      · simp [hm]
      · simp [hm, ih]
    · have hb : (c == d) = false := by simpa using hd
      by_cases hm : d ∈ alphabet
      · simp [hm, List.lookup_cons, hb, ih]
      · simp [hm, List.lookup_cons, hb, ih]

theorem exists_of_mem_ofAlphabet {alphabet : Alphabet} {target : Char → Option Nat} {state : Nat}
    (h : state ∈ (ofAlphabet alphabet target).targets) :
    ∃ c ∈ alphabet, target c = some state := by
  simp only [targets, ofAlphabet, List.mem_map, List.mem_filterMap, Option.map_eq_some_iff] at h
  obtain ⟨_, ⟨c, hc, _, ht, rfl⟩, rfl⟩ := h
  exact ⟨c, hc, ht⟩

theorem mem_targets_renumber {number : Nat → Nat} {moves : Moves} {state : Nat} :
    state ∈ (moves.renumber number).targets ↔ ∃ target ∈ moves.targets, number target = state := by
  simp only [targets, renumber, List.map_map, List.mem_map, Function.comp_apply]
  exact ⟨fun ⟨move, hm, h⟩ => ⟨move.2, ⟨move, hm, rfl⟩, h⟩, fun ⟨_, ⟨move, hm, ht⟩, h⟩ =>
    ⟨move, hm, ht ▸ h⟩⟩

theorem mem_targets_of_within {alphabet : Alphabet} {moves : Moves} {state : Nat}
    (h : state ∈ (moves.within alphabet).targets) : state ∈ moves.targets := by
  simp only [targets, within, List.mem_map, List.mem_filter] at h ⊢
  obtain ⟨move, hm, rfl⟩ := h
  exact ⟨move, hm.1, rfl⟩

end Moves

structure DfaState where
  subset : StateSet
  moves : Moves
  accepting : Bool
  tag : Option RuleTag
  deriving DecidableEq, Repr

def DfaState.tokenType (state : DfaState) : Option TokenType := state.tag.map (·.tokenType)

/-- An automaton whose start and whose moves are among its states. -/
structure Dfa where
  states : Array DfaState
  start : Nat
  start_lt : start < states.size
  target_lt : ∀ state ∈ states, ∀ target ∈ state.moves.targets, target < states.size
  deriving DecidableEq

namespace Dfa

def size (dfa : Dfa) : Nat := dfa.states.size

/-- The moves of a state; none for a number that is not a state's. -/
def moves (dfa : Dfa) (state : Nat) : Moves :=
  match dfa.states[state]? with
  | some entry => entry.moves
  | none => .empty

def isAccepting (dfa : Dfa) (state : Nat) : Bool :=
  match dfa.states[state]? with
  | some entry => entry.accepting
  | none => false

def tokenType (dfa : Dfa) (state : Nat) : Option TokenType :=
  match dfa.states[state]? with
  | some entry => entry.tokenType
  | none => none

/-- The states that a state stands for. -/
def subset (dfa : Dfa) (state : Nat) : StateSet :=
  match dfa.states[state]? with
  | some entry => entry.subset
  | none => .empty

/-- The tag of a state. -/
def tag? (dfa : Dfa) (state : Nat) : Option RuleTag := dfa.states[state]?.bind (·.tag)

theorem tokenType_eq (dfa : Dfa) (state : Nat) :
    dfa.tokenType state = (dfa.tag? state).map (·.tokenType) := by
  unfold tokenType tag?
  cases dfa.states[state]? <;> rfl

/-- The state after a character. -/
def next? (dfa : Dfa) (state : Nat) (c : Char) : Option Nat := (dfa.moves state).next? c

/-- The state that a word leads to from a state; none if the automaton gets stuck on it. -/
def runFrom (dfa : Dfa) (state : Nat) (word : List Char) : Option Nat :=
  word.foldlM dfa.next? state

/-- The state after a word. -/
def run (dfa : Dfa) (word : List Char) : Option Nat := dfa.runFrom dfa.start word

def accepts (dfa : Dfa) (word : List Char) : Bool := (dfa.run word).any dfa.isAccepting

/-- The accepting states in ascending order. -/
def accepting (dfa : Dfa) : List Nat := (List.range dfa.size).filter dfa.isAccepting

end Dfa

end LexGen
