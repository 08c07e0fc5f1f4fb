import LexGen.Nfa.OfRegex
import LexGen.Rule.Basic

/-!
# One automaton for a rule set

State 0 is a start that all rules share, with a silent edge into the block of each rule. The
blocks follow in the order of the rules. The last state of a block accepts and carries the tag of
its rule, so a state tells which rule has matched.
-/

namespace LexGen

/-- An automaton for several rules, with the tag of the rule that ends in a state. -/
structure Combined where
  nfa : Nfa
  tags : List (Nat × RuleTag)

namespace Combined

/-- The blocks of the rules, if the first one starts at `base`. -/
def blocks (base : Nat) : List Regex → List NfaState
  | [] => []
  | regex :: rest => regex.layout.states base ⟨[], true⟩ (blocks (base + regex.size) rest)

/-- The states that enter the blocks. -/
def entries (base : Nat) : List Regex → List Nat
  | [] => []
  | regex :: rest => (base + regex.entry) :: entries (base + regex.size) rest

/-- The last states of the blocks. -/
def ends (base : Nat) : List Regex → List Nat
  | [] => []
  | regex :: rest => (base + regex.size - 1) :: ends (base + regex.size) rest

@[simp]
theorem blocks_cons (base : Nat) (regex : Regex) (rest : List Regex) :
    blocks base (regex :: rest) =
      regex.block base ⟨[], true⟩ ++ blocks (base + regex.size) rest := by
  simp [blocks]

theorem entry_lt {base : Nat} {regexes : List Regex} {state : Nat}
    (h : state ∈ entries base regexes) : state < base + (blocks base regexes).length := by
  induction regexes generalizing base with
  | nil => simp [entries] at h
  | cons regex rest ih =>
    simp only [blocks_cons, List.length_append, Regex.length_block]
    rcases List.mem_cons.1 h with rfl | h
    · have := regex.entry_lt
      omega
    · have := ih h
      omega

theorem target_of_mem_blocks {base : Nat} {regexes : List Regex} {state : NfaState} {edge : Edge}
    (hs : state ∈ blocks base regexes) (he : edge ∈ state.edges) :
    edge.target < base + (blocks base regexes).length := by
  induction regexes generalizing base with
  | nil => simp [blocks] at hs
  | cons regex rest ih =>
    simp only [blocks_cons, List.length_append, Regex.length_block]
    rcases List.mem_append.1 (blocks_cons .. ▸ hs) with hs | hs
    · rcases Regex.target_of_mem_block hs he with h | h
      · omega
      · simp at h
    · have := ih hs
      omega

/-- The automaton of several expressions. -/
def nfaOf (regexes : List Regex) : Nfa where
  states := (Regex.junction (entries 1 regexes) :: blocks 1 regexes).toArray
  start := 0
  finish := none
  start_lt := by simp
  target_lt state hs edge he := by
    rw [List.size_toArray, List.length_cons, Nat.add_comm]
    rcases List.mem_cons.1 (List.mem_toArray.1 hs) with rfl | hs
    · exact entry_lt (Regex.mem_edges_junction.1 he).2
    · exact target_of_mem_blocks hs he

/-- The automaton of a rule set. The first rule whose pattern is refused gives the error. -/
def ofRules (set : RuleSet) : Except RuleError Combined := do
  if set.isEmpty then throw .emptyRuleSet
  let regexes ← set.rules.mapM fun rule =>
    (Regex.parse rule.pattern).mapError (.malformedPattern rule.pattern)
  return ⟨nfaOf regexes, (ends 1 regexes).zip (set.rules.map Rule.tag)⟩

/-- The tag of the rule that ends in a state. -/
def tag? (combined : Combined) (state : Nat) : Option RuleTag := combined.tags.lookup state

end Combined

end LexGen
