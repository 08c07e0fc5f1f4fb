import LexGen.Nfa.Basic
import LexGen.Regex

/-!
# The automaton of a regular expression

Each expression gives a block of consecutive states with one state to enter it and, as its last
state, one to leave it. Nothing leads into the entry or out of the last state from inside the
block, so blocks can be chained and nested: `Regex.block` takes the last state as an argument, and
with it all that happens after the block. Two states are added for each literal and for each
operator other than concatenation (`size_eq`), and every edge stays inside the block or is one of
the last state's (`target_of_mem_block`).

`block` measures its parts anew at every level. `Regex.layout` measures each part once and writes
the same states (`states_layout`).
-/

namespace LexGen.Regex

/-- The number of states of the block. -/
def size : Regex → Nat
  | literal _ => 2
  | concat left right => left.size + right.size
  | union left right => left.size + right.size + 2
  | repeated _ inner => inner.size + 2

/-- The place of the entry in the block. -/
def entry : Regex → Nat
  | literal _ => 0
  | concat left _ => left.entry
  | union left right => left.size + right.size
  | repeated _ inner => inner.size

/-- A state with silent edges to the given states. -/
def junction (targets : List Nat) : NfaState := ⟨targets.map (⟨none, ·⟩), false⟩

/-- The states of the block, if the first one has the number `base`. -/
def block : Regex → (base : Nat) → (last : NfaState) → List NfaState
  | literal c, base, last => [⟨[⟨some c, base + 1⟩], false⟩, last]
  | concat left right, base, last =>
    left.block base (junction [base + left.size + right.entry]) ++
      right.block (base + left.size) last
  | union left right, base, last =>
    let finish := base + left.size + right.size + 1
    left.block base (junction [finish]) ++ right.block (base + left.size) (junction [finish]) ++
      [junction [base + left.entry, base + left.size + right.entry], last]
  | repeated .star inner, base, last =>
    let finish := base + inner.size + 1
    inner.block base (junction [base + inner.entry, finish]) ++
      [junction [base + inner.entry, finish], last]
  | repeated .optional inner, base, last =>
    let finish := base + inner.size + 1
    inner.block base (junction [finish]) ++ [junction [base + inner.entry, finish], last]
  | repeated .plus inner, base, last =>
    let finish := base + inner.size + 1
    inner.block base (junction [base + inner.entry, finish]) ++
      [junction [base + inner.entry], last]

/-- A measured block: its size, the place of its entry, and its states in front of other states. -/
structure Layout where
  size : Nat
  entry : Nat
  states : (base : Nat) → (last : NfaState) → (behind : List NfaState) → List NfaState

/-- The measured block of an expression. -/
def layout : Regex → Layout
  | literal c =>
    ⟨2, 0, fun base last behind => ⟨[⟨some c, base + 1⟩], false⟩ :: last :: behind⟩
  | concat left right =>
    let a := left.layout
    let b := right.layout
    ⟨a.size + b.size, a.entry, fun base last behind =>
      a.states base (junction [base + a.size + b.entry]) (b.states (base + a.size) last behind)⟩
  | union left right =>
    let a := left.layout
    let b := right.layout
    ⟨a.size + b.size + 2, a.size + b.size, fun base last behind =>
      let finish := base + a.size + b.size + 1
      a.states base (junction [finish]) <| b.states (base + a.size) (junction [finish]) <|
        junction [base + a.entry, base + a.size + b.entry] :: last :: behind⟩
  | repeated mark inner =>
    let a := inner.layout
    ⟨a.size + 2, a.size, fun base last behind =>
      let finish := base + a.size + 1
      match mark with
      | .star =>
        a.states base (junction [base + a.entry, finish]) <|
          junction [base + a.entry, finish] :: last :: behind
      | .optional =>
        a.states base (junction [finish]) <|
          junction [base + a.entry, finish] :: last :: behind
      | .plus =>
        a.states base (junction [base + a.entry, finish]) <|
          junction [base + a.entry] :: last :: behind⟩

@[simp]
theorem size_layout (regex : Regex) : regex.layout.size = regex.size := by
  induction regex with
  | literal c => rfl
  | concat left right ihl ihr => simp [layout, size, ihl, ihr]
  | union left right ihl ihr => simp [layout, size, ihl, ihr]
  | repeated mark inner ih => simp [layout, size, ih]

@[simp]
theorem entry_layout (regex : Regex) : regex.layout.entry = regex.entry := by
  induction regex with
  | literal c => rfl
  | concat left right ihl ihr => simp [layout, entry, ihl]
  | union left right ihl ihr => simp [layout, entry]
  | repeated mark inner ih => simp [layout, entry]

/-- A layout writes the block. -/
@[simp]
theorem states_layout (regex : Regex) (base : Nat) (last : NfaState) (behind : List NfaState) :
    regex.layout.states base last behind = regex.block base last ++ behind := by
  induction regex generalizing base last behind with
  | literal c => rfl
  | concat left right ihl ihr => simp [layout, block, ihl, ihr]
  | union left right ihl ihr => simp [layout, block, ihl, ihr]
  | repeated mark inner ih => cases mark <;> simp [layout, block, ih]

theorem entry_lt (regex : Regex) : regex.entry < regex.size := by
  induction regex with
  | literal c => simp [entry, size]
  | concat left right ihl ihr => simp [entry, size]; omega
  | union left right ihl ihr => simp [entry, size]
  | repeated mark inner ih => simp [entry, size]

@[simp]
theorem length_block (regex : Regex) (base : Nat) (last : NfaState) :
    (regex.block base last).length = regex.size := by
  induction regex generalizing base last with
  | literal c => simp [block, size]
  | concat left right ihl ihr => simp [block, size, ihl, ihr]
  | union left right ihl ihr => simp [block, size, ihl, ihr, Nat.add_assoc]
  | repeated mark inner ih => cases mark <;> simp [block, size, ih]

/-- Two states for each literal and for each operator that is not a concatenation. -/
theorem size_eq (regex : Regex) :
    regex.size = 2 * (regex.postorder.filter (· != .operator (.binary .concat))).length := by
  induction regex with
  | literal c => simp [size, postorder]
  | concat left right ihl ihr => simp [size, postorder, ihl, ihr, Nat.mul_add]
  | union left right ihl ihr => simp [size, postorder, ihl, ihr, Nat.mul_add, Nat.add_assoc]
  | repeated mark inner ih => simp [size, postorder, ih, Nat.mul_add]

@[simp]
theorem mem_edges_junction {targets : List Nat} {edge : Edge} :
    edge ∈ (junction targets).edges ↔ edge.label = none ∧ edge.target ∈ targets := by
  obtain ⟨label, target⟩ := edge
  simp only [junction, List.mem_map, Edge.mk.injEq]
  exact ⟨fun ⟨_, hm, hl, ht⟩ => ⟨hl.symm, ht ▸ hm⟩, fun ⟨hl, hm⟩ => ⟨target, hm, hl.symm, rfl⟩⟩

/-- An edge of a block leads to a state of the block, unless it is one of the last state's. -/
theorem target_of_mem_block {regex : Regex} {base : Nat} {last state : NfaState} {edge : Edge}
    (hs : state ∈ regex.block base last) (he : edge ∈ state.edges) :
    (base ≤ edge.target ∧ edge.target < base + regex.size) ∨ edge ∈ last.edges := by
  induction regex generalizing base last with
  | literal c =>
    simp only [block, List.mem_cons, List.not_mem_nil, or_false] at hs
    rcases hs with rfl | rfl
    · simp only [List.mem_singleton] at he
      subst he
      left
      simp [size]
    · exact .inr he
  | concat left right ihl ihr =>
    have := right.entry_lt
    simp only [block, List.mem_append] at hs
    rcases hs with hs | hs
    · rcases ihl hs with h | h
      · simp only [size]; omega
      · simp only [mem_edges_junction, List.mem_singleton] at h
        simp only [size]; omega
    · rcases ihr hs with h | h
      · simp only [size]; omega
      · exact .inr h
  | union left right ihl ihr =>
    have := left.entry_lt
    have := right.entry_lt
    simp only [block, List.mem_append, List.mem_cons, List.not_mem_nil, or_false] at hs
    rcases hs with (hs | hs) | hs | hs
    · rcases ihl hs with h | h
      · simp only [size]; omega
      · simp only [mem_edges_junction, List.mem_singleton] at h
        simp only [size]; omega
    · rcases ihr hs with h | h
      · simp only [size]; omega
      · simp only [mem_edges_junction, List.mem_singleton] at h
        simp only [size]; omega
    · subst hs
      simp only [mem_edges_junction, List.mem_cons, List.not_mem_nil, or_false] at he
      simp only [size]; omega
    · exact .inr (hs ▸ he)
  | repeated mark inner ih =>
    have := inner.entry_lt
    have inside : ∀ {exits : List Nat},
        (∀ exit ∈ exits, base ≤ exit ∧ exit ≤ base + inner.size + 1) →
        state ∈ inner.block base (junction exits) →
        base ≤ edge.target ∧ edge.target < base + (inner.size + 2) := by
      intro exits hexits hs
      rcases ih hs with h | h
      · omega
      · have := hexits _ (mem_edges_junction.1 h).2
        omega
    cases mark <;>
      simp only [block, List.mem_append, List.mem_cons, List.not_mem_nil, or_false] at hs <;>
      rcases hs with hs | hs | hs
    all_goals first
      | exact .inr (hs ▸ he)
      | (left
         simp only [size]
         refine inside ?_ hs
         simp only [List.mem_cons, List.not_mem_nil, or_false]
         omega)
      | (subst hs
         simp only [mem_edges_junction, List.mem_cons, List.not_mem_nil, or_false] at he
         simp only [size]; omega)

end LexGen.Regex

namespace LexGen.Nfa

/-- The automaton of one expression, which accepts in its last state. -/
def ofRegex (regex : Regex) : Nfa where
  states := (regex.layout.states 0 ⟨[], true⟩ []).toArray
  start := regex.entry
  finish := some (regex.size - 1)
  start_lt := by simpa using regex.entry_lt
  target_lt state hs edge he := by
    rw [Regex.states_layout, List.append_nil] at hs ⊢
    rcases Regex.target_of_mem_block (List.mem_toArray.1 hs) he with h | h
    · simpa using h.2
    · simp at h

theorem states_ofRegex (regex : Regex) :
    (ofRegex regex).states = (regex.block 0 ⟨[], true⟩).toArray := by
  simp [ofRegex]

/-- The automaton of a pattern. -/
def compile (pattern : String) : Except PatternError Nfa := (Regex.parse pattern).map ofRegex

end LexGen.Nfa
