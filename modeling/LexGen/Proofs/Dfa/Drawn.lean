import LexGen.Dfa.Diagram
import LexGen.Proofs.Dfa.Trim

/-!
# Diagrams determine automata

A diagram lists its nodes state by state and its edges state by state and character by character
(`Dfa.nodes_diagram`, `Dfa.edges_diagram`), so it lists what the automaton says about each number. A
label is read from the front: it starts with an arrow or with a digit, then comes the number, which
is known from the place of the node, and what is left is the token type in brackets, or nothing
(`Dfa.label_injective`). Brackets, arrows and digits in the name make no difference, since nothing
stands behind it but the last bracket. So two diagrams are equal exactly if the automata have the
same size, start, moves, acceptance and token types (`Dfa.diagram_eq_iff`).
-/

namespace LexGen.Dfa

variable {dfa : Dfa}

/-- What the label of a state shows behind the number: acceptance and the token type. -/
def bracket (dfa : Dfa) (state : Nat) : String :=
  if dfa.isAccepting state then " [" ++ (dfa.tokenType state).elim "accept" TokenType.name ++ "]"
  else ""

/-- The label of a state by what the automaton says about its number. -/
def label (dfa : Dfa) (state : Nat) : String :=
  (if state = dfa.start then "-> " ++ state.repr else state.repr) ++ dfa.bracket state

/-- The edges from a state. -/
def edgesFrom (dfa : Dfa) (source : Nat) : List (Nat × Nat × Char) :=
  (dfa.moves source).entries.map fun (c, target) => (source, target, c)

/-! ## Nodes and edges by numbers -/

theorem nodes_diagram (dfa : Dfa) : dfa.diagram.nodes = (List.range dfa.size).map dfa.label := by
  apply map_zipIdx_states_eq
  intro i entry hentry
  show dfa.nodeLabel i entry = dfa.label i
  rw [nodeLabel, label, bracket, isAccepting, tokenType, hentry]

theorem edges_diagram (dfa : Dfa) :
    dfa.diagram.edges = (List.range dfa.size).flatMap dfa.edgesFrom := by
  show dfa.states.toList.zipIdx.flatMap _ = _
  rw [List.flatMap_def, List.flatMap_def]
  congr 1
  apply map_zipIdx_states_eq
  intro i entry hentry
  rw [edgesFrom, moves, hentry]

/-- There is an edge for each move and no other one. -/
theorem mem_edges_diagram_iff {source target : Nat} {c : Char} :
    (source, target, c) ∈ dfa.diagram.edges ↔ dfa.next? source c = some target := by
  rw [edges_diagram, List.mem_flatMap, next?, Moves.next?_eq_some_iff]
  simp only [edgesFrom, List.mem_map, List.mem_range]
  constructor
  · rintro ⟨_, _, ⟨_, _⟩, hentry, heq⟩
    cases heq
    exact hentry
  · intro hentry
    have hsource : source < dfa.size := lt_size_of_next? (Moves.next?_eq_some_iff.2 hentry)
    exact ⟨source, hsource, _, hentry, rfl⟩

/-! ## Labels -/

theorem toList_label (dfa : Dfa) (state : Nat) : (dfa.label state).toList =
    (if state = dfa.start then ['-', '>', ' '] else []) ++
      (Nat.toDigits 10 state ++ (dfa.bracket state).toList) := by
  rw [label]
  split <;> simp

/-- A label shows whether the state is the start, and what stands behind the number. -/
theorem label_injective {a b : Dfa} {state : Nat} (h : a.label state = b.label state) :
    (state = a.start ↔ state = b.start) ∧ a.bracket state = b.bracket state := by
  obtain ⟨digit, digits, hdigits⟩ := List.exists_cons_of_ne_nil (@Nat.toDigits_ne_nil state 10)
  have hdigit : digit ≠ '-' := by
    have hisDigit := Nat.isDigit_of_mem_toDigits (b := 10) (n := state) (c := digit)
      (by decide) (by decide) (by simp [hdigits])
    rintro rfl
    cases hisDigit
  have hchars := congrArg String.toList h
  rw [toList_label, toList_label] at hchars
  by_cases ha : state = a.start
  · by_cases hb : state = b.start
    · rw [if_pos ha, if_pos hb, List.append_cancel_left_eq, List.append_cancel_left_eq] at hchars
      exact ⟨iff_of_true ha hb, String.toList_injective hchars⟩
    · rw [if_pos ha, if_neg hb, hdigits] at hchars
      exact absurd (List.cons.inj hchars).1.symm hdigit
  · by_cases hb : state = b.start
    · rw [if_neg ha, if_pos hb, hdigits] at hchars
      exact absurd (List.cons.inj hchars).1 hdigit
    · rw [if_neg ha, if_neg hb, List.append_cancel_left_eq, List.append_cancel_left_eq] at hchars
      exact ⟨iff_of_false ha hb, String.toList_injective hchars⟩

theorem Tagged.isAccepting_eq_isSome (h : dfa.Tagged) (state : Nat) :
    dfa.isAccepting state = (dfa.tokenType state).isSome := by
  rw [h.isAccepting_eq, tokenType_eq, Option.isSome_map]

/-- If the states that accept have a tag, what stands behind the number shows the token type. -/
theorem Tagged.bracket_eq (h : dfa.Tagged) (state : Nat) : dfa.bracket state =
    (dfa.tokenType state).elim "" fun tokenType => " [" ++ tokenType.name ++ "]" := by
  rw [bracket, h.isAccepting_eq_isSome]
  cases dfa.tokenType state <;> rfl

theorem Tagged.tokenType_eq_of_bracket {a b : Dfa} (ha : a.Tagged) (hb : b.Tagged) {state : Nat}
    (h : a.bracket state = b.bracket state) : a.tokenType state = b.tokenType state := by
  rw [ha.bracket_eq, hb.bracket_eq] at h
  have hchars := congrArg String.toList h
  cases hfirst : a.tokenType state with
  | none =>
    cases hsecond : b.tokenType state with
    | none => rfl
    | some second => simp [hfirst, hsecond] at hchars
  | some first =>
    cases hsecond : b.tokenType state with
    | none => simp [hfirst, hsecond] at hchars
    | some second =>
      have hname : first.name = second.name :=
        String.toList_injective (by simpa [hfirst, hsecond] using hchars)
      cases first
      cases second
      cases hname
      rfl

/-! ## Diagrams -/

/-- The automata differ at most in the subsets that states stand for and in the priorities of
tags. -/
structure DrawnAlike (a b : Dfa) : Prop where
  size_eq : a.size = b.size
  start_eq : a.start = b.start
  moves_eq : ∀ state, a.moves state = b.moves state
  isAccepting_eq : ∀ state, a.isAccepting state = b.isAccepting state
  tokenType_eq : ∀ state, a.tokenType state = b.tokenType state

theorem DrawnAlike.diagram_eq {a b : Dfa} (h : a.DrawnAlike b) : a.diagram = b.diagram := by
  have hnodes : a.diagram.nodes = b.diagram.nodes := by
    have hlabel : a.label = b.label := by
      funext state
      rw [label, label, bracket, bracket, h.start_eq, h.isAccepting_eq, h.tokenType_eq]
    rw [nodes_diagram, nodes_diagram, h.size_eq, hlabel]
  have hedges : a.diagram.edges = b.diagram.edges := by
    have hfrom : a.edgesFrom = b.edgesFrom := by
      funext state
      rw [edgesFrom, edgesFrom, h.moves_eq]
    rw [edges_diagram, edges_diagram, h.size_eq, hfrom]
  show Diagram.mk a.diagram.nodes a.diagram.edges = b.diagram
  rw [hnodes, hedges]

/-- Numbers that are not a state's have no token type. -/
theorem tokenType_of_size_le {state : Nat} (h : dfa.size ≤ state) : dfa.tokenType state = none := by
  rw [Option.eq_none_iff_forall_ne_some]
  intro tokenType htype
  exact absurd (lt_size_of_tokenType htype) (Nat.not_lt.2 h)

/-- What the nodes and the edges say about the automaton. -/
theorem DrawnAlike.of_diagram_eq {a b : Dfa} (ha : a.Tagged) (hb : b.Tagged)
    (h : a.diagram = b.diagram) : a.DrawnAlike b := by
  have hnodes : (List.range a.size).map a.label = (List.range b.size).map b.label := by
    rw [← nodes_diagram, h, nodes_diagram]
  have hsize : a.size = b.size := by simpa using congrArg List.length hnodes
  rw [← hsize] at hnodes
  have hlabel : ∀ state, state < a.size → a.label state = b.label state :=
    fun state hstate => List.map_inj_left.1 hnodes state (List.mem_range.2 hstate)
  have htype : ∀ state, a.tokenType state = b.tokenType state := by
    intro state
    rcases Nat.lt_or_ge state a.size with hstate | hstate
    · exact ha.tokenType_eq_of_bracket hb (label_injective (hlabel state hstate)).2
    · rw [tokenType_of_size_le hstate, tokenType_of_size_le (hsize ▸ hstate)]
  have hmove : ∀ state c target, a.next? state c = some target ↔ b.next? state c = some target := by
    intro state c target
    rw [← mem_edges_diagram_iff, h, mem_edges_diagram_iff]
  refine ⟨hsize, ?_, ?_, ?_, htype⟩
  · exact (label_injective (hlabel a.start a.start_lt)).1.1 rfl
  · intro state
    exact Moves.ext fun c => Option.ext (hmove state c)
  · intro state
    rw [ha.isAccepting_eq_isSome, hb.isAccepting_eq_isSome, htype]

/-- Two automata whose states accept exactly if they have a tag have the same nodes and edges
exactly if they have the same size, start and moves and the same states accept with the same token
types. -/
theorem diagram_eq_iff {a b : Dfa} (ha : a.Tagged) (hb : b.Tagged) :
    a.diagram = b.diagram ↔ a.DrawnAlike b :=
  ⟨.of_diagram_eq ha hb, DrawnAlike.diagram_eq⟩

/-- The names of the token types look like parts of a label. Of three automata with such names, the
first two have other subsets and priorities, and the last two have other starts. -/
theorem diagram_eq_iff_brackets : ∃ a b c : Dfa, a.Tagged ∧ b.Tagged ∧ c.Tagged ∧
    a.diagram = b.diagram ∧ a.DrawnAlike b ∧ ¬ b.DrawnAlike c ∧
    a.diagram.nodes = ["-> 0 [1] [-> 1]", "1 []"] := by
  let a : Dfa := ⟨#[
    ⟨.ofList [0, 3], ⟨[('[', 1), (']', 0)], by decide⟩, true, some ⟨⟨"1] [-> 1"⟩, 0⟩⟩,
    ⟨.ofList [2], ⟨[('-', 1)], by decide⟩, true, some ⟨⟨""⟩, 1⟩⟩], 0, by decide, by decide⟩
  let b : Dfa := ⟨#[
    ⟨.empty, ⟨[('[', 1), (']', 0)], by decide⟩, true, some ⟨⟨"1] [-> 1"⟩, 4⟩⟩,
    ⟨.empty, ⟨[('-', 1)], by decide⟩, true, some ⟨⟨""⟩, 2⟩⟩], 0, by decide, by decide⟩
  let c : Dfa := ⟨b.states, 1, by decide, b.target_lt⟩
  have ha : a.Tagged := by
    unfold Tagged
    decide
  have hb : b.Tagged := by
    unfold Tagged
    decide
  have hc : c.Tagged := hb
  have hequal : a.diagram = b.diagram := by decide
  refine ⟨a, b, c, ha, hb, hc, hequal, (diagram_eq_iff ha hb).1 hequal, ?_, by decide⟩
  rw [← diagram_eq_iff hb hc]
  decide

end LexGen.Dfa
