import LexGen.Dfa.OfNfa
import LexGen.Dfa.PairMarks
import LexGen.DisjointSets

/-!
# Minimal automata

Two states are told apart if one accepts and the other does not, if they accept with different
token types, or if some character leads to states that are told apart, where being stuck is apart
from every state. `Dfa.distinguished` marks pairs in passes until a pass marks nothing new; each
other pass marks a pair, so the number of pairs bounds the passes. States that are not told apart
are merged, and the merged states are numbered by their least members.
-/

namespace LexGen

namespace Dfa

/-- The pair is told apart by the empty word. -/
def apartAtOnce (dfa : Dfa) (pair : Pair dfa.size) : Bool :=
  if dfa.isAccepting pair.low = dfa.isAccepting pair.high then
    dfa.isAccepting pair.low && dfa.tokenType pair.low != dfa.tokenType pair.high
  else true

/-- The two states are different and their pair is marked. -/
def apartIn {n : Nat} (marks : PairMarks n) (a b : Nat) : Bool := (Pair.of? n a b).any marks.get

/-- Some symbol leads from the pair to a marked pair, or leads on from one of the two only. -/
def splits (dfa : Dfa) (alphabet : Alphabet) (marks : PairMarks dfa.size) (pair : Pair dfa.size) :
    Bool :=
  alphabet.symbols.any fun c =>
    match dfa.next? pair.low c, dfa.next? pair.high c with
    | some a, some b => apartIn marks a b
    | none, none => false
    | _, _ => true

/-- Go through all pairs and mark those that a symbol splits. -/
def pass (dfa : Dfa) (alphabet : Alphabet) (marks : PairMarks dfa.size) : PairMarks dfa.size :=
  (Pair.all dfa.size).foldl
    (fun marks pair =>
      if !marks.get pair && dfa.splits alphabet marks pair then marks.mark pair else marks)
    marks

/-- Repeat the pass until it marks nothing new. -/
def refine (dfa : Dfa) (alphabet : Alphabet) :
    (bound : Nat) → PairMarks dfa.size → PairMarks dfa.size
  | 0, marks => marks
  | bound + 1, marks =>
    let next := dfa.pass alphabet marks
    if next = marks then marks else refine dfa alphabet bound next

/-- The pairs that the empty word tells apart. -/
def apartMarks (dfa : Dfa) : PairMarks dfa.size :=
  (Pair.all dfa.size).foldl
    (fun marks pair => if dfa.apartAtOnce pair then marks.mark pair else marks) .empty

/-- The pairs that some word tells apart. -/
def distinguished (dfa : Dfa) (alphabet : Alphabet) : PairMarks dfa.size :=
  dfa.refine alphabet (dfa.size * (dfa.size - 1) / 2) dfa.apartMarks

/-- The states, joined where they are not told apart. -/
def partition (dfa : Dfa) (alphabet : Alphabet) : DisjointSets :=
  let marks := dfa.distinguished alphabet
  (Pair.all dfa.size).foldl
    (fun sets pair => if marks.get pair then sets else (sets.union pair.low pair.high).2)
    (.singletons dfa.size)

/-- The sets of states that are merged. -/
def classes (dfa : Dfa) (alphabet : Alphabet) : List (List Nat) := (dfa.partition alphabet).classes

/-- The number of the merged state that a state becomes part of. -/
def classNumber (classes : List (List Nat)) (state : Nat) : Nat :=
  classes.findIdx (·.contains state)

/-- The state that several states are merged into. They agree on their moves up to merging, so the
moves are those of the first one. -/
def mergedState (dfa : Dfa) (alphabet : Alphabet) (classes : List (List Nat)) (members : List Nat) :
    DfaState :=
  let entries := members.filterMap (dfa.states[·]?)
  { subset := entries.foldl (fun set entry => set.union entry.subset) .empty
    moves :=
      match members with
      | first :: _ => ((dfa.moves first).within alphabet).renumber (classNumber classes)
      | [] => .empty
    accepting := entries.any (·.accepting)
    tag := RuleTag.best? (entries.filterMap (·.tag)) }

theorem size_partition (dfa : Dfa) (alphabet : Alphabet) :
    (dfa.partition alphabet).size = dfa.size := by
  have : ∀ (pairs : List (Pair dfa.size)) (sets : DisjointSets) (marks : PairMarks dfa.size),
      (pairs.foldl (fun sets pair => if marks.get pair then sets
        else (sets.union pair.low pair.high).2) sets).size = sets.size := by
    intro pairs
    induction pairs with
    | nil => intros; rfl
    | cons pair rest ih =>
      intro sets marks
      rw [List.foldl_cons, ih]
      split
      · rfl
      · exact DisjointSets.size_union ..
  rw [partition, this, DisjointSets.size_singletons]

/-- Every state has a class. -/
theorem classNumber_lt {dfa : Dfa} {alphabet : Alphabet} {state : Nat} (h : state < dfa.size) :
    classNumber (dfa.classes alphabet) state < (dfa.classes alphabet).length := by
  have hm : state ∈ (dfa.classes alphabet).flatten :=
    DisjointSets.mem_flatten_classes.2 (by rwa [size_partition])
  obtain ⟨members, hc, hs⟩ := List.mem_flatten.1 hm
  exact List.findIdx_lt_length_of_exists ⟨members, hc, by simpa using hs⟩

/-- The automaton with equivalent states merged. -/
def merged (dfa : Dfa) (alphabet : Alphabet) : Dfa where
  states := ((dfa.classes alphabet).map (dfa.mergedState alphabet (dfa.classes alphabet))).toArray
  start := classNumber (dfa.classes alphabet) dfa.start
  start_lt := by
    rw [List.size_toArray, List.length_map]
    exact classNumber_lt dfa.start_lt
  target_lt state hs target ht := by
    rw [List.size_toArray, List.length_map]
    simp only [List.mem_toArray, List.mem_map] at hs
    obtain ⟨members, _, rfl⟩ := hs
    cases members with
    | nil => simp [mergedState, Moves.empty, Moves.targets] at ht
    | cons first rest =>
      obtain ⟨old, ho, rfl⟩ := Moves.mem_targets_renumber.1 ht
      have ho := Moves.mem_targets_of_within ho
      refine classNumber_lt ?_
      unfold moves at ho
      split at ho
      next entry he => exact dfa.target_lt entry (Array.mem_of_getElem? he) old ho
      next => simp [Moves.empty, Moves.targets] at ho

/-- The characters of all moves in the order of the states. -/
def moveChars (dfa : Dfa) : List Char :=
  dfa.states.toList.flatMap fun state => state.moves.entries.map (·.1)

/-- The minimal automaton. The alphabet has to hold the characters of all moves, unless it is
empty, and then no move is left. -/
def minimize (dfa : Dfa) (alphabet : Alphabet) : Except Fault Dfa :=
  match alphabet.uncovered? dfa.moveChars with
  | some c => .error (.uncoveredMove c)
  | none => .ok (dfa.merged alphabet)

end Dfa

end LexGen
