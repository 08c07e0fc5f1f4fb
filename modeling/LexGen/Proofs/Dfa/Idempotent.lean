import LexGen.Proofs.Dfa.Merge

/-!
# Minimizing once is enough

Words of symbols separate all states of a merged automaton (`Dfa.eq_of_alikeOver_merged`). Where
they do, each state is a class of its own, the classes are listed in the order of the states, and
the merged automaton is the automaton itself with all that its states carry (`Dfa.merged_eq_self`).
So minimizing for the second time changes nothing (`Dfa.minimize_idempotent`), also with an empty
alphabet, for which the first time has dropped all moves.
-/

namespace LexGen

theorem RuleTag.best?_toList (tag : Option RuleTag) : best? tag.toList = tag := by
  cases tag <;> rfl

theorem StateSet.empty_union (set : StateSet) : union empty set = set := by
  apply ext
  simp

namespace Dfa

variable {dfa : Dfa} {alphabet : Alphabet}

/-! ## Automata without alike states -/

section Separated

variable (hseparated : ∀ a b, a < dfa.size → b < dfa.size → dfa.AlikeOver alphabet a b → a = b)

include hseparated

/-- Each state is a class of its own. -/
theorem classes_of_separated :
    dfa.classes alphabet = (List.range dfa.size).map fun state => [state] := by
  rw [classes, DisjointSets.classes_eq_of_discrete, size_partition]
  intro a b ha hb hsame
  rw [size_partition] at ha hb
  exact hseparated a b ha hb ((same_partition_iff ha hb).1 hsame)

/-- The class at a state's number is that of the state. -/
theorem classNumber_of_separated {state : Nat} (h : state < dfa.size) :
    classNumber (dfa.classes alphabet) state = state := by
  have hlength : (dfa.classes alphabet).length = dfa.size := by
    rw [classes_of_separated hseparated, List.length_map, List.length_range]
  have hsingle : ∀ number, number < dfa.size →
      (dfa.classes alphabet)[number]? = some [number] := by
    intro number hnumber
    rw [classes_of_separated hseparated, List.getElem?_map, List.getElem?_range hnumber]
    rfl
  have hnumber : classNumber (dfa.classes alphabet) state < dfa.size := hlength ▸ classNumber_lt h
  rcases @exists_class dfa alphabet state h with ⟨members, hclass, hmembers⟩
  have hstate : state ∈ members := (hmembers state).2 ⟨h, rfl⟩
  rw [hsingle _ hnumber] at hclass
  cases hclass
  exact (List.mem_singleton.1 hstate).symm

variable (hmoves : dfa.MovesWithin alphabet)

include hmoves

theorem renumber_moves_of_separated (state : Nat) :
    ((dfa.moves state).within alphabet).renumber (classNumber (dfa.classes alphabet)) =
      dfa.moves state := by
  apply Moves.ext
  intro c
  rw [within_moves hmoves, Moves.next?_renumber]
  cases hnext : (dfa.moves state).next? c with
  | none => rfl
  | some target =>
    have hnumber := classNumber_of_separated hseparated (lt_of_next? hnext)
    rw [Option.map_some, hnumber]

/-- A state that is merged with no other keeps all that it carries. -/
theorem mergedState_of_separated {state : Nat} {entry : DfaState}
    (hentry : dfa.states[state]? = some entry) :
    dfa.mergedState alphabet (dfa.classes alphabet) [state] = entry := by
  have hentries : [state].filterMap (dfa.states[·]?) = [entry] := by simp [hentry]
  have htag : [entry].filterMap (·.tag) = entry.tag.toList := by
    cases htag : entry.tag <;> simp [htag]
  have hmoves : ((dfa.moves state).within alphabet).renumber (classNumber (dfa.classes alphabet)) =
      entry.moves := by
    rw [renumber_moves_of_separated hseparated hmoves, moves, hentry]
  simp only [mergedState, hentries, htag, hmoves, List.foldl_cons, List.foldl_nil,
    StateSet.empty_union, List.any_cons, List.any_nil, Bool.or_false, RuleTag.best?_toList]

/-- Merging leaves an automaton as it is if words of symbols separate its states and it has no moves
but those on symbols. -/
theorem merged_eq_self : dfa.merged alphabet = dfa := by
  have hstart : (dfa.merged alphabet).start = dfa.start :=
    classNumber_of_separated hseparated dfa.start_lt
  have hlist : (dfa.classes alphabet).map (dfa.mergedState alphabet (dfa.classes alphabet)) =
      dfa.states.toList :=
    calc
      _ = ((List.range dfa.size).map fun state => [state]).map
          (dfa.mergedState alphabet (dfa.classes alphabet)) :=
        congrArg _ (classes_of_separated hseparated)
      _ = (List.range dfa.size).map fun state =>
          dfa.mergedState alphabet (dfa.classes alphabet) [state] := List.map_map ..
      _ = dfa.states.toList.map id :=
        (map_states_eq fun _ _ hentry =>
          (mergedState_of_separated hseparated hmoves hentry).symm).symm
      _ = dfa.states.toList := List.map_id _
  have hstates : (dfa.merged alphabet).states = dfa.states :=
    (congrArg List.toArray hlist).trans (Array.toArray_toList ..)
  exact eq_of_states_eq hstates hstart

end Separated

/-! ## Merged automata -/

/-- Merged states that no word of symbols separates are the same. -/
theorem eq_of_alikeOver_merged {a b : Nat} (ha : a < (dfa.merged alphabet).size)
    (hb : b < (dfa.merged alphabet).size) (h : (dfa.merged alphabet).AlikeOver alphabet a b) :
    a = b := by
  rw [size_merged] at ha hb
  rcases exists_classNumber_eq ha with ⟨s, hs, rfl⟩
  rcases exists_classNumber_eq hb with ⟨t, ht, rfl⟩
  rw [classNumber_eq_iff hs ht]
  intro word hword
  rw [← outcome_merged hword hs, ← outcome_merged hword ht]
  exact h word hword

theorem merged_merged : (dfa.merged alphabet).merged alphabet = dfa.merged alphabet :=
  merged_eq_self (fun _ _ => eq_of_alikeOver_merged) movesWithin_merged

/-- With an empty alphabet nothing has to be covered, and no move is left. -/
theorem minimize_empty : dfa.minimize .empty = .ok (dfa.merged .empty) := by
  simp [minimize, Alphabet.uncovered?, Alphabet.isEmpty, Alphabet.empty]

/-- Minimizing a minimal automaton gives it back as it is: its states in their order with all that
they carry, and its start. -/
theorem minimize_idempotent
    (hcover : alphabet = .empty ∨ ∀ c ∈ dfa.moveChars, c ∈ alphabet) :
    ∃ minimized, dfa.minimize alphabet = .ok minimized ∧
      minimized.minimize alphabet = .ok minimized := by
  have hfirst : dfa.minimize alphabet = .ok (dfa.merged alphabet) := by
    rcases hcover with rfl | hcover
    · exact minimize_empty
    · exact minimize_eq_ok (movesWithin_iff.2 hcover)
  have hsecond : (dfa.merged alphabet).minimize alphabet = .ok (dfa.merged alphabet) := by
    rw [minimize_eq_ok movesWithin_merged, merged_merged]
  exact ⟨_, hfirst, hsecond⟩

/-- An automaton whose states 1 and 2 accept the same token with different priorities, whose state 3
accepts without a tag and is not reachable, and whose state 4 has a tag but leads nowhere. With all
its characters it has four classes, and with an empty alphabet three. -/
theorem minimize_idempotent_of_five_states : ∃ dfa minimized unmoved : Dfa,
    dfa.size = 5 ∧ minimized.size = 4 ∧ unmoved.size = 3 ∧
    dfa.minimize (.ofList ['a', 'b', 'c']) = .ok minimized ∧
    minimized.minimize (.ofList ['a', 'b', 'c']) = .ok minimized ∧
    dfa.minimize .empty = .ok unmoved ∧ unmoved.minimize .empty = .ok unmoved := by
  let tag (priority : Nat) : Option RuleTag := some ⟨⟨"word"⟩, priority⟩
  let dfa : Dfa := ⟨#[
    ⟨.ofList [2], ⟨[('a', 1), ('b', 2), ('c', 4)], by decide⟩, false, none⟩,
    ⟨.ofList [1], ⟨[('a', 1)], by decide⟩, true, tag 7⟩,
    ⟨.ofList [0], ⟨[('a', 2)], by decide⟩, true, tag 3⟩,
    ⟨.empty, ⟨[('b', 0)], by decide⟩, true, none⟩,
    ⟨.empty, ⟨[('c', 4)], by decide⟩, false, tag 0⟩], 0, by decide, by decide⟩
  have hcover : ∀ c ∈ dfa.moveChars, c ∈ Alphabet.ofList ['a', 'b', 'c'] := by
    have hchars : dfa.moveChars = ['a', 'b', 'c', 'a', 'a', 'b', 'c'] := by rfl
    simp [hchars]
  rcases minimize_idempotent (.inr hcover) with ⟨minimized, hminimize, hagain⟩
  rcases @minimize_idempotent dfa .empty (.inl rfl) with ⟨unmoved, hempty, hunmoved⟩
  have hsize : (dfa.minimize (.ofList ['a', 'b', 'c'])).toOption.map size = some 4 := by
    decide +kernel
  have hfew : (dfa.minimize .empty).toOption.map size = some 3 := by
    decide +kernel
  rw [hminimize] at hsize
  rw [hempty] at hfew
  exact ⟨dfa, minimized, unmoved, rfl, Option.some.inj hsize, Option.some.inj hfew, hminimize,
    hagain, hempty, hunmoved⟩

end Dfa

end LexGen
