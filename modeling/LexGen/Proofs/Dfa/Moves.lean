import LexGen.Dfa.Minimal
import Mathlib.Data.List.Nodup
import Mathlib.Data.List.Perm.Basic

/-!
# Moves as a function

The moves of a state are listed in ascending order of their characters, so the list holds just
what `Moves.next?` says (`Moves.next?_eq_some_iff`), and moves that say the same are the same list
(`Moves.ext`). The characters of all moves are covered by an alphabet exactly if no state moves on
another one (`Dfa.movesWithin_iff`), and each symbol of an alphabet has one column
(`Alphabet.indexOf?_eq_some_iff`).
-/

namespace LexGen

/-- In a list without repeats an element has one place. -/
theorem idxOf?_eq_some_iff_of_nodup {α : Type} [DecidableEq α] {list : List α} {a : α} {i : Nat}
    (h : list.Nodup) : list.idxOf? a = some i ↔ list[i]? = some a := by
  rw [List.idxOf?_eq_some_iff]
  constructor
  · rintro ⟨hi, ha, _⟩
    rw [List.getElem?_eq_getElem hi]
    simpa using ha
  · intro hi
    obtain ⟨hlt, rfl⟩ := List.getElem?_eq_some_iff.1 hi
    refine ⟨hlt, by simp, ?_⟩
    intro j hj
    have hne : list[j] ≠ list[i] := by
      intro heq
      have hji := (List.Nodup.getElem_inj_iff h).1 heq
      omega
    simpa using hne

/-- Where no key occurs twice a look-up finds each entry. -/
theorem lookup_eq_some_iff_mem {α β : Type} [DecidableEq α] {list : List (α × β)} {key : α}
    {value : β} (h : (list.map Prod.fst).Nodup) :
    list.lookup key = some value ↔ (key, value) ∈ list := by
  induction list with
  | nil => simp
  | cons first rest ih =>
    obtain ⟨k, v⟩ := first
    rw [List.map_cons] at h
    obtain ⟨hk, hrest⟩ := List.nodup_cons.1 h
    rw [List.lookup_cons, List.mem_cons]
    by_cases heq : key = k
    · subst heq
      have hother : (key, value) ∉ rest := fun hm => hk (List.mem_map.2 ⟨_, hm, rfl⟩)
      simp [hother, eq_comm]
    · have hne : (key == k) = false := by simpa using heq
      simp [hne, ih hrest, heq]

namespace Moves

theorem nodup_keys (moves : Moves) : (moves.entries.map Prod.fst).Nodup := by
  rw [List.Nodup, List.pairwise_map]
  refine moves.ascending.imp ?_
  intro a b hlt heq
  rw [heq] at hlt
  exact absurd hlt (Char.lt_irrefl _)

theorem next?_eq_some_iff {moves : Moves} {c : Char} {target : Nat} :
    moves.next? c = some target ↔ (c, target) ∈ moves.entries :=
  lookup_eq_some_iff_mem moves.nodup_keys

theorem mem_targets_iff {moves : Moves} {target : Nat} :
    target ∈ moves.targets ↔ ∃ c, moves.next? c = some target := by
  simp only [targets, List.mem_map, next?_eq_some_iff]
  constructor
  · rintro ⟨⟨c, _⟩, hm, rfl⟩
    exact ⟨c, hm⟩
  · rintro ⟨c, hm⟩
    exact ⟨_, hm, rfl⟩

theorem targets_renumber (number : Nat → Nat) (moves : Moves) :
    (moves.renumber number).targets = moves.targets.map number := by
  rw [targets, renumber, targets, List.map_map, List.map_map]
  rfl

/-- Moves are determined by the states that they lead to. -/
theorem ext {a b : Moves} (h : ∀ c, a.next? c = b.next? c) : a = b := by
  have hmem : ∀ entry, entry ∈ a.entries ↔ entry ∈ b.entries := by
    rintro ⟨c, target⟩
    rw [← next?_eq_some_iff, ← next?_eq_some_iff, h c]
  have hperm : a.entries.Perm b.entries :=
    (List.perm_ext_iff_of_nodup a.nodup_keys.of_map b.nodup_keys.of_map).2 hmem
  have hentries : a.entries = b.entries := by
    refine hperm.eq_of_pairwise ?_ a.ascending b.ascending
    intro x y _ _ hxy hyx
    exact absurd (Char.lt_trans hxy hyx) (Char.lt_irrefl _)
  cases a
  cases b
  cases hentries
  rfl

end Moves

namespace Dfa

variable {dfa : Dfa}

/-- Moves are on symbols of the alphabet only. -/
def MovesWithin (dfa : Dfa) (alphabet : Alphabet) : Prop :=
  ∀ state c, (dfa.next? state c).isSome → c ∈ alphabet

/-- An automaton is determined by its states and its start. -/
theorem eq_of_states_eq {a b : Dfa} (hstates : a.states = b.states) (hstart : a.start = b.start) :
    a = b := by
  cases a
  cases b
  cases hstates
  cases hstart
  rfl

/-- What is listed state by state, with the numbers, can be listed number by number. -/
theorem map_zipIdx_states_eq {α : Type} {f : DfaState × Nat → α} {g : Nat → α}
    (h : ∀ i entry, dfa.states[i]? = some entry → f (entry, i) = g i) :
    dfa.states.toList.zipIdx.map f = (List.range dfa.size).map g := by
  apply List.ext_getElem
  · rw [List.length_map, List.length_map, List.length_range, List.length_zipIdx,
      Array.length_toList, size]
  · intro i hi _
    rw [List.length_map, List.length_zipIdx, Array.length_toList] at hi
    rw [List.getElem_map, List.getElem_map, List.getElem_range, List.getElem_zipIdx,
      Array.getElem_toList, Nat.zero_add]
    exact h i _ (Array.getElem?_eq_getElem hi)

theorem map_states_eq {α : Type} {f : DfaState → α} {g : Nat → α}
    (h : ∀ i entry, dfa.states[i]? = some entry → f entry = g i) :
    dfa.states.toList.map f = (List.range dfa.size).map g := by
  rw [← map_zipIdx_states_eq (f := f ∘ Prod.fst) h, ← List.map_map, List.zipIdx_map_fst]

/-! Numbers that are not a state's have no moves and no token type. -/

theorem lt_size_of_next? {state target : Nat} {c : Char} (h : dfa.next? state c = some target) :
    state < dfa.size := by
  apply Nat.not_le.1
  intro hge
  rw [next?, moves, Array.getElem?_eq_none hge] at h
  cases h

theorem lt_size_of_tokenType {state : Nat} {tokenType : TokenType}
    (h : dfa.tokenType state = some tokenType) : state < dfa.size := by
  apply Nat.not_le.1
  intro hge
  rw [Dfa.tokenType, Array.getElem?_eq_none hge] at h
  cases h

/-- A state moves as its entry says. -/
theorem next?_eq_some_iff {state target : Nat} {c : Char} : dfa.next? state c = some target ↔
    ∃ entry, dfa.states[state]? = some entry ∧ (c, target) ∈ entry.moves.entries := by
  rw [next?, moves]
  cases dfa.states[state]? with
  | none => simp [Moves.next?, Moves.empty]
  | some entry => simp [Moves.next?_eq_some_iff]

/-- The characters of the moves are those that some state has a move on. -/
theorem mem_moveChars_iff {c : Char} :
    c ∈ dfa.moveChars ↔ ∃ state target, dfa.next? state c = some target := by
  simp only [next?_eq_some_iff]
  constructor
  · intro hc
    rcases List.mem_flatMap.1 hc with ⟨entry, hentry, hc⟩
    rcases List.mem_map.1 hc with ⟨⟨_, target⟩, hmove, rfl⟩
    rcases Array.getElem?_of_mem (Array.mem_toList_iff.1 hentry) with ⟨state, hstate⟩
    exact ⟨state, target, entry, hstate, hmove⟩
  · rintro ⟨state, target, entry, hstate, hmove⟩
    exact List.mem_flatMap.2 ⟨entry, Array.mem_toList_iff.2 (Array.mem_of_getElem? hstate),
      List.mem_map.2 ⟨_, hmove, rfl⟩⟩

theorem movesWithin_iff {alphabet : Alphabet} :
    dfa.MovesWithin alphabet ↔ ∀ c ∈ dfa.moveChars, c ∈ alphabet := by
  simp only [MovesWithin, mem_moveChars_iff, Option.isSome_iff_exists]
  exact ⟨fun h c ⟨state, target, hnext⟩ => h state c ⟨target, hnext⟩,
    fun h state c ⟨target, hnext⟩ => h c ⟨state, target, hnext⟩⟩

end Dfa

namespace Alphabet

theorem indexOf?_eq_some_iff {alphabet : Alphabet} {c : Char} {column : Nat} :
    alphabet.indexOf? c = some column ↔ alphabet.symbols[column]? = some c := by
  have hnodup : alphabet.symbols.Nodup := by
    refine alphabet.ascending.imp ?_
    intro d e hlt heq
    exact Char.lt_irrefl e (heq ▸ hlt)
  exact idxOf?_eq_some_iff_of_nodup hnodup

theorem indexOf?_lt {alphabet : Alphabet} {c : Char} {column : Nat}
    (h : alphabet.indexOf? c = some column) : column < alphabet.size :=
  (List.getElem?_eq_some_iff.1 (indexOf?_eq_some_iff.1 h)).1

/-- An alphabet with all the characters leaves none of them uncovered. -/
theorem uncovered?_eq_none {alphabet : Alphabet} {symbols : List Char}
    (h : ∀ c ∈ symbols, c ∈ alphabet) : alphabet.uncovered? symbols = none := by
  have hfind : symbols.find? (decide <| ¬ · ∈ alphabet) = none := by
    rw [List.find?_eq_none]
    intro c hc
    simpa using h c hc
  rw [uncovered?, hfind]
  split <;> rfl

end Alphabet

end LexGen
