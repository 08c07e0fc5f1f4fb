import LexGen.Nfa.Run

/-!
# Paths

A path goes along edges from state to state, and the word it reads is made of the labels on its
way. What an automaton means is stated by its paths: they are given by rules, and not by the
search that `Nfa.closure` carries out. Paths can be joined (`Path.append`) and cut where their
word is cut (`path_append_iff`).
-/

namespace LexGen.Nfa

/-- A path from one state to another that reads a word. -/
inductive Path (nfa : Nfa) : Nat → List Char → Nat → Prop where
  | nil (state : Nat) : Path nfa state [] state
  | silent {source next target : Nat} {word : List Char} :
    next ∈ nfa.targets none source → Path nfa next word target → Path nfa source word target
  | read {source next target : Nat} {c : Char} {word : List Char} :
    next ∈ nfa.targets (some c) source → Path nfa next word target →
      Path nfa source (c :: word) target

/-- Some path reads the word from the start to an accepting state. -/
def Recognizes (nfa : Nfa) (word : List Char) : Prop :=
  ∃ state, nfa.Path nfa.start word state ∧ nfa.isAccepting state = true

theorem Path.append {nfa : Nfa} {source middle target : Nat} {front back : List Char}
    (hf : nfa.Path source front middle) (hb : nfa.Path middle back target) :
    nfa.Path source (front ++ back) target := by
  induction hf with
  | nil => exact hb
  | silent h _ ih => exact .silent h (ih hb)
  | read h _ ih => exact .read h (ih hb)

theorem path_append_iff {nfa : Nfa} {source target : Nat} {front back : List Char} :
    nfa.Path source (front ++ back) target ↔
      ∃ middle, nfa.Path source front middle ∧ nfa.Path middle back target := by
  constructor
  · intro h
    generalize hw : front ++ back = word at h
    induction h generalizing front with
    | nil state =>
      obtain ⟨rfl, rfl⟩ := List.append_eq_nil_iff.1 hw
      exact ⟨state, .nil state, .nil state⟩
    | silent h _ ih =>
      obtain ⟨middle, hf, hb⟩ := ih hw
      exact ⟨middle, .silent h hf, hb⟩
    | @read source next target c word h hp ih =>
      cases front with
      | nil =>
        rw [List.nil_append] at hw
        exact ⟨source, .nil source, hw ▸ .read h hp⟩
      | cons d front =>
        obtain ⟨rfl, ht⟩ := List.cons.inj hw
        obtain ⟨middle, hf, hb⟩ := ih ht
        exact ⟨middle, .read h hf, hb⟩
  · rintro ⟨middle, hf, hb⟩
    exact hf.append hb

/-- A target of an edge is a state. -/
theorem lt_of_mem_targets {nfa : Nfa} {label : Option Char} {source target : Nat}
    (h : target ∈ nfa.targets label source) : target < nfa.size := by
  simp only [targets, List.mem_map, List.mem_filter] at h
  obtain ⟨edge, ⟨he, _⟩, rfl⟩ := h
  unfold edges at he
  split at he
  next entry hs => exact nfa.target_lt entry (Array.mem_of_getElem? hs) edge he
  next => simp at he

/-- A path that starts in a state ends in one. -/
theorem Path.lt_size {nfa : Nfa} {source target : Nat} {word : List Char}
    (h : nfa.Path source word target) (hs : source < nfa.size) : target < nfa.size := by
  induction h with
  | nil => exact hs
  | silent h _ ih => exact ih (lt_of_mem_targets h)
  | read h _ ih => exact ih (lt_of_mem_targets h)

end LexGen.Nfa
