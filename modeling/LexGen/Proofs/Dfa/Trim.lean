import LexGen.Dfa.Canonical
import LexGen.Dfa.Separation
import LexGen.Proofs.Dfa.Moves
import LexGen.Proofs.Discovery.Exploration

/-!
# Trim automata

What an automaton assigns to a word is the verdict on the state that the word leads to
(`Dfa.assigned`). An automaton is trim if each of its states is reachable and leads on to
acceptance, and if the numbers of its states are those of a breadth-first search from the start.
The subset construction gives trim automata, and merging states keeps them trim. Both number states
as a map of graphs does, which keeps the order of discovery (`Dfa.reached_eq_image`), and what is
discovered is what can be reached (`Dfa.mem_reached_iff`). Since no state is in vain, a trim automaton
gets stuck on a word only if nothing is assigned to any continuation (`Dfa.Trim.run_eq_none_iff`).

What a verdict shows of a state depends on where tags stand: if only states that accept have a token
type (`Dfa.TypesAccept`), the verdict shows it, and if exactly these states have a tag
(`Dfa.Tagged`), the verdict is that of the tag.
-/

namespace LexGen.Dfa

/-- What a word is assigned from a state on: nothing, or acceptance with the token type. -/
def assigned (dfa : Dfa) (state : Nat) (word : List Char) : Option (Option TokenType) :=
  (dfa.runFrom state word).bind dfa.verdict

/-- A word is assigned something from every state on, and the states are numbered from 0 on in the
order of their discovery. Only states that accept have a token type. -/
structure Trim (dfa : Dfa) : Prop where
  reached_eq : dfa.reached = List.range dfa.size
  live : ∀ state, state < dfa.size → ∃ word verdict, dfa.assigned state word = some verdict
  accepting_of_tokenType : ∀ state tokenType, dfa.tokenType state = some tokenType →
    dfa.isAccepting state = true

/-- Only states that accept have a token type. -/
def TypesAccept (dfa : Dfa) : Prop :=
  ∀ state tokenType, dfa.tokenType state = some tokenType → dfa.isAccepting state = true

/-- Exactly the states that accept have a tag. -/
def Tagged (dfa : Dfa) : Prop := ∀ entry ∈ dfa.states, entry.accepting = entry.tag.isSome

/-- Some word leads to the state, and some word leads on from it to acceptance. -/
def Useful (dfa : Dfa) (state : Nat) : Prop :=
  dfa.Reachable state ∧
    ∃ word last, dfa.runFrom state word = some last ∧ dfa.isAccepting last = true

variable {dfa : Dfa}

@[simp]
theorem assigned_nil (state : Nat) : dfa.assigned state [] = dfa.verdict state := rfl

theorem assigned_append (state : Nat) (front back : List Char) :
    dfa.assigned state (front ++ back) =
      (dfa.runFrom state front).bind fun middle => dfa.assigned middle back := by
  rw [assigned, runFrom_append, Option.bind_assoc]
  rfl

theorem assigned_cons (state : Nat) (c : Char) (word : List Char) :
    dfa.assigned state (c :: word) =
      (dfa.next? state c).bind fun next => dfa.assigned next word := by
  rw [assigned, runFrom_cons, Option.bind_assoc]
  rfl

theorem assigned_append_of_runFrom {state middle : Nat} {front : List Char} (back : List Char)
    (h : dfa.runFrom state front = some middle) :
    dfa.assigned state (front ++ back) = dfa.assigned middle back := by
  rw [assigned_append, h, Option.bind_some]

theorem run_append_singleton (word : List Char) (c : Char) :
    dfa.run (word ++ [c]) = (dfa.run word).bind (dfa.next? · c) := by
  rw [run, runFrom, List.foldlM_append]
  simp only [List.foldlM_cons, List.foldlM_nil, bind_pure]
  rfl

theorem mem_targets_iff_next? {state target : Nat} :
    target ∈ (dfa.moves state).targets ↔ ∃ c, dfa.next? state c = some target :=
  Moves.mem_targets_iff

/-! ## Verdicts -/

theorem isAccepting_eq_of_verdict {a b : Dfa} {s t : Nat} (h : a.verdict s = b.verdict t) :
    a.isAccepting s = b.isAccepting t := by
  unfold verdict at h
  cases hs : a.isAccepting s <;> cases ht : b.isAccepting t <;> simp_all

theorem Trim.typesAccept (h : dfa.Trim) : dfa.TypesAccept := h.accepting_of_tokenType

theorem TypesAccept.tokenType_eq_none (h : dfa.TypesAccept) {state : Nat}
    (hs : dfa.isAccepting state = false) : dfa.tokenType state = none := by
  cases htype : dfa.tokenType state with
  | none => rfl
  | some tokenType =>
    rw [h state tokenType htype] at hs
    cases hs

/-- Where only states that accept have a token type, the verdict shows it. -/
theorem TypesAccept.tokenType_eq_of_verdict {a b : Dfa} (ha : a.TypesAccept) (hb : b.TypesAccept)
    {s t : Nat} (h : a.verdict s = b.verdict t) : a.tokenType s = b.tokenType t := by
  have haccepting := isAccepting_eq_of_verdict h
  cases hs : a.isAccepting s with
  | false => rw [ha.tokenType_eq_none hs, hb.tokenType_eq_none (haccepting ▸ hs)]
  | true =>
    rw [verdict, verdict, ← haccepting, hs] at h
    exact Option.some.inj h

theorem Tagged.isAccepting_eq (h : dfa.Tagged) (state : Nat) :
    dfa.isAccepting state = (dfa.tag? state).isSome := by
  rw [isAccepting, tag?]
  cases hstate : dfa.states[state]? with
  | none => rfl
  | some entry => exact h entry (Array.mem_of_getElem? hstate)

theorem Tagged.verdict_eq (h : dfa.Tagged) (state : Nat) :
    dfa.verdict state = (dfa.tag? state).map fun tag => some tag.tokenType := by
  rw [verdict, h.isAccepting_eq, tokenType_eq]
  cases dfa.tag? state <;> rfl

/-! ## Discovery -/

/-- The search for the states that can be reached is complete. -/
theorem explores_reached (dfa : Dfa) :
    Discovery.Explores (fun state => (dfa.moves state).targets) 0 [dfa.start] dfa.reached := by
  have hstart : [dfa.start] ⊆ List.range dfa.size := by
    intro state hs
    rw [List.mem_singleton.1 hs]
    exact List.mem_range.2 dfa.start_lt
  refine Discovery.explores_discover (List.nodup_singleton _) hstart ?_ ?_
  · intro state _ target ht
    obtain ⟨c, hc⟩ := mem_targets_iff_next?.1 ht
    exact List.mem_range.2 (lt_of_next? hc)
  · rw [List.length_range]
    omega

theorem Reachable.next {state next : Nat} {c : Char} (hs : dfa.Reachable state)
    (h : dfa.next? state c = some next) : dfa.Reachable next := by
  obtain ⟨word, hword⟩ := hs
  refine ⟨word ++ [c], ?_⟩
  rw [run_append_singleton, hword]
  exact h

/-- What is found can be reached. -/
theorem reachable_of_mem_reached {state : Nat} (h : state ∈ dfa.reached) :
    dfa.Reachable state := by
  refine dfa.explores_reached.induction ?_ ?_ state h
  · intro start hs
    rw [List.mem_singleton.1 hs]
    exact ⟨[], rfl⟩
  · intro source hsource target ht
    obtain ⟨c, hc⟩ := mem_targets_iff_next?.1 ht
    exact hsource.next hc

theorem nodup_reached : dfa.reached.Nodup :=
  Discovery.nodup_discover _ _ _ (List.nodup_singleton _)

theorem getElem?_reached_zero : dfa.reached[0]? = some dfa.start := by
  obtain ⟨others, hothers⟩ := dfa.explores_reached.isPrefix
  rw [← hothers]
  rfl

theorem next?_mem_reached {state next : Nat} {c : Char} (hs : state ∈ dfa.reached)
    (h : dfa.next? state c = some next) : next ∈ dfa.reached :=
  dfa.explores_reached.subset_of_mem (Discovery.visited_zero _ _) state hs
    (mem_targets_iff_next?.2 ⟨c, h⟩)

theorem runFrom_mem_reached {state last : Nat} {word : List Char} (hs : state ∈ dfa.reached)
    (h : dfa.runFrom state word = some last) : last ∈ dfa.reached := by
  induction word generalizing state with
  | nil =>
    cases h
    exact hs
  | cons c word ih =>
    rw [runFrom_cons] at h
    obtain ⟨next, hnext, h⟩ := Option.bind_eq_some_iff.1 h
    exact ih (next?_mem_reached hs hnext) h

/-- Exactly the states that can be reached are found. -/
theorem mem_reached_iff {state : Nat} : state ∈ dfa.reached ↔ dfa.Reachable state := by
  refine ⟨reachable_of_mem_reached, ?_⟩
  rintro ⟨word, h⟩
  exact runFrom_mem_reached (List.mem_of_getElem? getElem?_reached_zero) h

/-- The states are discovered as the nodes of a graph are that a map takes to them, edges to moves. -/
theorem reached_eq_image {α : Type} [DecidableEq α] {next : α → List α} {first : α} {nodes : List α}
    {number : α → Nat} (h : Discovery.Explores next 0 [first] nodes)
    (hstart : number first = dfa.start)
    (hnext : ∀ node ∈ nodes, (dfa.moves (number node)).targets = (next node).map number) :
    dfa.reached = Discovery.image number nodes := by
  have himage := @Discovery.Explores.image _ _ _ _ _ (fun state => (dfa.moves state).targets)
    number _ _ _ h (Discovery.visited_zero _ _) hnext
  have hfirst : Discovery.image number [first] = [dfa.start] := by
    rw [Discovery.image, List.map_singleton, hstart]
    rfl
  rw [hfirst, List.take_zero] at himage
  exact dfa.explores_reached.unique himage

/-- The states that are found first are found in the order of their numbers, so the start is 0. -/
theorem start_eq_zero_of_reached (h : dfa.reached = List.range dfa.size) : dfa.start = 0 := by
  have hfirst := @getElem?_reached_zero dfa
  rw [h] at hfirst
  obtain ⟨_, hzero⟩ := List.getElem?_eq_some_iff.1 hfirst
  rw [← hzero, List.getElem_range]

namespace Trim

theorem reachable (h : dfa.Trim) {state : Nat} (hs : state < dfa.size) : dfa.Reachable state := by
  apply reachable_of_mem_reached
  rw [h.reached_eq]
  exact List.mem_range.2 hs

theorem start_eq_zero (h : dfa.Trim) : dfa.start = 0 := start_eq_zero_of_reached h.reached_eq

/-- A state has a move on a character exactly if some word with that character in front is assigned
something. -/
theorem next?_eq_none_iff (h : dfa.Trim) {state : Nat} {c : Char} :
    dfa.next? state c = none ↔ ∀ word, dfa.assigned state (c :: word) = none := by
  constructor
  · intro hnone word
    rw [assigned_cons, hnone, Option.bind_none]
  · intro hnone
    cases hnext : dfa.next? state c with
    | none => rfl
    | some next =>
      obtain ⟨word, verdict, hverdict⟩ := h.live next (lt_of_next? hnext)
      have hword := hnone word
      rw [assigned_cons, hnext, Option.bind_some, hverdict] at hword
      cases hword

/-- A trim automaton has no state in vain. -/
theorem useful (h : dfa.Trim) {state : Nat} (hs : state < dfa.size) : dfa.Useful state := by
  refine ⟨h.reachable hs, ?_⟩
  obtain ⟨word, verdict, hverdict⟩ := h.live state hs
  obtain ⟨last, hlast, hverdict⟩ := Option.bind_eq_some_iff.1 hverdict
  refine ⟨word, last, hlast, ?_⟩
  by_contra haccepting
  rw [Dfa.verdict, if_neg haccepting] at hverdict
  cases hverdict

/-- A trim automaton gets stuck on a word exactly if no word that starts with it is assigned
anything. -/
theorem run_eq_none_iff (h : dfa.Trim) {word : List Char} :
    dfa.run word = none ↔ ∀ back, dfa.assigned dfa.start (word ++ back) = none := by
  constructor
  · intro hnone back
    have hrun : dfa.runFrom dfa.start word = none := hnone
    rw [assigned_append, hrun, Option.bind_none]
  · intro hnone
    cases hrun : dfa.run word with
    | none => rfl
    | some last =>
      obtain ⟨back, verdict, hverdict⟩ := h.live last (lt_of_runFrom dfa.start_lt hrun)
      have hback := hnone back
      rw [assigned_append_of_runFrom back hrun, hverdict] at hback
      cases hback

end Trim

end LexGen.Dfa
