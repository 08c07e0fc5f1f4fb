import LexGen.Nfa.OfRegex
import LexGen.Nfa.Path
import LexGen.Regex.Language

/-!
# Blocks read the words of their expressions

A path that enters the block of an expression and ends behind it reads a word of the expression
before it comes to the block's last state (`Hosts.leaves`), and each word of the expression is read
on such a path (`Hosts.path_of_matches`). The block may stand anywhere in an automaton, and nothing
is known of its last state, so the parts of a block are blocks to which the same applies. The rest
of a path is shorter than the whole, which is what a repetition needs to go round once more.

From each state of a block there is a way to its last state (`Hosts.exists_path_last`), and no other
state of the block accepts (`Hosts.isAccepting_eq_false`).
-/

namespace LexGen

namespace Nfa

variable {nfa : Nfa}

/-- A path of a given number of edges. -/
inductive Steps (nfa : Nfa) : Nat → Nat → List Char → Nat → Prop where
  | nil (state : Nat) : Steps nfa 0 state [] state
  | cons {n source target : Nat} {edge : Edge} {word : List Char} :
    edge ∈ nfa.edges source → Steps nfa n edge.target word target →
      Steps nfa (n + 1) source (edge.label.toList ++ word) target

theorem mem_targets_iff {label : Option Char} {source target : Nat} :
    target ∈ nfa.targets label source ↔ (⟨label, target⟩ : Edge) ∈ nfa.edges source := by
  simp only [targets, List.mem_map, List.mem_filter, beq_iff_eq]
  constructor
  · rintro ⟨⟨_, _⟩, ⟨he, rfl⟩, rfl⟩
    exact he
  · intro he
    exact ⟨_, ⟨he, rfl⟩, rfl⟩

/-- An edge goes in front of a path, and its label in front of the path's word. -/
theorem Path.cons {source target : Nat} {edge : Edge} {word : List Char}
    (h : nfa.Path edge.target word target) (he : edge ∈ nfa.edges source) :
    nfa.Path source (edge.label.toList ++ word) target := by
  obtain ⟨label, next⟩ := edge
  cases label with
  | none => exact .silent (mem_targets_iff.2 he) h
  | some c => exact .read (mem_targets_iff.2 he) h

theorem Path.steps {source target : Nat} {word : List Char} (h : nfa.Path source word target) :
    ∃ n, nfa.Steps n source word target := by
  induction h with
  | nil state => exact ⟨0, .nil state⟩
  | silent he _ ih =>
    obtain ⟨n, h⟩ := ih
    exact ⟨n + 1, .cons (mem_targets_iff.1 he) h⟩
  | read he _ ih =>
    obtain ⟨n, h⟩ := ih
    exact ⟨n + 1, .cons (mem_targets_iff.1 he) h⟩

theorem Steps.path {n source target : Nat} {word : List Char}
    (h : nfa.Steps n source word target) : nfa.Path source word target := by
  induction h with
  | nil state => exact .nil state
  | cons he _ ih => exact ih.cons he

/-- The automaton has the given states from number `base` on. -/
def Hosts (nfa : Nfa) (base : Nat) (states : List NfaState) : Prop :=
  ∀ i state, states[i]? = some state → nfa.states[base + i]? = some state

theorem hosts_append {base : Nat} {front back : List NfaState} :
    nfa.Hosts base (front ++ back) ↔
      nfa.Hosts base front ∧ nfa.Hosts (base + front.length) back := by
  constructor
  · intro h
    refine ⟨?_, ?_⟩
    · intro i state hi
      have hlt : i < front.length := (List.getElem?_eq_some_iff.1 hi).1
      exact h i state (by rw [List.getElem?_append_left hlt, hi])
    · intro i state hi
      rw [Nat.add_assoc]
      exact h _ state (by rw [List.getElem?_append_right (by omega), Nat.add_sub_cancel_left, hi])
  · rintro ⟨hfront, hback⟩ i state hi
    by_cases hlt : i < front.length
    · rw [List.getElem?_append_left hlt] at hi
      exact hfront i state hi
    · rw [List.getElem?_append_right (by omega)] at hi
      have hstate := hback _ state hi
      rwa [show base + front.length + (i - front.length) = base + i by omega] at hstate

theorem hosts_cons {base : Nat} {first : NfaState} {rest : List NfaState} :
    nfa.Hosts base (first :: rest) ↔
      nfa.states[base]? = some first ∧ nfa.Hosts (base + 1) rest := by
  rw [← List.singleton_append, hosts_append, List.length_singleton]
  refine and_congr_left fun _ => ?_
  constructor
  · exact fun h => h 0 first rfl
  · intro h i state hi
    obtain ⟨hlt, rfl⟩ := List.getElem?_eq_some_iff.1 hi
    simp only [List.length_singleton] at hlt
    obtain rfl : i = 0 := by omega
    exact h

theorem edges_of_getElem? {state : Nat} {entry : NfaState} (h : nfa.states[state]? = some entry) :
    nfa.edges state = entry.edges := by
  rw [edges, h]

theorem isAccepting_of_getElem? {state : Nat} {entry : NfaState}
    (h : nfa.states[state]? = some entry) : nfa.isAccepting state = entry.accepting := by
  rw [isAccepting, h]

/-- A path from a state that is not its end goes on along one of the state's edges. -/
theorem Steps.next {n source target : Nat} {word : List Char} {entry : NfaState}
    (h : nfa.Steps n source word target) (hs : nfa.states[source]? = some entry)
    (hne : target ≠ source) :
    ∃ m edge rest, n = m + 1 ∧ edge ∈ entry.edges ∧ word = edge.label.toList ++ rest ∧
      nfa.Steps m edge.target rest target := by
  cases h with
  | nil => exact absurd rfl hne
  | cons he h =>
    rw [edges_of_getElem? hs] at he
    exact ⟨_, _, _, rfl, he, rfl, h⟩

/-- From a junction a path goes on, without reading, in one of the junction's targets. -/
theorem Steps.junction {n source target : Nat} {word : List Char} {exits : List Nat}
    (h : nfa.Steps n source word target)
    (hs : nfa.states[source]? = some (Regex.junction exits)) (hne : target ≠ source) :
    ∃ m exit, n = m + 1 ∧ exit ∈ exits ∧ nfa.Steps m exit word target := by
  obtain ⟨m, edge, rest, rfl, he, rfl, hrest⟩ := h.next hs hne
  obtain ⟨hlabel, hexit⟩ := Regex.mem_edges_junction.1 he
  refine ⟨m, edge.target, rfl, hexit, ?_⟩
  rw [hlabel]
  exact hrest

theorem Path.junction {source exit target : Nat} {word : List Char} {exits : List Nat}
    (hs : nfa.states[source]? = some (Regex.junction exits)) (he : exit ∈ exits)
    (h : nfa.Path exit word target) : nfa.Path source word target := by
  have hedge : (⟨none, exit⟩ : Edge) ∈ nfa.edges source := by
    rw [edges_of_getElem? hs]
    exact Regex.mem_edges_junction.2 ⟨rfl, he⟩
  exact h.cons hedge

/-- A path into a state with silent edges goes on over any of them. -/
theorem Path.exit {source middle target : Nat} {word : List Char} {exits : List Nat}
    (h : nfa.Path source word middle)
    (hmiddle : nfa.states[middle]? = some (Regex.junction exits)) (ht : target ∈ exits) :
    nfa.Path source word target := by
  rw [← List.append_nil word]
  exact h.append (.junction hmiddle ht (.nil target))

end Nfa

namespace Regex

open Nfa

/-- Each expression stands for some word. -/
theorem exists_matches (regex : Regex) : ∃ word, regex.Matches word := by
  induction regex with
  | literal c => exact ⟨[c], .literal c⟩
  | concat left right ihl ihr =>
    obtain ⟨front, hf⟩ := ihl
    obtain ⟨back, hb⟩ := ihr
    exact ⟨front ++ back, .concat hf hb⟩
  | union left right ihl ihr =>
    obtain ⟨word, h⟩ := ihl
    exact ⟨word, .unionLeft h⟩
  | repeated mark inner ih =>
    obtain ⟨word, h⟩ := ih
    cases mark with
    | star => exact ⟨[], .starNil⟩
    | optional => exact ⟨[], .optionalNil⟩
    | plus => exact ⟨word ++ [], .plus h .starNil⟩

/-- Every block has its last state at its end, and the others do not depend on it. -/
theorem exists_front (regex : Regex) (base : Nat) :
    ∃ front, ∀ last, regex.block base last = front ++ [last] := by
  induction regex generalizing base with
  | literal c => exact ⟨[_], fun _ => rfl⟩
  | concat left right _ ihr =>
    rcases ihr (base + left.size) with ⟨front, hfront⟩
    refine ⟨left.block base (junction [base + left.size + right.entry]) ++ front, ?_⟩
    intro last
    rw [block, hfront, List.append_assoc]
  | union left right _ _ =>
    let finish := base + left.size + right.size + 1
    refine ⟨left.block base (junction [finish]) ++ right.block (base + left.size)
      (junction [finish]) ++ [junction [base + left.entry, base + left.size + right.entry]], ?_⟩
    intro last
    simp [block, finish]
  | repeated mark inner _ =>
    have hblock : ∃ exits targets, ∀ last, (repeated mark inner).block base last =
        inner.block base (junction exits) ++ [junction targets, last] := by
      cases mark <;> exact ⟨_, _, fun _ => rfl⟩
    rcases hblock with ⟨exits, targets, hblock⟩
    refine ⟨inner.block base (junction exits) ++ [junction targets], ?_⟩
    intro last
    simp [hblock]

/-- No state but the last one of a block can accept. -/
theorem filter_accepting_block (regex : Regex) (base : Nat) (last : NfaState) :
    (regex.block base last).filter (·.accepting) = [last].filter (·.accepting) := by
  have hjunction : ∀ exits, (junction exits).accepting = false := fun _ => rfl
  induction regex generalizing base last with
  | literal c => simp [block, List.filter_cons]
  | concat left right ihl ihr => simp [block, ihl, ihr, hjunction]
  | union left right ihl ihr => simp [block, ihl, ihr, List.filter_cons, hjunction]
  | repeated mark inner ih => cases mark <;> simp [block, ih, List.filter_cons, hjunction]

/-- A block is its last state behind states that do not accept. -/
theorem exists_block_eq (regex : Regex) (base : Nat) :
    ∃ front, (∀ last, regex.block base last = front ++ [last]) ∧ front.length + 1 = regex.size ∧
      ∀ state ∈ front, state.accepting = false := by
  rcases regex.exists_front base with ⟨front, hfront⟩
  have hlength := regex.length_block base (junction [])
  have hfilter := regex.filter_accepting_block base (junction [])
  rw [hfront, List.filter_append, List.append_left_eq_self] at hfilter
  refine ⟨front, hfront, ?_, ?_⟩
  · rw [← hlength, hfront, List.length_append, List.length_singleton]
  · simpa using hfilter

end Regex

namespace Nfa

variable {nfa : Nfa}

section Block

variable {base : Nat} {regex : Regex} {last : NfaState}

/-- The last state of a block that an automaton has. -/
theorem Hosts.getElem?_last (h : nfa.Hosts base (regex.block base last)) :
    nfa.states[base + regex.size - 1]? = some last := by
  obtain ⟨front, hfront, hlength, -⟩ := regex.exists_block_eq base
  rw [hfront, hosts_append, hosts_cons] at h
  rw [← hlength]
  exact h.2.1

theorem Hosts.isAccepting_last (h : nfa.Hosts base (regex.block base last)) :
    nfa.isAccepting (base + regex.size - 1) = last.accepting := isAccepting_of_getElem? h.getElem?_last

/-- No state before the last one accepts. -/
theorem Hosts.isAccepting_eq_false {state : Nat} (h : nfa.Hosts base (regex.block base last))
    (hbase : base ≤ state) (hlt : state < base + regex.size - 1) :
    nfa.isAccepting state = false := by
  obtain ⟨front, hfront, hlength, haccepting⟩ := regex.exists_block_eq base
  rw [hfront, hosts_append] at h
  have hi : state - base < front.length := by omega
  have hstate := h.1 (state - base) _ (List.getElem?_eq_getElem hi)
  rw [Nat.add_sub_cancel' hbase] at hstate
  rw [isAccepting_of_getElem? hstate]
  exact haccepting _ (List.getElem_mem hi)

end Block

/-! ## Paths through a block -/

/-- A path that starts at the entry of a block and ends outside of it, or in its last state, reads a
word of the expression on the way to the last state. -/
def Leaves (nfa : Nfa) (base : Nat) (regex : Regex) : Prop :=
  ∀ n word target, nfa.Steps n (base + regex.entry) word target →
    ¬ (base ≤ target ∧ target < base + regex.size - 1) →
      ∃ front back m, word = front ++ back ∧ regex.Matches front ∧ m < n ∧
        nfa.Steps m (base + regex.size - 1) back target

/-- From the end of a block with one silent edge the path goes on over this edge. -/
theorem Leaves.exit {base next : Nat} {inner : Regex} (h : nfa.Leaves base inner)
    (hlast : nfa.states[base + inner.size - 1]? = some (Regex.junction [next])) {n : Nat}
    {word : List Char} {target : Nat} (hsteps : nfa.Steps n (base + inner.entry) word target)
    (hout : ¬ (base ≤ target ∧ target < base + inner.size)) :
    ∃ front back m, word = front ++ back ∧ inner.Matches front ∧ m < n ∧
      nfa.Steps m next back target := by
  have hpos := inner.entry_lt
  obtain ⟨front, back, m, rfl, hfront, hm, hback⟩ := h n word target hsteps (by omega)
  obtain ⟨k, exit, rfl, hexit, hrest⟩ := hback.junction hlast (by omega)
  obtain rfl := List.mem_singleton.1 hexit
  exact ⟨front, back, k, rfl, hfront, by omega, hrest⟩

/-- With a way back from the end of a block to its entry, the words of the repetition can be read
before the path leaves. By induction on the length of the path: each round makes it shorter. -/
theorem Leaves.repeated {base exit : Nat} {inner : Regex} (h : nfa.Leaves base inner)
    (hlast : nfa.states[base + inner.size - 1]? =
      some (Regex.junction [base + inner.entry, exit])) :
    ∀ n word target, nfa.Steps n (base + inner.entry) word target →
      ¬ (base ≤ target ∧ target < base + inner.size) →
        ∃ front back m, word = front ++ back ∧ (Regex.repeated .plus inner).Matches front ∧ m < n ∧
          nfa.Steps m exit back target := by
  intro n
  induction n using Nat.strongRecOn with
  | ind n ih =>
    intro word target hsteps hout
    have hpos := inner.entry_lt
    obtain ⟨front, back, m, rfl, hfront, hm, hback⟩ := h n word target hsteps (by omega)
    obtain ⟨k, next, rfl, hnext, hrest⟩ := hback.junction hlast (by omega)
    rcases List.mem_cons.1 hnext with rfl | hnext
    · obtain ⟨middle, behind, l, rfl, hmiddle, hl, hbehind⟩ :=
        ih k (by omega) back target hrest hout
      obtain ⟨first, others, rfl, hfirst, hothers⟩ := Regex.matches_plus_iff.1 hmiddle
      refine ⟨front ++ (first ++ others), behind, l, by simp, ?_, by omega, hbehind⟩
      exact .plus hfront (.starAppend hfirst hothers)
    · obtain rfl := List.mem_singleton.1 hnext
      refine ⟨front, back, k, rfl, ?_, by omega, hrest⟩
      rw [← List.append_nil front]
      exact .plus hfront .starNil

/-- Paths leave the block of an expression with one of its words read. -/
theorem Hosts.leaves {base : Nat} {regex : Regex} {last : NfaState}
    (h : nfa.Hosts base (regex.block base last)) : nfa.Leaves base regex := by
  induction regex generalizing base last with
  | literal c =>
    intro n word target hsteps hout
    simp only [Regex.block, hosts_cons] at h
    simp only [Regex.size] at hout ⊢
    obtain ⟨m, edge, rest, rfl, he, rfl, hrest⟩ := hsteps.next h.1 (by simp [Regex.entry]; omega)
    obtain rfl := List.mem_singleton.1 he
    exact ⟨[c], rest, m, rfl, .literal c, by omega, hrest⟩
  | concat left right ihl ihr =>
    intro n word target hsteps hout
    have hleft := left.entry_lt
    have hright := right.entry_lt
    rw [Regex.block, hosts_append, Regex.length_block] at h
    simp only [Regex.size, ← Nat.add_assoc] at hout ⊢
    obtain ⟨front, rest, k, rfl, hfront, hk, hentered⟩ :=
      (ihl h.1).exit h.1.getElem?_last hsteps (by omega)
    obtain ⟨middle, back, l, rfl, hmiddle, hl, hback⟩ :=
      ihr h.2 k rest target hentered (by omega)
    exact ⟨front ++ middle, back, l, by simp, .concat hfront hmiddle, by omega, hback⟩
  | union left right ihl ihr =>
    intro n word target hsteps hout
    have hleft := left.entry_lt
    have hright := right.entry_lt
    simp only [Regex.block, hosts_append, hosts_cons, List.length_append, Regex.length_block,
      ← Nat.add_assoc] at h
    obtain ⟨⟨hl, hr⟩, hentry, -⟩ := h
    simp only [Regex.size, Regex.entry, ← Nat.add_assoc] at hsteps hout ⊢
    obtain ⟨k, exit, rfl, hexit, hentered⟩ := hsteps.junction hentry (by omega)
    rcases List.mem_cons.1 hexit with rfl | hexit
    · obtain ⟨front, back, m, rfl, hfront, hm, hback⟩ :=
        (ihl hl).exit hl.getElem?_last hentered (by omega)
      exact ⟨front, back, m, rfl, .unionLeft hfront, by omega, hback⟩
    · obtain rfl := List.mem_singleton.1 hexit
      obtain ⟨front, back, m, rfl, hfront, hm, hback⟩ :=
        (ihr hr).exit hr.getElem?_last hentered (by omega)
      exact ⟨front, back, m, rfl, .unionRight hfront, by omega, hback⟩
  | repeated mark inner ih =>
    intro n word target hsteps hout
    have hpos := inner.entry_lt
    simp only [Regex.size, Regex.entry, ← Nat.add_assoc] at hsteps hout ⊢
    cases mark with
    | star =>
      simp only [Regex.block, hosts_append, hosts_cons, Regex.length_block] at h
      obtain ⟨hinner, hentry, -⟩ := h
      obtain ⟨k, exit, rfl, hexit, hentered⟩ := hsteps.junction hentry (by omega)
      rcases List.mem_cons.1 hexit with rfl | hexit
      · obtain ⟨front, back, m, rfl, hfront, hm, hback⟩ :=
          (ih hinner).repeated hinner.getElem?_last k word target hentered (by omega)
        obtain ⟨first, others, rfl, hfirst, hothers⟩ := Regex.matches_plus_iff.1 hfront
        exact ⟨_, back, m, rfl, .starAppend hfirst hothers, by omega, hback⟩
      · obtain rfl := List.mem_singleton.1 hexit
        exact ⟨[], word, k, rfl, .starNil, by omega, hentered⟩
    | optional =>
      simp only [Regex.block, hosts_append, hosts_cons, Regex.length_block] at h
      obtain ⟨hinner, hentry, -⟩ := h
      obtain ⟨k, exit, rfl, hexit, hentered⟩ := hsteps.junction hentry (by omega)
      rcases List.mem_cons.1 hexit with rfl | hexit
      · obtain ⟨front, back, m, rfl, hfront, hm, hback⟩ :=
          (ih hinner).exit hinner.getElem?_last hentered (by omega)
        exact ⟨front, back, m, rfl, .optional hfront, by omega, hback⟩
      · obtain rfl := List.mem_singleton.1 hexit
        exact ⟨[], word, k, rfl, .optionalNil, by omega, hentered⟩
    | plus =>
      simp only [Regex.block, hosts_append, hosts_cons, Regex.length_block] at h
      obtain ⟨hinner, hentry, -⟩ := h
      obtain ⟨k, exit, rfl, hexit, hentered⟩ := hsteps.junction hentry (by omega)
      obtain rfl := List.mem_singleton.1 hexit
      obtain ⟨front, back, m, rfl, hfront, hm, hback⟩ :=
        (ih hinner).repeated hinner.getElem?_last k word target hentered (by omega)
      exact ⟨front, back, m, rfl, hfront, by omega, hback⟩

/-- Words of an expression, one after the other, lead round a block with a way back to its entry. -/
theorem path_of_words {base exit : Nat} {inner : Regex} {words : List (List Char)}
    (h : ∀ word ∈ words, nfa.Path (base + inner.entry) word (base + inner.size - 1))
    (hlast : nfa.states[base + inner.size - 1]? =
      some (Regex.junction [base + inner.entry, exit])) :
    nfa.Path (base + inner.size - 1) words.flatten exit := by
  induction words with
  | nil => exact .junction hlast (by simp) (.nil exit)
  | cons word words ih =>
    obtain ⟨hword, hwords⟩ := List.forall_mem_cons.1 h
    exact .junction hlast (by simp) (hword.append (ih hwords))

/-- Each word of an expression leads through its block. -/
theorem Hosts.path_of_matches {base : Nat} {regex : Regex} {last : NfaState} {word : List Char}
    (h : nfa.Hosts base (regex.block base last)) (hm : regex.Matches word) :
    nfa.Path (base + regex.entry) word (base + regex.size - 1) := by
  induction regex generalizing base last word with
  | literal c =>
    obtain rfl := Regex.matches_literal_iff.1 hm
    simp only [Regex.block, hosts_cons] at h
    have hedge : (⟨some c, base + 1⟩ : Edge) ∈ nfa.edges base := by
      rw [edges_of_getElem? h.1]
      exact List.mem_singleton_self _
    exact Path.cons (.nil _) hedge
  | concat left right ihl ihr =>
    obtain ⟨front, back, rfl, hfront, hback⟩ := Regex.matches_concat_iff.1 hm
    rw [Regex.block, hosts_append, Regex.length_block] at h
    have hleft := (ihl h.1 hfront).exit h.1.getElem?_last (List.mem_singleton_self _)
    simp only [Regex.size, Regex.entry, ← Nat.add_assoc]
    exact hleft.append (ihr h.2 hback)
  | union left right ihl ihr =>
    simp only [Regex.block, hosts_append, hosts_cons, List.length_append, Regex.length_block,
      ← Nat.add_assoc] at h
    obtain ⟨⟨hl, hr⟩, hentry, -⟩ := h
    simp only [Regex.size, Regex.entry, ← Nat.add_assoc]
    rcases Regex.matches_union_iff.1 hm with hm | hm
    · have hleft := (ihl hl hm).exit hl.getElem?_last (List.mem_singleton_self _)
      exact .junction hentry (by simp) hleft
    · have hright := (ihr hr hm).exit hr.getElem?_last (List.mem_singleton_self _)
      exact .junction hentry (by simp) hright
  | repeated mark inner ih =>
    simp only [Regex.size, Regex.entry, ← Nat.add_assoc]
    cases mark with
    | star =>
      simp only [Regex.block, hosts_append, hosts_cons, Regex.length_block] at h
      obtain ⟨hinner, hentry, -⟩ := h
      obtain ⟨words, rfl, hwords⟩ := Regex.matches_star_iff.1 hm
      cases words with
      | nil => exact .junction hentry (by simp) (.nil _)
      | cons first others =>
        obtain ⟨hfirst, hothers⟩ := List.forall_mem_cons.1 hwords
        have hrounds := path_of_words (fun word hw => ih hinner (hothers word hw))
          hinner.getElem?_last
        exact .junction hentry (by simp) ((ih hinner hfirst).append hrounds)
    | optional =>
      simp only [Regex.block, hosts_append, hosts_cons, Regex.length_block] at h
      obtain ⟨hinner, hentry, -⟩ := h
      rcases Regex.matches_optional_iff.1 hm with rfl | hm
      · exact .junction hentry (by simp) (.nil _)
      · have hpath := (ih hinner hm).exit hinner.getElem?_last (List.mem_singleton_self _)
        exact .junction hentry (by simp) hpath
    | plus =>
      simp only [Regex.block, hosts_append, hosts_cons, Regex.length_block] at h
      obtain ⟨hinner, hentry, -⟩ := h
      obtain ⟨front, back, rfl, hfront, hback⟩ := Regex.matches_plus_iff.1 hm
      obtain ⟨words, rfl, hwords⟩ := Regex.matches_star_iff.1 hback
      have hrounds := path_of_words (fun word hw => ih hinner (hwords word hw))
        hinner.getElem?_last
      exact .junction hentry (List.mem_singleton_self _) ((ih hinner hfront).append hrounds)

/-- From the entry of a block there is a way to its last state. -/
theorem Hosts.exists_path_entry {base : Nat} {regex : Regex} {last : NfaState}
    (h : nfa.Hosts base (regex.block base last)) :
    ∃ word, nfa.Path (base + regex.entry) word (base + regex.size - 1) := by
  obtain ⟨word, hword⟩ := regex.exists_matches
  exact ⟨word, h.path_of_matches hword⟩

/-- From each state of a block there is a way to its last state. -/
theorem Hosts.exists_path_last {base state : Nat} {regex : Regex} {last : NfaState}
    (h : nfa.Hosts base (regex.block base last)) (hbase : base ≤ state)
    (hlt : state < base + regex.size) : ∃ word, nfa.Path state word (base + regex.size - 1) := by
  have hentry := h.exists_path_entry
  induction regex generalizing base last with
  | literal c =>
    simp only [Regex.size, Regex.entry] at hlt hentry ⊢
    by_cases hs : state = base
    · rw [hs]
      exact hentry
    · obtain rfl : state = base + 1 := by omega
      exact ⟨[], .nil _⟩
  | concat left right ihl ihr =>
    rw [Regex.block, hosts_append, Regex.length_block] at h
    simp only [Regex.size, ← Nat.add_assoc] at hlt ⊢
    by_cases hs : state < base + left.size
    · obtain ⟨front, hfront⟩ := ihl h.1 hbase hs h.1.exists_path_entry
      obtain ⟨back, hback⟩ := h.2.exists_path_entry
      have hleft := hfront.exit h.1.getElem?_last (List.mem_singleton_self _)
      exact ⟨front ++ back, hleft.append hback⟩
    · exact ihr h.2 (by omega) hlt h.2.exists_path_entry
  | union left right ihl ihr =>
    simp only [Regex.block, hosts_append, hosts_cons, List.length_append, Regex.length_block,
      ← Nat.add_assoc] at h
    obtain ⟨⟨hl, hr⟩, -, -⟩ := h
    simp only [Regex.size, Regex.entry, ← Nat.add_assoc] at hlt hentry ⊢
    by_cases hleft : state < base + left.size
    · obtain ⟨word, hword⟩ := ihl hl hbase hleft hl.exists_path_entry
      exact ⟨word, hword.exit hl.getElem?_last (List.mem_singleton_self _)⟩
    by_cases hright : state < base + left.size + right.size
    · obtain ⟨word, hword⟩ := ihr hr (by omega) hright hr.exists_path_entry
      exact ⟨word, hword.exit hr.getElem?_last (List.mem_singleton_self _)⟩
    by_cases hs : state = base + left.size + right.size
    · rw [hs]
      exact hentry
    · obtain rfl : state = base + left.size + right.size + 1 := by omega
      exact ⟨[], .nil _⟩
  | repeated mark inner ih =>
    simp only [Regex.size, Regex.entry, ← Nat.add_assoc] at hlt hentry ⊢
    obtain ⟨exits, hinner, hexit⟩ : ∃ exits,
        nfa.Hosts base (inner.block base (Regex.junction exits)) ∧
          base + inner.size + 1 ∈ exits := by
      cases mark <;> exact ⟨_, (hosts_append.1 h).1, by simp⟩
    by_cases hs : state < base + inner.size
    · obtain ⟨word, hword⟩ := ih hinner hbase hs hinner.exists_path_entry
      exact ⟨word, hword.exit hinner.getElem?_last hexit⟩
    by_cases hs : state = base + inner.size
    · rw [hs]
      exact hentry
    · obtain rfl : state = base + inner.size + 1 := by omega
      exact ⟨[], .nil _⟩

/-! ## Blocks that accept -/

theorem Hosts.edges_last {base : Nat} {regex : Regex}
    (h : nfa.Hosts base (regex.block base ⟨[], true⟩)) :
    nfa.edges (base + regex.size - 1) = [] := edges_of_getElem? h.getElem?_last

/-- A path that enters a block with an accepting last state, and accepts, has read a word of the
expression and is in this state. -/
theorem Hosts.path_iff {base target : Nat} {regex : Regex} {word : List Char}
    (h : nfa.Hosts base (regex.block base ⟨[], true⟩)) (ht : nfa.isAccepting target = true) :
    nfa.Path (base + regex.entry) word target ↔
      target = base + regex.size - 1 ∧ regex.Matches word := by
  constructor
  · intro hpath
    have hout : ¬ (base ≤ target ∧ target < base + regex.size - 1) := by
      rintro ⟨hbase, hlt⟩
      rw [h.isAccepting_eq_false hbase hlt] at ht
      cases ht
    obtain ⟨n, hsteps⟩ := hpath.steps
    obtain ⟨front, back, m, rfl, hfront, -, hback⟩ := h.leaves n word target hsteps hout
    cases hback with
    | nil => exact ⟨rfl, by rwa [List.append_nil]⟩
    | cons he =>
      rw [h.edges_last] at he
      cases he
  · rintro ⟨rfl, hm⟩
    exact h.path_of_matches hm

end Nfa

end LexGen
