import LexGen.Proofs.Dfa.Uniqueness
import Mathlib.Data.List.Shortlex

/-!
# The numbers of the states

A deterministic automaton is numbered if the numbers of its states are those that a breadth-first
search from the start gives them which tries characters in ascending order (`Dfa.Numbered`). This says
as much as that the search finds the states in the order of their numbers
(`Dfa.numbered_of_reached`), and it is the same as to put the states in the order of the words that
lead to them, shorter words first and words of one length in alphabetical order
(`Dfa.exists_shortlex`). The subset construction numbers the states of its automata so, and merging
states keeps this up, whether or not they lead to acceptance (`Dfa.exists_numbered`).
-/

namespace LexGen

/-- The states are numbered in the order of their discovery, and so in the order of the least words
that lead to them. The canonical form keeps their numbers. -/
structure Dfa.Numbered (dfa : Dfa) : Prop where
  start_eq_zero : dfa.start = 0
  reachable : ∀ state, state < dfa.size → dfa.Reachable state
  reached_eq : dfa.reached = List.range dfa.size
  canonical_eq : dfa.canonical = (List.range dfa.size).map fun state =>
    ⟨dfa.isAccepting state, dfa.tokenType state, (dfa.moves state).entries⟩
  exists_shortlex : ∀ earlier later word, earlier < later → dfa.run word = some later →
    ∃ before, dfa.run before = some earlier ∧ List.Shortlex (· < ·) before word

/-- A front part of the numbers from 0 on leaves none of them out. -/
theorem mem_of_isPrefix_range {n a b : Nat} {found : List Nat} (h : found <+: List.range n)
    (hb : b ∈ found) (hlt : a < b) : a ∈ found := by
  rw [List.prefix_iff_eq_take.1 h, List.take_range, List.mem_range] at hb ⊢
  omega

theorem lt_of_mem_take_of_isPrefix_range {n i a : Nat} {found : List Nat}
    (h : found <+: List.range n) (ha : a ∈ found.take i) : a < i := by
  rw [List.prefix_iff_eq_take.1 h, List.take_range, List.take_range, List.mem_range] at ha
  omega

/-- Of words with one more character each, the one that was before the other still is. -/
theorem shortlex_append_singleton {α : Type} {r : α → α → Prop} {front back : List α}
    (h : List.Shortlex r front back) (c d : α) :
    List.Shortlex r (front ++ [c]) (back ++ [d]) := by
  rcases List.shortlex_def.1 h with hlength | ⟨hlength, hlex⟩
  · exact .of_length_lt (by simpa using hlength)
  · refine .of_lex (by simpa using hlength) ?_
    clear h
    induction hlex with
    | nil => cases hlength
    | rel hr => exact .rel hr
    | cons _ ih => exact .cons (ih (Nat.succ.inj hlength))

namespace Moves

/-- The entries before that of a character are of lesser characters. -/
theorem exists_entries_eq {moves : Moves} {c : Char} {target : Nat}
    (h : moves.next? c = some target) : ∃ front back,
      moves.entries = front ++ (c, target) :: back ∧ ∀ entry ∈ front, entry.1 < c := by
  obtain ⟨front, back, hentries⟩ := List.append_of_mem (next?_eq_some_iff.1 h)
  refine ⟨front, back, hentries, ?_⟩
  have hascending := moves.ascending
  rw [hentries] at hascending
  intro entry hentry
  exact (List.pairwise_append.1 hascending).2.2 entry hentry _ (List.mem_cons_self ..)

end Moves

namespace Dfa

variable {dfa : Dfa}

section Reached

variable (h : dfa.reached = List.range dfa.size)

include h

/-- If a move leads to a state, then each state of a lesser number is the start, or some move leads to
it that is tried before. -/
theorem exists_earlier_move {source earlier later : Nat} {c : Char}
    (hnext : dfa.next? source c = some later) (hlt : earlier < later) :
    earlier = dfa.start ∨ ∃ other d, dfa.next? other d = some earlier ∧
      (other < source ∨ other = source ∧ d < c) := by
  have hsource : (List.range dfa.size)[source]? = some source :=
    List.getElem?_range (lt_size_of_next? hnext)
  obtain ⟨before, hsourced, hprefix⟩ := dfa.explores_reached.exists_visit
    (Discovery.sourced_singleton _ _) (Nat.zero_le source) (h ▸ hsource)
  rw [h] at hprefix
  obtain ⟨front, back, hentries, hfront⟩ := Moves.exists_entries_eq hnext
  have htargets : (dfa.moves source).targets =
      (front.map (·.2) ++ [later]) ++ back.map (·.2) := by
    rw [Moves.targets, hentries]
    simp
  -- What is found up to the move to `later` has all states of lesser numbers.
  have hfound : earlier ∈ Discovery.extend before (front.map (·.2) ++ [later]) := by
    rw [htargets, Discovery.extend_append] at hprefix
    refine mem_of_isPrefix_range ((Discovery.isPrefix_extend ..).trans hprefix) ?_ hlt
    exact Discovery.mem_extend.2 (.inr (List.mem_append_right _ (List.mem_singleton_self _)))
  rcases Discovery.mem_extend.1 hfound with hbefore | hadded
  · refine (hsourced earlier hbefore).imp_right ?_
    rintro ⟨other, hother, htarget⟩
    obtain ⟨d, hd⟩ := mem_targets_iff_next?.1 htarget
    have hrange := (Discovery.isPrefix_extend ..).trans hprefix
    exact ⟨other, d, hd, .inl (lt_of_mem_take_of_isPrefix_range hrange hother)⟩
  · rcases List.mem_append.1 hadded with hadded | heq
    · obtain ⟨⟨d, _⟩, hentry, rfl⟩ := List.mem_map.1 hadded
      have hd : dfa.next? source d = some _ :=
        Moves.next?_eq_some_iff.2 (hentries ▸ List.mem_append_left _ hentry)
      exact .inr ⟨source, d, hd, .inr ⟨rfl, hfront _ hentry⟩⟩
    · exact absurd (List.mem_singleton.1 heq) (Nat.ne_of_lt hlt)

/-- For each word that leads to a state, a word before it leads to each state of a lesser number. -/
theorem exists_shortlex {earlier later : Nat} {word : List Char} (hlt : earlier < later)
    (hword : dfa.run word = some later) :
    ∃ before, dfa.run before = some earlier ∧ List.Shortlex (· < ·) before word := by
  -- From the last move of the word we go back to a move that is tried before it. It starts in the same
  -- state, or in one of a lesser number, to which the hypothesis gives a word.
  induction word using List.reverseRecOn generalizing earlier later with
  | nil =>
    cases hword
    rw [start_eq_zero_of_reached h] at hlt
    cases hlt
  | append_singleton word c ih =>
    rw [run_append_singleton] at hword
    obtain ⟨source, hsource, hnext⟩ := Option.bind_eq_some_iff.1 hword
    rcases exists_earlier_move h hnext hlt with rfl | ⟨other, d, hother, horder⟩
    · exact ⟨[], rfl, .of_length_lt (by simp)⟩
    · rcases horder with hlt | ⟨rfl, hd⟩
      · obtain ⟨before, hbefore, hshortlex⟩ := ih hlt hsource
        refine ⟨before ++ [d], ?_, shortlex_append_singleton hshortlex d c⟩
        rw [run_append_singleton, hbefore]
        exact hother
      · refine ⟨word ++ [d], ?_, ?_⟩
        · rw [run_append_singleton, hsource]
          exact hother
        · exact List.Shortlex.append_left ((List.shortlex_singleton_iff d c).2 hd) word

theorem numbered_of_reached : dfa.Numbered where
  start_eq_zero := start_eq_zero_of_reached h
  reachable _ hs := reachable_of_mem_reached (h ▸ List.mem_range.2 hs)
  reached_eq := h
  canonical_eq := canonical_eq_of_reached h
  exists_shortlex _ _ _ := exists_shortlex h

end Reached

/-- With an alphabet that holds all literals the states of the deterministic automaton are numbered, and
those of the minimal one too, be it the automaton of a pattern or that of a rule set. -/
theorem exists_numbered (alphabet : Alphabet) :
    (∀ nfa : Nfa, (∀ c ∈ nfa.literals, c ∈ alphabet) → ∃ dfa minimized,
      Dfa.ofNfa nfa alphabet = .ok dfa ∧ dfa.minimize alphabet = .ok minimized ∧
        dfa.Numbered ∧ minimized.Numbered) ∧
    ∀ combined : Combined, (∀ c ∈ combined.nfa.literals, c ∈ alphabet) → ∃ dfa minimized,
      Dfa.ofCombined combined alphabet = .ok dfa ∧ dfa.minimize alphabet = .ok minimized ∧
        dfa.Numbered ∧ minimized.Numbered := by
  have hnumbered : ∀ (nfa : Nfa) (tagOf : Nat → Option RuleTag),
      (∀ c ∈ nfa.literals, c ∈ alphabet) → ∃ dfa minimized,
        nfa.determinize tagOf alphabet = .ok dfa ∧ dfa.minimize alphabet = .ok minimized ∧
          dfa.Numbered ∧ minimized.Numbered := by
    intro nfa tagOf hcover
    have hreached := @Nfa.reached_subsetDfa nfa alphabet tagOf hcover
    have hmoves := @Nfa.movesWithin_subsetDfa nfa alphabet tagOf
    exact ⟨_, _, Nfa.determinize_eq_ok hcover, minimize_eq_ok hmoves, numbered_of_reached hreached,
      numbered_of_reached (reached_merged hmoves hreached)⟩
  exact ⟨fun nfa => hnumbered nfa _, fun combined => hnumbered combined.nfa _⟩

/-- The states after `b` and after `ac` of the pattern `b|ac` are merged, and the merged one keeps the
place of the first of them. The rules `b` and `ac` have both. -/
theorem exists_numbered_branches :
    (∃ nfa dfa minimized, Nfa.compile "b|ac" = .ok nfa ∧
      Dfa.ofNfa nfa (.ofList ['z', 'c', 'b', 'a']) = .ok dfa ∧
      dfa.minimize (.ofList ['z', 'c', 'b', 'a']) = .ok minimized ∧
      minimized.canonical = [⟨false, none, [('a', 1), ('b', 2)]⟩, ⟨false, none, [('c', 2)]⟩,
        ⟨true, none, []⟩] ∧
      dfa.Numbered ∧ minimized.Numbered) ∧
    ∃ combined dfa minimized,
      Combined.ofRules ⟨[("b", ⟨"one"⟩), ("ac", ⟨"two"⟩)]⟩ = .ok combined ∧
      Dfa.ofCombined combined (.ofList ['z', 'c', 'b', 'a']) = .ok dfa ∧
      dfa.minimize (.ofList ['z', 'c', 'b', 'a']) = .ok minimized ∧
      dfa.Numbered ∧ minimized.Numbered := by
  have hcompile : Nfa.compile "b|ac" = .ok (.ofRegex (.union (.literal 'b')
      (.concat (.literal 'a') (.literal 'c')))) := by rfl
  have hcombined : Combined.ofRules ⟨[("b", ⟨"one"⟩), ("ac", ⟨"two"⟩)]⟩ =
      .ok ⟨Combined.nfaOf [.literal 'b', .concat (.literal 'a') (.literal 'c')],
        [(2, ⟨⟨"one"⟩, 0⟩), (6, ⟨⟨"two"⟩, 1⟩)]⟩ := by rfl
  have hpattern : ∀ c ∈ (Nfa.ofRegex (.union (.literal 'b')
      (.concat (.literal 'a') (.literal 'c')))).literals,
        c ∈ Alphabet.ofList ['z', 'c', 'b', 'a'] := by
    have hliterals : (Nfa.ofRegex (.union (.literal 'b')
        (.concat (.literal 'a') (.literal 'c')))).literals = ['b', 'a', 'c'] := by rfl
    simp [hliterals]
  have hrules : ∀ c ∈ (Combined.nfaOf [.literal 'b',
      .concat (.literal 'a') (.literal 'c')]).literals,
        c ∈ Alphabet.ofList ['z', 'c', 'b', 'a'] := by
    have hliterals : (Combined.nfaOf [.literal 'b',
        .concat (.literal 'a') (.literal 'c')]).literals = ['b', 'a', 'c'] := by rfl
    simp [hliterals]
  have hcanonical : ((Dfa.ofNfa (.ofRegex (.union (.literal 'b')
      (.concat (.literal 'a') (.literal 'c')))) (.ofList ['z', 'c', 'b', 'a'])).bind
        (·.minimize (.ofList ['z', 'c', 'b', 'a']))).toOption.map canonical =
          some [⟨false, none, [('a', 1), ('b', 2)]⟩, ⟨false, none, [('c', 2)]⟩,
            ⟨true, none, []⟩] := by decide +kernel
  obtain ⟨dfa, minimized, hdfa, hminimized, hnumbered⟩ :=
    (exists_numbered (.ofList ['z', 'c', 'b', 'a'])).1 _ hpattern
  obtain ⟨dfa', minimized', hdfa', hminimized', hnumbered'⟩ :=
    (exists_numbered (.ofList ['z', 'c', 'b', 'a'])).2 ⟨_, _⟩ hrules
  rw [hdfa, Except.bind, hminimized] at hcanonical
  exact ⟨⟨_, dfa, minimized, hcompile, hdfa, hminimized, Option.some.inj hcanonical, hnumbered⟩,
    ⟨_, dfa', minimized', hcombined, hdfa', hminimized', hnumbered'⟩⟩

end Dfa

end LexGen
