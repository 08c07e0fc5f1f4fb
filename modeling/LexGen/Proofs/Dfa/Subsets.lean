import LexGen.Dfa.OfNfa
import LexGen.Nfa.Closure
import LexGen.Proofs.Dfa.Trim
import LexGen.Proofs.Rule.Blocks
import LexGen.Proofs.Rule.Winner
import Mathlib.Data.List.Induction

/-!
# The subset construction

If the alphabet covers the literals, the subsets that are found are those that the nondeterministic
automaton runs into (`Nfa.mem_subsets_iff`), and the deterministic automaton runs into their numbers
(`Nfa.run_subsetDfa_eq_some_iff`). If from every state of the nondeterministic automaton a path leads
to acceptance, the deterministic one is trim (`Nfa.trim_subsetDfa`).
-/

namespace LexGen

namespace Nfa

variable {nfa : Nfa}

/-- What an edge reads is a literal of the automaton. -/
theorem mem_literals_of_mem_targets {c : Char} {source target : Nat}
    (h : target ∈ nfa.targets (some c) source) : c ∈ nfa.literals := by
  have hedge := mem_targets_iff.1 h
  unfold edges at hedge
  split at hedge
  next entry hs =>
    refine List.mem_flatMap.2 ⟨entry, ?_, List.mem_filterMap.2 ⟨_, hedge, rfl⟩⟩
    exact Array.mem_toList_iff.2 (Array.mem_of_getElem? hs)
  next => cases hedge

theorem mem_literals_of_move? {states : List Nat} {c : Char} {next : StateSet}
    (h : nfa.move? states c = some next) : c ∈ nfa.literals := by
  cases hstep : nfa.step states c with
  | nil =>
    rw [move?, hstep] at h
    cases h
  | cons target rest =>
    have hm : target ∈ nfa.step states c := hstep ▸ List.mem_cons_self ..
    obtain ⟨source, _, ht⟩ := mem_step.1 hm
    exact mem_literals_of_mem_targets ht

theorem run_append_singleton (word : List Char) (c : Char) :
    nfa.run (word ++ [c]) = (nfa.run word).bind fun set => nfa.move? set.members c := by
  rw [run, List.foldlM_append]
  simp [run]

/-! ## All sets of states -/

/-- All sets of numbers below `n`. -/
def allSubsets (n : Nat) : List StateSet := (List.range (1 <<< n)).map StateSet.mk

theorem mem_allSubsets {n : Nat} {set : StateSet} (h : ∀ state, state ∈ set → state < n) :
    set ∈ allSubsets n := by
  refine List.mem_map.2 ⟨set.bits, List.mem_range.2 ?_, rfl⟩
  rw [Nat.one_shiftLeft]
  apply Nat.lt_pow_two_of_testBit
  intro state hs
  by_contra hbit
  have hlt := h state (by simpa [StateSet.mem_def] using hbit)
  omega

theorem lt_of_mem_closure {states : List Nat} (h : ∀ state ∈ states, state < nfa.size) {state : Nat}
    (hs : state ∈ nfa.closure states) : state < nfa.size := by
  obtain ⟨source, hsource, hpath⟩ := mem_closure.1 hs
  exact hpath.lt_size (h source hsource)

theorem initial_mem_allSubsets : nfa.initial ∈ allSubsets nfa.size := by
  apply mem_allSubsets
  intro state hs
  refine lt_of_mem_closure ?_ hs
  intro start hstart
  rw [List.mem_singleton.1 hstart]
  exact nfa.start_lt

theorem mem_allSubsets_of_move? {states : List Nat} {c : Char} {next : StateSet}
    (h : nfa.move? states c = some next) : next ∈ allSubsets nfa.size := by
  apply mem_allSubsets
  intro state hs
  unfold move? at h
  split at h
  · cases h
  · cases h
    exact lt_of_mem_closure (fun _ hm => lt_of_mem_step hm) hs

section Construction

variable {alphabet : Alphabet}

/-- The search for the subsets is complete. -/
theorem explores_subsets : Discovery.Explores (successors nfa.move? alphabet) 0 [nfa.initial]
    (nfa.subsets nfa.move? alphabet) := by
  refine @Discovery.explores_discover _ _ _ _ _ _ (allSubsets nfa.size) (List.nodup_singleton _)
    ?_ ?_ ?_
  · intro set hs
    rw [List.mem_singleton.1 hs]
    exact initial_mem_allSubsets
  · intro set _ next hn
    obtain ⟨c, _, hc⟩ := List.mem_filterMap.1 hn
    exact mem_allSubsets_of_move? hc
  · simp [allSubsets]

theorem nodup_subsets : (nfa.subsets nfa.move? alphabet).Nodup :=
  explores_subsets.nodup (List.nodup_singleton _)

theorem exists_run_of_mem_subsets {set : StateSet} (h : set ∈ nfa.subsets nfa.move? alphabet) :
    ∃ word, nfa.run word = some set := by
  refine explores_subsets.induction (P := fun set => ∃ word, nfa.run word = some set) ?_ ?_ set h
  · intro first hf
    rw [List.mem_singleton.1 hf]
    exact ⟨[], rfl⟩
  · rintro source ⟨word, hword⟩ next hn
    obtain ⟨c, _, hc⟩ := List.mem_filterMap.1 hn
    refine ⟨word ++ [c], ?_⟩
    rw [run_append_singleton, hword]
    exact hc

section Covered

variable (hcover : ∀ c ∈ nfa.literals, c ∈ alphabet)

include hcover

theorem mem_subsets_of_move? {set next : StateSet} {c : Char}
    (hs : set ∈ nfa.subsets nfa.move? alphabet) (h : nfa.move? set.members c = some next) :
    next ∈ nfa.subsets nfa.move? alphabet := by
  have hc : c ∈ alphabet := hcover c (mem_literals_of_move? h)
  exact explores_subsets.subset_of_mem (Discovery.visited_zero _ _) set hs
    (List.mem_filterMap.2 ⟨c, hc, h⟩)

/-- The subsets are the sets that the automaton runs into. -/
theorem mem_subsets_iff {set : StateSet} :
    set ∈ nfa.subsets nfa.move? alphabet ↔ ∃ word, nfa.run word = some set := by
  constructor
  · exact exists_run_of_mem_subsets
  · rintro ⟨word, hword⟩
    induction word using List.reverseRecOn generalizing set with
    | nil =>
      cases hword
      exact explores_subsets.isPrefix.subset (List.mem_singleton_self _)
    | append_singleton word c ih =>
      rw [run_append_singleton] at hword
      obtain ⟨before, hbefore, hmove⟩ := Option.bind_eq_some_iff.1 hword
      exact mem_subsets_of_move? hcover (ih hbefore) hmove

end Covered

/-! ## The states of the deterministic automaton -/

variable {tagOf : Nat → Option RuleTag}

/-- The number of a subset. -/
def subsetNumber (nfa : Nfa) (alphabet : Alphabet) (set : StateSet) : Nat :=
  ((nfa.subsets nfa.move? alphabet).idxOf? set).getD 0

theorem subsetNumber_eq {i : Nat} {set : StateSet}
    (h : (nfa.subsets nfa.move? alphabet)[i]? = some set) : nfa.subsetNumber alphabet set = i := by
  rw [subsetNumber, (idxOf?_eq_some_iff_of_nodup nodup_subsets).2 h, Option.getD_some]

/-- The subsets are listed by their numbers. -/
theorem map_subsetNumber : (nfa.subsets nfa.move? alphabet).map (nfa.subsetNumber alphabet) =
    List.range (nfa.subsets nfa.move? alphabet).length := by
  apply List.ext_getElem
  · rw [List.length_map, List.length_range]
  · intro i hi _
    rw [List.length_map] at hi
    rw [List.getElem_map, List.getElem_range]
    exact subsetNumber_eq (List.getElem?_eq_getElem hi)

theorem size_subsetDfa : (nfa.subsetDfa nfa.move? tagOf alphabet).size =
    (nfa.subsets nfa.move? alphabet).length := by
  rw [Dfa.size, subsetDfa, List.size_toArray, List.length_map]

theorem getElem?_subsetDfa {i : Nat} {set : StateSet}
    (h : (nfa.subsets nfa.move? alphabet)[i]? = some set) :
    (nfa.subsetDfa nfa.move? tagOf alphabet).states[i]? =
      some (nfa.subsetState nfa.move? tagOf alphabet (nfa.subsets nfa.move? alphabet) set) := by
  rw [subsetDfa, List.getElem?_toArray, List.getElem?_map, h, Option.map_some]

theorem isAccepting_subsetDfa {i : Nat} {set : StateSet}
    (h : (nfa.subsets nfa.move? alphabet)[i]? = some set) :
    (nfa.subsetDfa nfa.move? tagOf alphabet).isAccepting i = nfa.acceptsIn set := by
  rw [Dfa.isAccepting, getElem?_subsetDfa h]
  rfl

theorem subset_subsetDfa {i : Nat} {set : StateSet}
    (h : (nfa.subsets nfa.move? alphabet)[i]? = some set) :
    (nfa.subsetDfa nfa.move? tagOf alphabet).subset i = set := by
  rw [Dfa.subset, getElem?_subsetDfa h]
  rfl

theorem tag?_subsetDfa {i : Nat} {set : StateSet}
    (h : (nfa.subsets nfa.move? alphabet)[i]? = some set) :
    (nfa.subsetDfa nfa.move? tagOf alphabet).tag? i =
      RuleTag.best? (set.members.filterMap tagOf) := by
  rw [Dfa.tag?, getElem?_subsetDfa h]
  rfl

theorem tokenType_subsetDfa {i : Nat} {set : StateSet}
    (h : (nfa.subsets nfa.move? alphabet)[i]? = some set) :
    (nfa.subsetDfa nfa.move? tagOf alphabet).tokenType i =
      (RuleTag.best? (set.members.filterMap tagOf)).map (·.tokenType) := by
  rw [Dfa.tokenType_eq, tag?_subsetDfa h]

theorem moves_subsetDfa {i : Nat} {set : StateSet}
    (h : (nfa.subsets nfa.move? alphabet)[i]? = some set) :
    (nfa.subsetDfa nfa.move? tagOf alphabet).moves i =
      .ofAlphabet alphabet fun c => (nfa.move? set.members c).bind
        (nfa.subsets nfa.move? alphabet).idxOf? := by
  rw [Dfa.moves, getElem?_subsetDfa h]
  rfl

/-- Exactly the states that accept have a tag, if that holds of the nondeterministic automaton. -/
theorem tagged_subsetDfa (htags : ∀ state, nfa.isAccepting state = (tagOf state).isSome) :
    (nfa.subsetDfa nfa.move? tagOf alphabet).Tagged := by
  intro entry hentry
  obtain ⟨set, _, rfl⟩ := List.mem_map.1 (List.mem_toArray.1 hentry)
  show set.members.any nfa.isAccepting = (RuleTag.best? (set.members.filterMap tagOf)).isSome
  rw [RuleTag.isSome_best?_filterMap, funext htags]

theorem start_subsetDfa : (nfa.subsets nfa.move? alphabet)[
    (nfa.subsetDfa nfa.move? tagOf alphabet).start]? = some nfa.initial := by
  obtain ⟨others, hothers⟩ := (@explores_subsets nfa alphabet).isPrefix
  rw [← hothers]
  rfl

theorem movesWithin_subsetDfa : (nfa.subsetDfa nfa.move? tagOf alphabet).MovesWithin alphabet := by
  intro state c hsome
  obtain ⟨target, htarget⟩ := Option.isSome_iff_exists.1 hsome
  have hs := Dfa.lt_size_of_next? htarget
  rw [size_subsetDfa] at hs
  rw [Dfa.next?, moves_subsetDfa (List.getElem?_eq_getElem hs), Moves.next?_ofAlphabet] at htarget
  by_contra hc
  rw [if_neg hc] at htarget
  cases htarget

section Covered

variable (hcover : ∀ c ∈ nfa.literals, c ∈ alphabet)

include hcover

/-- A move is to the number of the set that the nondeterministic automaton moves to. -/
theorem next?_subsetDfa {i : Nat} {set : StateSet}
    (h : (nfa.subsets nfa.move? alphabet)[i]? = some set) (c : Char) :
    (nfa.subsetDfa nfa.move? tagOf alphabet).next? i c =
      (nfa.move? set.members c).bind (nfa.subsets nfa.move? alphabet).idxOf? := by
  rw [Dfa.next?, moves_subsetDfa h, Moves.next?_ofAlphabet]
  split
  · rfl
  next hc =>
    cases hmove : nfa.move? set.members c with
    | none => rfl
    | some next => exact absurd (hcover c (mem_literals_of_move? hmove)) hc

/-- The deterministic automaton runs into the numbers of the sets that the nondeterministic one runs
into. -/
theorem runFrom_subsetDfa {i : Nat} {set : StateSet}
    (h : (nfa.subsets nfa.move? alphabet)[i]? = some set) (word : List Char) :
    (nfa.subsetDfa nfa.move? tagOf alphabet).runFrom i word =
      (word.foldlM (fun set c => nfa.move? set.members c) set).bind
        (nfa.subsets nfa.move? alphabet).idxOf? := by
  induction word generalizing i set with
  | nil =>
    rw [Dfa.runFrom_nil]
    exact ((idxOf?_eq_some_iff_of_nodup nodup_subsets).2 h).symm
  | cons c word ih =>
    rw [Dfa.runFrom_cons, next?_subsetDfa hcover h, List.foldlM_cons]
    cases hmove : nfa.move? set.members c with
    | none => rfl
    | some next =>
      have hnext : next ∈ nfa.subsets nfa.move? alphabet :=
        mem_subsets_of_move? hcover (List.mem_of_getElem? h) hmove
      obtain ⟨j, hj⟩ := List.getElem?_of_mem hnext
      have hindex := (idxOf?_eq_some_iff_of_nodup nodup_subsets).2 hj
      rw [Option.bind_some, hindex, Option.bind_some, ih hj]
      rfl

theorem run_subsetDfa (word : List Char) :
    (nfa.subsetDfa nfa.move? tagOf alphabet).run word =
      (nfa.run word).bind (nfa.subsets nfa.move? alphabet).idxOf? :=
  runFrom_subsetDfa hcover start_subsetDfa word

/-- The state after a word has the number of the set that the nondeterministic automaton is in. -/
theorem run_subsetDfa_eq_some_iff {word : List Char} {last : Nat} :
    (nfa.subsetDfa nfa.move? tagOf alphabet).run word = some last ↔
      ∃ set, nfa.run word = some set ∧ (nfa.subsets nfa.move? alphabet)[last]? = some set := by
  rw [run_subsetDfa hcover, Option.bind_eq_some_iff]
  simp only [idxOf?_eq_some_iff_of_nodup nodup_subsets]

/-- The deterministic automaton gets stuck on the same words as the nondeterministic one. -/
theorem run_subsetDfa_eq_none_iff {word : List Char} :
    (nfa.subsetDfa nfa.move? tagOf alphabet).run word = none ↔ nfa.run word = none := by
  rw [run_subsetDfa hcover]
  cases hset : nfa.run word with
  | none => simp
  | some set =>
    obtain ⟨i, hi⟩ := List.getElem?_of_mem ((mem_subsets_iff hcover).2 ⟨word, hset⟩)
    simp [(idxOf?_eq_some_iff_of_nodup nodup_subsets).2 hi]

/-! ## The deterministic automaton is trim -/

/-- The moves of a set's state are to the numbers of the sets after it, in the order of the
symbols. -/
theorem targets_subsetDfa {i : Nat} {set : StateSet}
    (h : (nfa.subsets nfa.move? alphabet)[i]? = some set) :
    ((nfa.subsetDfa nfa.move? tagOf alphabet).moves i).targets =
      (successors nfa.move? alphabet set).map (nfa.subsetNumber alphabet) := by
  rw [moves_subsetDfa h, Moves.targets, Moves.ofAlphabet, successors, List.map_filterMap,
    List.map_filterMap]
  apply List.filterMap_congr
  intro c _
  cases hmove : nfa.move? set.members c with
  | none => rfl
  | some next =>
    have hnext : next ∈ nfa.subsets nfa.move? alphabet :=
      mem_subsets_of_move? hcover (List.mem_of_getElem? h) hmove
    obtain ⟨j, hj⟩ := List.getElem?_of_mem hnext
    have hindex := (idxOf?_eq_some_iff_of_nodup nodup_subsets).2 hj
    simp [hindex, subsetNumber_eq hj]

/-- The states are numbered in the order of their discovery: the search of the deterministic
automaton goes the way of the search for the subsets. -/
theorem reached_subsetDfa :
    (nfa.subsetDfa nfa.move? tagOf alphabet).reached =
      List.range (nfa.subsetDfa nfa.move? tagOf alphabet).size := by
  have hnext : ∀ set ∈ nfa.subsets nfa.move? alphabet,
      ((nfa.subsetDfa nfa.move? tagOf alphabet).moves (nfa.subsetNumber alphabet set)).targets =
        (successors nfa.move? alphabet set).map (nfa.subsetNumber alphabet) := by
    intro set hs
    obtain ⟨i, hi⟩ := List.getElem?_of_mem hs
    rw [subsetNumber_eq hi]
    exact targets_subsetDfa hcover hi
  rw [Dfa.reached_eq_image explores_subsets (subsetNumber_eq start_subsetDfa) hnext, size_subsetDfa,
    ← map_subsetNumber]
  apply Discovery.image_of_injOn nodup_subsets
  intro a ha b hb hab
  obtain ⟨i, hi⟩ := List.getElem?_of_mem ha
  obtain ⟨j, hj⟩ := List.getElem?_of_mem hb
  rw [subsetNumber_eq hi, subsetNumber_eq hj] at hab
  rw [hab, hj] at hi
  exact (Option.some.inj hi).symm

/-- From every state of the deterministic automaton a word leads to acceptance, if that holds of the
nondeterministic one: a set that is found has a member. -/
theorem live_subsetDfa (hlive : nfa.Live) {i : Nat}
    (hi : i < (nfa.subsetDfa nfa.move? tagOf alphabet).size) :
    ∃ word verdict, (nfa.subsetDfa nfa.move? tagOf alphabet).assigned i word = some verdict := by
  rw [size_subsetDfa] at hi
  obtain ⟨front, hfront⟩ := exists_run_of_mem_subsets (List.getElem_mem hi)
  have hreach : (nfa.subsetDfa nfa.move? tagOf alphabet).run front = some i :=
    (run_subsetDfa_eq_some_iff hcover).2 ⟨_, hfront, List.getElem?_eq_getElem hi⟩
  obtain ⟨state, hs⟩ : ∃ state, state ∈ (nfa.subsets nfa.move? alphabet)[i] :=
    exists_mem_of_foldlM_move? ⟨nfa.start, mem_closure_of_mem (List.mem_singleton_self _)⟩ hfront
  have hpath := (mem_of_run hfront state).1 hs
  obtain ⟨back, target, hback, haccepting⟩ := hlive state (hpath.lt_size nfa.start_lt)
  cases hrun : (nfa.subsetDfa nfa.move? tagOf alphabet).run (front ++ back) with
  | none =>
    have hstuck := run_eq_none_iff.1 ((run_subsetDfa_eq_none_iff hcover).1 hrun)
    exact absurd (hpath.append hback) (hstuck target)
  | some last =>
    obtain ⟨set, hset, hlast⟩ := (run_subsetDfa_eq_some_iff hcover).1 hrun
    have hmember := (mem_of_run hset target).2 (hpath.append hback)
    refine ⟨back, (nfa.subsetDfa nfa.move? tagOf alphabet).tokenType last, ?_⟩
    rw [← Dfa.assigned_append_of_runFrom back hreach, Dfa.assigned, ← Dfa.run, hrun,
      Option.bind_some, Dfa.verdict, isAccepting_subsetDfa hlast,
      acceptsIn_iff.2 ⟨target, hmember, haccepting⟩]
    rfl

/-- The subset construction gives a trim automaton, if all tags are on accepting states. -/
theorem trim_subsetDfa (hlive : nfa.Live)
    (htags : ∀ state tag, tagOf state = some tag → nfa.isAccepting state = true) :
    (nfa.subsetDfa nfa.move? tagOf alphabet).Trim where
  reached_eq := reached_subsetDfa hcover
  live _ hs := live_subsetDfa hcover hlive hs
  accepting_of_tokenType i tokenType h := by
    have hi := Dfa.lt_size_of_tokenType h
    rw [size_subsetDfa] at hi
    have hs := List.getElem?_eq_getElem hi
    rw [tokenType_subsetDfa hs] at h
    obtain ⟨best, hbest, _⟩ := Option.map_eq_some_iff.1 h
    obtain ⟨state, hm, htag⟩ := List.mem_filterMap.1 (List.minOn?_mem hbest)
    rw [isAccepting_subsetDfa hs]
    exact acceptsIn_iff.2 ⟨state, StateSet.mem_members.1 hm, htags state best htag⟩

/-- With an alphabet that covers the literals there is a deterministic automaton. -/
theorem determinize_eq_ok : nfa.determinize tagOf alphabet =
    .ok (nfa.subsetDfa nfa.move? tagOf alphabet) := by
  rw [determinize, Alphabet.uncovered?_eq_none hcover, moveBy?_reaches]

end Covered

end Construction

end Nfa

end LexGen
