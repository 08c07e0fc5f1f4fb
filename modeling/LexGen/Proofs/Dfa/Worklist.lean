import LexGen.Nfa.OfRegex
import LexGen.Proofs.Dfa.Subsets
import Mathlib.Algebra.Group.Nat.Defs
import Mathlib.Logic.Function.Basic

/-!
# The work list of the subset construction

Here the subset construction keeps what a program would keep: the sets it has met, their moves, a
map from sets to numbers and a queue of the numbers that wait (`Nfa.Construction`). It takes a
number from the queue as long as there is one, and nothing in that bounds it
(`Nfa.Construction.Works`).

What carries it is that the map stays the inverse of the list of the sets and that the numbers in
the queue are the last ones of the list (`Nfa.Construction.Waiting`). So a set gets a number once,
the numbers are taken in ascending order, each once, and the list grows as in the search of
`Nfa.subsets`, which ends because there are only as many sets as subsets. The states and the moves
are those of the deterministic automaton (`Dfa.exists_explored`).
-/

namespace LexGen

namespace Nfa

/-- Where the construction has come to. The sets are listed by their numbers. -/
structure Construction where
  sets : List StateSet
  moves : Nat → List (Char × Nat)
  ids : List (StateSet × Nat)
  queue : List Nat

namespace Construction

/-- At first only the initial set has a number. -/
def start (nfa : Nfa) : Construction := ⟨[nfa.initial], fun _ => [], [(nfa.initial, 0)], [0]⟩

/-- The number of a set. A set without a number gets the next one, which has to wait. -/
def number (current : Construction) (set : StateSet) : Nat × Construction :=
  match current.ids.lookup set with
  | some number => (number, current)
  | none => (current.sets.length,
    { current with
      sets := current.sets ++ [set]
      ids := (set, current.sets.length) :: current.ids
      queue := current.queue ++ [current.sets.length] })

def addMove (source : Nat) (c : Char) (target : Nat) (current : Construction) : Construction :=
  { current with
    moves := Function.update current.moves source (current.moves source ++ [(c, target)]) }

/-- Add the move of a state on a symbol, if there is one. -/
def reach (nfa : Nfa) (source : Nat) (set : StateSet) (current : Construction) (c : Char) :
    Construction :=
  match nfa.move? set.members c with
  | none => current
  | some next => (current.number next).2.addMove source c (current.number next).1

/-- Work until the queue is empty. The list is of the numbers that are taken. -/
inductive Works (nfa : Nfa) (alphabet : Alphabet) :
    List Nat → Construction → Construction → Prop where
  | done {current : Construction} : current.queue = [] → Works nfa alphabet [] current current
  | take {current last : Construction} {source : Nat} {queue taken : List Nat} {set : StateSet} :
    current.queue = source :: queue → current.sets[source]? = some set →
      Works nfa alphabet taken
        (alphabet.symbols.foldl (reach nfa source set) { current with queue := queue }) last →
      Works nfa alphabet (source :: taken) current last

/-- The construction can go only one way. -/
theorem Works.unique {nfa : Nfa} {alphabet : Alphabet} {taken others : List Nat}
    {current last other : Construction} (h : Works nfa alphabet taken current last)
    (ho : Works nfa alphabet others current other) : others = taken ∧ other = last := by
  induction h generalizing others other with
  | done hqueue =>
    cases ho with
    | done => exact ⟨rfl, rfl⟩
    | take hother => cases hqueue.symm.trans hother
  | take hqueue hset _ ih =>
    cases ho with
    | done hother => cases hqueue.symm.trans hother
    | take hother hset' hworks =>
      cases hqueue.symm.trans hother
      cases hset.symm.trans hset'
      obtain ⟨rfl, rfl⟩ := ih hworks
      exact ⟨rfl, rfl⟩

theorem Works.queue_eq_nil {nfa : Nfa} {alphabet : Alphabet} {taken : List Nat}
    {current last : Construction} (h : Works nfa alphabet taken current last) :
    last.queue = [] := by
  induction h with
  | done hqueue => exact hqueue
  | take _ _ _ ih => exact ih

/-! ## What a step keeps -/

theorem getElem?_of_isPrefix {sets found : List StateSet} {i : Nat} {set : StateSet}
    (h : sets <+: found) (hset : sets[i]? = some set) : found[i]? = some set := by
  obtain ⟨rest, rfl⟩ := h
  rw [List.getElem?_append_left (List.getElem?_eq_some_iff.1 hset).1, hset]

/-- The numbers from the cursor on are the cursor and those behind it. -/
theorem range'_sub_eq_cons {cursor n : Nat} (h : cursor < n) :
    List.range' cursor (n - cursor) = cursor :: List.range' (cursor + 1) (n - (cursor + 1)) := by
  have hlength : n - cursor = n - (cursor + 1) + 1 := by omega
  rw [hlength, List.range'_succ]

/-- The map gives each set of the list its number, and no other set one. -/
def Inverse (ids : List (StateSet × Nat)) (sets : List StateSet) : Prop :=
  ∀ set number, ids.lookup set = some number ↔ sets[number]? = some set

section Inverse

variable {ids : List (StateSet × Nat)} {sets : List StateSet} {set : StateSet}

theorem inverse_nil : Inverse [] [] := by simp [Inverse]

theorem Inverse.lookup_eq_none_iff (h : Inverse ids sets) :
    ids.lookup set = none ↔ set ∉ sets := by
  rw [Option.eq_none_iff_forall_ne_some, List.mem_iff_getElem?, not_exists]
  simp only [ne_eq, h set]

/-- The next number may be given to a set that has none. -/
theorem Inverse.push (h : Inverse ids sets) (hset : set ∉ sets) :
    Inverse ((set, sets.length) :: ids) (sets ++ [set]) := by
  intro other number
  have hplace : (sets ++ [set])[number]? = some other ↔
      sets[number]? = some other ∨ number = sets.length ∧ set = other := by grind
  rw [List.lookup_cons, hplace]
  by_cases hother : other = set
  · subst hother
    have hold : sets[number]? ≠ some other := fun hnumber => hset (List.mem_of_getElem? hnumber)
    simp [hold, eq_comm]
  · have hne : (other == set) = false := by simpa using hother
    simp [hne, h other, Ne.symm hother]

end Inverse

/-- The map is the inverse of the list of the sets, and the numbers from `cursor` on wait. -/
structure Waiting (cursor : Nat) (current : Construction) : Prop where
  inverse : Inverse current.ids current.sets
  cursor_le : cursor ≤ current.sets.length
  queue_eq : current.queue = List.range' cursor (current.sets.length - cursor)

variable {nfa : Nfa} {alphabet : Alphabet} {cursor source : Nat} {current last : Construction}
  {set : StateSet}

theorem waiting_start : (start nfa).Waiting 0 where
  inverse := inverse_nil.push List.not_mem_nil
  cursor_le := Nat.zero_le _
  queue_eq := rfl

theorem Waiting.sets_number (h : current.Waiting cursor) :
    (current.number set).2.sets = Discovery.extend current.sets [set] := by
  unfold number
  cases hlookup : current.ids.lookup set with
  | some number =>
    have hset : set ∈ current.sets := List.mem_of_getElem? ((h.inverse _ _).1 hlookup)
    simp [Discovery.extend, hset]
  | none => exact (Discovery.extend_singleton (h.inverse.lookup_eq_none_iff.1 hlookup)).symm

/-- A set is found at its number. -/
theorem Waiting.getElem?_number (h : current.Waiting cursor) (set : StateSet) :
    (current.number set).2.sets[(current.number set).1]? = some set := by
  unfold number
  cases hlookup : current.ids.lookup set with
  | some number => exact (h.inverse _ _).1 hlookup
  | none => simp

theorem waiting_number (h : current.Waiting cursor) : (current.number set).2.Waiting cursor := by
  unfold number
  cases hlookup : current.ids.lookup set with
  | some number => exact h
  | none =>
    have hset : set ∉ current.sets := h.inverse.lookup_eq_none_iff.1 hlookup
    have hle := h.cursor_le
    refine ⟨h.inverse.push hset, ?_, ?_⟩
    · rw [List.length_append]
      omega
    · have hlength : (current.sets ++ [set]).length - cursor =
          current.sets.length - cursor + 1 := by
        rw [List.length_append, List.length_singleton]
        omega
      rw [hlength, List.range'_1_concat, h.queue_eq, Nat.add_sub_cancel' hle]

theorem moves_number : (current.number set).2.moves = current.moves := by
  unfold number
  split <;> rfl

@[simp]
theorem sets_addMove {c : Char} {target : Nat} :
    (current.addMove source c target).sets = current.sets := rfl

theorem waiting_addMove (h : current.Waiting cursor) (c : Char) (target : Nat) :
    (current.addMove source c target).Waiting cursor := ⟨h.inverse, h.cursor_le, h.queue_eq⟩

/-! ## The symbols, one after the other -/

/-- The moves of a set to the numbers in a list of sets. -/
def movesOn (nfa : Nfa) (found : List StateSet) (set : StateSet) (symbols : List Char) :
    List (Char × Nat) :=
  symbols.filterMap fun c => ((nfa.move? set.members c).bind found.idxOf?).map (c, ·)

theorem movesOn_cons (found : List StateSet) (c : Char) (symbols : List Char) :
    movesOn nfa found set (c :: symbols) =
      movesOn nfa found set [c] ++ movesOn nfa found set symbols := by
  rw [movesOn, ← List.singleton_append, List.filterMap_append]
  rfl

theorem waiting_reach (h : current.Waiting cursor) (c : Char) :
    (reach nfa source set current c).Waiting cursor := by
  unfold reach
  split
  · exact h
  · exact waiting_addMove (waiting_number h) ..

theorem Waiting.sets_reach (h : current.Waiting cursor) (c : Char) :
    (reach nfa source set current c).sets =
      Discovery.extend current.sets ([c].filterMap (nfa.move? set.members)) := by
  unfold reach
  cases hmove : nfa.move? set.members c with
  | none => simp [hmove, Discovery.extend]
  | some next => simp [hmove, h.sets_number]

/-- The move goes to the place of the next set in every list that the sets grow to. -/
theorem Waiting.moves_reach {found : List StateSet} (h : current.Waiting cursor)
    (hfound : found.Nodup) {c : Char} (hsets : (reach nfa source set current c).sets <+: found) :
    (reach nfa source set current c).moves = Function.update current.moves source
      (current.moves source ++ movesOn nfa found set [c]) := by
  unfold reach at hsets ⊢
  cases hmove : nfa.move? set.members c with
  | none => simp [movesOn, hmove]
  | some next =>
    simp only [hmove, sets_addMove] at hsets
    have hplace := getElem?_of_isPrefix hsets (h.getElem?_number next)
    have hindex := (idxOf?_eq_some_iff_of_nodup hfound).2 hplace
    simp [addMove, moves_number, movesOn, hmove, hindex]

theorem waiting_foldl_reach (h : current.Waiting cursor) (symbols : List Char) :
    (symbols.foldl (reach nfa source set) current).Waiting cursor := by
  induction symbols generalizing current with
  | nil => exact h
  | cons c symbols ih => exact ih (waiting_reach h c)

theorem Waiting.sets_foldl_reach (h : current.Waiting cursor) (symbols : List Char) :
    (symbols.foldl (reach nfa source set) current).sets =
      Discovery.extend current.sets (symbols.filterMap (nfa.move? set.members)) := by
  induction symbols generalizing current with
  | nil => rfl
  | cons c symbols ih =>
    rw [List.foldl_cons, ih (waiting_reach h c), h.sets_reach, ← Discovery.extend_append,
      ← List.filterMap_append, List.singleton_append]

theorem Waiting.moves_foldl_reach {found : List StateSet} (h : current.Waiting cursor)
    (hfound : found.Nodup) (symbols : List Char)
    (hsets : (symbols.foldl (reach nfa source set) current).sets <+: found) :
    (symbols.foldl (reach nfa source set) current).moves = Function.update current.moves source
      (current.moves source ++ movesOn nfa found set symbols) := by
  induction symbols generalizing current with
  | nil => simp [movesOn]
  | cons c symbols ih =>
    have hfirst : (reach nfa source set current c).sets <+: found := by
      rw [List.foldl_cons, (waiting_reach h c).sets_foldl_reach] at hsets
      exact (Discovery.isPrefix_extend ..).trans hsets
    rw [List.foldl_cons, ih (waiting_reach h c) hsets, h.moves_reach hfound hfirst,
      movesOn_cons found c symbols, Function.update_idem, Function.update_self, List.append_assoc]

/-! ## The whole run -/

/-- The moves of the set with a number; none for a number that no set has. -/
def movesAt (nfa : Nfa) (alphabet : Alphabet) (found : List StateSet) (number : Nat) :
    List (Char × Nat) :=
  (found[number]?).elim [] fun set => movesOn nfa found set alphabet.symbols

/-- Taking a number goes on to the next one. -/
theorem Waiting.take (h : current.Waiting cursor) (hset : current.sets[cursor]? = some set) :
    ∃ queue, current.queue = cursor :: queue ∧
      ({ current with queue := queue } : Construction).Waiting (cursor + 1) := by
  have hlt := (List.getElem?_eq_some_iff.1 hset).1
  refine ⟨List.range' (cursor + 1) (current.sets.length - (cursor + 1)), ?_, h.inverse, hlt, rfl⟩
  rw [h.queue_eq, range'_sub_eq_cons hlt]

/-- The moves of the numbers in front of the cursor are put in, and no others. -/
def Recorded (nfa : Nfa) (alphabet : Alphabet) (found : List StateSet) (cursor : Nat)
    (current : Construction) : Prop :=
  ∀ i, current.moves i = if i < cursor then movesAt nfa alphabet found i else []

theorem recorded_start (alphabet : Alphabet) (found : List StateSet) :
    Recorded nfa alphabet found 0 (start nfa) := fun _ => rfl

theorem Recorded.foldl_reach {found : List StateSet}
    (h : Recorded nfa alphabet found cursor current) (hwaiting : current.Waiting (cursor + 1))
    (hfound : found.Nodup) (hset : found[cursor]? = some set)
    (hsets : (alphabet.symbols.foldl (reach nfa cursor set) current).sets <+: found) :
    Recorded nfa alphabet found (cursor + 1)
      (alphabet.symbols.foldl (reach nfa cursor set) current) := by
  intro i
  rw [hwaiting.moves_foldl_reach hfound alphabet.symbols hsets]
  by_cases hi : i = cursor
  · subst hi
    rw [Function.update_self, h, if_neg (Nat.lt_irrefl i), List.nil_append,
      if_pos (Nat.lt_succ_self i), movesAt, hset, Option.elim_some]
  · rw [Function.update_of_ne hi, h]
    have hlt : i < cursor ↔ i < cursor + 1 := by omega
    simp only [hlt]

theorem Recorded.moves_eq {found : List StateSet} (h : Recorded nfa alphabet found cursor current)
    (hcursor : found.length ≤ cursor) (i : Nat) :
    current.moves i = movesAt nfa alphabet found i := by
  rw [h]
  split
  · rfl
  next hi => rw [movesAt, List.getElem?_eq_none (by omega), Option.elim_none]

/-- The work goes the way of the search for the subsets: it takes the numbers of all sets in
ascending order and puts in their moves. -/
theorem exists_works {found : List StateSet}
    (h : Discovery.Explores (successors nfa.move? alphabet) cursor current.sets found)
    (hwaiting : current.Waiting cursor) (hfound : found.Nodup)
    (hrecorded : Recorded nfa alphabet found cursor current) :
    ∃ last, Works nfa alphabet (List.range' cursor (found.length - cursor)) current last ∧
      last.sets = found ∧ ∀ i, last.moves i = movesAt nfa alphabet found i := by
  generalize hsets : current.sets = sets at h
  induction h generalizing current with
  | @done cursor sets hend =>
    subst hsets
    have hle : current.sets.length ≤ cursor := List.getElem?_eq_none_iff.1 hend
    have hqueue := hwaiting.queue_eq
    rw [Nat.sub_eq_zero_of_le hle] at hqueue ⊢
    exact ⟨current, .done hqueue, rfl, hrecorded.moves_eq hle⟩
  | @visit cursor sets found set hset hrest ih =>
    subst hsets
    obtain ⟨queue, hqueue, hnext⟩ := hwaiting.take hset
    have hgrown : (alphabet.symbols.foldl (reach nfa cursor set)
        { current with queue := queue }).sets =
        Discovery.extend current.sets (successors nfa.move? alphabet set) :=
      hnext.sets_foldl_reach alphabet.symbols
    have hplace : found[cursor]? = some set :=
      getElem?_of_isPrefix ((Discovery.isPrefix_extend ..).trans hrest.isPrefix) hset
    have htaken : Recorded nfa alphabet found cursor { current with queue := queue } := hrecorded
    have hlater := htaken.foldl_reach hnext hfound hplace (hgrown ▸ hrest.isPrefix)
    obtain ⟨last, hworks, hsets, hlast⟩ :=
      ih (waiting_foldl_reach hnext _) hfound hlater hgrown
    refine ⟨last, ?_, hsets, hlast⟩
    rw [range'_sub_eq_cons (List.getElem?_eq_some_iff.1 hplace).1]
    exact .take hqueue hset hworks

end Construction

/-! ## The sets that are met -/

variable {nfa : Nfa} {alphabet : Alphabet} {tagOf : Nat → Option RuleTag} {set : StateSet}

/-- The sets that can get a number. -/
structure Configuration (nfa : Nfa) (set : StateSet) : Prop where
  exists_mem : ∃ state, state ∈ set
  lt_size : ∀ state, state ∈ set → state < nfa.size
  closed : nfa.Closed set

theorem configuration_initial : nfa.Configuration nfa.initial where
  exists_mem := ⟨nfa.start, mem_closure_of_mem (List.mem_singleton_self _)⟩
  lt_size _ hs := by
    refine lt_of_mem_closure ?_ hs
    intro start hstart
    exact List.mem_singleton.1 hstart ▸ nfa.start_lt
  closed := closure_closed

theorem configuration_of_move? {states : List Nat} {c : Char} (h : nfa.move? states c = some set) :
    nfa.Configuration set where
  exists_mem := exists_mem_of_move? h
  lt_size _ hs := by
    rw [move?] at h
    split at h
    · cases h
    · exact lt_of_mem_closure (fun _ hm => lt_of_mem_step hm) (Option.some.inj h ▸ hs)
  closed := closed_of_move? h

theorem configuration_of_mem_subsets (h : set ∈ nfa.subsets nfa.move? alphabet) :
    nfa.Configuration set := by
  refine explores_subsets.induction (P := nfa.Configuration) ?_ ?_ set h
  · intro first hfirst
    exact List.mem_singleton.1 hfirst ▸ configuration_initial
  · intro source _ next hnext
    obtain ⟨c, _, hmove⟩ := List.mem_filterMap.1 hnext
    exact configuration_of_move? hmove

/-- There are no more sets than subsets with members. -/
theorem length_subsets_le : (nfa.subsets nfa.move? alphabet).length ≤ 2 ^ nfa.size - 1 := by
  have hsub : nfa.subsets nfa.move? alphabet ⊆ (allSubsets nfa.size).erase .empty := by
    intro set hset
    have hconfiguration := configuration_of_mem_subsets hset
    refine (List.mem_erase_of_ne ?_).2 (mem_allSubsets hconfiguration.lt_size)
    rintro rfl
    obtain ⟨state, hs⟩ := hconfiguration.exists_mem
    exact StateSet.not_mem_empty state hs
  have hempty : StateSet.empty ∈ allSubsets nfa.size :=
    mem_allSubsets fun state hs => absurd hs (StateSet.not_mem_empty state)
  calc (nfa.subsets nfa.move? alphabet).length
      ≤ ((allSubsets nfa.size).erase .empty).length := (nodup_subsets.subperm hsub).length_le
    _ = 2 ^ nfa.size - 1 := by
      rw [List.length_erase_of_mem hempty, allSubsets, List.length_map, List.length_range,
        Nat.one_shiftLeft]

/-- The moves that are put in are those of the deterministic automaton. -/
theorem movesAt_subsets (i : Nat) :
    Construction.movesAt nfa alphabet (nfa.subsets nfa.move? alphabet) i =
      ((nfa.subsetDfa nfa.move? tagOf alphabet).moves i).entries := by
  cases hset : (nfa.subsets nfa.move? alphabet)[i]? with
  | some set =>
    rw [moves_subsetDfa hset, Construction.movesAt, hset]
    rfl
  | none =>
    have hstate : (nfa.subsetDfa nfa.move? tagOf alphabet).states[i]? = none := by
      rw [subsetDfa, List.getElem?_toArray, List.getElem?_map, hset, Option.map_none]
    rw [Construction.movesAt, hset, Dfa.moves, hstate]
    rfl

theorem map_subset_subsetDfa :
    (nfa.subsetDfa nfa.move? tagOf alphabet).states.toList.map (·.subset) =
      nfa.subsets nfa.move? alphabet := by
  simp [subsetDfa, subsetState, Function.comp_def]

/-- An alphabet is accepted if it is empty or has all literals. -/
theorem determinize_eq_ok_of_accepted
    (h : alphabet = .empty ∨ ∀ c ∈ nfa.literals, c ∈ alphabet) :
    nfa.determinize tagOf alphabet = .ok (nfa.subsetDfa nfa.move? tagOf alphabet) := by
  rcases h with rfl | hcover
  · rw [determinize, moveBy?_reaches]
    rfl
  · exact determinize_eq_ok hcover

end Nfa

/-- The automaton is what the construction has put together when nothing waits. -/
structure Dfa.Explored (dfa : Dfa) (nfa : Nfa) (alphabet : Alphabet) : Prop where
  exists_works : ∃ last,
    Nfa.Construction.Works nfa alphabet (List.range dfa.size) (.start nfa) last ∧
      last.queue = [] ∧ last.sets = dfa.states.toList.map (·.subset) ∧
        ∀ i, last.moves i = (dfa.moves i).entries
  /-- Each number is taken, and none twice. -/
  taken_eq : ∀ taken last, Nfa.Construction.Works nfa alphabet taken (.start nfa) last →
    taken = List.range dfa.size
  size_le : dfa.size ≤ 2 ^ nfa.size - 1
  subset_injective : ∀ i < dfa.size, ∀ j < dfa.size, dfa.subset i = dfa.subset j → i = j
  configuration : ∀ i < dfa.size, nfa.Configuration (dfa.subset i)
  within : ∀ i c target, (c, target) ∈ (dfa.moves i).entries → c ∈ alphabet ∧ target < dfa.size

theorem Nfa.explored_subsetDfa (nfa : Nfa) (tagOf : Nat → Option RuleTag) (alphabet : Alphabet) :
    (nfa.subsetDfa nfa.move? tagOf alphabet).Explored nfa alphabet := by
  have hexplores : Discovery.Explores (successors nfa.move? alphabet) 0 [nfa.initial]
      (nfa.subsets nfa.move? alphabet) := explores_subsets
  obtain ⟨last, hworks, hsets, hmoves⟩ := Construction.exists_works hexplores
    Construction.waiting_start nodup_subsets (Construction.recorded_start alphabet _)
  have hsize : (nfa.subsetDfa nfa.move? tagOf alphabet).size =
      (nfa.subsets nfa.move? alphabet).length := size_subsetDfa
  rw [Nat.sub_zero, ← List.range_eq_range', ← hsize] at hworks
  have hsubset : ∀ i < (nfa.subsetDfa nfa.move? tagOf alphabet).size,
      (nfa.subsets nfa.move? alphabet)[i]? =
        some ((nfa.subsetDfa nfa.move? tagOf alphabet).subset i) := by
    intro i hi
    rw [size_subsetDfa] at hi
    have hset := List.getElem?_eq_getElem hi
    rw [subset_subsetDfa hset, hset]
  constructor
  case exists_works =>
    refine ⟨last, hworks, hworks.queue_eq_nil, ?_, ?_⟩
    · rw [hsets, map_subset_subsetDfa]
    · exact fun i => (hmoves i).trans (movesAt_subsets i)
  case taken_eq => exact fun taken other hother => (hworks.unique hother).1
  case size_le => exact size_subsetDfa ▸ length_subsets_le
  case subset_injective =>
    intro i hi j hj hij
    have hplace := (idxOf?_eq_some_iff_of_nodup nodup_subsets).2 (hsubset i hi)
    have hother := (idxOf?_eq_some_iff_of_nodup nodup_subsets).2 (hsubset j hj)
    rw [hij, hother] at hplace
    exact (Option.some.inj hplace).symm
  case configuration =>
    exact fun i hi => configuration_of_mem_subsets (List.mem_of_getElem? (hsubset i hi))
  case within =>
    intro i c target hmove
    have hnext := Moves.next?_eq_some_iff.2 hmove
    exact ⟨movesWithin_subsetDfa i c (Option.isSome_of_eq_some hnext), Dfa.lt_of_next? hnext⟩

/-- With every alphabet that is empty or has all literals the construction ends, be it for the
automaton of a pattern or for that of a rule set. It has taken each number once, and no two numbers
are those of one set. -/
theorem Dfa.exists_explored (alphabet : Alphabet) :
    (∀ nfa : Nfa, (alphabet = .empty ∨ ∀ c ∈ nfa.literals, c ∈ alphabet) →
      ∃ dfa, Dfa.ofNfa nfa alphabet = .ok dfa ∧ dfa.Explored nfa alphabet) ∧
    ∀ combined : Combined, (alphabet = .empty ∨ ∀ c ∈ combined.nfa.literals, c ∈ alphabet) →
      ∃ dfa, Dfa.ofCombined combined alphabet = .ok dfa ∧ dfa.Explored combined.nfa alphabet := by
  constructor
  · intro nfa haccepted
    exact ⟨_, Nfa.determinize_eq_ok_of_accepted haccepted, Nfa.explored_subsetDfa ..⟩
  · intro combined haccepted
    exact ⟨_, Nfa.determinize_eq_ok_of_accepted haccepted, Nfa.explored_subsetDfa ..⟩

/-- The automaton of `(a|b)*a` is explored with one symbol more than it needs, and that of the rules
`b*` and `c` with no symbols at all. -/
theorem Dfa.exists_explored_choice :
    (∃ nfa dfa, Nfa.compile "(a|b)*a" = .ok nfa ∧
      Dfa.ofNfa nfa (.ofList ['a', 'b', 'z']) = .ok dfa ∧
      dfa.Explored nfa (.ofList ['a', 'b', 'z'])) ∧
    ∃ combined dfa, Combined.ofRules ⟨[("b*", ⟨"many"⟩), ("c", ⟨"one"⟩)]⟩ = .ok combined ∧
      Dfa.ofCombined combined .empty = .ok dfa ∧ dfa.Explored combined.nfa .empty := by
  have hcompile : Nfa.compile "(a|b)*a" = .ok (.ofRegex
      (.concat (.repeated .star (.union (.literal 'a') (.literal 'b'))) (.literal 'a'))) := by rfl
  have hcombined : Combined.ofRules ⟨[("b*", ⟨"many"⟩), ("c", ⟨"one"⟩)]⟩ =
      .ok ⟨Combined.nfaOf [.repeated .star (.literal 'b'), .literal 'c'],
        [(4, ⟨⟨"many"⟩, 0⟩), (6, ⟨⟨"one"⟩, 1⟩)]⟩ := by rfl
  have hpattern : ∀ c ∈ (Nfa.ofRegex (.concat (.repeated .star
      (.union (.literal 'a') (.literal 'b'))) (.literal 'a'))).literals,
      c ∈ Alphabet.ofList ['a', 'b', 'z'] := by
    have hliterals : (Nfa.ofRegex (.concat (.repeated .star
        (.union (.literal 'a') (.literal 'b'))) (.literal 'a'))).literals =
          ['a', 'b', 'a'] := by rfl
    simp [hliterals]
  obtain ⟨dfa, hdfa⟩ := (Dfa.exists_explored (.ofList ['a', 'b', 'z'])).1 _ (.inr hpattern)
  obtain ⟨dfa', hdfa'⟩ := (Dfa.exists_explored .empty).2 ⟨_, _⟩ (.inl rfl)
  exact ⟨⟨_, dfa, hcompile, hdfa⟩, ⟨_, dfa', hcombined, hdfa'⟩⟩

end LexGen
