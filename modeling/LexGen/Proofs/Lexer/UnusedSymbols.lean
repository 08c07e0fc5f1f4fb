import LexGen.Proofs.Lexer.Stages

/-!
# Symbols that nothing reads

An alphabet may have more symbols than the automaton has literals. The lists that the constructions
go through are longer then, but what is skipped adds nothing to them: the subsets are found in the
same order (`Nfa.subsetDfa_congr`), the same pairs of states are told apart in the end, whatever
the passes before were (`Dfa.merged_congr`), and the walks of the tables show the same states with the
same tags (`Table.trace_flattened`). So any two alphabets with all the literals lead to the same
automata and to tables that agree (`Dfa.exists_madeAlike`).
-/

namespace LexGen

namespace Alphabet

variable {a b : Alphabet}

/-- The symbols with a property. -/
def filter (test : Char → Bool) (alphabet : Alphabet) : Alphabet :=
  ⟨alphabet.symbols.filter test, alphabet.ascending.filter test⟩

theorem mem_filter {test : Char → Bool} {alphabet : Alphabet} {c : Char} :
    c ∈ alphabet.filter test ↔ c ∈ alphabet ∧ test c = true := List.mem_filter

/-- Only symbols for which there is something to list count. -/
theorem filterMap_filter {β : Type} (alphabet : Alphabet) (f : Char → Option β) :
    (alphabet.filter fun c => (f c).isSome).symbols.filterMap f = alphabet.symbols.filterMap f := by
  rw [filter, List.filterMap_filter]
  apply List.filterMap_congr
  intro c _
  cases hc : f c <;> simp

theorem filterMap_congr {β : Type} {f : Char → Option β} (ha : ∀ c, (f c).isSome → c ∈ a)
    (hb : ∀ c, (f c).isSome → c ∈ b) : a.symbols.filterMap f = b.symbols.filterMap f := by
  have hfilter : (a.filter fun c => (f c).isSome) = b.filter fun c => (f c).isSome := by
    apply ext
    intro c
    rw [mem_filter, mem_filter]
    exact ⟨fun h => ⟨hb c h.2, h.2⟩, fun h => ⟨ha c h.2, h.2⟩⟩
  rw [← filterMap_filter a, hfilter, filterMap_filter b]

end Alphabet

/-! ## Determinizing -/

namespace Nfa

variable {nfa : Nfa} {tagOf : Nat → Option RuleTag} {a b : Alphabet}
  (ha : ∀ c ∈ nfa.literals, c ∈ a) (hb : ∀ c ∈ nfa.literals, c ∈ b)

include ha hb

theorem successors_congr : successors nfa.move? a = successors nfa.move? b := by
  have hliteral : ∀ (set : StateSet) (c : Char), (nfa.move? set.members c).isSome →
      c ∈ nfa.literals := by
    intro set c hsome
    obtain ⟨_, hmove⟩ := Option.isSome_iff_exists.1 hsome
    exact mem_literals_of_move? hmove
  funext set
  exact Alphabet.filterMap_congr (fun c h => ha c (hliteral set c h))
    fun c h => hb c (hliteral set c h)

/-- The search meets the same sets in the same order. -/
theorem subsets_congr : nfa.subsets nfa.move? a = nfa.subsets nfa.move? b := by
  rw [subsets, subsets, successors_congr ha hb]

theorem subsetState_congr (found : List StateSet) (set : StateSet) :
    nfa.subsetState nfa.move? tagOf a found set = nfa.subsetState nfa.move? tagOf b found set := by
  have hmoves : Moves.ofAlphabet a (fun c => (nfa.move? set.members c).bind found.idxOf?) =
      Moves.ofAlphabet b fun c => (nfa.move? set.members c).bind found.idxOf? := by
    apply Moves.ext
    intro c
    rw [Moves.next?_ofAlphabet, Moves.next?_ofAlphabet]
    cases hmove : nfa.move? set.members c with
    | none => simp
    | some next =>
      have hc := mem_literals_of_move? hmove
      rw [if_pos (ha c hc), if_pos (hb c hc)]
  rw [subsetState, subsetState, hmoves]

theorem subsetDfa_congr :
    nfa.subsetDfa nfa.move? tagOf a = nfa.subsetDfa nfa.move? tagOf b := by
  apply Dfa.eq_of_states_eq
  · show ((nfa.subsets nfa.move? a).map _).toArray = ((nfa.subsets nfa.move? b).map _).toArray
    rw [subsets_congr ha hb, funext (subsetState_congr ha hb _)]
  · rfl

end Nfa

/-! ## Minimizing -/

namespace Dfa

variable {dfa : Dfa} {a b : Alphabet} (ha : dfa.MovesWithin a) (hb : dfa.MovesWithin b)

include ha hb

/-- The passes mark the same pairs in the end, since both times these are the separated ones. -/
theorem get_distinguished_congr :
    (dfa.distinguished a).get = (dfa.distinguished b).get := by
  funext pair
  rw [Bool.eq_iff_iff, get_distinguished_iff, get_distinguished_iff, alikeOver_iff ha,
    alikeOver_iff hb]

theorem classes_congr : dfa.classes a = dfa.classes b := by
  rw [classes, classes, partition_eq, partition_eq, joinUnmarked, joinUnmarked,
    get_distinguished_congr ha hb]

theorem mergedState_congr (classes : List (List Nat)) (members : List Nat) :
    dfa.mergedState a classes members = dfa.mergedState b classes members := by
  unfold mergedState
  simp only [within_moves ha, within_moves hb]

theorem merged_congr : dfa.merged a = dfa.merged b := by
  have hclasses := classes_congr ha hb
  apply eq_of_states_eq
  · show ((dfa.classes a).map _).toArray = ((dfa.classes b).map _).toArray
    rw [hclasses, funext (mergedState_congr ha hb _)]
  · show classNumber (dfa.classes a) dfa.start = classNumber (dfa.classes b) dfa.start
    rw [hclasses]

end Dfa

/-! ## Tables -/

/-- The states that a walk goes through from a state on, each with what it accepts. -/
def Table.trace (table : Table) : Fin table.states → List Char → List (Nat × Option RuleTag)
  | state, [] => [(state.val, table.tag state)]
  | state, c :: word => (state.val, table.tag state) :: table.trace (table.next state c) word

namespace Table

variable {dfa : Dfa} {alphabet : Alphabet}

/-- A state of the table has the tag of its number, and the error state has none. -/
theorem tag_flattened_eq (state : Fin (flattened dfa alphabet).states) :
    (flattened dfa alphabet).tag state = dfa.tag? state.val := by
  rcases Nat.lt_or_eq_of_le (Nat.le_of_lt_succ state.isLt) with hlt | heq
  · exact tag_flattened hlt
  · have hstuck : state = (flattened dfa alphabet).stuck := Fin.ext heq
    have hnone : dfa.states[state.val]? = none := Array.getElem?_eq_none (Nat.le_of_eq heq.symm)
    rw [Dfa.tag?, hnone, hstuck, tag_stuck, Option.bind_none]

section Moves

variable (hmoves : dfa.MovesWithin alphabet)

include hmoves

theorem val_next_flattened (state : Fin (flattened dfa alphabet).states) (c : Char) :
    ((flattened dfa alphabet).next state c).val = (dfa.next? state.val c).getD dfa.size := by
  rcases Nat.lt_or_eq_of_le (Nat.le_of_lt_succ state.isLt) with hlt | heq
  · exact next_flattened hmoves hlt c
  · have hstuck : state = (flattened dfa alphabet).stuck := Fin.ext heq
    have hnone : dfa.next? state.val c = none := by
      rw [Option.eq_none_iff_forall_ne_some]
      intro target hnext
      exact absurd (Dfa.lt_size_of_next? hnext) (Nat.not_lt.2 (Nat.le_of_eq heq.symm))
    rw [hnone, hstuck, next_stuck]
    rfl

end Moves

/-- Walks from states of the same number show nothing of the columns. -/
theorem trace_flattened {a b : Alphabet} (ha : dfa.MovesWithin a) (hb : dfa.MovesWithin b)
    (word : List Char) {first : Fin (flattened dfa a).states}
    {second : Fin (flattened dfa b).states} (h : first.val = second.val) :
    (flattened dfa a).trace first word = (flattened dfa b).trace second word := by
  induction word generalizing first second with
  | nil => rw [trace, trace, tag_flattened_eq, tag_flattened_eq, h]
  | cons c word ih =>
    have hnext : ((flattened dfa a).next first c).val = ((flattened dfa b).next second c).val := by
      rw [val_next_flattened ha, val_next_flattened hb, h]
    rw [trace, trace, tag_flattened_eq, tag_flattened_eq, h, ih hnext]

/-- Either both tables are refused for the same reason, or they have equally many states, and over
every word their walks go through the same states and show the same tags. -/
inductive Agree : Except Fault Table → Except Fault Table → Prop where
  | refused (fault : Fault) : Agree (.error fault) (.error fault)
  | made {first second : Table} (states_eq : first.states = second.states)
      (trace_eq : ∀ word, first.trace first.start word = second.trace second.start word) :
      Agree (.ok first) (.ok second)

theorem agree_ofDfa {a b : Alphabet} (ha : dfa.MovesWithin a) (hb : dfa.MovesWithin b) :
    Agree (ofDfa dfa a) (ofDfa dfa b) := by
  rw [ofDfa_eq ha, ofDfa_eq hb]
  split
  · refine .made rfl ?_
    intro word
    exact trace_flattened ha hb word rfl
  · exact .refused _

end Table

/-! ## All steps -/

namespace Dfa

/-- Both alphabets lead to the same automaton and from there to the same minimal one, and the tables of
either automaton agree. -/
structure MadeAlike (make : Alphabet → Except Fault Dfa) (a b : Alphabet) (dfa minimized : Dfa) :
    Prop where
  make_first : make a = .ok dfa
  make_second : make b = .ok dfa
  minimize_first : dfa.minimize a = .ok minimized
  minimize_second : dfa.minimize b = .ok minimized
  agree : Table.Agree (Table.ofDfa dfa a) (Table.ofDfa dfa b)
  agree_minimized : Table.Agree (Table.ofDfa minimized a) (Table.ofDfa minimized b)

/-- What both alphabets make into one automaton without other moves goes on to be the same. -/
theorem madeAlike_of_eq {make : Alphabet → Except Fault Dfa} {a b : Alphabet} {dfa : Dfa}
    (ha : make a = .ok dfa) (hb : make b = .ok dfa) (hfirst : dfa.MovesWithin a)
    (hsecond : dfa.MovesWithin b) : MadeAlike make a b dfa (dfa.merged a) := by
  have hmerged := merged_congr hfirst hsecond
  have hminimized : (dfa.merged a).MovesWithin b := hmerged ▸ movesWithin_merged
  exact {
    make_first := ha
    make_second := hb
    minimize_first := minimize_eq_ok hfirst
    minimize_second := hmerged ▸ minimize_eq_ok hsecond
    agree := Table.agree_ofDfa hfirst hsecond
    agree_minimized := Table.agree_ofDfa movesWithin_merged hminimized }

theorem madeAlike_determinize {nfa : Nfa} (tagOf : Nat → Option RuleTag) {a b : Alphabet}
    (ha : ∀ c ∈ nfa.literals, c ∈ a) (hb : ∀ c ∈ nfa.literals, c ∈ b) :
    MadeAlike (nfa.determinize tagOf) a b (nfa.subsetDfa nfa.move? tagOf a)
      ((nfa.subsetDfa nfa.move? tagOf a).merged a) := by
  have hsame : nfa.subsetDfa nfa.move? tagOf a = nfa.subsetDfa nfa.move? tagOf b :=
    Nfa.subsetDfa_congr ha hb
  have hfirst : nfa.determinize tagOf a = .ok (nfa.subsetDfa nfa.move? tagOf a) :=
    Nfa.determinize_eq_ok ha
  have hsecond : nfa.determinize tagOf b = .ok (nfa.subsetDfa nfa.move? tagOf a) := by
    rw [hsame]
    exact Nfa.determinize_eq_ok hb
  have hmoves : (nfa.subsetDfa nfa.move? tagOf a).MovesWithin b := by
    rw [hsame]
    exact Nfa.movesWithin_subsetDfa
  exact madeAlike_of_eq hfirst hsecond Nfa.movesWithin_subsetDfa hmoves

/-- Symbols that are no literals make no difference: any two alphabets with all the literals lead to
the same automata, be it from a pattern or from a rule set, and the tables agree. Those of a rule set
are not refused. -/
theorem exists_madeAlike (a b : Alphabet) :
    (∀ nfa : Nfa, (∀ c ∈ nfa.literals, c ∈ a) → (∀ c ∈ nfa.literals, c ∈ b) →
      ∃ dfa minimized, MadeAlike (Dfa.ofNfa nfa) a b dfa minimized) ∧
    ∀ (set : RuleSet) (combined : Combined), Combined.ofRules set = .ok combined →
      (∀ c ∈ combined.nfa.literals, c ∈ a) → (∀ c ∈ combined.nfa.literals, c ∈ b) →
        ∃ dfa minimized, MadeAlike (Dfa.ofCombined combined) a b dfa minimized ∧
          (∃ table, Table.ofDfa dfa a = .ok table) ∧
          ∃ table, Table.ofDfa minimized a = .ok table := by
  constructor
  · intro nfa ha hb
    exact ⟨_, _, madeAlike_determinize _ ha hb⟩
  · intro set combined hrules ha hb
    obtain ⟨_, hbuilt⟩ := Combined.exists_built_of_ofRules hrules
    have hmade : MadeAlike (Dfa.ofCombined combined) a b _ _ :=
      madeAlike_determinize combined.tag? ha hb
    have hmoves : (combined.nfa.subsetDfa combined.nfa.move? combined.tag? a).MovesWithin a :=
      Nfa.movesWithin_subsetDfa
    have htagged : (combined.nfa.subsetDfa combined.nfa.move? combined.tag? a).Tagged :=
      hbuilt.tagged_subsetDfa
    generalize combined.nfa.subsetDfa combined.nfa.move? combined.tag? a = dfa
      at hmade hmoves htagged
    exact ⟨dfa, dfa.merged a, hmade, ⟨_, Table.ofDfa_eq_ok hmoves htagged⟩,
      ⟨_, Table.ofDfa_eq_ok movesWithin_merged htagged.merged⟩⟩

/-- The pattern `b|ad` and the rules `b` and `ad`, with their literals and with symbols before, between
and behind them. The walks over `adc` show the same, although only one of the tables has a column for
`c`. -/
theorem exists_madeAlike_between :
    (∃ nfa dfa minimized, Nfa.compile "b|ad" = .ok nfa ∧
      MadeAlike (Dfa.ofNfa nfa) (.ofList ['a', 'b', 'd']) (.ofList ['é', 'd', 'c', 'b', 'a', ' '])
        dfa minimized) ∧
    ∃ combined dfa minimized first second,
      Combined.ofRules ⟨[("b", ⟨"one"⟩), ("ad", ⟨"two"⟩)]⟩ = .ok combined ∧
      MadeAlike (Dfa.ofCombined combined) (.ofList ['a', 'b', 'd'])
        (.ofList ['é', 'd', 'c', 'b', 'a', ' ']) dfa minimized ∧
      Table.ofDfa minimized (.ofList ['a', 'b', 'd']) = .ok first ∧
      Table.ofDfa minimized (.ofList ['é', 'd', 'c', 'b', 'a', ' ']) = .ok second ∧
      second.trace second.start ['a', 'd', 'c'] =
        [(0, none), (1, none), (3, some ⟨⟨"two"⟩, 1⟩), (4, none)] := by
  have hcompile : Nfa.compile "b|ad" = .ok (.ofRegex (.union (.literal 'b')
      (.concat (.literal 'a') (.literal 'd')))) := by rfl
  have hcombined : Combined.ofRules ⟨[("b", ⟨"one"⟩), ("ad", ⟨"two"⟩)]⟩ =
      .ok ⟨Combined.nfaOf [.literal 'b', .concat (.literal 'a') (.literal 'd')],
        [(2, ⟨⟨"one"⟩, 0⟩), (6, ⟨⟨"two"⟩, 1⟩)]⟩ := by rfl
  have hpattern : (Nfa.ofRegex (.union (.literal 'b')
      (.concat (.literal 'a') (.literal 'd')))).literals = ['b', 'a', 'd'] := by rfl
  have hrules : (Combined.nfaOf [.literal 'b',
      .concat (.literal 'a') (.literal 'd')]).literals = ['b', 'a', 'd'] := by rfl
  have htrace : ((Dfa.ofCombined ⟨Combined.nfaOf [.literal 'b',
      .concat (.literal 'a') (.literal 'd')], [(2, ⟨⟨"one"⟩, 0⟩), (6, ⟨⟨"two"⟩, 1⟩)]⟩
        (.ofList ['a', 'b', 'd'])).bind fun dfa =>
          (dfa.minimize (.ofList ['a', 'b', 'd'])).bind fun minimized =>
            Table.ofDfa minimized (.ofList ['a', 'b', 'd'])).toOption.map
              (fun table => table.trace table.start ['a', 'd', 'c']) =
      some [(0, none), (1, none), (3, some ⟨⟨"two"⟩, 1⟩), (4, none)] := by
    decide +kernel
  obtain ⟨dfa, minimized, hmade⟩ := (exists_madeAlike (.ofList ['a', 'b', 'd'])
    (.ofList ['é', 'd', 'c', 'b', 'a', ' '])).1 (.ofRegex (.union (.literal 'b')
      (.concat (.literal 'a') (.literal 'd')))) (by simp [hpattern]) (by simp [hpattern])
  obtain ⟨dfa', minimized', hmade', -, first, hfirst⟩ := (exists_madeAlike (.ofList ['a', 'b', 'd'])
    (.ofList ['é', 'd', 'c', 'b', 'a', ' '])).2 _ _ hcombined (by simp [hrules]) (by simp [hrules])
  rw [hmade'.make_first, Except.bind, hmade'.minimize_first, Except.bind, hfirst] at htrace
  have hagree := hmade'.agree_minimized
  rw [hfirst] at hagree
  generalize hsecond : Table.ofDfa minimized' (.ofList ['é', 'd', 'c', 'b', 'a', ' ']) = made
    at hagree
  cases hagree with
  | made _ htraces =>
    exact ⟨⟨_, dfa, minimized, hcompile, hmade⟩, _, dfa', minimized', first, _, hcombined, hmade',
      hfirst, hsecond, (htraces _).symm.trans (Option.some.inj htrace)⟩

end Dfa

end LexGen
