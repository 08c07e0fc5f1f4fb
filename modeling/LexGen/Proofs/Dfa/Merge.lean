import LexGen.Proofs.Dfa.Marks
import LexGen.Proofs.Dfa.Trim
import LexGen.Proofs.DisjointSets.Classes
import LexGen.Proofs.Rule.Winner

/-!
# Merged states

Two states are merged exactly if no word of symbols separates them (`same_partition_iff`), so the
classes are a map of automata: it keeps the moves on symbols, acceptance and the token types of
states that accept (`next?_merged`, `verdict_merged`), and thus what words of symbols show
(`outcome_merged`). If the alphabet holds the characters of all moves, it keeps all runs
(`runFrom_merged`) and what is assigned to each word (`assigned_merged`). The merged automaton of a
trim one is trim (`Trim.merged`), and words separate its states (`Trim.separated_merged`).
-/

namespace LexGen.Dfa

variable {dfa : Dfa} {alphabet : Alphabet}

/-! ## The partition -/

/-- Join the states of the pairs without a mark. -/
def joinUnmarked {n : Nat} (marks : PairMarks n) (pairs : List (Pair n)) (sets : DisjointSets) :
    DisjointSets :=
  pairs.foldl (fun sets pair => if marks.get pair then sets
    else (sets.union pair.low pair.high).2) sets

theorem partition_eq (dfa : Dfa) (alphabet : Alphabet) : dfa.partition alphabet =
    joinUnmarked (dfa.distinguished alphabet) (Pair.all dfa.size) (.singletons dfa.size) := rfl

/-- Joining the pairs without a mark keeps the forest well formed and the classes together, joins
these pairs, and joins nothing that is not in an equivalence that holds of them. -/
theorem joinUnmarked_spec {n : Nat} {marks : PairMarks n} {pairs : List (Pair n)}
    {sets : DisjointSets} (h : sets.WellFormed) (hsize : sets.size = n) :
    (joinUnmarked marks pairs sets).WellFormed ∧
      (∀ u v, sets.Same u v → (joinUnmarked marks pairs sets).Same u v) ∧
      (∀ pair ∈ pairs, marks.get pair = false →
        (joinUnmarked marks pairs sets).Same pair.low pair.high) ∧
      ∀ {R : Nat → Nat → Prop}, Equivalence R → (∀ u v, sets.Same u v → R u v) →
        (∀ pair : Pair n, marks.get pair = false → R pair.low pair.high) →
          ∀ u v, (joinUnmarked marks pairs sets).Same u v → R u v := by
  induction pairs generalizing sets with
  | nil => exact ⟨h, fun _ _ hs => hs, by simp, fun _ hR _ => hR⟩
  | cons pair rest ih =>
    rw [joinUnmarked, List.foldl_cons, ← joinUnmarked]
    have hlow : pair.low < sets.size := by
      rw [hsize]
      exact Nat.lt_trans pair.low_lt pair.high_lt
    have hhigh : pair.high < sets.size := by
      rw [hsize]
      exact pair.high_lt
    cases hget : marks.get pair with
    | true =>
      obtain ⟨hwell, hkeep, hjoin, hleast⟩ := ih h hsize
      refine ⟨hwell, hkeep, ?_, hleast⟩
      intro other ho hother
      rcases List.mem_cons.1 ho with rfl | ho
      · rw [hget] at hother
        cases hother
      · exact hjoin other ho hother
    | false =>
      obtain ⟨hunion, hsame⟩ := h.union hlow hhigh
      obtain ⟨hwell, hkeep, hjoin, hleast⟩ := ih hunion (by rw [DisjointSets.size_union, hsize])
      refine ⟨hwell, ?_, ?_, ?_⟩
      · intro u v huv
        exact hkeep u v ((hsame u v).2 (.inl huv))
      · intro other ho hother
        rcases List.mem_cons.1 ho with rfl | ho
        · exact hkeep _ _ ((hsame _ _).2 (.inr (.inl ⟨rfl, rfl⟩)))
        · exact hjoin other ho hother
      · intro R hequiv hR hpairs
        refine hleast hequiv ?_ hpairs
        intro u v huv
        have hpair := hpairs pair hget
        rcases (hsame u v).1 huv with huv | ⟨hu, hv⟩ | ⟨hu, hv⟩
        · exact hR u v huv
        · exact hequiv.trans (hR _ _ hu) (hequiv.trans hpair (hR _ _ hv))
        · exact hequiv.trans (hR _ _ hu) (hequiv.trans (hequiv.symm hpair) (hR _ _ hv))

/-- Two states are in one class exactly if no word of symbols separates them. -/
theorem same_partition_iff {a b : Nat} (ha : a < dfa.size) (hb : b < dfa.size) :
    (dfa.partition alphabet).Same a b ↔ dfa.AlikeOver alphabet a b := by
  obtain ⟨hsingle, hroots⟩ := DisjointSets.WellFormed.singletons dfa.size
  obtain ⟨_, hkeep, hjoin, hleast⟩ := @joinUnmarked_spec dfa.size (dfa.distinguished alphabet)
    (Pair.all dfa.size) _ hsingle (DisjointSets.size_singletons _)
  have hequiv := dfa.alikeOver_equivalence alphabet
  rw [partition_eq]
  constructor
  · apply hleast hequiv
    · intro u v huv
      rw [DisjointSets.Same, hroots, hroots] at huv
      exact huv ▸ hequiv.refl u
    · exact fun pair => get_distinguished_eq_false_iff.1
  · intro halike
    rcases Nat.lt_trichotomy a b with hlt | rfl | hlt
    · exact hjoin ⟨a, b, hlt, hb⟩ (Pair.mem_all _) (get_distinguished_eq_false_iff.2 halike)
    · rfl
    · have hjoined := hjoin ⟨b, a, hlt, ha⟩ (Pair.mem_all _)
        (get_distinguished_eq_false_iff.2 (hequiv.symm halike))
      exact hjoined.symm

/-- Two states have the same number exactly if no word of symbols separates them. -/
theorem classNumber_eq_iff {a b : Nat} (ha : a < dfa.size) (hb : b < dfa.size) :
    classNumber (dfa.classes alphabet) a = classNumber (dfa.classes alphabet) b ↔
      dfa.AlikeOver alphabet a b := by
  rw [← same_partition_iff ha hb]
  exact DisjointSets.findIdx_classes_eq_iff (by rwa [size_partition]) (by rwa [size_partition])

/-! ## The classes -/

/-- At a state's number stands the class of the state: its members are the states of this number. -/
theorem exists_class {state : Nat} (h : state < dfa.size) : ∃ members,
    (dfa.classes alphabet)[classNumber (dfa.classes alphabet) state]? = some members ∧
      ∀ other, other ∈ members ↔ other < dfa.size ∧
        classNumber (dfa.classes alphabet) other = classNumber (dfa.classes alphabet) state := by
  have hsize := dfa.size_partition alphabet
  have hstate : state < (dfa.partition alphabet).size := by rwa [hsize]
  refine ⟨_, DisjointSets.getElem?_findIdx_classes hstate, ?_⟩
  intro other
  rw [DisjointSets.mem_withKey, List.mem_range, hsize]
  apply and_congr_right
  intro hother
  exact (DisjointSets.findIdx_classes_eq_iff (by rwa [hsize]) hstate).symm

/-- Every number of a merged state is that of a state. -/
theorem exists_classNumber_eq {i : Nat} (h : i < (dfa.classes alphabet).length) :
    ∃ state, state < dfa.size ∧ classNumber (dfa.classes alphabet) state = i := by
  have hmem : i ∈ Discovery.image (classNumber (dfa.classes alphabet))
      (List.range (dfa.partition alphabet).size) := by
    have himage := DisjointSets.image_findIdx_classes (dfa.partition alphabet)
    rw [← classes] at himage
    exact himage ▸ List.mem_range.2 h
  obtain ⟨state, hstate, heq⟩ := Discovery.mem_image.1 hmem
  rw [size_partition] at hstate
  exact ⟨state, List.mem_range.1 hstate, heq⟩

/-! ## The merged automaton -/

theorem size_merged : (dfa.merged alphabet).size = (dfa.classes alphabet).length := by
  rw [size, merged, List.size_toArray, List.length_map]

theorem getElem?_merged {i : Nat} {members : List Nat}
    (h : (dfa.classes alphabet)[i]? = some members) :
    (dfa.merged alphabet).states[i]? =
      some (dfa.mergedState alphabet (dfa.classes alphabet) members) := by
  rw [merged, List.getElem?_toArray, List.getElem?_map, h, Option.map_some]

/-- A merged state has the best tag of its members. -/
theorem exists_tags_merged {state : Nat} (h : state < dfa.size) : ∃ tags,
    (dfa.merged alphabet).tag? (classNumber (dfa.classes alphabet) state) = RuleTag.best? tags ∧
      ∀ tag, tag ∈ tags ↔ ∃ other, other < dfa.size ∧
        classNumber (dfa.classes alphabet) other = classNumber (dfa.classes alphabet) state ∧
          dfa.tag? other = some tag := by
  obtain ⟨members, hclass, hmembers⟩ := @exists_class dfa alphabet state h
  refine ⟨members.filterMap dfa.tag?, ?_, ?_⟩
  · rw [tag?, getElem?_merged hclass]
    show RuleTag.best? ((members.filterMap (dfa.states[·]?)).filterMap (·.tag)) = _
    rw [List.filterMap_filterMap]
    rfl
  · intro tag
    rw [List.mem_filterMap]
    simp only [hmembers, and_assoc]

/-- If exactly the states that accept have a tag, that holds of the merged states too. -/
theorem Tagged.merged (h : dfa.Tagged) : (dfa.merged alphabet).Tagged := by
  intro entry hentry
  obtain ⟨members, _, rfl⟩ := List.mem_map.1 (List.mem_toArray.1 hentry)
  show (members.filterMap (dfa.states[·]?)).any (·.accepting) =
    (RuleTag.best? ((members.filterMap (dfa.states[·]?)).filterMap (·.tag))).isSome
  rw [RuleTag.isSome_best?_filterMap, Bool.eq_iff_iff, List.any_eq_true, List.any_eq_true]
  refine exists_congr fun old => and_congr_right fun hold => ?_
  obtain ⟨_, _, hstates⟩ := List.mem_filterMap.1 hold
  rw [h old (Array.mem_of_getElem? hstates)]

/-- A merged state has the moves of its members on symbols, to the numbers of their targets. -/
theorem moves_merged {state : Nat} (h : state < dfa.size) :
    (dfa.merged alphabet).moves (classNumber (dfa.classes alphabet) state) =
      ((dfa.moves state).within alphabet).renumber (classNumber (dfa.classes alphabet)) := by
  obtain ⟨members, hclass, hmembers⟩ := @exists_class dfa alphabet state h
  have hstate : state ∈ members := (hmembers state).2 ⟨h, rfl⟩
  obtain ⟨first, rest, rfl⟩ := List.exists_cons_of_ne_nil (List.ne_nil_of_mem hstate)
  obtain ⟨hfirst, hnumber⟩ := (hmembers first).1 (List.mem_cons_self ..)
  have halike := (classNumber_eq_iff hfirst h).1 hnumber
  rw [moves, getElem?_merged hclass]
  show ((dfa.moves first).within alphabet).renumber _ = _
  apply Moves.ext
  intro c
  rw [Moves.next?_renumber, Moves.next?_renumber, Moves.next?_within, Moves.next?_within]
  split
  next hc =>
    have hsome := halike.isSome_next? hc
    show (dfa.next? first c).map _ = (dfa.next? state c).map _
    cases hf : dfa.next? first c with
    | none =>
      cases hs : dfa.next? state c with
      | none => rfl
      | some b => simp [hf, hs] at hsome
    | some a =>
      cases hs : dfa.next? state c with
      | none => simp [hf, hs] at hsome
      | some b =>
        rw [Option.map_some, Option.map_some,
          (classNumber_eq_iff (lt_of_next? hf) (lt_of_next? hs)).2 (halike.next? hc hf hs)]
  next => rfl

theorem next?_merged {state : Nat} (h : state < dfa.size) (c : Char) :
    (dfa.merged alphabet).next? (classNumber (dfa.classes alphabet) state) c =
      if c ∈ alphabet then (dfa.next? state c).map (classNumber (dfa.classes alphabet)) else none := by
  rw [next?, moves_merged h, Moves.next?_renumber, Moves.next?_within, next?]
  split <;> rfl

/-- The merged automaton has no moves but those on symbols. -/
theorem movesWithin_merged : (dfa.merged alphabet).MovesWithin alphabet := by
  intro i c hsome
  obtain ⟨_, htarget⟩ := Option.isSome_iff_exists.1 hsome
  have hi := lt_size_of_next? htarget
  rw [size_merged] at hi
  obtain ⟨state, hs, rfl⟩ := exists_classNumber_eq hi
  by_contra hc
  rw [next?_merged hs, if_neg hc] at hsome
  cases hsome

/-- A merged state accepts if its members do. -/
theorem isAccepting_merged {state : Nat} (h : state < dfa.size) :
    (dfa.merged alphabet).isAccepting (classNumber (dfa.classes alphabet) state) =
      dfa.isAccepting state := by
  obtain ⟨members, hclass, hmembers⟩ := @exists_class dfa alphabet state h
  rw [isAccepting, getElem?_merged hclass]
  show (members.filterMap (dfa.states[·]?)).any (·.accepting) = _
  have hall : ∀ other ∈ members, dfa.isAccepting other = dfa.isAccepting state := by
    intro other ho
    obtain ⟨hother, hnumber⟩ := (hmembers other).1 ho
    exact isAccepting_eq_of_verdict ((classNumber_eq_iff hother h).1 hnumber).verdict_eq
  rw [Bool.eq_iff_iff, List.any_eq_true]
  constructor
  · rintro ⟨entry, hentry, haccepting⟩
    obtain ⟨other, ho, hstates⟩ := List.mem_filterMap.1 hentry
    rw [← hall other ho, isAccepting, hstates]
    exact haccepting
  · intro haccepting
    have hstate : state ∈ members := (hmembers state).2 ⟨h, rfl⟩
    have hentry := Array.getElem?_eq_getElem h
    refine ⟨dfa.states[state], List.mem_filterMap.2 ⟨state, hstate, hentry⟩, ?_⟩
    rw [isAccepting, hentry] at haccepting
    exact haccepting

/-- A merged state has the token type that all its members have, whichever of their tags is the
best. -/
theorem tokenType_merged_of_forall {state : Nat} (h : state < dfa.size)
    (hsame : ∀ other, dfa.AlikeOver alphabet other state →
      dfa.tokenType other = dfa.tokenType state) :
    (dfa.merged alphabet).tokenType (classNumber (dfa.classes alphabet) state) =
      dfa.tokenType state := by
  obtain ⟨tags, hbest, hmem⟩ := @exists_tags_merged dfa alphabet state h
  rw [tokenType_eq, hbest]
  cases htag : RuleTag.best? tags with
  | some best =>
    obtain ⟨other, hother, hnumber, hown⟩ := (hmem best).1 (List.minOn?_mem htag)
    rw [← hsame other ((classNumber_eq_iff hother h).1 hnumber), tokenType_eq, hown]
  | none =>
    cases hown : dfa.tag? state with
    | none =>
      rw [tokenType_eq, hown]
    | some tag =>
      have hsome := RuleTag.isSome_best?_of_mem ((hmem tag).2 ⟨state, h, rfl, hown⟩)
      rw [htag] at hsome
      cases hsome

theorem tokenType_merged (htypes : dfa.TypesAccept) {state : Nat} (h : state < dfa.size) :
    (dfa.merged alphabet).tokenType (classNumber (dfa.classes alphabet) state) =
      dfa.tokenType state := by
  apply tokenType_merged_of_forall h
  intro other halike
  exact htypes.tokenType_eq_of_verdict htypes halike.verdict_eq

/-- The token type of a state that does not accept may be lost, but the verdict does not show it. -/
theorem verdict_merged {state : Nat} (h : state < dfa.size) :
    (dfa.merged alphabet).verdict (classNumber (dfa.classes alphabet) state) =
      dfa.verdict state := by
  rw [verdict, verdict, isAccepting_merged h]
  cases haccepting : dfa.isAccepting state with
  | false => rfl
  | true =>
    have htype := @tokenType_merged_of_forall dfa alphabet state h
    rw [htype]
    intro other halike
    have hverdict := halike.verdict_eq
    rw [verdict, verdict, isAccepting_eq_of_verdict hverdict, haccepting] at hverdict
    exact Option.some.inj hverdict

/-- Merging changes nothing of what words of symbols show. -/
theorem outcome_merged {word : List Char} (hword : ∀ c ∈ word, c ∈ alphabet) {state : Nat}
    (h : state < dfa.size) :
    (dfa.merged alphabet).outcome (classNumber (dfa.classes alphabet) state) word =
      dfa.outcome state word := by
  induction word generalizing state with
  | nil => rw [outcome_nil, outcome_nil, verdict_merged h]
  | cons c word ih =>
    obtain ⟨hc, hword⟩ := List.forall_mem_cons.1 hword
    rw [outcome_cons, outcome_cons, next?_merged h, if_pos hc]
    cases hnext : dfa.next? state c with
    | none => rfl
    | some next => exact ih hword (lt_of_next? hnext)

/-! ## All runs -/

section Merged

variable (hmoves : dfa.MovesWithin alphabet)

include hmoves

theorem within_moves (state : Nat) : (dfa.moves state).within alphabet = dfa.moves state := by
  apply Moves.ext
  intro c
  rw [Moves.next?_within]
  split
  · rfl
  next hc =>
    cases hnext : (dfa.moves state).next? c with
    | none => rfl
    | some target =>
      have hsome : (dfa.next? state c).isSome := by rw [next?, hnext]; rfl
      exact absurd (hmoves state c hsome) hc

theorem runFrom_merged {state : Nat} (h : state < dfa.size) (word : List Char) :
    (dfa.merged alphabet).runFrom (classNumber (dfa.classes alphabet) state) word =
      (dfa.runFrom state word).map (classNumber (dfa.classes alphabet)) := by
  induction word generalizing state with
  | nil => rfl
  | cons c word ih =>
    have hmove : (dfa.merged alphabet).next? (classNumber (dfa.classes alphabet) state) c =
        (dfa.next? state c).map (classNumber (dfa.classes alphabet)) := by
      rw [next?, moves_merged h, within_moves hmoves, Moves.next?_renumber, next?]
    rw [runFrom_cons, runFrom_cons, hmove]
    cases hnext : dfa.next? state c with
    | none => rfl
    | some next =>
      rw [Option.map_some, Option.bind_some, Option.bind_some]
      exact ih (lt_of_next? hnext)

/-- Merging changes nothing of what is assigned to words. -/
theorem assigned_merged {state : Nat} (h : state < dfa.size) (word : List Char) :
    (dfa.merged alphabet).assigned (classNumber (dfa.classes alphabet) state) word =
      dfa.assigned state word := by
  rw [assigned, assigned, runFrom_merged hmoves h]
  cases hrun : dfa.runFrom state word with
  | none => rfl
  | some last => exact verdict_merged (lt_of_runFrom h hrun)

theorem run_merged (word : List Char) : (dfa.merged alphabet).run word =
    (dfa.run word).map (classNumber (dfa.classes alphabet)) :=
  runFrom_merged hmoves dfa.start_lt word

theorem map_tokenType_run_merged (htypes : dfa.TypesAccept) (word : List Char) :
    ((dfa.merged alphabet).run word).map (dfa.merged alphabet).tokenType =
      (dfa.run word).map dfa.tokenType := by
  rw [run_merged hmoves]
  cases hrun : dfa.run word with
  | none => rfl
  | some last =>
    exact congrArg some (tokenType_merged htypes (lt_of_runFrom dfa.start_lt hrun))

/-- If the states are numbered in the order of their discovery, so are the merged ones. Classes are
numbered by their least members, and a map of automata keeps the order of discovery. -/
theorem reached_merged (h : dfa.reached = List.range dfa.size) :
    (dfa.merged alphabet).reached = List.range (dfa.merged alphabet).size := by
  have hnext : ∀ state ∈ dfa.reached,
      ((dfa.merged alphabet).moves (classNumber (dfa.classes alphabet) state)).targets =
        (dfa.moves state).targets.map (classNumber (dfa.classes alphabet)) := by
    intro state hs
    rw [h] at hs
    rw [moves_merged (List.mem_range.1 hs), within_moves hmoves, Moves.targets_renumber]
  have hclasses := DisjointSets.image_findIdx_classes (dfa.partition alphabet)
  rw [size_partition] at hclasses
  rw [reached_eq_image dfa.explores_reached rfl hnext, h, size_merged]
  exact hclasses

end Merged

/-! ## Merging trim automata -/

namespace Trim

/-- States of a trim automaton are alike exactly if they are assigned the same: where one run gets
stuck and the other does not, some continuation is assigned something. -/
theorem alike_iff (h : dfa.Trim) {a b : Nat} (ha : a < dfa.size) (hb : b < dfa.size) :
    dfa.Alike a b ↔ ∀ word, dfa.assigned a word = dfa.assigned b word := by
  have hassigned : ∀ state word, dfa.assigned state word = (dfa.outcome state word).join := by
    intro state word
    unfold assigned outcome
    cases dfa.runFrom state word <;> rfl
  constructor
  · intro halike word
    rw [hassigned, hassigned, halike word]
  · intro hsame word
    have hstuck : ∀ {a b : Nat}, a < dfa.size → b < dfa.size →
        (∀ word, dfa.assigned a word = dfa.assigned b word) → dfa.runFrom a word = none →
          dfa.runFrom b word = none := by
      intro a b ha hb hsame hnone
      cases hrun : dfa.runFrom b word with
      | none => rfl
      | some last =>
        obtain ⟨back, verdict, hverdict⟩ := h.live last (lt_of_runFrom hb hrun)
        have hword := hsame (word ++ back)
        rw [assigned_append, hnone, assigned_append_of_runFrom back hrun, hverdict] at hword
        cases hword
    cases hrun : dfa.runFrom a word with
    | none => rw [outcome, outcome, hrun, hstuck ha hb hsame hrun]
    | some last =>
      cases hother : dfa.runFrom b word with
      | none =>
        rw [hstuck hb ha (fun word => (hsame word).symm) hother] at hrun
        cases hrun
      | some other =>
        have hword := hsame word
        rw [assigned, assigned, hrun, hother] at hword
        rw [outcome, outcome, hrun, hother]
        exact congrArg some hword

variable (hmoves : dfa.MovesWithin alphabet)

include hmoves

/-- Merging the alike states of a trim automaton leaves a trim automaton. -/
theorem merged (h : dfa.Trim) : (dfa.merged alphabet).Trim where
  reached_eq := reached_merged hmoves h.reached_eq
  live i hi := by
    rw [size_merged] at hi
    obtain ⟨state, hs, rfl⟩ := exists_classNumber_eq hi
    obtain ⟨word, verdict, hverdict⟩ := h.live state hs
    exact ⟨word, verdict, by rw [assigned_merged hmoves hs, hverdict]⟩
  accepting_of_tokenType i tokenType htype := by
    have hi := lt_size_of_tokenType htype
    rw [size_merged] at hi
    obtain ⟨state, hs, rfl⟩ := exists_classNumber_eq hi
    rw [tokenType_merged h.typesAccept hs] at htype
    rw [isAccepting_merged hs]
    exact h.accepting_of_tokenType state tokenType htype

/-- Some word separates any two different merged states. -/
theorem separated_merged (h : dfa.Trim) {a b : Nat} (ha : a < (dfa.merged alphabet).size)
    (hb : b < (dfa.merged alphabet).size) (hne : a ≠ b) :
    ∃ word, (dfa.merged alphabet).assigned a word ≠ (dfa.merged alphabet).assigned b word := by
  rw [size_merged] at ha hb
  obtain ⟨s, hs, rfl⟩ := exists_classNumber_eq ha
  obtain ⟨t, ht, rfl⟩ := exists_classNumber_eq hb
  rw [Ne, classNumber_eq_iff hs ht, alikeOver_iff hmoves, h.alike_iff hs ht, not_forall] at hne
  obtain ⟨word, hword⟩ := hne
  refine ⟨word, ?_⟩
  rw [assigned_merged hmoves hs, assigned_merged hmoves ht]
  exact hword

end Trim

/-- With an alphabet that holds the characters of all moves there is a minimal automaton. -/
theorem minimize_eq_ok (hmoves : dfa.MovesWithin alphabet) :
    dfa.minimize alphabet = .ok (dfa.merged alphabet) := by
  rw [minimize, Alphabet.uncovered?_eq_none (movesWithin_iff.1 hmoves)]

end LexGen.Dfa
