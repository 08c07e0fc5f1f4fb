import LexGen.Proofs.Dfa.Merge

/-!
# Minimization keeps what a run shows

A run of the minimal automaton ends in the merged state of the state in which the run of the old one
ends, and the two states agree on acceptance and token type (`Dfa.minimize_keeps_runs`). This is so
for every automaton in which only accepting states have tags: states may be unreachable, lead to no
acceptance, or accept without a tag.
-/

namespace LexGen.Dfa

variable {dfa : Dfa} {alphabet : Alphabet}

theorem typesAccept_of_untagged
    (h : ∀ entry ∈ dfa.states, entry.accepting = false → entry.tag = none) : dfa.TypesAccept := by
  intro state tokenType htype
  rw [tokenType_eq, Option.map_eq_some_iff] at htype
  obtain ⟨tag, htag, _⟩ := htype
  obtain ⟨entry, hentry, htag⟩ := Option.bind_eq_some_iff.1 htag
  rw [isAccepting, hentry]
  cases haccepting : entry.accepting with
  | true => exact haccepting
  | false =>
    rw [h entry (Array.mem_of_getElem? hentry) haccepting] at htag
    cases htag

/-- The minimal automaton gets stuck on the same words, and where it does not, the last state has
the acceptance and the token type that the last state of the old automaton has. -/
theorem minimize_keeps_runs
    (htags : ∀ entry ∈ dfa.states, entry.accepting = false → entry.tag = none)
    (hcover : ∀ c ∈ dfa.moveChars, c ∈ alphabet) :
    ∃ minimized, dfa.minimize alphabet = .ok minimized ∧ ∀ word,
      (minimized.run word = none ↔ dfa.run word = none) ∧
      ∀ last state, dfa.run word = some last → minimized.run word = some state →
        minimized.isAccepting state = dfa.isAccepting last ∧
        minimized.tokenType state = dfa.tokenType last := by
  have hmoves : dfa.MovesWithin alphabet := movesWithin_iff.2 hcover
  have htypes := typesAccept_of_untagged htags
  refine ⟨_, minimize_eq_ok hmoves, ?_⟩
  intro word
  rw [run_merged hmoves, Option.map_eq_none_iff]
  refine ⟨Iff.rfl, ?_⟩
  intro last state hlast hstate
  rw [hlast, Option.map_some, Option.some.injEq] at hstate
  subst hstate
  have hlt : last < dfa.size := lt_of_runFrom dfa.start_lt hlast
  exact ⟨isAccepting_merged hlt, tokenType_merged htypes hlt⟩

/-- An automaton whose states 1 and 2 accept the same token with different priorities, whose state 3
accepts without a tag and is not reachable, and whose state 4 leads nowhere: states 1 and 2 are
merged, and no run shows it. -/
theorem minimize_keeps_runs_of_five_states : ∃ dfa minimized : Dfa,
    dfa.size = 5 ∧ minimized.size = 4 ∧
    dfa.minimize (.ofList ['a', 'b', 'c']) = .ok minimized ∧
    dfa.run ['a', 'a'] = some 1 ∧ dfa.tokenType 1 = some ⟨"word"⟩ ∧
    ∀ word, (minimized.run word = none ↔ dfa.run word = none) ∧
      ∀ last state, dfa.run word = some last → minimized.run word = some state →
        minimized.isAccepting state = dfa.isAccepting last ∧
        minimized.tokenType state = dfa.tokenType last := by
  let tag (priority : Nat) : Option RuleTag := some ⟨⟨"word"⟩, priority⟩
  let dfa : Dfa := ⟨#[
    ⟨.empty, ⟨[('a', 1), ('b', 2), ('c', 4)], by decide⟩, false, none⟩,
    ⟨.empty, ⟨[('a', 1)], by decide⟩, true, tag 7⟩,
    ⟨.empty, ⟨[('a', 2)], by decide⟩, true, tag 3⟩,
    ⟨.empty, ⟨[('b', 0)], by decide⟩, true, none⟩,
    ⟨.empty, ⟨[('c', 4)], by decide⟩, false, none⟩], 0, by decide, by decide⟩
  have htags : ∀ entry ∈ dfa.states, entry.accepting = false → entry.tag = none := by
    simp [dfa]
  have hcover : ∀ c ∈ dfa.moveChars, c ∈ Alphabet.ofList ['a', 'b', 'c'] := by
    have hchars : dfa.moveChars = ['a', 'b', 'c', 'a', 'a', 'b', 'c'] := by rfl
    simp [hchars]
  obtain ⟨minimized, hminimize, hruns⟩ := minimize_keeps_runs htags hcover
  have hsize : (dfa.minimize (.ofList ['a', 'b', 'c'])).toOption.map size = some 4 := by
    decide +kernel
  rw [hminimize] at hsize
  exact ⟨dfa, minimized, rfl, Option.some.inj hsize, hminimize, rfl, rfl, hruns⟩

end LexGen.Dfa
