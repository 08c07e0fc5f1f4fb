import LexGen.Dfa.OfNfa
import LexGen.Rule.Language
import Mathlib.Order.WellFounded

/-!
# The rule that wins

If any rule has a property, then some rule is the first one that has it
(`RuleSet.exists_first_iff`): no rule declared before it has the property (`RuleSet.first_iff`), and
the tag of this rule is the best of the tags of the rules with the property
(`RuleSet.best?_eq_some_iff`). So the best tag of the rules that match a word is that of the rule
that wins the word.
-/

namespace LexGen

namespace RuleTag

/-- There is a best tag exactly if there is any. -/
theorem isSome_best?_filterMap {α : Type} {list : List α} {tagOf : α → Option RuleTag} :
    (best? (list.filterMap tagOf)).isSome = list.any fun a => (tagOf a).isSome := by
  rw [Bool.eq_iff_iff, List.any_eq_true, best?]
  constructor
  · intro h
    obtain ⟨best, hbest⟩ := Option.isSome_iff_exists.1 h
    obtain ⟨a, ha, htag⟩ := List.mem_filterMap.1 (List.minOn?_mem hbest)
    exact ⟨a, ha, Option.isSome_of_eq_some htag⟩
  · rintro ⟨a, ha, hsome⟩
    obtain ⟨tag, htag⟩ := Option.isSome_iff_exists.1 hsome
    exact List.isSome_minOn?_of_mem (List.mem_filterMap.2 ⟨a, ha, htag⟩)

theorem isSome_best?_of_mem {tags : List RuleTag} {tag : RuleTag} (h : tag ∈ tags) :
    (best? tags).isSome = true := List.isSome_minOn?_of_mem h

/-- No tag has a smaller number than the best one. -/
theorem best?_le {tags : List RuleTag} {best tag : RuleTag} (h : best? tags = some best)
    (hm : tag ∈ tags) : best.priority ≤ tag.priority := by
  have hle := List.apply_get_minOn?_le_of_mem (f := RuleTag.priority) hm
  have hget : (tags.minOn? RuleTag.priority).get (List.isSome_minOn?_of_mem hm) = best :=
    Option.get_of_eq_some _ h
  rwa [hget] at hle

end RuleTag

namespace RuleSet

variable {set : RuleSet} {P : Rule → Prop}

/-- Some rule is the first with a property if any rule has it. -/
theorem exists_first_iff : (∃ rule, set.First P rule) ↔ ∃ rule ∈ set.rules, P rule := by
  constructor
  · rintro ⟨rule, hrule⟩
    exact ⟨rule, hrule.1, hrule.2.1⟩
  · rintro ⟨rule, hrule⟩
    obtain ⟨first, hfirst, hleast⟩ := (measure Rule.priority).wf.has_min
      {rule | rule ∈ set.rules ∧ P rule} ⟨rule, hrule⟩
    refine ⟨first, hfirst.1, hfirst.2, ?_⟩
    intro other hother hp
    exact Nat.not_lt.1 (hleast other ⟨hother, hp⟩)

theorem rules_eq_nil_iff : set.rules = [] ↔ set.isEmpty = true := by
  cases h : set.entries <;> simp [rules, isEmpty, h]

/-- The rule at a place has the number of the place as its priority. -/
theorem priority_eq_of_getElem? {i : Nat} {rule : Rule} (h : set.rules[i]? = some rule) :
    rule.priority = i := by
  rw [rules, List.getElem?_map, Option.map_eq_some_iff] at h
  obtain ⟨⟨⟨_, _⟩, priority⟩, hentry, rfl⟩ := h
  rw [List.getElem?_zipIdx, Option.map_eq_some_iff] at hentry
  obtain ⟨_, _, heq⟩ := hentry
  cases heq
  exact Nat.zero_add i

/-- Priorities count the rules from 0 on. -/
theorem priority_lt_size {rule : Rule} (h : rule ∈ set.rules) : rule.priority < set.size := by
  obtain ⟨hlt, _⟩ := List.getElem?_eq_some_iff.1 (getElem?_priority h)
  simpa [rules, size] using hlt

/-- A rule is the first with a property if it has it and no rule declared before it does. -/
theorem first_iff {rule : Rule} : set.First P rule ↔ ∃ front back,
    set.rules = front ++ rule :: back ∧ P rule ∧ ∀ earlier ∈ front, ¬ P earlier := by
  constructor
  · rintro ⟨hrule, hp, hfirst⟩
    obtain ⟨hlt, hget⟩ := List.getElem?_eq_some_iff.1 (getElem?_priority hrule)
    refine ⟨set.rules.take rule.priority, set.rules.drop (rule.priority + 1), ?_, hp, ?_⟩
    · conv_lhs => rw [← List.take_append_drop rule.priority set.rules]
      rw [List.drop_eq_getElem_cons hlt, hget]
    · intro earlier hearlier hp
      obtain ⟨i, hi⟩ := List.getElem?_of_mem hearlier
      rw [List.getElem?_take] at hi
      split at hi
      next hlt =>
        have hle := hfirst earlier (List.mem_of_getElem? hi) hp
        rw [priority_eq_of_getElem? hi] at hle
        exact absurd hlt (Nat.not_lt.2 hle)
      next => cases hi
  · rintro ⟨front, back, hrules, hp, hfront⟩
    have hrule : set.rules[front.length]? = some rule := by
      rw [hrules, List.getElem?_append_right (Nat.le_refl _), Nat.sub_self]
      rfl
    refine ⟨List.mem_of_getElem? hrule, hp, ?_⟩
    intro other hother hp
    rw [priority_eq_of_getElem? hrule]
    by_contra hlt
    have hget := getElem?_priority hother
    rw [hrules, List.getElem?_append_left (Nat.not_le.1 hlt)] at hget
    exact hfront other (List.mem_of_getElem? hget) hp

/-- Some rule wins a word if any rule matches it. -/
theorem exists_wins_iff {word : List Char} :
    (∃ rule, set.Wins word rule) ↔ ∃ rule ∈ set.rules, rule.Matches word := exists_first_iff

/-- Of the tags of the rules with a property the best is the tag of the first such rule. -/
theorem best?_eq_some_iff {tags : List RuleTag} {tag : RuleTag}
    (h : ∀ tag, tag ∈ tags ↔ ∃ rule ∈ set.rules, P rule ∧ rule.tag = tag) :
    RuleTag.best? tags = some tag ↔ ∃ rule, set.First P rule ∧ rule.tag = tag := by
  have hfirst : ∀ best, RuleTag.best? tags = some best →
      ∃ rule, set.First P rule ∧ rule.tag = best := by
    intro best hbest
    obtain ⟨rule, hrule, hp, rfl⟩ := (h best).1 (List.minOn?_mem hbest)
    refine ⟨rule, ⟨hrule, hp, ?_⟩, rfl⟩
    intro other hother hp
    exact RuleTag.best?_le hbest ((h other.tag).2 ⟨other, hother, hp, rfl⟩)
  constructor
  · exact hfirst tag
  · rintro ⟨rule, hrule, rfl⟩
    have hmem : rule.tag ∈ tags := (h rule.tag).2 ⟨rule, hrule.1, hrule.2.1, rfl⟩
    obtain ⟨best, hbest⟩ := Option.isSome_iff_exists.1 (RuleTag.isSome_best?_of_mem hmem)
    obtain ⟨winner, hwinner, rfl⟩ := hfirst best hbest
    rw [hrule.eq hwinner]
    exact hbest

/-- Where a word is given what its winner says, it is given nothing exactly if no rule matches
it. -/
theorem eq_none_iff_of_wins {α : Type} {word : List Char} {given : Option α} {said : Rule → α}
    (h : ∀ value, given = some value ↔ ∃ rule, set.Wins word rule ∧ said rule = value) :
    given = none ↔ ∀ rule ∈ set.rules, ¬ rule.Matches word := by
  rw [Option.eq_none_iff_forall_ne_some]
  constructor
  · intro hnone rule hrule hmatches
    obtain ⟨winner, hwinner⟩ := exists_wins_iff.2 ⟨rule, hrule, hmatches⟩
    exact hnone (said winner) ((h _).2 ⟨winner, hwinner, rfl⟩)
  · intro hnone value hvalue
    obtain ⟨rule, hrule, _⟩ := (h value).1 hvalue
    exact hnone rule hrule.1 hrule.2.1

end RuleSet

end LexGen
