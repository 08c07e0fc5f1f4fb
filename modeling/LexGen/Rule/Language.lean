import LexGen.Pattern.Grammar
import LexGen.Regex.Language
import LexGen.Rule.Basic

/-!
# The language of rules

A rule matches the words of its pattern. Of the rules that match a word the one declared first
wins, and no other rule does (`RuleSet.Wins.eq`), so the winner is a function of the word.
-/

namespace LexGen

/-- The word is in the language of the rule's pattern. -/
def Rule.Matches (rule : Rule) (word : List Char) : Prop :=
  ∃ regex, Pattern.Derives rule.pattern.toList regex ∧ regex.Matches word

namespace RuleSet

/-- The rule is the first one with a property. -/
def First (set : RuleSet) (P : Rule → Prop) (rule : Rule) : Prop :=
  rule ∈ set.rules ∧ P rule ∧ ∀ other ∈ set.rules, P other → rule.priority ≤ other.priority

/-- The rule is the first one that matches the word. -/
def Wins (set : RuleSet) (word : List Char) (rule : Rule) : Prop :=
  rule ∈ set.rules ∧ rule.Matches word ∧
    ∀ other ∈ set.rules, other.Matches word → rule.priority ≤ other.priority

/-- A rule stands at the place that its priority says. -/
theorem getElem?_priority {set : RuleSet} {rule : Rule} (h : rule ∈ set.rules) :
    set.rules[rule.priority]? = some rule := by
  simp only [rules, List.mem_map] at h ⊢
  obtain ⟨⟨⟨pattern, tokenType⟩, priority⟩, hm, rfl⟩ := h
  have := List.mk_mem_zipIdx_iff_getElem?.1 hm
  simp [this]

/-- At most one rule is the first with a property. -/
theorem First.eq {set : RuleSet} {P : Rule → Prop} {a b : Rule} (ha : set.First P a)
    (hb : set.First P b) : a = b := by
  have h : a.priority = b.priority :=
    Nat.le_antisymm (ha.2.2 b hb.1 hb.2.1) (hb.2.2 a ha.1 ha.2.1)
  have := getElem?_priority ha.1
  rw [h, getElem?_priority hb.1] at this
  exact (Option.some.inj this).symm

/-- A word has at most one winner. -/
theorem Wins.eq {set : RuleSet} {word : List Char} {a b : Rule} (ha : set.Wins word a)
    (hb : set.Wins word b) : a = b := First.eq (P := (·.Matches word)) ha hb

end RuleSet

end LexGen
