import LexGen.Regex

/-!
# The language of a regular expression

`Regex.Matches` says which words an expression stands for, by rules that follow the syntax tree
and know of no automaton. Each shape of expression has one law, which says exactly when a word
matches it (`matches_concat_iff` and its like). The repetition `*` is the only one that needs
induction: the other two are stated through it.
-/

namespace LexGen.Regex

/-- The word is one of those that the expression stands for. -/
inductive Matches : Regex → List Char → Prop where
  | literal (c : Char) : Matches (.literal c) [c]
  | concat {left right : Regex} {front back : List Char} :
    Matches left front → Matches right back → Matches (.concat left right) (front ++ back)
  | unionLeft {left right : Regex} {word : List Char} :
    Matches left word → Matches (.union left right) word
  | unionRight {left right : Regex} {word : List Char} :
    Matches right word → Matches (.union left right) word
  | starNil {inner : Regex} : Matches (.repeated .star inner) []
  | starAppend {inner : Regex} {front back : List Char} :
    Matches inner front → Matches (.repeated .star inner) back →
      Matches (.repeated .star inner) (front ++ back)
  | optionalNil {inner : Regex} : Matches (.repeated .optional inner) []
  | optional {inner : Regex} {word : List Char} :
    Matches inner word → Matches (.repeated .optional inner) word
  | plus {inner : Regex} {front back : List Char} :
    Matches inner front → Matches (.repeated .star inner) back →
      Matches (.repeated .plus inner) (front ++ back)

theorem matches_literal_iff {c : Char} {word : List Char} :
    (literal c).Matches word ↔ word = [c] :=
  ⟨fun h => by cases h; rfl, fun h => h ▸ .literal c⟩

theorem matches_concat_iff {left right : Regex} {word : List Char} :
    (concat left right).Matches word ↔
      ∃ front back, word = front ++ back ∧ left.Matches front ∧ right.Matches back := by
  constructor
  · intro h
    cases h with
    | concat hl hr => exact ⟨_, _, rfl, hl, hr⟩
  · rintro ⟨front, back, rfl, hl, hr⟩
    exact .concat hl hr

theorem matches_union_iff {left right : Regex} {word : List Char} :
    (union left right).Matches word ↔ left.Matches word ∨ right.Matches word := by
  constructor
  · intro h
    cases h with
    | unionLeft h => exact .inl h
    | unionRight h => exact .inr h
  · rintro (h | h)
    · exact .unionLeft h
    · exact .unionRight h

theorem matches_optional_iff {inner : Regex} {word : List Char} :
    (repeated .optional inner).Matches word ↔ word = [] ∨ inner.Matches word := by
  constructor
  · intro h
    cases h with
    | optionalNil => exact .inl rfl
    | optional h => exact .inr h
  · rintro (rfl | h)
    · exact .optionalNil
    · exact .optional h

theorem matches_plus_iff {inner : Regex} {word : List Char} :
    (repeated .plus inner).Matches word ↔
      ∃ front back, word = front ++ back ∧ inner.Matches front ∧
        (repeated .star inner).Matches back := by
  constructor
  · intro h
    cases h with
    | plus hf hb => exact ⟨_, _, rfl, hf, hb⟩
  · rintro ⟨front, back, rfl, hf, hb⟩
    exact .plus hf hb

/-- A repetition is any number of words of its operand, one after the other. -/
theorem matches_star_iff {inner : Regex} {word : List Char} :
    (repeated .star inner).Matches word ↔
      ∃ words : List (List Char), word = words.flatten ∧ ∀ part ∈ words, inner.Matches part := by
  constructor
  · intro h
    generalize hr : repeated .star inner = regex at h
    induction h with
    | starNil => exact ⟨[], rfl, by simp⟩
    | @starAppend _ front _ h _ _ ih =>
      cases hr
      obtain ⟨words, rfl, hw⟩ := ih rfl
      exact ⟨front :: words, rfl, List.forall_mem_cons.2 ⟨h, hw⟩⟩
    | _ => cases hr
  · rintro ⟨words, rfl, hw⟩
    induction words with
    | nil => exact .starNil
    | cons first rest ih =>
      obtain ⟨hf, hr⟩ := List.forall_mem_cons.1 hw
      exact .starAppend hf (ih hr)

end LexGen.Regex
