import LexGen.Proofs.Table.Flattened
import LexGen.Scan.Scanner

/-!
# The longest accepted initial part

`Table.longest` stops where the table is stuck. Nothing is lost by that: no walk comes back from the
error state, so what is found is the longest of all initial parts that lead to a token type
(`Table.longest_eq_some_iff`), and there is one exactly if any initial part does
(`Table.longest_eq_none_iff`). What stands behind a character that leads to the error state is of no
account (`Table.longest_append_of_stuck`).
-/

namespace LexGen

namespace Table

variable {table : Table}

/-- Of the initial parts of a text, except for the empty one, the longest that leads to a token
type. -/
structure IsLongest (table : Table) (state : Fin table.states) (text : List Char)
    (found : Lexeme) : Prop where
  ne_nil : found.chars ≠ []
  append_eq : found.chars ++ found.rest = text
  tokenType_eq : table.tokenType (found.chars.foldl table.next state) = some found.tokenType
  tokenType_eq_none : ∀ front back, front ++ back = text → found.chars.length < front.length →
    table.tokenType (front.foldl table.next state) = none

/-- No initial part leads to a token type, if the empty one is left out. -/
def NoneAccepted (table : Table) (state : Fin table.states) (text : List Char) : Prop :=
  ∀ front back, front ++ back = text → front ≠ [] →
    table.tokenType (front.foldl table.next state) = none

theorem noneAccepted_of_next_stuck {state : Fin table.states} {c : Char} {rest : List Char}
    (h : table.next state c = table.stuck) : table.NoneAccepted state (c :: rest) := by
  intro front back happend hne
  obtain ⟨d, front, rfl⟩ := List.exists_cons_of_ne_nil hne
  cases happend
  rw [List.foldl_cons, h, foldl_next_stuck, tokenType_stuck]

theorem noneAccepted_cons_iff {state : Fin table.states} {c : Char} {rest : List Char} :
    table.NoneAccepted state (c :: rest) ↔
      table.tokenType (table.next state c) = none ∧
        table.NoneAccepted (table.next state c) rest := by
  constructor
  · intro h
    refine ⟨h [c] rest rfl (List.cons_ne_nil _ _), ?_⟩
    intro front back happend _
    exact h (c :: front) back (congrArg _ happend) (List.cons_ne_nil _ _)
  · rintro ⟨hfirst, hrest⟩ front back happend hne
    obtain ⟨d, front, rfl⟩ := List.exists_cons_of_ne_nil hne
    cases happend
    cases front with
    | nil => exact hfirst
    | cons e front => exact hrest (e :: front) back rfl (List.cons_ne_nil _ _)

/-- A longest part behind a character is a longest part with the character. -/
theorem IsLongest.cons {state : Fin table.states} {c : Char} {rest : List Char} {longer : Lexeme}
    (h : table.IsLongest (table.next state c) rest longer) :
    table.IsLongest state (c :: rest) { longer with chars := c :: longer.chars } where
  ne_nil := List.cons_ne_nil _ _
  append_eq := congrArg (c :: ·) h.append_eq
  tokenType_eq := h.tokenType_eq
  tokenType_eq_none front back happend hlength := by
    cases front with
    | nil => cases hlength
    | cons d front =>
      cases happend
      exact h.tokenType_eq_none front back rfl (Nat.lt_of_succ_lt_succ hlength)

/-- A character is a longest part if nothing behind it is accepted. -/
theorem IsLongest.single {state : Fin table.states} {c : Char} {rest : List Char}
    {tokenType : TokenType} (htype : table.tokenType (table.next state c) = some tokenType)
    (hnone : table.NoneAccepted (table.next state c) rest) :
    table.IsLongest state (c :: rest) ⟨tokenType, [c], rest⟩ where
  ne_nil := List.cons_ne_nil _ _
  append_eq := rfl
  tokenType_eq := htype
  tokenType_eq_none front back happend hlength := by
    cases front with
    | nil => cases hlength
    | cons d front =>
      cases happend
      apply hnone front back rfl
      intro hnil
      rw [hnil] at hlength
      exact absurd hlength (Nat.lt_irrefl _)

/-- What the walk comes to: a longest part, or nothing, and then nothing is accepted. -/
theorem longest_spec (table : Table) (state : Fin table.states) (text : List Char) :
    (∀ found, table.longest state text = some found → table.IsLongest state text found) ∧
      (table.longest state text = none → table.NoneAccepted state text) := by
  induction text generalizing state with
  | nil =>
    constructor
    · intro found h
      cases h
    · intro _ front back happend hne
      exact absurd (List.append_eq_nil_iff.1 happend).1 hne
  | cons c rest ih =>
    obtain ⟨hsome, hnone⟩ := ih (table.next state c)
    rw [longest]
    split
    next hstuck =>
      constructor
      · intro found h
        cases h
      · intro _
        exact noneAccepted_of_next_stuck hstuck
    next =>
      cases hlonger : table.longest (table.next state c) rest with
      | some longer =>
        constructor
        · intro found h
          cases h
          exact (hsome longer hlonger).cons
        · intro h
          cases h
      | none =>
        cases htype : table.tokenType (table.next state c) with
        | some tokenType =>
          constructor
          · intro found h
            cases h
            exact .single htype (hnone hlonger)
          · intro h
            cases h
        | none =>
          constructor
          · intro found h
            cases h
          · intro _
            exact noneAccepted_cons_iff.2 ⟨htype, hnone hlonger⟩

theorem IsLongest.not_noneAccepted {state : Fin table.states} {text : List Char} {found : Lexeme}
    (h : table.IsLongest state text found) : ¬ table.NoneAccepted state text := by
  intro hnone
  have htype := hnone found.chars found.rest h.append_eq h.ne_nil
  rw [h.tokenType_eq] at htype
  cases htype

/-- A text has at most one longest part. -/
theorem IsLongest.eq {state : Fin table.states} {text : List Char} {a b : Lexeme}
    (ha : table.IsLongest state text a) (hb : table.IsLongest state text b) : a = b := by
  have hle : ∀ {a b : Lexeme}, table.IsLongest state text a → table.IsLongest state text b →
      b.chars.length ≤ a.chars.length := by
    intro a b ha hb
    apply Nat.not_lt.1
    intro hlt
    have hnone := ha.tokenType_eq_none b.chars b.rest hb.append_eq hlt
    rw [hb.tokenType_eq] at hnone
    cases hnone
  have happend : a.chars ++ a.rest = b.chars ++ b.rest := ha.append_eq.trans hb.append_eq.symm
  obtain ⟨hchars, hrest⟩ := List.append_inj happend (Nat.le_antisymm (hle hb ha) (hle ha hb))
  have htype := ha.tokenType_eq
  rw [hchars, hb.tokenType_eq] at htype
  cases a
  cases b
  cases hchars
  cases hrest
  cases htype
  rfl

theorem longest_eq_none_iff {state : Fin table.states} {text : List Char} :
    table.longest state text = none ↔ table.NoneAccepted state text := by
  constructor
  · exact (table.longest_spec state text).2
  · intro h
    cases hlongest : table.longest state text with
    | none => rfl
    | some found =>
      have hfound := (table.longest_spec state text).1 found hlongest
      exact absurd h hfound.not_noneAccepted

theorem longest_eq_some_iff {state : Fin table.states} {text : List Char} {found : Lexeme} :
    table.longest state text = some found ↔ table.IsLongest state text found := by
  constructor
  · exact (table.longest_spec state text).1 found
  · intro h
    cases hlongest : table.longest state text with
    | none => exact absurd ((table.longest_spec state text).2 hlongest) h.not_noneAccepted
    | some other => rw [((table.longest_spec state text).1 other hlongest).eq h]

/-- Where a character leads to the error state, nothing from it on makes a difference. -/
theorem longest_append_of_stuck {state : Fin table.states} {front : List Char} {c : Char}
    (rest : List Char) (h : (front ++ [c]).foldl table.next state = table.stuck) :
    table.longest state (front ++ c :: rest) =
      (table.longest state front).map fun found => { found with rest := found.rest ++ c :: rest } := by
  induction front generalizing state with
  | nil =>
    have hnext : table.next state c = table.stuck := h
    simp only [List.nil_append, longest, if_pos hnext, Option.map_none]
  | cons d front ih =>
    simp only [List.cons_append, longest]
    rw [ih h]
    split
    next => rfl
    next =>
      cases table.longest (table.next state d) front with
      | some longer => rfl
      | none => cases table.tokenType (table.next state d) <;> rfl

end Table

end LexGen
