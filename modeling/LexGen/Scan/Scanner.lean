import LexGen.Scan.Policy
import LexGen.Scan.Token
import LexGen.Table.Basic
import LexGen.Text.Blank
import LexGen.Text.Utf8

/-!
# Scanning

A scanner cuts text into tokens by the rule of the longest match: of all initial parts of the text
that a table accepts it takes the longest. The walk through the table ends where the table is
stuck. An empty word is never a token, so each token takes something away from the text
(`Table.longest_append`), and a fragment is used up after finitely many.

Text is scanned fragment by fragment. `Scanner.tokenize` stops at the first fragment that cannot be
scanned, and `Scanner.tokenizeSkipping` leaves such fragments out and reports each of them.
-/

namespace LexGen

/-- The longest accepted initial part of a text, and the text after it. -/
structure Lexeme where
  tokenType : TokenType
  chars : List Char
  rest : List Char
  deriving DecidableEq, Repr

def Lexeme.token (lexeme : Lexeme) : Token := ⟨lexeme.tokenType, String.ofList lexeme.chars⟩

/-- A longest match inside a text. Offsets are counted in bytes. -/
structure Match where
  tokenType : TokenType
  text : String
  start : Nat
  stop : Nat
  deriving DecidableEq, Repr

/-- Nothing at the start of the text is a token. -/
structure Unrecognized where
  text : String
  deriving DecidableEq, Repr

def Unrecognized.message (error : Unrecognized) : String :=
  "unrecognized lexeme `" ++ error.text ++ "`"

namespace Table

/-- The longest initial part of a text that leads from a state to an accepting one. A longer match
goes before the one that ends with this character. -/
def longest (table : Table) (state : Fin table.states) : List Char → Option Lexeme
  | [] => none
  | c :: rest =>
    let next := table.next state c
    if next = table.stuck then none
    else
      match table.longest next rest with
      | some longer => some { longer with chars := c :: longer.chars }
      | none => (table.tokenType next).map fun tokenType => ⟨tokenType, [c], rest⟩

/-- A match is a part of the text and not empty. -/
theorem longest_append {table : Table} {state : Fin table.states} {text : List Char}
    {found : Lexeme} (h : table.longest state text = some found) :
    found.chars ≠ [] ∧ found.chars ++ found.rest = text := by
  induction text generalizing state found with
  | nil => simp [longest] at h
  | cons c rest ih =>
    simp only [longest] at h
    split at h
    · simp at h
    · split at h
      next longer hl =>
        cases h
        exact ⟨by simp, by simpa using (ih hl).2⟩
      next =>
        obtain ⟨_, _, rfl⟩ := Option.map_eq_some_iff.1 h
        exact ⟨by simp, rfl⟩

theorem length_rest_lt {table : Table} {state : Fin table.states} {text : List Char}
    {found : Lexeme} (h : table.longest state text = some found) :
    found.rest.length < text.length := by
  obtain ⟨hne, happ⟩ := longest_append h
  have := List.length_pos_iff.2 hne
  rw [← happ, List.length_append]
  omega

end Table

structure Scanner where
  table : Table
  policy : TrailingPolicy
  deriving DecidableEq

namespace Scanner

/-- A scanner starts out with the policy that drops what follows a match. -/
def ofTable (table : Table) : Scanner := ⟨table, .drop⟩

/-- The longest match at the start of a text. -/
def longest (scanner : Scanner) (text : List Char) : Option Lexeme :=
  scanner.table.longest scanner.table.start text

/-- The longest match at a byte offset; none if the offset is not a position in the text. -/
def matchAt (scanner : Scanner) (text : String) (start : Nat) : Option Match := do
  let found ← scanner.longest (← Text.dropBytes? start text.toList)
  return {
    tokenType := found.tokenType
    text := String.ofList found.chars
    start := start
    stop := start + Text.byteLength found.chars }

/-- Cut a text into longest matches, one after the other. -/
def segment (scanner : Scanner) (text : List Char) : Except Unrecognized (List Token) :=
  if text.isEmpty then .ok []
  else
    match _h : scanner.longest text with
    | none => .error ⟨String.ofList text⟩
    | some found => (scanner.segment found.rest).map (found.token :: ·)
termination_by text.length
decreasing_by exact Table.length_rest_lt _h

theorem segment_nil (scanner : Scanner) : scanner.segment [] = .ok [] := by
  rw [segment]
  rfl

theorem segment_of_longest_eq_none {scanner : Scanner} {text : List Char} (hne : text ≠ [])
    (h : scanner.longest text = none) : scanner.segment text = .error ⟨String.ofList text⟩ := by
  rw [segment, if_neg (by simpa using hne)]
  split
  next => rfl
  next found hfound => simp [h] at hfound

/-- After a match the rest of the text is cut. -/
theorem segment_of_longest_eq_some {scanner : Scanner} {text : List Char} {found : Lexeme}
    (h : scanner.longest text = some found) :
    scanner.segment text = (scanner.segment found.rest).map (found.token :: ·) := by
  have hne : ¬ text.isEmpty = true := by
    intro hempty
    rw [List.isEmpty_iff.1 hempty] at h
    cases h
  rw [segment, if_neg hne]
  split
  next hnone => simp [h] at hnone
  next other hother =>
    rw [h] at hother
    rw [Option.some.inj hother]

/-- The tokens of one fragment. -/
def scan (scanner : Scanner) (fragment : List Char) : Except Unrecognized (List Token) :=
  if fragment.isEmpty then .ok []
  else
    match scanner.policy with
    | .rescan => scanner.segment fragment
    | .drop =>
      match scanner.longest fragment with
      | none => .error ⟨String.ofList fragment⟩
      | some found => .ok [found.token]
    | .reject =>
      match scanner.longest fragment with
      | none => .error ⟨String.ofList fragment⟩
      | some found =>
        if found.rest.isEmpty then .ok [found.token] else .error ⟨String.ofList fragment⟩

theorem scan_nil (scanner : Scanner) : scanner.scan [] = .ok [] := rfl

/-- A fragment that does not start with a match is refused, whatever the policy. -/
theorem scan_of_longest_eq_none {scanner : Scanner} {fragment : List Char} (hne : fragment ≠ [])
    (h : scanner.longest fragment = none) :
    scanner.scan fragment = .error ⟨String.ofList fragment⟩ := by
  rw [scan, if_neg (by simpa using hne)]
  cases scanner.policy with
  | drop => simp only [h]
  | reject => simp only [h]
  | rescan => exact segment_of_longest_eq_none hne h

/-- The policy counts only if a match leaves something over. -/
theorem scan_of_longest_eq_some {scanner : Scanner} {fragment : List Char} {found : Lexeme}
    (h : scanner.longest fragment = some found) :
    scanner.scan fragment =
      if found.rest = [] then .ok [found.token]
      else
        match scanner.policy with
        | .drop => .ok [found.token]
        | .reject => .error ⟨String.ofList fragment⟩
        | .rescan => (scanner.segment found.rest).map (found.token :: ·) := by
  have hne : ¬ fragment.isEmpty = true := by
    intro hempty
    rw [List.isEmpty_iff.1 hempty] at h
    cases h
  rw [scan, if_neg hne]
  cases scanner.policy with
  | drop => simp only [h, ite_self]
  | reject => simp only [h, List.isEmpty_iff]
  | rescan =>
    rw [segment_of_longest_eq_some h]
    by_cases hrest : found.rest = []
    · rw [if_pos hrest, hrest, segment_nil]
      rfl
    · rw [if_neg hrest]

/-- The tokens of all fragments, or the first fragment's error. -/
def tokenizeFragments (scanner : Scanner) :
    List (List Char) → Except Unrecognized (List Token)
  | [] => .ok []
  | fragment :: rest => do
    let tokens ← scanner.scan fragment
    return tokens ++ (← scanner.tokenizeFragments rest)

/-- The tokens of the fragments that can be scanned, and the errors of the others. -/
def tokenizeFragmentsSkipping (scanner : Scanner) :
    List (List Char) → List Token × List Unrecognized
  | [] => ([], [])
  | fragment :: rest =>
    let (tokens, errors) := scanner.tokenizeFragmentsSkipping rest
    match scanner.scan fragment with
    | .ok found => (found ++ tokens, errors)
    | .error error => (tokens, error :: errors)

/-- Fragments are scanned independently of each other. -/
theorem tokenizeFragmentsSkipping_append (scanner : Scanner) (front back : List (List Char)) :
    scanner.tokenizeFragmentsSkipping (front ++ back) =
      ((scanner.tokenizeFragmentsSkipping front).1 ++ (scanner.tokenizeFragmentsSkipping back).1,
        (scanner.tokenizeFragmentsSkipping front).2 ++
          (scanner.tokenizeFragmentsSkipping back).2) := by
  induction front with
  | nil => rfl
  | cons fragment front ih =>
    simp only [List.cons_append, tokenizeFragmentsSkipping, ih]
    split <;> simp

/-- The tokens of a text, or the first error. -/
def tokenize (scanner : Scanner) (text : String) : Except Unrecognized (List Token) :=
  scanner.tokenizeFragments (Text.fragments text.toList)

/-- The tokens of a text without the fragments that cannot be scanned, and the errors of these. -/
def tokenizeSkipping (scanner : Scanner) (text : String) : List Token × List Unrecognized :=
  scanner.tokenizeFragmentsSkipping (Text.fragments text.toList)

end Scanner

end LexGen
