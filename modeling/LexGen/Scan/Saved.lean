import LexGen.Checked
import LexGen.Scan.Scanner
import LexGen.Table.Saved

/-!
# Scanning with a stored table

A `Scanner` has a table whose parts fit together, and a match hands over the rest of the text, so it
has no look-up that could fail. A `SavedScanner` scans with a table as it is stored, which promises
nothing: states are numbers, positions are byte offsets, and each look-up in the table and each cut
of the text may be a fault. Even so a match ends behind its start (`SavedScanner.start_lt_stop`),
since a walk looks for token types only behind a character, so the loop over a fragment comes to an
end.

How columns are found is left open. A search that halves the columns finds each of them if they are
in ascending order; in another order it may miss a column, or find any of several for one character.
-/

namespace LexGen

/-- What may go wrong in a scan. -/
inductive ScanFault where
  /-- A look-up in the table fails. -/
  | table (fault : Fault)
  /-- There is no part of the text between the two offsets. -/
  | cut (start stop : Nat)
  deriving DecidableEq, Repr

structure SavedScanner where
  table : SavedTable
  column? : Char → Option Nat
  policy : TrailingPolicy

namespace SavedScanner

/-- A scanner with its table as it is stored, and with columns that are found in some way. -/
def ofScanner (scanner : Scanner) (column? : Char → Option Nat) : SavedScanner :=
  ⟨scanner.table.toSavedTable, column?, scanner.policy⟩

/-- The part of a text between two byte offsets. -/
def cut (start stop : Nat) (text : List Char) : Except ScanFault (List Char) :=
  match Text.slice? start stop text with
  | some part => .ok part
  | none => .error (.cut start stop)

/-- The state after a character. -/
def next (saved : SavedScanner) (state : Nat) (c : Char) : Except ScanFault Nat :=
  (saved.table.nextBy? saved.column? state c).mapError .table

/-- What a state accepts. -/
def accept (saved : SavedScanner) (state : Nat) : Except ScanFault (Option RuleTag) :=
  (saved.table.accept? state).mapError .table

/-- The state after a word. -/
def walk (saved : SavedScanner) (word : List Char) : Except ScanFault Nat :=
  word.foldlM saved.next saved.table.initial

/-- Walk from a state over a text that starts at a byte offset, and stop in the error state. The
result is the offset behind the last character that has led to a token type, with this type; `last`
is what it was before. -/
def lastAccept (saved : SavedScanner) (state offset : Nat) (last : Option (Nat × TokenType)) :
    List Char → Except ScanFault (Option (Nat × TokenType))
  | [] => .ok last
  | c :: rest => do
    let next ← saved.next state c
    if saved.table.isError next then return last
    let tag ← saved.accept next
    let stop := offset + c.utf8Size
    saved.lastAccept next stop ((tag.map fun tag => (stop, tag.tokenType)).or last) rest

/-- The longest match at a byte offset; none if the offset is not a position in the text. -/
def matchAt (saved : SavedScanner) (text : List Char) (start : Nat) :
    Except ScanFault (Option Match) := do
  if (Text.dropBytes? start text).isNone then return none
  let rest ← cut start (Text.byteLength text) text
  match ← saved.lastAccept saved.table.initial start none rest with
  | none => return none
  | some (stop, tokenType) =>
    return some ⟨tokenType, String.ofList (← cut start stop text), start, stop⟩

/-- What a walk remembers is what it remembered before or lies behind its start. -/
theorem lt_of_lastAccept {saved : SavedScanner} {state offset stop : Nat} {tokenType : TokenType}
    {last : Option (Nat × TokenType)} {text : List Char}
    (h : saved.lastAccept state offset last text = .ok (some (stop, tokenType))) :
    last = some (stop, tokenType) ∨ offset < stop := by
  induction text generalizing state offset last with
  | nil => exact .inl (Except.ok.inj h)
  | cons c rest ih =>
    have hpos := c.utf8Size_pos
    rw [lastAccept] at h
    obtain ⟨next, _, h⟩ := Checked.bind_eq_ok_iff.1 h
    split at h
    next => exact .inl (Except.ok.inj h)
    next =>
      obtain ⟨tag, _, h⟩ := Checked.bind_eq_ok_iff.1 h
      rcases ih h with hlast | hlt
      · cases tag with
        | none => exact .inl hlast
        | some tag =>
          cases hlast
          exact .inr (by omega)
      · exact .inr (by omega)

/-- A match ends behind its start, whatever the table. -/
theorem start_lt_stop {saved : SavedScanner} {text : List Char} {start : Nat} {found : Match}
    (h : saved.matchAt text start = .ok (some found)) : start < found.stop := by
  rw [matchAt] at h
  split at h
  next => cases h
  next =>
    obtain ⟨rest, _, h⟩ := Checked.bind_eq_ok_iff.1 h
    obtain ⟨last, hlast, h⟩ := Checked.bind_eq_ok_iff.1 h
    cases last with
    | none => cases h
    | some last =>
      obtain ⟨part, _, h⟩ := Checked.bind_eq_ok_iff.1 h
      cases h
      rcases lt_of_lastAccept hlast with hnone | hlt
      · cases hnone
      · exact hlt

/-- The tokens of a fragment from a byte offset on, behind those found so far. The loop goes on from
the end of a match only if the policy says so. -/
def scanFrom (saved : SavedScanner) (fragment : List Char) (cursor : Nat) (tokens : List Token) :
    Except ScanFault (Except Unrecognized (List Token)) :=
  if cursor < Text.byteLength fragment then
    match _h : saved.matchAt fragment cursor with
    | .error fault => .error fault
    | .ok none => do
      return .error ⟨String.ofList (← cut cursor (Text.byteLength fragment) fragment)⟩
    | .ok (some found) =>
      let tokens := tokens ++ [⟨found.tokenType, found.text⟩]
      if found.stop = Text.byteLength fragment then .ok (.ok tokens)
      else
        match saved.policy with
        | .drop => .ok (.ok tokens)
        | .reject => .ok (.error ⟨String.ofList fragment⟩)
        | .rescan => saved.scanFrom fragment found.stop tokens
  else .ok (.ok tokens)
termination_by Text.byteLength fragment - cursor
decreasing_by
  have hstop := start_lt_stop _h
  omega

/-- The tokens of one fragment. -/
def scan (saved : SavedScanner) (fragment : List Char) :
    Except ScanFault (Except Unrecognized (List Token)) :=
  saved.scanFrom fragment 0 []

/-- The tokens of all fragments, or the first fragment's error. -/
def tokenizeFragments (saved : SavedScanner) :
    List (List Char) → Except ScanFault (Except Unrecognized (List Token))
  | [] => return .ok []
  | fragment :: rest => do
    match ← saved.scan fragment with
    | .error error => return .error error
    | .ok tokens => return (← saved.tokenizeFragments rest).map (tokens ++ ·)

/-- The tokens of the fragments that can be scanned, and the errors of the others. -/
def tokenizeFragmentsSkipping (saved : SavedScanner) :
    List (List Char) → Except ScanFault (List Token × List Unrecognized)
  | [] => return ([], [])
  | fragment :: rest => do
    match ← saved.scan fragment with
    | .error error =>
      let (tokens, errors) ← saved.tokenizeFragmentsSkipping rest
      return (tokens, error :: errors)
    | .ok found =>
      let (tokens, errors) ← saved.tokenizeFragmentsSkipping rest
      return (found ++ tokens, errors)

/-- The tokens of a text, or the first error. -/
def tokenize (saved : SavedScanner) (text : String) :
    Except ScanFault (Except Unrecognized (List Token)) :=
  saved.tokenizeFragments (Text.fragments text.toList)

/-- The tokens of a text without the fragments that cannot be scanned, and the errors of these. -/
def tokenizeSkipping (saved : SavedScanner) (text : String) :
    Except ScanFault (List Token × List Unrecognized) :=
  saved.tokenizeFragmentsSkipping (Text.fragments text.toList)

end SavedScanner

end LexGen
