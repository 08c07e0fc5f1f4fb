import LexGen.Proofs.Scan.Longest
import LexGen.Proofs.Scan.Safety

/-!
# The greatest accepting offset

The search for a match stops in the error state. A walk over a part of the text goes on there, so an
offset accepts (`SavedScanner.AcceptsUpTo`) by what the whole part leads to. With every loaded table
whose parts fit together the match at a position ends at the greatest offset that accepts, and there
is none only if no offset does (`SavedTable.matchAt_greatest`). So the entries of the error row are of
no account, and the search among the columns may find what it likes.
-/

namespace LexGen

namespace Text

theorem byteLength_le_of_isPrefix {front longer : List Char} (h : front <+: longer) :
    byteLength front ≤ byteLength longer := by
  rcases h with ⟨back, rfl⟩
  simp

/-- Behind a position the parts of a text are those at the start of what stands behind it. -/
theorem slice?_append_eq_some_iff {before rest part : List Char} {stop : Nat} :
    slice? (byteLength before) stop (before ++ rest) = some part ↔
      part <+: rest ∧ stop = byteLength before + byteLength part := by
  rw [slice?_eq_some_iff]
  constructor
  · rintro ⟨front, back, htext, hstart, rfl⟩
    have hrest := dropBytes?_append front (part ++ back)
    rw [← htext, ← hstart, dropBytes?_append, Option.some.injEq] at hrest
    rw [byteLength_append, ← hstart, hrest]
    exact ⟨List.prefix_append part back, rfl⟩
  · rintro ⟨⟨back, rfl⟩, rfl⟩
    exact ⟨before, back, rfl, rfl, (byteLength_append before part).symm⟩

end Text

namespace SavedScanner

/-- The part of a text between two offsets is not empty, and the walk over it ends in a state with a
tag. -/
def AcceptsUpTo (saved : SavedScanner) (text : List Char) (start stop : Nat) (tag : RuleTag) :
    Prop :=
  start < stop ∧ ∃ part state, Text.slice? start stop text = some part ∧
    saved.walk part = .ok state ∧ saved.accept state = .ok (some tag)

/-- A match is the part of the text up to the greatest offset that accepts, and has the token type
that is accepted there. -/
structure IsGreatest (saved : SavedScanner) (text : List Char) (start : Nat) (found : Match) :
    Prop where
  start_eq : found.start = start
  slice_eq : Text.slice? start found.stop text = some found.text.toList
  exists_tag : ∃ tag, saved.AcceptsUpTo text start found.stop tag ∧
    tag.tokenType = found.tokenType
  le_stop : ∀ stop tag, saved.AcceptsUpTo text start stop tag → stop ≤ found.stop

namespace Simulates

variable {saved : SavedScanner} {scanner : Scanner} (h : saved.Simulates scanner)
  {before rest : List Char}

include h

/-- Behind a position an offset accepts if the scanner's table has a tag after the part up to it. -/
theorem acceptsUpTo_iff {stop : Nat} {tag : RuleTag} :
    saved.AcceptsUpTo (before ++ rest) (Text.byteLength before) stop tag ↔
      ∃ part, part <+: rest ∧ part ≠ [] ∧
        stop = Text.byteLength before + Text.byteLength part ∧
        scanner.table.tag (scanner.table.walk part) = some tag := by
  have htag : ∀ part, (∃ state, saved.walk part = .ok state ∧
      saved.accept state = .ok (some tag)) ↔
        scanner.table.tag (scanner.table.walk part) = some tag := by
    intro part
    simp [h.agrees.walk_eq, h.accept_eq]
  have hpos : ∀ part, Text.byteLength before < Text.byteLength before + Text.byteLength part ↔
      part ≠ [] := by
    intro part
    rw [Ne, ← Text.byteLength_eq_zero_iff]
    omega
  simp only [AcceptsUpTo, Text.slice?_append_eq_some_iff]
  constructor
  · rintro ⟨hlt, part, state, ⟨hpart, rfl⟩, hstate⟩
    exact ⟨part, hpart, (hpos part).1 hlt, rfl, (htag part).1 ⟨state, hstate⟩⟩
  · rintro ⟨part, hpart, hne, rfl, hpartTag⟩
    rcases (htag part).2 hpartTag with ⟨state, hstate⟩
    exact ⟨(hpos part).2 hne, part, state, ⟨hpart, rfl⟩, hstate⟩

/-- No offset accepts exactly if no part at the start of the rest does. -/
theorem noneAccepted_iff : scanner.table.NoneAccepted scanner.table.start rest ↔
    ∀ stop tag, ¬ saved.AcceptsUpTo (before ++ rest) (Text.byteLength before) stop tag := by
  simp only [h.acceptsUpTo_iff]
  constructor
  · rintro hnone stop tag ⟨part, ⟨back, hback⟩, hne, _, htag⟩
    have htype := hnone part back hback hne
    rw [Table.tokenType, ← Table.walk, htag] at htype
    cases htype
  · intro hnone front back happend hne
    rw [Table.tokenType, Option.map_eq_none_iff, Option.eq_none_iff_forall_ne_some]
    intro tag htag
    exact hnone _ tag ⟨front, ⟨back, happend⟩, hne, rfl, htag⟩

/-- The match of the longest accepted part ends at the greatest offset that accepts. -/
theorem isGreatest {lexeme : Lexeme}
    (hlongest : scanner.table.IsLongest scanner.table.start rest lexeme) :
    saved.IsGreatest (before ++ rest) (Text.byteLength before)
      (lexeme.matchFrom (Text.byteLength before)) where
  start_eq := rfl
  slice_eq := by
    rw [Text.slice?_append_eq_some_iff]
    simp only [Lexeme.matchFrom, String.toList_ofList, and_true]
    exact ⟨lexeme.rest, hlongest.append_eq⟩
  exists_tag := by
    have htype := hlongest.tokenType_eq
    rw [Table.tokenType, ← Table.walk, Option.map_eq_some_iff] at htype
    rcases htype with ⟨tag, htag, htype⟩
    refine ⟨tag, h.acceptsUpTo_iff.2 ⟨lexeme.chars, ?_, hlongest.ne_nil, rfl, htag⟩, htype⟩
    exact ⟨lexeme.rest, hlongest.append_eq⟩
  le_stop stop tag haccepts := by
    rcases h.acceptsUpTo_iff.1 haccepts with ⟨part, hpart, _, rfl, htag⟩
    -- A part with more characters than the longest one has no token type, and this one has.
    have hlength : part.length ≤ lexeme.chars.length := by
      by_contra hlt
      rcases hpart with ⟨back, hback⟩
      have hnone := hlongest.tokenType_eq_none part back hback (Nat.not_le.1 hlt)
      rw [Table.tokenType, ← Table.walk, htag] at hnone
      cases hnone
    have hprefix := List.prefix_of_prefix_length_le hpart ⟨_, hlongest.append_eq⟩ hlength
    exact Nat.add_le_add_left (Text.byteLength_le_of_isPrefix hprefix) _

end Simulates

end SavedScanner

/-- A loaded table with columns for different characters, as they are in ascending order, is a table
whose parts fit together. With every such table, and at every position in a text, the match ends at
the greatest offset that accepts; there is no match exactly if no offset does. This is so however
columns are found, and where the first column of each character is, the match is that of the scanner.
-/
theorem SavedTable.matchAt_greatest {saved loaded : SavedTable} (hload : saved.check = .ok loaded) :
    (loaded.states < 4294967296 → loaded.columns.Nodup →
      ∃ table : Table, table.toSavedTable = loaded) ∧
    ∀ (table : Table), table.toSavedTable = loaded → ∀ (column? : Char → Option Nat),
      (∀ c column, column? c = some column → column < loaded.columns.length) →
      ∀ (policy : TrailingPolicy) (text : String) (start : Nat),
        (Text.dropBytes? start text.toList).isSome = true →
        ∃ result,
          (SavedScanner.mk loaded column? policy).matchAt text.toList start = .ok result ∧
          (column? = loaded.column? → (Scanner.mk table policy).matchAt text start = result) ∧
          (result = none ↔ ∀ stop tag,
            ¬ (SavedScanner.mk loaded column? policy).AcceptsUpTo text.toList start stop tag) ∧
          ∀ found, result = some found →
            (SavedScanner.mk loaded column? policy).IsGreatest text.toList start found := by
  constructor
  · intro hstates hcolumns
    exact exists_table_of_nodup hload hstates hcolumns
  · rintro table rfl column? hcolumn policy text start hstart
    rcases SavedScanner.exists_simulates hcolumn with ⟨other, hfirst, hsimulates⟩
    have h : (SavedScanner.mk table.toSavedTable column? policy).Simulates ⟨other, policy⟩ :=
      hsimulates policy
    refine ⟨(Scanner.mk other policy).matchAt text start, h.agrees.matchAt_eq text start,
      fun heq => by rw [hfirst heq], ?_⟩
    rcases Option.isSome_iff_exists.1 hstart with ⟨rest, hrest⟩
    rcases Text.dropBytes?_eq_some_iff.1 hrest with ⟨before, htext, rfl⟩
    have hofList : text = String.ofList (before ++ rest) := by rw [← htext, String.ofList_toList]
    subst hofList
    rw [Scanner.matchAt_append, String.toList_ofList]
    constructor
    · rw [Option.map_eq_none_iff, Scanner.longest, Table.longest_eq_none_iff, h.noneAccepted_iff]
    · intro found hfound
      rcases Option.map_eq_some_iff.1 hfound with ⟨lexeme, hlexeme, rfl⟩
      exact h.isGreatest (Table.longest_eq_some_iff.1 hlexeme)

/-- Behind `é` the text goes on with `abéab`. The walk accepts after `ab` and gets stuck two
characters later, and the entries of the error row, which all lead to the accepting state, do not
help it on. -/
theorem SavedTable.matchAt_greatest_of_error_row : ∃ (saved : SavedTable) (table : Table),
    saved = ⟨#[1, 4, 4, 4, 2, 4, 4, 4, 3, 4, 4, 2, 2, 2, 2],
      #[none, none, some ⟨⟨"word"⟩, 0⟩, none, none], ['a', 'b', 'é'], 5, 0⟩ ∧
    saved.check = .ok table.toSavedTable ∧
    (Scanner.mk table .reject).matchAt "éabéab" 2 = some ⟨⟨"word"⟩, "ab", 2, 4⟩ ∧
    ∀ stop tag, (SavedScanner.mk saved saved.column? .reject).AcceptsUpTo "éabéab".toList 2 stop
      tag → stop ≤ 4 := by
  let saved : SavedTable := ⟨#[1, 4, 4, 4, 2, 4, 4, 4, 3, 4, 4, 2, 2, 2, 2],
    #[none, none, some ⟨⟨"word"⟩, 0⟩, none, none], ['a', 'b', 'é'], 5, 0⟩
  have hword : saved.NoOverflow := by
    show 5 * 3 < UInt64.size
    decide
  have hfits : saved.FitsTogether :=
    ⟨by decide, by decide, by decide, by decide, by decide, by decide⟩
  have hload : saved.check = .ok saved := hword.check_eq_ok_iff.2 ⟨hfits, rfl⟩
  rcases (matchAt_greatest hload).1 (by decide) (by decide) with ⟨table, htable⟩
  have hstart : (Text.dropBytes? 2 "éabéab".toList).isSome = true := by decide
  rcases (matchAt_greatest hload).2 table htable saved.column? (fun _ _ => lt_of_column?) .reject
    "éabéab" 2 hstart with ⟨result, hresult, hscanner, _, hgreatest⟩
  have hmatch : (SavedScanner.mk saved saved.column? .reject).matchAt "éabéab".toList 2 =
      .ok (some ⟨⟨"word"⟩, "ab", 2, 4⟩) := by rfl
  rw [hmatch, Except.ok.injEq] at hresult
  exact ⟨saved, table, rfl, htable ▸ hload, (hscanner rfl).trans hresult.symm,
    (hgreatest _ hresult.symm).le_stop⟩

end LexGen
