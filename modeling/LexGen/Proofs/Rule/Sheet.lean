import LexGen.Proofs.Checked
import LexGen.Proofs.Rule.Lines

/-!
# Sheets of rules

A sheet is rule text as people write it: rules with blanks around both halves, blank lines,
comments and lines without a semicolon, in any order and number, and line ends of both kinds. What
makes a rule or a margin fit for its line is part of it (`RuleEntry`, `Margin`), so every sheet can
be read. Each line gives the rule that is written on it or none (`SheetLine.readLine_chars`), and a
sheet gives its rules in their order (`Sheet.ofText_text`). No other texts are accepted: a line that
is read without an error is of one of the four kinds (`SheetLine.exists_chars_eq`), and a text
without errors is that of a sheet (`RuleSet.ofText_eq_ok_iff`).
-/

namespace LexGen

/-- Blanks within a line. -/
structure Margin where
  chars : List Char
  blank : ∀ c ∈ chars, Text.isBlank c = true
  newline : '\n' ∉ chars

/-- The text is not empty, stands on one line and has no blanks at its ends. -/
structure Text.Trimmed (text : List Char) : Prop where
  ne_nil : text ≠ []
  newline : '\n' ∉ text
  trim_eq : Text.trim text = text

/-- A rule that can be written on a line. -/
structure RuleEntry where
  pattern : String
  name : String
  trimmed_pattern : Text.Trimmed pattern.toList
  semicolon : ';' ∉ pattern.toList
  hash : pattern.toList.head? ≠ some '#'
  trimmed_name : Text.Trimmed name.toList

inductive SheetLine where
  /-- The margins are in the order in which they stand, two around each half. -/
  | rule (entry : RuleEntry) (left before behind right : Margin)
  | blank (margin : Margin)
  | comment (margin : Margin) (text : List Char) (newline : '\n' ∉ text)
  /-- Without a semicolon. -/
  | plain (text : List Char) (semicolon : ';' ∉ text) (newline : '\n' ∉ text)

def SheetLine.chars : SheetLine → List Char
  | rule entry left before behind right =>
    left.chars ++ entry.pattern.toList ++ before.chars ++
      ';' :: (behind.chars ++ entry.name.toList ++ right.chars)
  | blank margin => margin.chars
  | comment margin text _ => margin.chars ++ '#' :: text
  | plain text _ _ => text

def SheetLine.entry? : SheetLine → Option RuleEntry
  | rule entry .. => some entry
  | _ => none

/-- A line feed, alone or behind a carriage return. -/
inductive LineEnd where
  | feed
  | returnFeed

/-- A line with its end. -/
structure EndedLine where
  line : SheetLine
  lineEnd : LineEnd

/-- What stands before the line feed. -/
def EndedLine.chars (ended : EndedLine) : List Char :=
  ended.line.chars ++ match ended.lineEnd with
    | .feed => []
    | .returnFeed => ['\r']

/-- Lines with their ends, and behind them a last line without end, which may be empty. -/
structure Sheet where
  ended : List EndedLine
  last : SheetLine

namespace Sheet

def text (sheet : Sheet) : String :=
  String.ofList (sheet.ended.flatMap (fun ended => ended.chars ++ ['\n']) ++ sheet.last.chars)

/-- All lines; the last one stands as if it had an end. -/
def lines (sheet : Sheet) : List EndedLine := sheet.ended ++ [⟨sheet.last, .feed⟩]

/-- The rules of a sheet in their order. -/
def entries (sheet : Sheet) : List RuleEntry := sheet.lines.filterMap fun ended => ended.line.entry?

end Sheet

def RuleEntry.rule (entry : RuleEntry) : String × TokenType := (entry.pattern, ⟨entry.name⟩)

/-! ## Reading a line -/

theorem Margin.not_mem (margin : Margin) {c : Char} (h : Text.isBlank c = false) :
    c ∉ margin.chars := by
  intro hmem
  have hblank := margin.blank c hmem
  rw [h] at hblank
  cases hblank

namespace SheetLine

theorem newline (line : SheetLine) : '\n' ∉ line.chars := by
  cases line with
  | rule entry left before behind right =>
    simp [chars, left.newline, entry.trimmed_pattern.newline, before.newline, behind.newline,
      entry.trimmed_name.newline, right.newline]
  | blank margin => exact margin.newline
  | comment margin text h => simp [chars, margin.newline, h]
  | plain text _ h => exact h

theorem readLine_rule (number : Nat) (entry : RuleEntry) (left before behind right : Margin) :
    RuleSet.readLine number (rule entry left before behind right).chars =
      .ok (some entry.rule) := by
  have hsemicolon : ';' ∉ entry.pattern.toList ++ before.chars := by
    simp [entry.semicolon, before.not_mem (c := ';') rfl]
  have htrim : Text.trim (rule entry left before behind right).chars =
      (entry.pattern.toList ++ before.chars) ++ ';' :: (behind.chars ++ entry.name.toList) := by
    have hmiddle := Text.trim_between entry.trimmed_pattern.trim_eq entry.trimmed_pattern.ne_nil
      entry.trimmed_name.trim_eq entry.trimmed_name.ne_nil (before.chars ++ ';' :: behind.chars)
    have hchars : (rule entry left before behind right).chars =
        left.chars ++ ((entry.pattern.toList ++ (before.chars ++ ';' :: behind.chars) ++
          entry.name.toList) ++ right.chars) := by
      simp [chars]
    rw [hchars, Text.trim_blanks_append left.blank, Text.trim_append_blanks right.blank, hmiddle]
    simp
  have hhead : ¬ ((entry.pattern.toList ++ before.chars) ++
      ';' :: (behind.chars ++ entry.name.toList)).head? = some '#' := by
    rw [List.append_assoc, List.head?_append_of_ne_nil _ entry.trimmed_pattern.ne_nil]
    exact entry.hash
  have hpattern : Text.trim (entry.pattern.toList ++ before.chars) = entry.pattern.toList := by
    rw [Text.trim_append_blanks before.blank, entry.trimmed_pattern.trim_eq]
  have hname : Text.trim (behind.chars ++ entry.name.toList) = entry.name.toList := by
    rw [Text.trim_blanks_append behind.blank, entry.trimmed_name.trim_eq]
  rw [RuleSet.readLine, htrim]
  simp only [Text.cut?_append_cons hsemicolon, hpattern, hname, if_neg hhead]
  rw [if_neg (by simpa using entry.trimmed_pattern.ne_nil),
    if_neg (by simpa using entry.trimmed_name.ne_nil), String.ofList_toList, String.ofList_toList]
  rfl

/-- A line gives the rule that is written on it, and no error. -/
theorem readLine_chars (number : Nat) (line : SheetLine) :
    RuleSet.readLine number line.chars = .ok (line.entry?.map RuleEntry.rule) := by
  cases line with
  | rule entry left before behind right => exact readLine_rule number entry left before behind right
  | blank margin => exact RuleSet.readLine_of_not_mem number (margin.not_mem rfl)
  | comment margin text _ =>
    have hhead : (Text.trim (margin.chars ++ '#' :: text)).head? = some '#' := by
      rw [Text.trim_blanks_append margin.blank, Text.head?_trim_cons rfl]
    rw [chars, RuleSet.readLine]
    exact if_pos hhead
  | plain text h _ => exact RuleSet.readLine_of_not_mem number h

end SheetLine

namespace EndedLine

theorem newline (ended : EndedLine) : '\n' ∉ ended.chars := by
  cases hend : ended.lineEnd <;> simp [chars, hend, ended.line.newline]

theorem readLine_chars (number : Nat) (ended : EndedLine) :
    RuleSet.readLine number ended.chars = .ok (ended.line.entry?.map RuleEntry.rule) := by
  have hline := ended.line.readLine_chars number
  cases hend : ended.lineEnd with
  | feed => rwa [chars, hend, List.append_nil]
  | returnFeed => rwa [chars, hend, RuleSet.readLine_append_blanks _ _ Text.isBlank_return]

end EndedLine

namespace Sheet

theorem lines_text (sheet : Sheet) :
    Text.lines sheet.text.toList = sheet.lines.map EndedLine.chars := by
  have hended : (sheet.ended.flatMap fun line => line.chars ++ ['\n']) =
      (sheet.ended.map EndedLine.chars).flatMap (· ++ ['\n']) := by
    rw [List.flatMap_map]
  have hnewline : ∀ chars ∈ sheet.ended.map EndedLine.chars, '\n' ∉ chars :=
    List.forall_mem_map.2 fun line _ => line.newline
  rw [text, String.toList_ofList, hended, Text.lines_flatMap_append hnewline,
    Text.lines_eq_singleton sheet.last.newline, lines, List.map_append]
  simp [EndedLine.chars]

/-- A sheet is read without an error, and gives its rules. -/
theorem ofText_eq (sheet : Sheet) :
    RuleSet.ofText sheet.text = .ok ⟨sheet.entries.map RuleEntry.rule⟩ := by
  rw [RuleSet.ofText, lines_text, RuleSet.readLines_map EndedLine.readLine_chars, entries,
    List.map_filterMap]
  rfl

/-- A sheet gives its rules in their order, with the priorities 0, 1, 2 and so on. -/
theorem ofText_text (sheet : Sheet) : ∃ set, RuleSet.ofText sheet.text = .ok set ∧
    set.rules = sheet.entries.zipIdx.map fun (entry, priority) =>
      ⟨entry.pattern, ⟨entry.name⟩, priority⟩ := by
  refine ⟨⟨sheet.entries.map RuleEntry.rule⟩, ofText_eq sheet, ?_⟩
  rw [RuleSet.rules, List.zipIdx_map, List.map_map]
  rfl

example : (Sheet.mk
    [⟨.rule
        ⟨"a b", "N;M", ⟨by decide, by decide, rfl⟩, by decide, by decide,
          ⟨by decide, by decide, rfl⟩⟩
        ⟨[' '], List.forall_mem_singleton.2 rfl, by decide⟩ ⟨[], List.forall_mem_nil _, by decide⟩
        ⟨['\t'], List.forall_mem_singleton.2 rfl, by decide⟩ ⟨[], List.forall_mem_nil _, by decide⟩,
        .returnFeed⟩,
      ⟨.comment ⟨[], List.forall_mem_nil _, by decide⟩ [' ', 'x', ';', 'y'] (by decide), .feed⟩]
    (.blank ⟨[], List.forall_mem_nil _, by decide⟩)).text = " a b;\tN;M\r\n# x;y\n" := rfl

end Sheet

/-! ## Accepted texts -/

/-- A line is what is left of it without the blanks at its ends, with margins. -/
theorem Text.exists_margins {line : List Char} (h : '\n' ∉ line) : ∃ left right : Margin,
    line = left.chars ++ (trim line ++ right.chars) := by
  have hback := (line.dropWhile isBlank).rdropWhile_append_rtakeWhile (p := isBlank)
  have hline : line = line.takeWhile isBlank ++ (trim line ++
      (line.dropWhile isBlank).rtakeWhile isBlank) := by
    rw [trim_eq, hback, List.takeWhile_append_dropWhile]
  have hleft : '\n' ∉ line.takeWhile isBlank :=
    fun hmem => h (hline ▸ List.mem_append_left _ hmem)
  have hright : '\n' ∉ (line.dropWhile isBlank).rtakeWhile isBlank :=
    fun hmem => h (hline ▸ List.mem_append_right _ (List.mem_append_right _ hmem))
  exact ⟨⟨_, fun c hc => List.mem_takeWhile_imp hc, hleft⟩,
    ⟨_, fun c hc => List.mem_rtakeWhile_imp hc, hright⟩, hline⟩

/-- What is left of a text on one line can be written, if anything is left. -/
theorem Text.trimmed_trim {text : List Char} (hne : trim text ≠ []) (h : '\n' ∉ text) :
    Trimmed (trim text) where
  ne_nil := hne
  newline hmem := h (mem_of_mem_trim hmem)
  trim_eq := trim_trim text

/-- Margins that stand side by side. -/
def Margin.append (first second : Margin) : Margin where
  chars := first.chars ++ second.chars
  blank := List.forall_mem_append.2 ⟨first.blank, second.blank⟩
  newline := by simp [first.newline, second.newline]

namespace SheetLine

/-- Two halves that are not blank are those of a written rule. -/
theorem exists_rule_chars (left right : Margin) {pattern name : List Char}
    (hpattern : Text.trim pattern ≠ []) (hname : Text.trim name ≠ [])
    (hnewline : '\n' ∉ pattern ++ ';' :: name) (hsemicolon : ';' ∉ pattern)
    (hhash : (Text.trim pattern).head? ≠ some '#') :
    ∃ written : SheetLine,
      written.chars = left.chars ++ (pattern ++ ';' :: name ++ right.chars) ∧
      written.entry?.map RuleEntry.rule =
        some (String.ofList (Text.trim pattern), ⟨String.ofList (Text.trim name)⟩) := by
  have hpatternLine : '\n' ∉ pattern := fun hmem => hnewline (List.mem_append_left _ hmem)
  have hnameLine : '\n' ∉ name := fun hmem =>
    hnewline (List.mem_append_right _ (List.mem_cons_of_mem _ hmem))
  obtain ⟨first, before, hfront⟩ := Text.exists_margins hpatternLine
  obtain ⟨behind, last, hback⟩ := Text.exists_margins hnameLine
  let entry : RuleEntry :=
    { pattern := String.ofList (Text.trim pattern)
      name := String.ofList (Text.trim name)
      trimmed_pattern := by
        rw [String.toList_ofList]
        exact Text.trimmed_trim hpattern hpatternLine
      semicolon := by
        rw [String.toList_ofList]
        exact fun hmem => hsemicolon (Text.mem_of_mem_trim hmem)
      hash := by rwa [String.toList_ofList]
      trimmed_name := by
        rw [String.toList_ofList]
        exact Text.trimmed_trim hname hnameLine }
  refine ⟨.rule entry (left.append first) before behind (last.append right), ?_, rfl⟩
  conv_rhs => rw [hfront, hback]
  simp [chars, Margin.append, entry]

/-- A line that is read without an error is one of the kinds of lines. -/
theorem exists_chars_eq {number : Nat} {line : List Char} {rule? : Option (String × TokenType)}
    (hnewline : '\n' ∉ line) (h : RuleSet.readLine number line = .ok rule?) :
    ∃ written : SheetLine, written.chars = line ∧ written.entry?.map RuleEntry.rule = rule? := by
  obtain ⟨left, right, hline⟩ := Text.exists_margins hnewline
  have hinner : '\n' ∉ Text.trim line := fun hmem => hnewline (Text.mem_of_mem_trim hmem)
  rw [RuleSet.readLine] at h
  split at h
  next hhash =>
    cases h
    obtain ⟨rest, hrest⟩ := List.head?_eq_some_iff.1 hhash
    have htext : '\n' ∉ rest ++ right.chars := by
      rw [hrest] at hinner
      simpa [right.newline] using hinner
    refine ⟨.comment left (rest ++ right.chars) htext, ?_, rfl⟩
    rw [hline, hrest]
    rfl
  next hhash =>
    cases hcut : Text.cut? ';' (Text.trim line) with
    | none =>
      rw [hcut] at h
      cases h
      have hsemicolon : ';' ∉ line := by
        rw [hline]
        simp [left.not_mem (c := ';') rfl, right.not_mem (c := ';') rfl,
          Text.cut?_eq_none_iff.1 hcut]
      exact ⟨.plain line hsemicolon hnewline, rfl, rfl⟩
    | some halves =>
      obtain ⟨pattern, name⟩ := halves
      obtain ⟨hhalves, hsemicolon⟩ := Text.cut?_eq_some_iff.1 hcut
      rw [hcut] at h
      dsimp only at h
      split at h
      next => cases h
      next hpattern =>
        split at h
        next => cases h
        next hname =>
          cases h
          rw [List.isEmpty_iff] at hpattern hname
          have hhead := Text.head?_trim_of_trim_append hpattern (hhalves ▸ Text.trim_trim line)
          rw [← hhalves] at hhead
          obtain ⟨written, hchars, hentry⟩ := exists_rule_chars left right hpattern hname
            (hhalves ▸ hinner) hsemicolon (hhead ▸ hhash)
          exact ⟨written, by rw [hchars, ← hhalves, ← hline], hentry⟩

end SheetLine

namespace RuleSet

/-- Lines that are read without an error are those of a sheet. -/
theorem exists_sheet {number : Nat} {line : List Char} {rest : List (List Char)}
    {entries : List (String × TokenType)} (hnewline : ∀ each ∈ line :: rest, '\n' ∉ each)
    (h : readLines number (line :: rest) = .ok entries) :
    ∃ sheet : Sheet, sheet.text.toList = ['\n'].intercalate (line :: rest) ∧
      sheet.entries.map RuleEntry.rule = entries := by
  induction rest generalizing number line entries with
  | nil =>
    obtain ⟨rule?, later, hline, hlater, rfl⟩ := readLines_cons_eq_ok_iff.1 h
    cases hlater
    obtain ⟨written, hchars, hentry⟩ := SheetLine.exists_chars_eq (hnewline line (by simp)) hline
    refine ⟨⟨[], written⟩, ?_, ?_⟩
    · simp [Sheet.text, hchars]
    · rw [← hentry]
      cases hkind : written.entry? <;> simp [Sheet.entries, Sheet.lines, hkind]
  | cons next rest ih =>
    obtain ⟨rule?, later, hline, hlater, rfl⟩ := readLines_cons_eq_ok_iff.1 h
    obtain ⟨hlineNewline, hrestNewline⟩ := List.forall_mem_cons.1 hnewline
    obtain ⟨written, hchars, hentry⟩ := SheetLine.exists_chars_eq hlineNewline hline
    obtain ⟨⟨ended, last⟩, htext, rfl⟩ := ih hrestNewline hlater
    refine ⟨⟨⟨written, .feed⟩ :: ended, last⟩, ?_, ?_⟩
    · rw [List.intercalate_cons_cons, ← htext]
      simp [Sheet.text, EndedLine.chars, hchars]
    · rw [← hentry]
      cases hkind : written.entry? <;> simp [Sheet.entries, Sheet.lines, hkind]

/-- The texts that are read without an error are those of the sheets. -/
theorem ofText_eq_ok_iff {text : String} {set : RuleSet} : ofText text = .ok set ↔
    ∃ sheet : Sheet, sheet.text = text ∧ set = ⟨sheet.entries.map RuleEntry.rule⟩ := by
  constructor
  · intro h
    obtain ⟨entries, hread, rfl⟩ := Checked.map_eq_ok_iff.1 h
    have hlines : ['\n'].intercalate (Text.lines text.toList) = text.toList := by
      rw [Text.lines, ← List.splitOn_eq_splitOnP, List.intercalate_splitOn]
    have hnewline : ∀ line ∈ Text.lines text.toList, '\n' ∉ line := by
      intro line hline hmem
      simpa using Text.of_mem_splitOnP text.toList hline '\n' hmem
    cases hall : Text.lines text.toList with
    | nil => exact absurd hall (List.splitOnP_ne_nil _ _)
    | cons line rest =>
      rw [hall] at hread hlines hnewline
      obtain ⟨sheet, htext, hentries⟩ := exists_sheet hnewline hread
      refine ⟨sheet, String.toList_injective (htext.trans hlines), ?_⟩
      rw [hentries]
  · rintro ⟨sheet, rfl, rfl⟩
    exact sheet.ofText_eq

end RuleSet

end LexGen
