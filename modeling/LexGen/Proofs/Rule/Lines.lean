import LexGen.Rule.Text
import Mathlib.Data.List.DropRight
import Mathlib.Data.List.TakeWhile

/-!
# Rule text line by line

What a line holds does not depend on its number, nor on blanks at its ends
(`RuleSet.readLine_append_blanks`). So a carriage return before a line end makes no difference, and
an empty line behind the last line end makes none either (`RuleSet.readLines_endedLines`). Lines are
read one after the other, so a text on the lines behind another one is read as if it were alone, but
for the numbers of its lines and the priorities of its rules (`RuleSet.ofText_append`).
-/

namespace LexGen

namespace Text

/-! ## Trimmed texts -/

theorem trim_eq (text : List Char) : trim text = (text.dropWhile isBlank).rdropWhile isBlank := rfl

theorem trim_blanks_append {blanks : List Char} (h : ∀ c ∈ blanks, isBlank c = true)
    (text : List Char) : trim (blanks ++ text) = trim text := by
  rw [trim_eq, trim_eq, List.dropWhile_append_of_pos h]

theorem trim_append_blanks {blanks : List Char} (h : ∀ c ∈ blanks, isBlank c = true)
    (text : List Char) : trim (text ++ blanks) = trim text := by
  rw [trim_eq, trim_eq, List.dropWhile_append]
  split
  next hempty =>
    have hnone : blanks.dropWhile isBlank = [] := List.dropWhile_eq_nil_iff.2 h
    rw [hnone, List.isEmpty_iff.1 hempty]
  next =>
    have hback : ∀ c ∈ blanks.reverse, isBlank c = true := fun c hc => h c (List.mem_reverse.1 hc)
    rw [List.rdropWhile, List.reverse_append, List.dropWhile_append_of_pos hback, List.rdropWhile]

theorem mem_of_mem_trim {text : List Char} {c : Char} (h : c ∈ trim text) : c ∈ text :=
  (List.dropWhile_sublist isBlank).subset ((List.rdropWhile_prefix isBlank _).subset h)

/-- Neither end of a trimmed text is cut off. -/
theorem drop_eq_of_trim_eq {text : List Char} (h : trim text = text) :
    text.dropWhile isBlank = text ∧ text.rdropWhile isBlank = text := by
  have hfront := List.dropWhile_suffix (l := text) isBlank
  have hback := List.rdropWhile_prefix isBlank (text.dropWhile isBlank)
  have hlength : text.length ≤ (text.dropWhile isBlank).length := by
    have hle := hback.length_le
    rwa [← trim_eq, h] at hle
  have heq := hfront.eq_of_length_le hlength
  refine ⟨heq, ?_⟩
  rw [trim_eq, heq] at h
  exact h

theorem trim_trim (text : List Char) : trim (trim text) = trim text := by
  have hdrop : (trim text).dropWhile isBlank = trim text := by
    cases hkept : trim text with
    | nil => rfl
    | cons c kept =>
      obtain ⟨rest, hrest⟩ : c :: kept <+: text.dropWhile isBlank :=
        hkept ▸ List.rdropWhile_prefix isBlank _
      have hc := List.head?_dropWhile_not isBlank text
      rw [← hrest] at hc
      exact List.dropWhile_cons_of_neg (by simpa using hc)
  rw [trim_eq (trim text), hdrop, trim_eq, List.rdropWhile_idempotent]

/-- Whatever stands between two trimmed texts, their outer ends are not blank. -/
theorem trim_between {front back : List Char} (hfront : trim front = front) (hfront0 : front ≠ [])
    (hback : trim back = back) (hback0 : back ≠ []) (middle : List Char) :
    trim (front ++ middle ++ back) = front ++ middle ++ back := by
  obtain ⟨hdrop, _⟩ := drop_eq_of_trim_eq hfront
  obtain ⟨_, hrdrop⟩ := drop_eq_of_trim_eq hback
  have hfrontDrop : (front ++ (middle ++ back)).dropWhile isBlank = front ++ (middle ++ back) := by
    rw [List.dropWhile_append, hdrop, if_neg (by simpa using hfront0)]
  have hbackDrop : (front ++ middle ++ back).rdropWhile isBlank = front ++ middle ++ back := by
    have hreverse : back.reverse.dropWhile isBlank = back.reverse := by
      rw [← List.reverse_inj, List.reverse_reverse]
      exact hrdrop
    rw [List.rdropWhile, List.reverse_append, List.dropWhile_append, hreverse,
      if_neg (by simpa using hback0), ← List.reverse_append, List.reverse_reverse]
  rw [trim_eq, List.append_assoc, hfrontDrop, ← List.append_assoc, hbackDrop]

theorem head?_trim_cons {c : Char} (h : isBlank c = false) (rest : List Char) :
    (trim (c :: rest)).head? = some c := by
  have hdrop : (c :: rest).dropWhile isBlank = c :: rest := by simp [h]
  rw [trim_eq, hdrop]
  have hprefix := List.rdropWhile_prefix isBlank (c :: rest)
  cases hkept : (c :: rest).rdropWhile isBlank with
  | nil =>
    have hall := List.rdropWhile_eq_nil_iff.1 hkept c (List.mem_cons_self ..)
    rw [h] at hall
    cases hall
  | cons d kept =>
    rw [hkept] at hprefix
    rw [List.head?_cons, (List.cons_prefix_cons.1 hprefix).1]

/-- A part at the front of a trimmed text starts as the text does, if it is not blank. -/
theorem head?_trim_of_trim_append {front back : List Char} (hne : trim front ≠ [])
    (h : trim (front ++ back) = front ++ back) : (trim front).head? = (front ++ back).head? := by
  cases front with
  | nil => exact absurd rfl hne
  | cons c rest =>
    have hc : isBlank c = false := by
      by_contra hblank
      have hdrop := (drop_eq_of_trim_eq h).1
      rw [List.cons_append, List.dropWhile_cons_of_pos (by simpa using hblank)] at hdrop
      have hle := (List.dropWhile_sublist (l := rest ++ back) isBlank).length_le
      rw [hdrop, List.length_cons] at hle
      omega
    rw [head?_trim_cons hc]
    rfl

/-! ## Cuts -/

theorem cut?_append_cons {separator : Char} {before : List Char} (h : separator ∉ before)
    (after : List Char) : cut? separator (before ++ separator :: after) = some (before, after) := by
  have hother : ∀ c ∈ before, (c != separator) = true := by
    intro c hc
    rw [bne_iff_ne]
    rintro rfl
    exact h hc
  have hstop : (separator != separator) = false := by simp
  rw [cut?, List.dropWhile_append_of_pos hother, List.takeWhile_append_of_pos hother,
    List.dropWhile_cons_of_neg (by simp), List.takeWhile_cons_of_neg (by simp), List.append_nil]

theorem cut?_eq_none_iff {separator : Char} {text : List Char} :
    cut? separator text = none ↔ separator ∉ text := by
  constructor
  · intro hnone hmem
    obtain ⟨before, after, rfl, hbefore⟩ := List.eq_append_cons_of_mem hmem
    rw [cut?_append_cons hbefore] at hnone
    cases hnone
  · intro h
    have hdrop : text.dropWhile (· != separator) = [] := by
      rw [List.dropWhile_eq_nil_iff]
      intro c hc
      rw [bne_iff_ne]
      rintro rfl
      exact h hc
    rw [cut?, hdrop]

theorem cut?_eq_some_iff {separator : Char} {text before after : List Char} :
    cut? separator text = some (before, after) ↔
      text = before ++ separator :: after ∧ separator ∉ before := by
  constructor
  · intro hsome
    have hmem : separator ∈ text := by
      by_contra hnone
      rw [cut?_eq_none_iff.2 hnone] at hsome
      cases hsome
    obtain ⟨front, back, rfl, hfront⟩ := List.eq_append_cons_of_mem hmem
    rw [cut?_append_cons hfront] at hsome
    cases hsome
    exact ⟨rfl, hfront⟩
  · rintro ⟨rfl, hbefore⟩
    exact cut?_append_cons hbefore after

/-! ## Lines -/

theorem lines_eq_singleton {line : List Char} (h : '\n' ∉ line) : lines line = [line] := by
  apply List.splitOnP_eq_singleton
  intro c hc
  rw [beq_eq_false_iff_ne]
  rintro rfl
  exact h hc

/-- Lines with their ends stand before the lines of what follows. -/
theorem lines_flatMap_append {parts : List (List Char)} (h : ∀ part ∈ parts, '\n' ∉ part)
    (text : List Char) : lines (parts.flatMap (· ++ ['\n']) ++ text) = parts ++ lines text := by
  induction parts with
  | nil => rfl
  | cons part rest ih =>
    obtain ⟨hpart, hrest⟩ := List.forall_mem_cons.1 h
    rw [List.flatMap_cons, List.append_assoc, List.append_assoc, List.singleton_append,
      lines_append, lines_eq_singleton hpart, ih hrest]
    rfl

theorem length_lines (text : List Char) : (lines text).length = text.count '\n' + 1 := by
  induction text with
  | nil => rfl
  | cons c text ih =>
    rw [lines, List.splitOnP_cons_eq_if_modifyHead]
    rw [lines] at ih
    split
    next hc =>
      rw [List.length_cons, ih, beq_iff_eq.1 hc, List.count_cons_self]
    next hc =>
      rw [List.length_modifyHead, ih, List.count_cons_of_ne (by simpa using hc)]

/-- The line without a carriage return at its end. -/
def dropReturn (line : List Char) : List Char :=
  if line.getLast? = some '\r' then line.dropLast else line

/-- The lines as their ends mark them: a line feed, with or without a carriage return before it,
ends a line, and what follows the last one is a line if it is not empty. -/
def endedLines (text : List Char) : List (List Char) :=
  (lines text).dropLast.map dropReturn ++ (lines text).getLast?.toList.filter (!·.isEmpty)

theorem isBlank_return : ∀ c ∈ ['\r'], isBlank c = true := List.forall_mem_singleton.2 rfl

theorem append_return (line : List Char) :
    line = dropReturn line ∨ line = dropReturn line ++ ['\r'] := by
  rw [dropReturn]
  split
  next hlast => exact .inr (List.dropLast_append_getLast? _ hlast).symm
  next => exact .inl rfl

end Text

/-- The same error for a text that begins so many lines further down. -/
def RuleTextError.later (lines : Nat) : RuleTextError → RuleTextError
  | emptyPattern line => emptyPattern (line + lines)
  | emptyTokenName line => emptyTokenName (line + lines)

namespace RuleSet

/-! ## One line -/

theorem readLine_append_blanks (number : Nat) (line : List Char) {blanks : List Char}
    (h : ∀ c ∈ blanks, Text.isBlank c = true) :
    readLine number (line ++ blanks) = readLine number line := by
  rw [readLine, readLine, Text.trim_append_blanks h]

theorem readLine_dropReturn (number : Nat) (line : List Char) :
    readLine number (Text.dropReturn line) = readLine number line := by
  rcases Text.append_return line with heq | heq
  · rw [← heq]
  · rw [heq, readLine_append_blanks _ _ Text.isBlank_return, ← heq]

/-- A line without a semicolon holds no rule. -/
theorem readLine_of_not_mem (number : Nat) {line : List Char} (h : ';' ∉ line) :
    readLine number line = .ok none := by
  have hcut : Text.cut? ';' (Text.trim line) = none :=
    Text.cut?_eq_none_iff.2 fun hmem => h (Text.mem_of_mem_trim hmem)
  rw [readLine, hcut]
  exact ite_self _

/-- Nothing but the line number of an error depends on the number of a line. -/
theorem readLine_add (number lines : Nat) (line : List Char) :
    readLine (number + lines) line = (readLine number line).mapError (.later lines) := by
  unfold readLine
  dsimp only
  split
  · rfl
  · split
    · rfl
    · split
      · rfl
      · split <;> rfl

/-! ## Many lines -/

theorem readLines_add (number lines : Nat) (text : List (List Char)) :
    readLines (number + lines) text = (readLines number text).mapError (.later lines) := by
  induction text generalizing number with
  | nil => rfl
  | cons line rest ih =>
    have hnext := ih (number + 1)
    rw [Nat.add_right_comm] at hnext
    rw [readLines, readLines, readLine_add, hnext]
    cases readLine number line with
    | error fault => rfl
    | ok rule =>
      cases rule <;> cases readLines (number + 1) rest <;> rfl

theorem readLines_append (number : Nat) (first second : List (List Char)) :
    readLines number (first ++ second) = do
      let before ← readLines number first
      let after ← readLines (number + first.length) second
      return before ++ after := by
  induction first generalizing number with
  | nil =>
    show readLines number second = readLines number second >>= fun after => pure ([] ++ after)
    cases readLines number second <;> rfl
  | cons line rest ih =>
    rw [List.cons_append, readLines, readLines, ih, List.length_cons, Nat.add_assoc,
      Nat.add_comm 1]
    cases readLine number line with
    | error fault => rfl
    | ok rule =>
      cases rule <;> cases readLines (number + 1) rest <;>
        cases readLines (number + (rest.length + 1)) second <;> rfl

theorem readLines_cons_eq_ok_iff {number : Nat} {line : List Char} {rest : List (List Char)}
    {entries : List (String × TokenType)} : readLines number (line :: rest) = .ok entries ↔
      ∃ rule? later, readLine number line = .ok rule? ∧ readLines (number + 1) rest = .ok later ∧
        entries = rule?.toList ++ later := by
  rw [readLines]
  cases hline : readLine number line with
  | error fault => simp [bind, Except.bind]
  | ok rule =>
    cases rule <;> cases hrest : readLines (number + 1) rest <;>
      simp [bind, Except.bind, pure, Except.pure, eq_comm]

theorem readLines_map {α : Type} {chars : α → List Char} {rule? : α → Option (String × TokenType)}
    (h : ∀ number x, readLine number (chars x) = .ok (rule? x)) (number : Nat) (parts : List α) :
    readLines number (parts.map chars) = .ok (parts.filterMap rule?) := by
  induction parts generalizing number with
  | nil => rfl
  | cons part rest ih =>
    refine readLines_cons_eq_ok_iff.2 ⟨rule? part, _, h number part, ih (number + 1), ?_⟩
    cases hrule : rule? part with
    | none => rw [List.filterMap_cons_none hrule, Option.toList_none, List.nil_append]
    | some rule => rw [List.filterMap_cons_some hrule, Option.toList_some, List.singleton_append]

/-- How the lines of a text end makes no difference to its rules. -/
theorem readLines_endedLines (number : Nat) (text : List Char) :
    readLines number (Text.endedLines text) = readLines number (Text.lines text) := by
  have hpieces : ∀ (pieces : List (List Char)) (number : Nat),
      readLines number (pieces.dropLast.map Text.dropReturn ++
        pieces.getLast?.toList.filter (!·.isEmpty)) = readLines number pieces := by
    intro pieces
    induction pieces with
    | nil => exact fun _ => rfl
    | cons piece rest ih =>
      intro number
      cases rest with
      | nil =>
        cases piece with
        | nil => rfl
        | cons c piece => rfl
      | cons next rest =>
        have hlast : (piece :: next :: rest).getLast? = (next :: rest).getLast? := rfl
        rw [List.dropLast_cons_cons, List.map_cons, List.cons_append, readLines, readLines,
          readLine_dropReturn, hlast, ih]
  exact hpieces (Text.lines text) number

theorem ofText_eq_endedLines (text : String) :
    ofText text = (readLines 1 (Text.endedLines text.toList)).map RuleSet.mk := by
  rw [readLines_endedLines]
  rfl

/-! ## A text behind another -/

/-- The rules behind others have later priorities. -/
theorem rules_append (first second : RuleSet) :
    (RuleSet.mk (first.entries ++ second.entries)).rules =
      first.rules ++ second.rules.map fun rule =>
        { rule with priority := first.size + rule.priority } := by
  rw [rules, rules, rules, List.zipIdx_append, List.map_append, List.map_map]
  congr 1
  rw [Nat.zero_add, List.zipIdx_eq_map_add, List.map_map]
  apply List.map_congr_left
  rintro ⟨entry, priority⟩ _
  rfl

theorem ofText_seam (first second : String) : ofText (first ++ "\n" ++ second) = do
    let before ← ofText first
    let after ← (ofText second).mapError (.later (1 + first.toList.count '\n'))
    return ⟨before.entries ++ after.entries⟩ := by
  have hchars : (first ++ "\n" ++ second).toList = first.toList ++ '\n' :: second.toList := by simp
  rw [ofText, ofText, ofText, hchars, Text.lines_append, readLines_append, Text.length_lines,
    Nat.add_comm (first.toList.count '\n'), readLines_add]
  cases readLines 1 (Text.lines first.toList) <;>
    cases readLines 1 (Text.lines second.toList) <;> rfl

/-- A text on the lines behind another one: an error of the first text is the error, rules of the
second text have later priorities, and an error of the second text is on a later line. -/
theorem ofText_append (first second : String) :
    (∀ fault, ofText first = .error fault → ofText (first ++ "\n" ++ second) = .error fault) ∧
    (∀ before after, ofText first = .ok before → ofText second = .ok after →
      ∃ both, ofText (first ++ "\n" ++ second) = .ok both ∧
        both.rules = before.rules ++ after.rules.map fun rule =>
          { rule with priority := before.size + rule.priority }) ∧
    (∀ before fault, ofText first = .ok before → ofText second = .error fault →
      ofText (first ++ "\n" ++ second) =
        .error (fault.later (1 + first.toList.count '\n'))) := by
  rw [ofText_seam]
  refine ⟨?_, ?_, ?_⟩
  · intro fault hfirst
    rw [hfirst]
    rfl
  · intro before after hfirst hsecond
    refine ⟨⟨before.entries ++ after.entries⟩, ?_, rules_append before after⟩
    rw [hfirst, hsecond]
    rfl
  · intro before fault hfirst hsecond
    rw [hfirst, hsecond]
    rfl

/-- An error before the seam, a carriage return before it, and an error behind it. -/
theorem ofText_append_lines :
    ofText (";B" ++ "\n" ++ "c;D") = .error (.emptyPattern 1) ∧
    (∃ both, ofText ("a;B\r" ++ "\n" ++ "#\nc;D;E\n") = .ok both ∧
      both.rules = [⟨"a", ⟨"B"⟩, 0⟩] ++ [⟨"c", ⟨"D;E"⟩, 1 + 0⟩]) ∧
    ofText ("a;B\n\n" ++ "\n" ++ "\nd; ") = .error (.emptyTokenName 5) :=
  ⟨(ofText_append ";B" "c;D").1 (.emptyPattern 1) rfl,
    (ofText_append "a;B\r" "#\nc;D;E\n").2.1 ⟨[("a", ⟨"B"⟩)]⟩ ⟨[("c", ⟨"D;E"⟩)]⟩ rfl rfl,
    (ofText_append "a;B\n\n" "\nd; ").2.2 ⟨[("a", ⟨"B"⟩)]⟩ (.emptyTokenName 2) rfl rfl⟩

end RuleSet

end LexGen
