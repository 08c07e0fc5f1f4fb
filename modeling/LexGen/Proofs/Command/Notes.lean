import LexGen.Command.Run
import LexGen.Proofs.Rule.Lines

/-!
# What stands on labelled lines

A report on the error output is a line that starts with a label (`Command.labelled`). What stands
between two labels can only be told if a report is on one line, and if no other line starts with the
label. The notes of the option `--verbose` are such lines: a dump quotes patterns and names, and a
quoted text holds no line feed (`Text.OneLine.quoted`), so each dump is on one line. Whatever they
show, notes have no label (`Command.exists_lines_prepare`).
-/

namespace LexGen

namespace Text

/-- The text holds no line feed. -/
def OneLine (text : String) : Prop := '\n' ∉ text.toList

instance (text : String) : Decidable (OneLine text) := inferInstanceAs (Decidable (¬ _))

namespace OneLine

theorem append {before after : String} (hbefore : OneLine before) (hafter : OneLine after) :
    OneLine (before ++ after) := by
  rw [OneLine, String.toList_append, List.mem_append, not_or]
  exact ⟨hbefore, hafter⟩

theorem intercalate {separator : String} (hseparator : OneLine separator) {items : List String}
    (h : ∀ item ∈ items, OneLine item) : OneLine (separator.intercalate items) := by
  rw [OneLine, String.toList_intercalate]
  induction items with
  | nil => simp
  | cons item rest ih =>
    obtain ⟨hitem, hrest⟩ := List.forall_mem_cons.1 h
    cases rest with
    | nil =>
      rw [List.map_singleton, List.intercalate_singleton]
      exact hitem
    | cons next rest =>
      rw [List.map_cons, List.map_cons, List.intercalate_cons_cons, List.mem_append,
        List.mem_append, not_or, not_or]
      exact ⟨⟨hitem, hseparator⟩, ih hrest⟩

theorem not_mem_toDigits (base : Nat) (hbase : 1 < base) (n : Nat) :
    '\n' ∉ Nat.toDigits base n := by
  induction n using Nat.strongRecOn with
  | ind n ih =>
    have hdigit : ∀ digit : Nat, '\n' ≠ digit.digitChar :=
      fun digit => (Nat.digitChar_ne '\n' (by decide)).symm
    rw [Nat.toDigits_eq_if hbase]
    split
    · rw [List.mem_singleton]
      exact hdigit n
    next hle =>
      rw [List.mem_append, List.mem_singleton, not_or]
      exact ⟨ih _ (Nat.div_lt_self (by omega) hbase), hdigit _⟩

theorem repr (n : Nat) : OneLine n.repr := by
  rw [OneLine, Nat.toList_repr]
  exact not_mem_toDigits 10 (by decide) n

theorem not_mem_escaped (quote : Char) (hquote : quote ≠ '\n') (c : Char) :
    '\n' ∉ escaped quote c := by
  have hdigits := not_mem_toDigits 16 (by decide) c.toNat
  unfold escaped
  split_ifs with _ _ _ hfeed hself
  · decide
  · decide
  · decide
  · decide
  · rcases hself with rfl | rfl
    · decide
    · simpa using hquote.symm
  · simpa using hdigits
  · simpa using Ne.symm hfeed

theorem quoted (text : String) : OneLine (quoted text) := by
  have hescaped := not_mem_escaped '"' (by decide)
  simp [OneLine, Text.quoted, hescaped]

theorem quotedChar (c : Char) : OneLine (quotedChar c) := by
  have hescaped := not_mem_escaped '\'' (by decide)
  simp [OneLine, Text.quotedChar, hescaped]

end OneLine

end Text

open Text

namespace Command

/-! ## Dumps -/

namespace Dump

theorem oneLine_listed {items : List String} (h : ∀ item ∈ items, OneLine item) :
    OneLine (listed items) :=
  .append (.append (by decide) (.intercalate (by decide) h)) (by decide)

theorem oneLine_braced {items : List String} (h : ∀ item ∈ items, OneLine item) :
    OneLine (braced items) :=
  .append (.append (by decide) (.intercalate (by decide) h)) (by decide)

theorem oneLine_tagged {name part : String} (hname : OneLine name) (hpart : OneLine part) :
    OneLine (tagged name part) :=
  .append (.append (.append hname (by decide)) hpart) (by decide)

theorem oneLine_entry {key value : String} (hkey : OneLine key) (hvalue : OneLine value) :
    OneLine (entry key value) :=
  .append (.append hkey (by decide)) hvalue

theorem oneLine_record {name : String} (hname : OneLine name) {fields : List (String × String)}
    (h : ∀ field ∈ fields, OneLine field.1 ∧ OneLine field.2) : OneLine (record name fields) := by
  refine .append (.append (.append hname (by decide)) (.intercalate (by decide) ?_)) (by decide)
  rw [List.forall_mem_map]
  intro field hfield
  obtain ⟨hkey, hvalue⟩ := h field hfield
  exact oneLine_entry hkey hvalue

theorem oneLine_optional {α : Type} {dump : α → String} (h : ∀ value, OneLine (dump value))
    (value : Option α) : OneLine (optional (value.map dump)) := by
  cases value with
  | none => exact (by decide : OneLine "None")
  | some value => exact oneLine_tagged (by decide) (h value)

theorem oneLine_bool (value : Bool) : OneLine (bool value) := by cases value <;> decide

theorem oneLine_tokenType (type : TokenType) : OneLine (tokenType type) :=
  oneLine_tagged (by decide) (.quoted _)

theorem oneLine_ruleSet (set : RuleSet) : OneLine (ruleSet set) := by
  have hrule : ∀ entry : Rule, OneLine (rule entry) := by
    intro entry
    apply oneLine_record (by decide)
    simp only [List.forall_mem_cons]
    exact ⟨⟨by decide, .quoted _⟩, ⟨by decide, oneLine_tokenType _⟩, ⟨by decide, .repr _⟩, by simp⟩
  apply oneLine_record (by decide)
  simp only [List.forall_mem_cons]
  refine ⟨⟨by decide, oneLine_listed ?_⟩, by simp⟩
  rw [List.forall_mem_map]
  exact fun entry _ => hrule entry

theorem oneLine_alphabet (symbols : Alphabet) : OneLine (alphabet symbols) := by
  apply oneLine_braced
  rw [List.forall_mem_map]
  exact fun c _ => .quotedChar c

theorem oneLine_nfaNumber (state : Nat) : OneLine (nfaNumber state) :=
  oneLine_tagged (by decide) (.repr _)

theorem oneLine_nfaState (state : NfaState) : OneLine (nfaState state) := by
  apply oneLine_record (by decide)
  simp only [List.forall_mem_cons]
  refine ⟨⟨by decide, oneLine_listed ?_⟩, ⟨by decide, oneLine_bool _⟩, by simp⟩
  rw [List.forall_mem_map]
  intro move _
  exact .append (.append (.append (.append (by decide) (oneLine_optional .quotedChar _))
    (by decide)) (oneLine_nfaNumber _)) (by decide)

theorem oneLine_nfa (automaton : Nfa) : OneLine (nfa automaton) := by
  apply oneLine_record (by decide)
  simp only [List.forall_mem_cons]
  refine ⟨⟨by decide, oneLine_listed ?_⟩, ⟨by decide, oneLine_nfaNumber _⟩,
    ⟨by decide, oneLine_optional oneLine_nfaNumber _⟩, by simp⟩
  rw [List.forall_mem_map]
  exact fun state _ => oneLine_nfaState state

theorem oneLine_combined (automaton : Combined) : OneLine (combined automaton) := by
  apply oneLine_record (by decide)
  simp only [List.forall_mem_cons]
  refine ⟨⟨by decide, oneLine_nfa _⟩, ⟨by decide, oneLine_braced ?_⟩,
    ⟨by decide, oneLine_braced ?_⟩, by simp⟩
  · rw [List.forall_mem_map]
    exact fun _ _ => oneLine_entry (oneLine_nfaNumber _) (oneLine_tokenType _)
  · rw [List.forall_mem_map]
    exact fun _ _ => oneLine_entry (oneLine_nfaNumber _) (.repr _)

theorem oneLine_tag (owner : RuleTag) : OneLine (tag owner) := by
  apply oneLine_record (by decide)
  simp only [List.forall_mem_cons]
  exact ⟨⟨by decide, oneLine_tokenType _⟩, ⟨by decide, .repr _⟩, by simp⟩

theorem oneLine_dfaNumber (state : Nat) : OneLine (dfaNumber state) :=
  oneLine_tagged (by decide) (.repr _)

theorem oneLine_dfaState (state : DfaState) : OneLine (dfaState state) := by
  apply oneLine_record (by decide)
  simp only [List.forall_mem_cons]
  refine ⟨⟨by decide, oneLine_braced ?_⟩, ⟨by decide, oneLine_braced ?_⟩,
    ⟨by decide, oneLine_bool _⟩, ⟨by decide, oneLine_optional oneLine_tag _⟩, by simp⟩
  · rw [List.forall_mem_map]
    exact fun state _ => .repr state
  · rw [List.forall_mem_map]
    exact fun move _ => oneLine_entry (.quotedChar _) (oneLine_dfaNumber _)

theorem oneLine_dfa (automaton : Dfa) : OneLine (dfa automaton) := by
  apply oneLine_record (by decide)
  simp only [List.forall_mem_cons]
  refine ⟨⟨by decide, oneLine_listed ?_⟩, ⟨by decide, oneLine_dfaNumber _⟩, by simp⟩
  rw [List.forall_mem_map]
  exact fun state _ => oneLine_dfaState state

end Dump

/-! ## Labels -/

/-- What a line says behind a label. -/
def said? (label line : String) : Option String :=
  (line.toList.dropPrefix? label.toList).map String.ofList

/-- What is said on the lines of a text that start with a label. -/
def labelled (label text : String) : List String :=
  (lines text.toList).filterMap fun line => said? label (String.ofList line)

/-- Lines with their ends. -/
def unlines (lines : List String) : String := String.join (lines.map (· ++ "\n"))

theorem said?_append (label text : String) : said? label (label ++ text) = some text := by
  rw [said?, String.toList_append, List.dropPrefix?_append_of_beq _ (beq_self_eq_true _),
    Option.map_some, String.ofList_toList]

/-- A line whose first character is not that of the label does not start with the label. -/
theorem said?_eq_none {label line : String} {c d : Char} (hlabel : label.toList.head? = some c)
    (hline : line.toList.head? = some d) (hne : c ≠ d) : said? label line = none := by
  obtain ⟨labelRest, hlabel⟩ := List.head?_eq_some_iff.1 hlabel
  obtain ⟨lineRest, hline⟩ := List.head?_eq_some_iff.1 hline
  rw [said?, hlabel, hline, Option.map_eq_none_iff]
  simp [List.dropPrefix?, hne.symm]

theorem labelled_unlines_append (label : String) {parts : List String}
    (h : ∀ part ∈ parts, OneLine part) (more : String) :
    labelled label (unlines parts ++ more) =
      parts.filterMap (said? label) ++ labelled label more := by
  have hchars : (unlines parts).toList = (parts.map String.toList).flatMap (· ++ ['\n']) := by
    rw [unlines, String.toList_join, List.flatMap_map, List.flatMap_map]
    exact List.flatMap_congr fun part _ => String.toList_append
  have hfeed : ∀ part ∈ parts.map String.toList, '\n' ∉ part := by
    rw [List.forall_mem_map]
    exact h
  rw [labelled, String.toList_append, hchars, lines_flatMap_append hfeed, List.filterMap_append,
    List.filterMap_map, ← labelled]
  simp only [Function.comp_def, String.ofList_toList]

/-! ## Notes -/

/-- The line holds no line feed and has none of the labels of reports and failures. -/
structure IsNote (line : String) : Prop where
  oneLine : OneLine line
  not_report : said? "error: " line = none
  not_failure : said? "Error: " line = none

theorem isNote_append {name text : String} (hname : OneLine name) (htext : OneLine text) {c : Char}
    (hfirst : name.toList.head? = some c) (hreport : 'e' ≠ c) (hfailure : 'E' ≠ c) :
    IsNote (name ++ text) := by
  have hline : (name ++ text).toList.head? = some c := by
    rw [String.toList_append, List.head?_append, hfirst]
    rfl
  exact ⟨hname.append htext, said?_eq_none rfl hline hreport, said?_eq_none rfl hline hfailure⟩

theorem isNote_step (name : String) (hname : OneLine name) {dump : String} (hdump : OneLine dump)
    {c : Char} (hfirst : name.toList.head? = some c) (hreport : 'e' ≠ c) (hfailure : 'E' ≠ c)
    (states : Nat) : ∃ line, Dump.step name states dump = line ++ "\n" ∧ IsNote line := by
  have hrest : OneLine (" (" ++ states.repr ++ " states) = " ++ dump) :=
    .append (.append (.append (by decide) (.repr states)) (by decide)) hdump
  refine ⟨name ++ (" (" ++ states.repr ++ " states) = " ++ dump), ?_,
    isNote_append hname hrest hfirst hreport hfailure⟩
  simp only [Dump.step, String.append_assoc]

theorem unlines_append (front back : List String) :
    unlines (front ++ back) = unlines front ++ unlines back := by
  rw [unlines, List.map_append, String.join_append, ← unlines, ← unlines]

/-- The lines of reports and failures. -/
def errorLines (reports failures : List String) : List String :=
  reports.map ("error: " ++ ·) ++ failures.map ("Error: " ++ ·)

/-- Behind notes the reports and the failures can be told by their labels. -/
theorem labelled_errorLines {notes reports failures : List String}
    (hnotes : ∀ note ∈ notes, IsNote note) (hreports : ∀ report ∈ reports, OneLine report)
    (hfailures : ∀ failure ∈ failures, OneLine failure) :
    labelled "error: " (unlines (notes ++ errorLines reports failures)) = reports ∧
      labelled "Error: " (unlines (notes ++ errorLines reports failures)) = failures := by
  have honeLine : ∀ line ∈ notes ++ errorLines reports failures, OneLine line := by
    simp only [errorLines, List.forall_mem_append, List.forall_mem_map]
    exact ⟨fun note hnote => (hnotes note hnote).oneLine,
      fun report hreport => .append (by decide) (hreports report hreport),
      fun failure hfailure => .append (by decide) (hfailures failure hfailure)⟩
  have hlines : ∀ label, labelled label "" = [] →
      (∀ note ∈ notes, said? label note = none) →
        labelled label (unlines (notes ++ errorLines reports failures)) =
          (reports.filterMap fun report => said? label ("error: " ++ report)) ++
            failures.filterMap fun failure => said? label ("Error: " ++ failure) := by
    intro label hempty hnone
    have happend := labelled_unlines_append label honeLine ""
    rw [hempty, String.append_empty, List.append_nil, errorLines, List.filterMap_append,
      List.filterMap_eq_nil_iff.2 hnone, List.nil_append, List.filterMap_append,
      List.filterMap_map, List.filterMap_map] at happend
    exact happend
  have hcase : ∀ text : String, said? "error: " ("Error: " ++ text) = none ∧
      said? "Error: " ("error: " ++ text) = none := by
    intro text
    constructor <;>
    · apply said?_eq_none rfl
      · rw [String.toList_append, List.head?_append]
        rfl
      · decide
  constructor
  · rw [hlines _ rfl fun note hnote => (hnotes note hnote).not_report]
    simp [said?_append, hcase]
  · rw [hlines _ rfl fun note hnote => (hnotes note hnote).not_failure]
    simp [said?_append, hcase]

/-- The notes on a lexer are lines without labels. -/
theorem exists_lines_prepare {content : String} {set : RuleSet} {lexer : Lexer}
    (hset : RuleSet.ofText content = .ok set) (hlexer : Lexer.ofRules set = .ok lexer)
    (verbose : Bool) (path : String) :
    ∃ notes, (∀ note ∈ notes, IsNote note) ∧
      prepare verbose path (.ok content) = (unlines notes, .ok lexer) := by
  cases verbose with
  | false =>
    refine ⟨[], by simp, ?_⟩
    simp only [prepare, hset, hlexer]
    rfl
  | true =>
    obtain ⟨nfaLine, hnfa, hnfaNote⟩ := isNote_step "nfa" (by decide)
      (Dump.oneLine_combined lexer.combined) rfl (by decide) (by decide) lexer.combined.nfa.size
    obtain ⟨dfaLine, hdfa, hdfaNote⟩ := isNote_step "dfa" (by decide)
      (Dump.oneLine_dfa lexer.determinized) rfl (by decide) (by decide) lexer.determinized.size
    obtain ⟨minimizedLine, hminimized, hminimizedNote⟩ := isNote_step "minimized" (by decide)
      (Dump.oneLine_dfa lexer.minimized) rfl (by decide) (by decide) lexer.minimized.size
    have hrules : IsNote ("rules = " ++ Dump.ruleSet set) :=
      isNote_append (by decide) (Dump.oneLine_ruleSet set) rfl (by decide) (by decide)
    have halphabet : IsNote ("alphabet = " ++ Dump.alphabet lexer.alphabet) :=
      isNote_append (by decide) (Dump.oneLine_alphabet lexer.alphabet) rfl (by decide) (by decide)
    refine ⟨["rules = " ++ Dump.ruleSet set, "alphabet = " ++ Dump.alphabet lexer.alphabet,
      nfaLine, dfaLine, minimizedLine], ?_, ?_⟩
    · simp only [List.forall_mem_cons]
      exact ⟨hrules, halphabet, hnfaNote, hdfaNote, hminimizedNote, by simp⟩
    · simp only [prepare, hset, hlexer, Dump.rulesLine, Dump.lexer, hnfa, hdfa, hminimized]
      simp [unlines, String.append_assoc]

end Command

end LexGen
