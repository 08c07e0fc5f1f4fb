import LexGen.Proofs.Lexer.Priority
import LexGen.Proofs.Table.Stored

/-!
# Lexers whose table was stored

The table of a lexer can be stored and loaded again, and a scanner with the loaded table does what
the lexer does (`Lexer.exists_reloaded`). All parts of the table fit together because it is the
table of an automaton, and the priorities in it are those of rules, as every tag of the minimal
automaton is the tag of a rule (`Lexer.Steps.exists_rule_of_tag?`).
-/

namespace LexGen

/-- Two scanners give the same results. -/
structure Scanner.Alike (a b : Scanner) : Prop where
  tokenize_eq : ∀ text, a.tokenize text = b.tokenize text
  tokenizeSkipping_eq : ∀ text, a.tokenizeSkipping text = b.tokenizeSkipping text
  scan_eq : ∀ fragment, a.scan fragment = b.scan fragment
  matchAt_eq : ∀ text start, a.matchAt text start = b.matchAt text start

namespace Lexer

variable {set : RuleSet} {lexer : Lexer}

/-- Every tag of the minimal automaton is the tag of a rule. -/
theorem Steps.exists_rule_of_tag? (h : Steps set lexer) {state : Nat} {tag : RuleTag}
    (htag : lexer.minimized.tag? state = some tag) : ∃ rule ∈ set.rules, rule.tag = tag := by
  rw [h.minimized_eq_merged, h.resolves_determinized.tag?_merged_iff h.trim_determinized
    h.movesWithin_determinized] at htag
  obtain ⟨rule, hfirst, rfl⟩ := htag
  exact ⟨rule, hfirst.1, rfl⟩

/-- The numbers in the table of a lexer fit in 32 bits if rules and states can be counted with them.
-/
theorem Staged.fitsWords (h : Staged set lexer) (hrules : set.size ≤ 4294967296)
    (hstates : lexer.scanner.table.states < 4294967296) :
    lexer.scanner.table.toSavedTable.FitsWords := by
  refine Table.fitsWords hstates ?_
  intro tag htag
  rw [h.scanner_eq] at htag
  obtain ⟨state, hstate⟩ := Table.exists_tag?_of_mem_accept htag
  obtain ⟨rule, hrule, rfl⟩ := h.exists_rule_of_tag? hstate
  exact Nat.lt_of_lt_of_le (RuleSet.priority_lt_size hrule) hrules

/-- The columns of a lexer's table are for different characters, so a machine word counts its entries.
-/
theorem Staged.noOverflow (h : Staged set lexer)
    (hstates : lexer.scanner.table.states < 4294967296) : lexer.scanner.table.NoOverflow := by
  refine SavedTable.noOverflow_of_nodup hstates ?_
  rw [h.scanner_eq]
  exact lexer.alphabet.ascending.imp Char.ne_of_lt

/-- Whatever text the table of a lexer is written to, from this text the same table is loaded, and
with any policy it scans as the lexer does with this policy. The stored form has 32 bits for the
number of a state and for the priority of a rule, so there are no more of them. -/
theorem exists_reloaded (codec : SavedTable.Codec) (h : ofRules set = .ok lexer)
    (hrules : set.size ≤ 4294967296) (hstates : lexer.scanner.table.states < 4294967296) :
    ∃ loaded : Table,
      codec.load? (codec.save lexer.scanner.table) = some (.ok loaded.toSavedTable) ∧
      loaded = lexer.scanner.table ∧
      ∀ policy, Scanner.Alike { Scanner.ofTable loaded with policy := policy }
        (lexer.withPolicy policy).scanner := by
  have hstaged := staged_of_ofRules h
  have hload := codec.load?_save (hstaged.fitsWords hrules hstates) (hstaged.noOverflow hstates)
  refine ⟨lexer.scanner.table, hload, rfl, ?_⟩
  intro policy
  exact ⟨fun _ => rfl, fun _ => rfl, fun _ => rfl, fun _ _ => rfl⟩

/-- Quotes, a backslash and a tab among the symbols and in the names have escapes in the text. -/
theorem exists_reloaded_quotes : ∃ (lexer : Lexer) (loaded : Table),
    Lexer.ofRules ⟨[("\"|é", ⟨"tab\t"⟩), ("\\+", ⟨"quote\""⟩)]⟩ = .ok lexer ∧
    SavedTable.Codec.compact.load? (SavedTable.Codec.compact.save lexer.scanner.table) =
      some (.ok loaded.toSavedTable) ∧
    Scanner.Alike { Scanner.ofTable loaded with policy := .rescan }
      (lexer.withPolicy .rescan).scanner := by
  obtain ⟨lexer, hlexer⟩ : ∃ lexer,
      Lexer.ofRules ⟨[("\"|é", ⟨"tab\t"⟩), ("\\+", ⟨"quote\""⟩)]⟩ = .ok lexer :=
    Checked.exists_eq_ok_iff.2 (by decide +kernel)
  have hstates : (Lexer.ofRules ⟨[("\"|é", ⟨"tab\t"⟩), ("\\+", ⟨"quote\""⟩)]⟩).toOption.map
      (fun lexer => lexer.scanner.table.states) = some 4 := by decide +kernel
  rw [hlexer] at hstates
  have hstates : lexer.scanner.table.states = 4 := Option.some.inj hstates
  obtain ⟨loaded, hload, _, halike⟩ :=
    exists_reloaded .compact hlexer (by decide) (by rw [hstates]; decide)
  exact ⟨lexer, loaded, hlexer, hload, halike .rescan⟩

end Lexer

end LexGen
