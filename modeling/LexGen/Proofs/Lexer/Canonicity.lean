import LexGen.Proofs.Lexer.Stages

/-!
# Lexers and their languages

Two rule sets that take the same words for tokens of the same types have lexers with the same
canonical form, however different their patterns are (`Lexer.canonical_eq_iff_sameToken`). If their
alphabets are the same as well, so are their tables: only the priorities that the tables keep of the
rules may differ.
-/

namespace LexGen

/-- Both rule sets take the word for a token, and of the same type, or neither of them does. -/
def RuleSet.SameToken (a b : RuleSet) (word : List Char) : Prop :=
  (∃ ra rb, a.Wins word ra ∧ b.Wins word rb ∧ ra.tokenType = rb.tokenType) ∨
    (∀ rule ∈ a.rules, ¬ rule.Matches word) ∧ ∀ rule ∈ b.rules, ¬ rule.Matches word

/-! ## Tables of automata that agree -/

namespace Dfa

variable {a b : Dfa}

theorem rows_eq (dfa : Dfa) (alphabet : Alphabet) : Table.rows dfa alphabet =
    (List.range dfa.size).map (fun state =>
      alphabet.symbols.map fun c => ((dfa.moves state).next? c).getD dfa.size) ++
        [List.replicate alphabet.size dfa.size] := by
  have hrow : dfa.states.toList.map (DfaState.row alphabet dfa.size) =
      (List.range dfa.size).map fun state =>
        alphabet.symbols.map fun c => ((dfa.moves state).next? c).getD dfa.size := by
    apply map_states_eq
    intro i entry hentry
    rw [DfaState.row, moves, hentry]
  rw [Table.rows, hrow]

theorem map_tokenType_states (dfa : Dfa) : dfa.states.toList.map DfaState.tokenType =
    (List.range dfa.size).map dfa.tokenType := by
  apply map_states_eq
  intro i entry hentry
  rw [tokenType, hentry]

/-- Automata that agree have the same rows. -/
theorem Agrees.rows_eq (h : Agrees a b) (alphabet : Alphabet) :
    Table.rows a alphabet = Table.rows b alphabet := by
  rw [Dfa.rows_eq, Dfa.rows_eq, ← h.size_eq]
  congr 1
  apply List.map_congr_left
  intro state hs
  rw [h.moves_eq state (List.mem_range.1 hs)]

theorem map_tokenType_accept (dfa : Dfa) (alphabet : Alphabet) :
    (Table.flattened dfa alphabet).accept.map (Option.map RuleTag.tokenType) =
      ((List.range dfa.size).map dfa.tokenType ++ [none]).toArray := by
  show (dfa.states.toList.map DfaState.tag ++ [none]).toArray.map _ = _
  rw [List.map_toArray, List.map_append, List.map_map, ← map_tokenType_states]
  rfl

/-- Automata that agree accept the same token types. -/
theorem Agrees.map_tokenType_accept_eq (h : Agrees a b) (alphabet : Alphabet) :
    (Table.flattened a alphabet).accept.map (Option.map RuleTag.tokenType) =
      (Table.flattened b alphabet).accept.map (Option.map RuleTag.tokenType) := by
  have htypes : (List.range a.size).map a.tokenType = (List.range b.size).map b.tokenType := by
    rw [← h.size_eq]
    apply List.map_congr_left
    intro state hs
    exact h.tokenType_eq state (List.mem_range.1 hs)
  rw [map_tokenType_accept, map_tokenType_accept, htypes]

end Dfa

/-! ## Canonical forms of lexers -/

namespace Lexer

variable {a b : RuleSet} {la lb : Lexer}

/-- A word is the same token for two rule sets exactly if their automata assign the same to it. -/
theorem Staged.sameToken_iff (ha : Staged a la) (hb : Staged b lb) {word : List Char} :
    a.SameToken b word ↔ la.minimized.assigned la.minimized.start word =
      lb.minimized.assigned lb.minimized.start word := by
  constructor
  · rintro (⟨ra, rb, hra, hrb, htype⟩ | ⟨hnonea, hnoneb⟩)
    · rw [(ha.decides word _).2 ⟨ra, hra, rfl⟩, (hb.decides word _).2 ⟨rb, hrb, rfl⟩,
        htype]
    · rw [ha.decides.assigned_eq_none_iff.2 hnonea, hb.decides.assigned_eq_none_iff.2 hnoneb]
  · intro h
    cases hassigned : la.minimized.assigned la.minimized.start word with
    | none =>
      rw [hassigned] at h
      exact .inr ⟨ha.decides.assigned_eq_none_iff.1 hassigned, hb.decides.assigned_eq_none_iff.1 h.symm⟩
    | some verdict =>
      rw [hassigned] at h
      obtain ⟨ra, hra, htypea⟩ := (ha.decides word verdict).1 hassigned
      obtain ⟨rb, hrb, htypeb⟩ := (hb.decides word verdict).1 h.symm
      exact .inl ⟨ra, rb, hra, hrb, Option.some.inj (htypea.trans htypeb.symm)⟩

/-- The canonical forms of two lexers are the same exactly if every word is the same token for both
rule sets. If their alphabets are the same too, so are their tables but for the priorities. -/
theorem canonical_eq_iff_sameToken (ha : Lexer.ofRules a = .ok la) (hb : Lexer.ofRules b = .ok lb) :
    (la.minimized.canonical = lb.minimized.canonical ↔ ∀ word, a.SameToken b word) ∧
    ((∀ word, a.SameToken b word) → la.alphabet = lb.alphabet →
      la.scanner.table.data = lb.scanner.table.data ∧
      la.scanner.table.states = lb.scanner.table.states ∧
      la.scanner.table.initial = lb.scanner.table.initial ∧
      la.scanner.table.columns = lb.scanner.table.columns ∧
      la.scanner.table.accept.map (Option.map RuleTag.tokenType) =
        lb.scanner.table.accept.map (Option.map RuleTag.tokenType)) := by
  have hsa := staged_of_ofRules ha
  have hsb := staged_of_ofRules hb
  have hcanonical : la.minimized.canonical = lb.minimized.canonical ↔
      ∀ word, a.SameToken b word := by
    rw [hsa.trim.canonical_eq_iff_assigned hsb.trim hsa.separated hsb.separated]
    exact forall_congr' fun word => (hsa.sameToken_iff hsb).symm
  refine ⟨hcanonical, ?_⟩
  intro hsame halphabet
  have hagrees : Dfa.Agrees la.minimized lb.minimized :=
    (hsa.trim.canonical_eq_iff hsb.trim).1 (hcanonical.2 hsame)
  have hstart : la.minimized.start = lb.minimized.start := by
    rw [hsa.trim.start_eq_zero, hsb.trim.start_eq_zero]
  rw [hsa.scanner_eq, hsb.scanner_eq, halphabet]
  refine ⟨?_, congrArg Nat.succ hagrees.size_eq, hstart, rfl,
    hagrees.map_tokenType_accept_eq lb.alphabet⟩
  exact congrArg (fun rows => rows.flatten.toArray) (hagrees.rows_eq lb.alphabet)

/-- The rules `a(b|c)` and `ab|ac` have the same canonical form, so they have the same tokens and the
same table. -/
theorem canonical_eq_iff_sameToken_factored : ∃ la lb,
    Lexer.ofRules ⟨[("a(b|c)", ⟨"word"⟩)]⟩ = .ok la ∧
    Lexer.ofRules ⟨[("ab|ac", ⟨"word"⟩)]⟩ = .ok lb ∧
    (∀ word, RuleSet.SameToken ⟨[("a(b|c)", ⟨"word"⟩)]⟩ ⟨[("ab|ac", ⟨"word"⟩)]⟩ word) ∧
    la.scanner.table.data = lb.scanner.table.data := by
  have hforms : (Lexer.ofRules ⟨[("a(b|c)", ⟨"word"⟩)]⟩).toOption.map
        (fun lexer => (lexer.minimized.canonical, lexer.alphabet)) =
      (Lexer.ofRules ⟨[("ab|ac", ⟨"word"⟩)]⟩).toOption.map
        (fun lexer => (lexer.minimized.canonical, lexer.alphabet)) := by decide +kernel
  obtain ⟨la, hla⟩ : ∃ la, Lexer.ofRules ⟨[("a(b|c)", ⟨"word"⟩)]⟩ = .ok la :=
    Checked.exists_eq_ok_iff.2 (by decide +kernel)
  obtain ⟨lb, hlb⟩ : ∃ lb, Lexer.ofRules ⟨[("ab|ac", ⟨"word"⟩)]⟩ = .ok lb :=
    Checked.exists_eq_ok_iff.2 (by decide +kernel)
  rw [hla, hlb] at hforms
  obtain ⟨hcanonical, halphabet⟩ := Prod.mk.inj (Option.some.inj hforms)
  obtain ⟨hiff, htables⟩ := canonical_eq_iff_sameToken hla hlb
  have hsame := hiff.1 hcanonical
  exact ⟨la, lb, hla, hlb, hsame, (htables hsame halphabet).1⟩

end Lexer

end LexGen
