import LexGen.Proofs.Scan.Safety

/-!
# Fragment by fragment

The fragments of a text are scanned independently of each other. Reading on past errors gives the
tokens of the fragments that can be scanned and the errors of the others
(`Scanner.tokenizeFragmentsSkipping_eq`), and stopping at errors gives the same tokens if there is no
error, and the first one otherwise (`Scanner.tokenizeFragments_eq`). So for both it does not matter
whether a text is read as a whole or in two parts that a blank separates
(`Scanner.tokenizeSkipping_append`, `Scanner.strict_append`). `Scanner.Fragmentwise` gathers this.
-/

namespace LexGen

namespace Scanner

variable {scanner : Scanner}

/-- The tokens of a fragment, if it can be scanned. -/
def tokens (scanner : Scanner) (fragment : List Char) : List Token :=
  match scanner.scan fragment with
  | .ok tokens => tokens
  | .error _ => []

/-- The error of a fragment, if it cannot be scanned. -/
def error? (scanner : Scanner) (fragment : List Char) : Option Unrecognized :=
  match scanner.scan fragment with
  | .ok _ => none
  | .error error => some error

/-- The tokens if there are no errors, and the first error otherwise. -/
def strict : List Token × List Unrecognized → Except Unrecognized (List Token)
  | (tokens, []) => .ok tokens
  | (_, error :: _) => .error error

theorem strict_eq_ok_iff {found : List Token × List Unrecognized} {tokens : List Token} :
    strict found = .ok tokens ↔ found = (tokens, []) := by
  obtain ⟨others, errors⟩ := found
  cases errors <;> simp [strict]

theorem strict_eq_error_iff {found : List Token × List Unrecognized} {error : Unrecognized} :
    strict found = .error error ↔ found.2.head? = some error := by
  obtain ⟨others, errors⟩ := found
  cases errors <;> simp [strict]

/-- The first error of two readings is that of the first one that has any. -/
theorem strict_append (front back : List Token × List Unrecognized) :
    strict (front.1 ++ back.1, front.2 ++ back.2) = do
      let before ← strict front
      let after ← strict back
      return before ++ after := by
  obtain ⟨frontTokens, frontErrors⟩ := front
  obtain ⟨backTokens, backErrors⟩ := back
  cases frontErrors with
  | cons error others => rfl
  | nil => cases backErrors <;> rfl

/-! ## Fragments -/

/-- Each fragment that can be scanned gives its tokens, and each other one gives one error. -/
theorem tokenizeFragmentsSkipping_eq (fragments : List (List Char)) :
    scanner.tokenizeFragmentsSkipping fragments =
      (fragments.flatMap scanner.tokens, fragments.filterMap scanner.error?) := by
  induction fragments with
  | nil => rfl
  | cons fragment rest ih =>
    rw [tokenizeFragmentsSkipping, ih, List.flatMap_cons, List.filterMap_cons, tokens, error?]
    cases scanner.scan fragment <;> rfl

theorem isSuffix_of_segment_eq_error {text : List Char} {error : Unrecognized}
    (h : scanner.segment text = .error error) : error.text.toList <:+ text := by
  fun_induction scanner.segment text with
  | case1 => cases h
  | case2 text =>
    cases h
    exact ⟨[], String.toList_ofList⟩
  | case3 text _ found hfound ih =>
    obtain ⟨_, happend⟩ := Table.longest_append hfound
    have hrest := ih (Checked.map_eq_error_iff.1 h)
    rw [← happend]
    exact hrest.trans (List.suffix_append ..)

/-- The error of a fragment shows an end part of it. -/
theorem isSuffix_of_scan_eq_error {fragment : List Char} {error : Unrecognized}
    (h : scanner.scan fragment = .error error) : error.text.toList <:+ fragment := by
  have hwhole : error = ⟨String.ofList fragment⟩ → error.text.toList <:+ fragment := by
    rintro rfl
    exact ⟨[], String.toList_ofList⟩
  by_cases hne : fragment = []
  · subst hne
    cases h
  cases hlongest : scanner.longest fragment with
  | none =>
    rw [scan_of_longest_eq_none hne hlongest, Except.error.injEq] at h
    exact hwhole h.symm
  | some found =>
    rw [scan_of_longest_eq_some hlongest] at h
    split at h
    next => cases h
    next =>
      cases hpolicy : scanner.policy with
      | drop =>
        rw [hpolicy] at h
        cases h
      | reject =>
        rw [hpolicy] at h
        exact hwhole (Except.error.inj h).symm
      | rescan =>
        rw [hpolicy] at h
        apply isSuffix_of_segment_eq_error
        rw [segment_of_longest_eq_some hlongest]
        exact h

/-- Stopping at errors comes to what reading on past them comes to, up to the first one. -/
theorem tokenizeFragments_eq (fragments : List (List Char)) :
    scanner.tokenizeFragments fragments =
      strict (scanner.tokenizeFragmentsSkipping fragments) := by
  induction fragments with
  | nil => rfl
  | cons fragment rest ih =>
    have hsplit : fragment :: rest = [fragment] ++ rest := rfl
    rw [tokenizeFragments, ih, hsplit, tokenizeFragmentsSkipping_append, strict_append,
      tokenizeFragmentsSkipping]
    cases scanner.scan fragment with
    | error error => rfl
    | ok found =>
      show _ = (strict (found ++ [], []) >>= _)
      rw [List.append_nil]
      rfl

/-! ## Texts -/

/-- What is found in a text is found fragment by fragment, be it with the first error as the end or
with all errors at the side. -/
structure Fragmentwise (scanner : Scanner) : Prop where
  tokenize_eq_ok_iff : ∀ text tokens,
    scanner.tokenize text = .ok tokens ↔ scanner.tokenizeSkipping text = (tokens, [])
  tokenize_eq_error_iff : ∀ text error,
    scanner.tokenize text = .error error ↔ (scanner.tokenizeSkipping text).2.head? = some error
  tokens_eq : ∀ text, (scanner.tokenizeSkipping text).1 =
    (Text.fragments text.toList).flatMap scanner.tokens
  errors_eq : ∀ text, (scanner.tokenizeSkipping text).2 =
    (Text.fragments text.toList).filterMap scanner.error?
  tokenizeSkipping_append : ∀ (before after : String) (blank : Char), Text.isBlank blank = true →
    scanner.tokenizeSkipping (before ++ String.singleton blank ++ after) =
      ((scanner.tokenizeSkipping before).1 ++ (scanner.tokenizeSkipping after).1,
        (scanner.tokenizeSkipping before).2 ++ (scanner.tokenizeSkipping after).2)
  tokenize_append : ∀ (before after : String) (blank : Char), Text.isBlank blank = true →
    scanner.tokenize (before ++ String.singleton blank ++ after) = do
      let front ← scanner.tokenize before
      let back ← scanner.tokenize after
      return front ++ back

theorem tokenize_eq_strict (text : String) :
    scanner.tokenize text = strict (scanner.tokenizeSkipping text) :=
  tokenizeFragments_eq _

theorem tokenizeSkipping_append {blank : Char} (h : Text.isBlank blank = true)
    (before after : String) :
    scanner.tokenizeSkipping (before ++ String.singleton blank ++ after) =
      ((scanner.tokenizeSkipping before).1 ++ (scanner.tokenizeSkipping after).1,
        (scanner.tokenizeSkipping before).2 ++ (scanner.tokenizeSkipping after).2) := by
  have htext : (before ++ String.singleton blank ++ after).toList =
      before.toList ++ blank :: after.toList := by simp
  rw [tokenizeSkipping, htext, Text.fragments_append _ _ h, tokenizeFragmentsSkipping_append]
  rfl

theorem fragmentwise (scanner : Scanner) : scanner.Fragmentwise where
  tokenize_eq_ok_iff text tokens := by rw [tokenize_eq_strict, strict_eq_ok_iff]
  tokenize_eq_error_iff text error := by rw [tokenize_eq_strict, strict_eq_error_iff]
  tokens_eq text := by rw [tokenizeSkipping, tokenizeFragmentsSkipping_eq]
  errors_eq text := by rw [tokenizeSkipping, tokenizeFragmentsSkipping_eq]
  tokenizeSkipping_append before after blank h := tokenizeSkipping_append h before after
  tokenize_append before after blank h := by
    rw [tokenize_eq_strict, tokenizeSkipping_append h, strict_append, ← tokenize_eq_strict,
      ← tokenize_eq_strict]

/-- Texts with a blank between any two of them give the tokens and the errors of each text. -/
theorem tokenizeSkipping_intercalate {blank : Char} (h : Text.isBlank blank = true)
    (texts : List String) :
    scanner.tokenizeSkipping ((String.singleton blank).intercalate texts) =
      (texts.flatMap fun text => (scanner.tokenizeSkipping text).1,
        texts.flatMap fun text => (scanner.tokenizeSkipping text).2) := by
  induction texts with
  | nil => rfl
  | cons text rest ih =>
    cases rest with
    | nil => simp
    | cons next rest =>
      rw [String.intercalate_cons_cons, tokenizeSkipping_append h, ih]
      rfl

/-- They can be scanned without an error if each of them can, and then the tokens are those of the
texts in their order. -/
theorem tokenize_intercalate {blank : Char} (h : Text.isBlank blank = true) (texts : List String) :
    scanner.tokenize ((String.singleton blank).intercalate texts) =
      (texts.mapM scanner.tokenize).map List.flatten := by
  induction texts with
  | nil => rfl
  | cons text rest ih =>
    cases rest with
    | nil =>
      rw [String.intercalate_singleton, List.mapM_cons]
      cases scanner.tokenize text with
      | error error => rfl
      | ok tokens => simp [bind, Except.bind, pure, Except.pure]
    | cons next rest =>
      rw [String.intercalate_cons_cons, (fragmentwise scanner).tokenize_append _ _ _ h, ih]
      generalize next :: rest = others
      rw [List.mapM_cons]
      cases scanner.tokenize text with
      | error error => rfl
      | ok tokens => cases others.mapM scanner.tokenize <;> rfl

/-- Every scanner reads texts fragment by fragment. With a loaded table whose parts fit together,
whatever the order of its columns and however they are found, a scan is that of a scanner too. -/
theorem tokenize_fragmentwise :
    (∀ scanner : Scanner, scanner.Fragmentwise) ∧
    ∀ (saved : SavedTable) (loaded : Table) (column? : Char → Option Nat),
      saved.check = .ok loaded.toSavedTable →
      (∀ c column, column? c = some column → column < saved.columns.length) →
        ∃ table, (column? = saved.column? → table = loaded) ∧ saved.ScansAs column? table :=
  ⟨fragmentwise, fun _ _ _ hload hcolumn => SavedTable.exists_scansAs hload hcolumn⟩

/-- With columns that a search halves, the fragment `éa` starts with a token but cannot be scanned, so
its token is left out, and the first error is that of the fragment before it. -/
theorem tokenize_fragmentwise_halved : ∃ table : Table,
    SavedTable.twofold.ScansAs SavedTable.halvingColumn? table ∧
      (SavedScanner.mk SavedTable.twofold SavedTable.halvingColumn? .rescan).tokenizeSkipping
        "aé\tc éa" = .ok ([⟨⟨"word"⟩, "aé"⟩], [⟨"c"⟩, ⟨"a"⟩]) ∧
      (Scanner.mk table .rescan).tokenize "aé\tc éa" = .error ⟨"c"⟩ := by
  obtain ⟨loaded, hload⟩ := SavedTable.exists_check_twofold
  obtain ⟨table, _, hscans⟩ :=
    tokenize_fragmentwise.2 _ loaded _ hload SavedTable.lt_of_halvingColumn?
  have hskipping : (SavedScanner.mk SavedTable.twofold SavedTable.halvingColumn?
      .rescan).tokenizeSkipping "aé\tc éa" = .ok ([⟨⟨"word"⟩, "aé"⟩], [⟨"c"⟩, ⟨"a"⟩]) := by
    decide +kernel
  have hagrees := (hscans .rescan).tokenizeSkipping_eq "aé\tc éa"
  rw [hskipping, Except.ok.injEq] at hagrees
  refine ⟨table, hscans, hskipping, ?_⟩
  rw [(tokenize_fragmentwise.1 ⟨table, .rescan⟩).tokenize_eq_error_iff, ← hagrees]
  rfl

end Scanner

end LexGen
