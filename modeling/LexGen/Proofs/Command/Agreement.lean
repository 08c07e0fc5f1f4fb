import LexGen.Command.Directory
import LexGen.Proofs.Command.Notes
import LexGen.Proofs.Scan.Fragmentwise

/-!
# Tokens with and without keeping on

The task `tokenize` either stops at the first fragment that cannot be scanned, and then prints
nothing but its message, or keeps going, and then prints all tokens that there are, a report for
each such fragment, and at last their number (`Command.scan_of_errors`). So the two runs succeed
together and print the same then, and the message of the first is the first report of the second
(`Command.Agree`). Texts on the command line are scanned as if they came from the standard input
with spaces between them, and since a space separates fragments, each text gives the tokens that it
would give alone (`Command.Concatenates`). What a command line does is what its task says
(`Command.outcome_tokenize`), and every policy, every format and all texts can be asked for
(`Command.ofArguments_tokenizeArguments`).
-/

namespace LexGen

theorem TrailingPolicy.ofName?_name (policy : TrailingPolicy) :
    ofName? policy.name = some policy := by
  cases policy <;> decide +kernel

namespace Command

open Text

/-! ## Command lines -/

def OutputFormat.name : OutputFormat → String
  | text => "text"
  | json => "json"

/-- A command line that asks for the tokens. Behind the two dashes texts may start with a dash. -/
def tokenizeArguments (verbose : Bool) (path : String) (policy : TrailingPolicy)
    (format : OutputFormat) (keepGoing : Bool) (texts : List String) : List String :=
  (if verbose then ["--verbose"] else []) ++ "tokenize" :: ("--rules=" ++ path) ::
    ("--trailing=" ++ policy.name) :: ("--format=" ++ format.name) ::
      ((if keepGoing then ["--keep-going"] else []) ++ "--" :: texts)

theorem readOptions_rules (path : String) (rest : List String) :
    readOptions tokenizeSpecs false .empty none (("--rules=" ++ path) :: rest) =
      readOptions tokenizeSpecs false ⟨[("rules", path)], []⟩ none rest := by
  have hkind : Kind.of ("--rules=" ++ path) = .name ("rules=".toList ++ path.toList) := by
    rw [Kind.of, String.toList_append]
    rfl
  have hname : readName tokenizeSpecs .empty ("rules=".toList ++ path.toList) =
      .ok (⟨[("rules", path)], []⟩, none) := by
    show Except.ok ((⟨[("rules", String.ofList path.toList)], []⟩ : Given), none) = _
    rw [String.ofList_toList]
  simp only [readOptions, hkind, hname]
  rfl

theorem ofArguments_tokenizeArguments {path : String} (h : path ≠ "") (verbose : Bool)
    (policy : TrailingPolicy) (format : OutputFormat) (keepGoing : Bool) (texts : List String) :
    Invocation.ofArguments (tokenizeArguments verbose path policy format keepGoing texts) =
      .ok ⟨verbose, .tokenize path policy format keepGoing texts⟩ := by
  have hcommon : ∀ rest, readOptions commonSpecs true .empty none
      ((if verbose then ["--verbose"] else []) ++ "tokenize" :: rest) =
        .ok (⟨if verbose then [("verbose", "")] else [], []⟩, "tokenize" :: rest) := by
    intro rest
    cases verbose <;> rfl
  have hoptions : readOptions tokenizeSpecs false ⟨[("rules", path)], []⟩ none
      (("--trailing=" ++ policy.name) :: ("--format=" ++ format.name) ::
        ((if keepGoing then ["--keep-going"] else []) ++ "--" :: texts)) =
      .ok (⟨[("rules", path), ("trailing", policy.name), ("format", format.name)] ++
        (if keepGoing then [("keep-going", "")] else []), texts⟩, []) := by
    cases policy <;> cases format <;> cases keepGoing <;> rfl
  have hpath : path.isEmpty = false := by simpa using h
  rw [Invocation.ofArguments, tokenizeArguments, hcommon]
  show (readOptions tokenizeSpecs false .empty none _ >>= _) = _
  rw [readOptions_rules, hoptions]
  cases format <;> cases verbose <;> cases keepGoing <;>
    simp [Given.path, Given.value?, Given.policy, Given.format, Given.has, hpath,
      TrailingPolicy.ofName?_name, OutputFormat.name, bind, Except.bind, pure, Except.pure,
      List.lookup_cons]

/-! ## Scans -/

section Scan

variable {scanner : Scanner} {input : String} {tokens : List Token}

/-- An error shows a part of a fragment, which is on one line. -/
theorem oneLine_message {error : Unrecognized}
    (h : error ∈ (scanner.tokenizeSkipping input).2) : OneLine error.message := by
  rw [scanner.fragmentwise.errors_eq] at h
  obtain ⟨fragment, hfragment, herror⟩ := List.mem_filterMap.1 h
  have hsuffix : error.text.toList <:+ fragment := by
    unfold Scanner.error? at herror
    split at herror
    next => cases herror
    next other hscan =>
      cases herror
      exact Scanner.isSuffix_of_scan_eq_error hscan
  have htext : OneLine error.text := by
    intro hfeed
    have hblank := isBlank_of_mem_fragments hfragment _ (hsuffix.subset hfeed)
    cases hblank
  exact .append (.append (by decide) htext) (by decide)

theorem scan_of_no_errors (h : scanner.tokenizeSkipping input = (tokens, []))
    (format : OutputFormat) (keepGoing : Bool) :
    scan scanner format keepGoing input =
      ⟨0, printTokens format tokens, unlines (errorLines [] [])⟩ := by
  cases keepGoing with
  | true =>
    rw [scan, if_pos rfl, h]
    rfl
  | false =>
    rw [scan, (scanner.fragmentwise.tokenize_eq_ok_iff input tokens).2 h]
    rfl

/-- The number of the fragments that were left out. -/
def countMessage (count : Nat) : String := count.repr ++ " fragment(s) were not recognized"

theorem scan_of_errors {first : Unrecognized} {others : List Unrecognized}
    (h : scanner.tokenizeSkipping input = (tokens, first :: others)) (format : OutputFormat) :
    scan scanner format false input = ⟨1, "", unlines (errorLines [] [first.message])⟩ ∧
      scan scanner format true input =
        ⟨1, printTokens format tokens,
          unlines (errorLines ((first :: others).map Unrecognized.message)
            [countMessage (others.length + 1)])⟩ := by
  constructor
  · have hfirst : scanner.tokenize input = .error first := by
      rw [scanner.fragmentwise.tokenize_eq_error_iff, h]
      rfl
    rw [scan, hfirst]
    simp [Outcome.fail, Failure.print, Failure.causeLines, errorLines, unlines]
  · rw [scan, if_pos rfl, h]
    simp [Outcome.fail, Outcome.after, Failure.print, Failure.causeLines, errorLines, unlines,
      countMessage, String.append_assoc, Function.comp_def]

end Scan

/-! ## Runs -/

namespace Directory

/-- What the command prints in a directory, and the code it ends with. -/
def outcome (directory : Directory) (arguments : List String) : Outcome :=
  ((run system arguments).run directory).1

/-- At the path is a file with rules that the lexer is made from. -/
def HasRules (directory : Directory) (path : String) (lexer : Lexer) : Prop :=
  ∃ content set, directory.read path = .ok content ∧ RuleSet.ofText content = .ok set ∧
    Lexer.ofRules set = .ok lexer

/-- What there is to scan: the texts together, or the standard input if there are none. -/
def inputOf (directory : Directory) (texts : List String) : Except FileError String :=
  if texts.isEmpty then directory.input else .ok (joinTexts texts)

end Directory

variable {directory : Directory} {path : String} {lexer : Lexer} {policy : TrailingPolicy}
  {format : OutputFormat} {texts : List String} {input : String}

theorem run_perform_tokenize (hinput : directory.inputOf texts = .ok input) (path : String)
    (keepGoing : Bool) :
    (perform Directory.system lexer (.tokenize path policy format keepGoing texts)).run directory =
      pure (scan (lexer.withPolicy policy).scanner format keepGoing input, directory) := by
  have hread : Directory.system.readInput.run directory = pure (directory.input, directory) := rfl
  unfold Directory.inputOf at hinput
  rw [perform]
  split at hinput
  next hempty =>
    rw [if_pos hempty, StateT.run_bind, hread, hinput]
    rfl
  next hempty =>
    rw [if_neg hempty, Except.ok.inj hinput]
    rfl

/-- The notes on the rules, and then what the scan of the input gives. -/
theorem outcome_tokenize (hrules : directory.HasRules path lexer)
    (hinput : directory.inputOf texts = .ok input) {verbose keepGoing : Bool}
    {arguments : List String} (harguments : Invocation.ofArguments arguments =
      .ok ⟨verbose, .tokenize path policy format keepGoing texts⟩) :
    directory.outcome arguments =
      (scan (lexer.withPolicy policy).scanner format keepGoing input).after
        (prepare verbose path (directory.read path)).1 := by
  obtain ⟨content, set, hcontent, hset, hlexer⟩ := hrules
  obtain ⟨notes, _, hprepare⟩ := exists_lines_prepare hset hlexer verbose path
  have hread : (Directory.system.readFile path).run directory =
      pure (directory.read path, directory) := rfl
  rw [hcontent, hprepare, Directory.outcome, run, harguments]
  simp only [Invocation.run, Task.rulesPath, StateT.run_bind, hread, hcontent, pure_bind, hprepare,
    run_perform_tokenize hinput]
  rfl

theorem Directory.HasRules.exists_notes (hrules : directory.HasRules path lexer) (verbose : Bool) :
    ∃ notes, (∀ note ∈ notes, IsNote note) ∧
      (prepare verbose path (directory.read path)).1 = unlines notes := by
  obtain ⟨content, set, hcontent, hset, hlexer⟩ := hrules
  obtain ⟨notes, hnotes, hprepare⟩ := exists_lines_prepare hset hlexer verbose path
  exact ⟨notes, hnotes, by rw [hcontent, hprepare]⟩

theorem Directory.inputOf_eq_ok (directory : Directory) (hne : texts ≠ []) :
    directory.inputOf texts = .ok (joinTexts texts) := by
  rw [inputOf, if_neg (by simpa using hne)]

/-- Texts on the command line are scanned as if they came from the standard input. -/
theorem outcome_eq_of_input (hrules : directory.HasRules path lexer) (hne : texts ≠ [])
    {verbose keepGoing : Bool} {arguments fromInput : List String}
    (harguments : Invocation.ofArguments arguments =
      .ok ⟨verbose, .tokenize path policy format keepGoing texts⟩)
    (hfromInput : Invocation.ofArguments fromInput =
      .ok ⟨verbose, .tokenize path policy format keepGoing []⟩) :
    directory.outcome arguments =
      { directory with input := .ok (joinTexts texts) }.outcome fromInput := by
  -- The files are the same, so the rules are too.
  have hrulesThere : { directory with input := .ok (joinTexts texts) }.HasRules path lexer := hrules
  rw [outcome_tokenize hrules (directory.inputOf_eq_ok hne) harguments,
    outcome_tokenize hrulesThere rfl hfromInput]
  rfl

/-! ## Agreement -/

/-- How a run that stops at the first fragment that cannot be scanned compares with one that keeps
going. -/
structure Agree (scanner : Scanner) (format : OutputFormat) (fragments : List (List Char))
    (plain keeping : Outcome) : Prop where
  code_eq : plain.code = keeping.code
  code_eq_zero_iff : plain.code = 0 ↔
    ∀ fragment ∈ fragments, ∃ tokens, scanner.scan fragment = .ok tokens
  stdout_eq : plain.code = 0 → plain.stdout = keeping.stdout
  failure : plain.code ≠ 0 → plain.stdout = "" ∧ ∃ message others,
    labelled "Error: " plain.stderr = [message] ∧
      labelled "error: " keeping.stderr = message :: others ∧
        labelled "Error: " keeping.stderr = [countMessage (others.length + 1)]
  reports_keeping : labelled "error: " keeping.stderr =
    (fragments.filterMap scanner.error?).map Unrecognized.message
  stdout_keeping : keeping.stdout = printTokens format (fragments.flatMap scanner.tokens)

theorem filterMap_error?_eq_nil_iff {scanner : Scanner} {fragments : List (List Char)} :
    fragments.filterMap scanner.error? = [] ↔
      ∀ fragment ∈ fragments, ∃ tokens, scanner.scan fragment = .ok tokens := by
  rw [List.filterMap_eq_nil_iff]
  apply forall₂_congr
  intro fragment _
  rw [Scanner.error?]
  cases scanner.scan fragment <;> simp

/-- Whatever notes stand before, the scans agree. -/
theorem agree_scan (scanner : Scanner) (format : OutputFormat) (input : String)
    {notes otherNotes : List String} (hnotes : ∀ note ∈ notes, IsNote note)
    (hothers : ∀ note ∈ otherNotes, IsNote note) :
    Agree scanner format (fragments input.toList)
      ((scan scanner format false input).after (unlines notes))
      ((scan scanner format true input).after (unlines otherNotes)) := by
  have hiff := @filterMap_error?_eq_nil_iff scanner (fragments input.toList)
  have hmessages : ∀ message ∈ (scanner.tokenizeSkipping input).2.map Unrecognized.message,
      OneLine message := by
    rw [List.forall_mem_map]
    exact fun error herror => oneLine_message herror
  have htokens := scanner.fragmentwise.tokens_eq input
  rw [← scanner.fragmentwise.errors_eq] at hiff
  cases hfound : scanner.tokenizeSkipping input with
  | mk tokens errors =>
    rw [hfound] at hiff hmessages htokens
    cases errors with
    | nil =>
      obtain ⟨hreports, _⟩ := labelled_errorLines hothers hmessages (List.forall_mem_nil _)
      rw [scan_of_no_errors hfound, scan_of_no_errors hfound, Outcome.after, Outcome.after,
        ← unlines_append, ← unlines_append]
      refine ⟨rfl, iff_of_true rfl (hiff.1 rfl), fun _ => rfl, fun hne => absurd rfl hne, ?_, ?_⟩
      · rw [← scanner.fragmentwise.errors_eq, hfound]
        exact hreports
      · rw [← htokens]
    | cons first others =>
      obtain ⟨hplain, hkeeping⟩ := scan_of_errors hfound format
      have hcount : OneLine (countMessage (others.length + 1)) :=
        .append (.repr _) (by decide)
      obtain ⟨_, hmessage⟩ := labelled_errorLines hnotes (List.forall_mem_nil _)
        (List.forall_mem_singleton.2 (hmessages _ (List.mem_cons_self ..)))
      obtain ⟨hreports, hfailure⟩ :=
        labelled_errorLines hothers hmessages (List.forall_mem_singleton.2 hcount)
      rw [hplain, hkeeping, Outcome.after, Outcome.after, ← unlines_append, ← unlines_append]
      refine ⟨rfl, iff_of_false Nat.one_ne_zero ?_, fun hcode => ?_, fun _ => ⟨rfl, ?_⟩, ?_, ?_⟩
      · rw [← hiff]
        exact List.cons_ne_nil _ _
      · cases hcode
      · refine ⟨first.message, others.map Unrecognized.message, hmessage, hreports, ?_⟩
        rw [List.length_map]
        exact hfailure
      · rw [← scanner.fragmentwise.errors_eq, hfound]
        exact hreports
      · rw [← htokens]

/-- The tokens are those that each text gives alone. -/
structure Concatenates (scanner : Scanner) (format : OutputFormat) (texts : List String)
    (plain keeping : Outcome) : Prop where
  code_eq_zero_iff : plain.code = 0 ↔ ∀ text ∈ texts, ∃ tokens, scanner.tokenize text = .ok tokens
  stdout_plain : ∀ lists, texts.mapM scanner.tokenize = .ok lists →
    plain.stdout = printTokens format lists.flatten
  stdout_keeping : keeping.stdout =
    printTokens format (texts.flatMap fun text => (scanner.tokenizeSkipping text).1)

theorem concatenates_scan (scanner : Scanner) (format : OutputFormat) (texts : List String)
    (notes otherNotes : String) :
    Concatenates scanner format texts
      ((scan scanner format false (joinTexts texts)).after notes)
      ((scan scanner format true (joinTexts texts)).after otherNotes) := by
  have hspace : isBlank ' ' = true := rfl
  have hskipping : scanner.tokenizeSkipping (joinTexts texts) = _ :=
    Scanner.tokenizeSkipping_intercalate hspace texts
  have hplain : scanner.tokenize (joinTexts texts) = _ :=
    Scanner.tokenize_intercalate hspace texts
  refine ⟨?_, ?_, ?_⟩
  · rw [← Checked.exists_mapM_eq_ok_iff, scan, hplain]
    cases texts.mapM scanner.tokenize with
    | ok lists => exact iff_of_true rfl ⟨lists, rfl⟩
    | error error => exact iff_of_false Nat.one_ne_zero (by simp)
  · intro lists hlists
    rw [scan, hplain, hlists]
    rfl
  · rw [scan, if_pos rfl, hskipping]
    dsimp only
    split <;> rfl

/-- Wherever the rules make a lexer and there is an input, the run that stops at the first fragment
that cannot be scanned and the one that keeps going agree, and the texts may as well come from the
standard input. -/
theorem plain_agrees_with_keeping (hrules : directory.HasRules path lexer)
    (hinput : directory.inputOf texts = .ok input) (policy : TrailingPolicy)
    (format : OutputFormat) :
    (path ≠ "" → ∀ verbose keepGoing,
      Invocation.ofArguments (tokenizeArguments verbose path policy format keepGoing texts) =
        .ok ⟨verbose, .tokenize path policy format keepGoing texts⟩) ∧
    (∀ plain keeping verbose otherVerbose,
      Invocation.ofArguments plain = .ok ⟨verbose, .tokenize path policy format false texts⟩ →
      Invocation.ofArguments keeping =
        .ok ⟨otherVerbose, .tokenize path policy format true texts⟩ →
      Agree (lexer.withPolicy policy).scanner format (fragments input.toList)
          (directory.outcome plain) (directory.outcome keeping) ∧
        (texts ≠ [] → Concatenates (lexer.withPolicy policy).scanner format texts
          (directory.outcome plain) (directory.outcome keeping))) ∧
    (texts ≠ [] → ∀ arguments fromInput verbose keepGoing,
      Invocation.ofArguments arguments =
        .ok ⟨verbose, .tokenize path policy format keepGoing texts⟩ →
      Invocation.ofArguments fromInput =
        .ok ⟨verbose, .tokenize path policy format keepGoing []⟩ →
      directory.outcome arguments =
        { directory with input := .ok (joinTexts texts) }.outcome fromInput) := by
  refine ⟨fun hpath verbose keepGoing =>
    ofArguments_tokenizeArguments hpath verbose policy format keepGoing texts, ?_,
    fun hne _ _ _ _ => outcome_eq_of_input hrules hne⟩
  intro plain keeping verbose otherVerbose hplain hkeeping
  obtain ⟨notes, hnotes, hplainNotes⟩ := hrules.exists_notes verbose
  obtain ⟨otherNotes, hotherNotes, hkeepingNotes⟩ := hrules.exists_notes otherVerbose
  rw [outcome_tokenize hrules hinput hplain, outcome_tokenize hrules hinput hkeeping,
    hplainNotes, hkeepingNotes]
  refine ⟨agree_scan _ format input hnotes hotherNotes, ?_⟩
  intro hne
  rw [directory.inputOf_eq_ok hne, Except.ok.injEq] at hinput
  rw [← hinput]
  exact concatenates_scan _ format texts _ _

/-- A directory with a rule for the letter `a` and one for a dash. -/
def Directory.letterAndDash : Directory :=
  .ofFiles [("rules", .ok "a+;word\n-;dash\n")] (.ok "")

/-- Of the fragments of three texts two cannot be scanned. The plain run reports the first of them
only, and the other run, which writes notes too, both. -/
theorem plain_agrees_with_keeping_on_three_texts : ∃ lexer,
    Directory.letterAndDash.HasRules "rules" lexer ∧
    Agree (lexer.withPolicy .reject).scanner .text [['a', 'a'], ['b'], ['-', 'a'], ['-']]
      (Directory.letterAndDash.outcome
        ["tokenize", "-r", "rules", "-treject", "aa b", "--", "-a", "-"])
      (Directory.letterAndDash.outcome
        ["-v", "tokenize", "--rules=rules", "-kt", "reject", "--", "aa b", "-a", "-"]) ∧
    Directory.letterAndDash.outcome
        ["tokenize", "-r", "rules", "-treject", "aa b", "--", "-a", "-"] =
      ⟨1, "", "Error: unrecognized lexeme `b`\n"⟩ ∧
    Directory.letterAndDash.outcome
        ["tokenize", "-kr", "rules", "-treject", "aa b", "--", "-a", "-"] =
      ⟨1, "'aa', word\n'-', dash\n", "error: unrecognized lexeme `b`\n" ++
        "error: unrecognized lexeme `-a`\nError: 2 fragment(s) were not recognized\n"⟩ ∧
    Directory.letterAndDash.outcome
        ["-v", "tokenize", "--rules=rules", "-kt", "reject", "--", "aa b", "-a", "-"] =
      { Directory.letterAndDash with input := .ok "aa b -a -" }.outcome
        ["tokenize", "-vkr", "rules", "--trailing", "reject"] := by
  have hlexer : (Lexer.ofRules ⟨[("a+", ⟨"word"⟩), ("-", ⟨"dash"⟩)]⟩).toOption.isSome = true := by
    decide +kernel
  obtain ⟨lexer, hlexer⟩ := Checked.exists_eq_ok_iff.2 hlexer
  have hrules : Directory.letterAndDash.HasRules "rules" lexer :=
    ⟨"a+;word\n-;dash\n", _, rfl, rfl, hlexer⟩
  have hinput : Directory.letterAndDash.inputOf ["aa b", "-a", "-"] = .ok "aa b -a -" := rfl
  have hfragments : fragments "aa b -a -".toList = [['a', 'a'], ['b'], ['-', 'a'], ['-']] := by
    decide
  have hplain : Invocation.ofArguments
      ["tokenize", "-r", "rules", "-treject", "aa b", "--", "-a", "-"] =
        .ok ⟨false, .tokenize "rules" .reject .text false ["aa b", "-a", "-"]⟩ := by decide +kernel
  have hkeeping : Invocation.ofArguments
      ["-v", "tokenize", "--rules=rules", "-kt", "reject", "--", "aa b", "-a", "-"] =
        .ok ⟨true, .tokenize "rules" .reject .text true ["aa b", "-a", "-"]⟩ := by decide +kernel
  have hfromInput : Invocation.ofArguments ["tokenize", "-vkr", "rules", "--trailing", "reject"] =
      .ok ⟨true, .tokenize "rules" .reject .text true []⟩ := by decide +kernel
  obtain ⟨_, hagree, hread⟩ := plain_agrees_with_keeping hrules hinput .reject .text
  rw [hfragments] at hagree
  exact ⟨lexer, hrules, (hagree _ _ _ _ hplain hkeeping).1, by decide +kernel, by decide +kernel,
    hread (by decide) _ _ _ _ hkeeping hfromInput⟩

end Command

end LexGen
