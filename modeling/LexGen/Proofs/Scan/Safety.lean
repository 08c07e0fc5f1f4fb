import LexGen.Proofs.Checked
import LexGen.Proofs.Table.Columns
import LexGen.Scan.Saved

/-!
# Scanning with a loaded table

A scan with a stored table looks its states up by their numbers and cuts the text at byte offsets.
A scanner hands over the rest of the text and has no look-up that could fail. The first simulates the
second if it takes the same steps between states (`SavedScanner.Simulates`), and then no look-up and
no cut goes wrong, and both find the same: the same walks, matches, segments and tokens
(`SavedScanner.Simulates.agrees`).

If the parts of a stored table fit together, a scan with it simulates the scanner with this table, and
if columns are found in another way than the first one for each character, a scanner with another
table (`SavedScanner.exists_simulates`). `SavedScanner.Safe` and `SavedScanner.Agrees` gather what
this says about all entry points, and `SavedTable.check_safe` says which stored tables can be loaded
and that these are safe to scan with, as long as a machine word can count their entries. Otherwise a
table may be loaded that has none (`SavedTable.not_safe_of_overflow`).
-/

namespace LexGen

/-- The match of a lexeme that starts at a byte offset. -/
def Lexeme.matchFrom (lexeme : Lexeme) (start : Nat) : Match :=
  ⟨lexeme.tokenType, String.ofList lexeme.chars, start, start + Text.byteLength lexeme.chars⟩

/-- The lexeme is a part at the start of the text, and not empty. -/
def Lexeme.Starts (lexeme : Lexeme) (text : List Char) : Prop :=
  lexeme.chars ≠ [] ∧ lexeme.chars ++ lexeme.rest = text

/-- The match of a lexeme ends where the text does if nothing stands behind the lexeme. -/
theorem Lexeme.Starts.stop_eq_iff {lexeme : Lexeme} {rest : List Char} (h : lexeme.Starts rest)
    (before : List Char) : (lexeme.matchFrom (Text.byteLength before)).stop =
      Text.byteLength (before ++ rest) ↔ lexeme.rest = [] := by
  show Text.byteLength before + Text.byteLength lexeme.chars = _ ↔ _
  rw [← h.2, ← Text.byteLength_eq_zero_iff, Text.byteLength_append, Text.byteLength_append]
  omega

/-- At a position in a text stands the match of the lexeme at the start of the rest. -/
theorem Scanner.matchAt_append (scanner : Scanner) (before rest : List Char) :
    scanner.matchAt (String.ofList (before ++ rest)) (Text.byteLength before) =
      (scanner.longest rest).map (·.matchFrom (Text.byteLength before)) := by
  rw [matchAt, String.toList_ofList, Text.dropBytes?_append]
  show (scanner.longest rest >>= _) = _
  cases scanner.longest rest <;> rfl

namespace SavedScanner

theorem cut_append (before part after : List Char) :
    cut (Text.byteLength before) (Text.byteLength (before ++ part)) (before ++ (part ++ after)) =
      .ok part := by
  rw [cut, Text.slice?_eq_some_iff.2 ⟨before, after, rfl, rfl, rfl⟩]

theorem cut_rest (before rest : List Char) :
    cut (Text.byteLength before) (Text.byteLength (before ++ rest)) (before ++ rest) =
      .ok rest := by
  have h := cut_append before rest []
  rwa [List.append_nil] at h

/-- The scan with a stored table takes the steps of the scanner: the two have the same states, and no
look-up of the stored table fails. -/
structure Simulates (saved : SavedScanner) (scanner : Scanner) : Prop where
  states_eq : saved.table.states = scanner.table.states
  initial_eq : saved.table.initial = scanner.table.initial
  next_eq : ∀ (state : Fin scanner.table.states) (c : Char),
    saved.next state.val c = .ok (scanner.table.next state c).val
  accept_eq : ∀ state : Fin scanner.table.states,
    saved.accept state.val = .ok (scanner.table.tag state)
  policy_eq : saved.policy = scanner.policy

/-! ## The loop over a fragment -/

section Loop

variable {saved : SavedScanner}

/-- The loop ends at the end of the fragment. -/
theorem scanFrom_length (fragment : List Char) (tokens : List Token) :
    saved.scanFrom fragment (Text.byteLength fragment) tokens = .ok (.ok tokens) := by
  rw [scanFrom, if_neg (Nat.lt_irrefl _)]

variable {before rest : List Char} (tokens : List Token)

/-- Without a match the loop ends with the rest of the fragment as the error. -/
theorem scanFrom_of_none (hne : rest ≠ [])
    (h : saved.matchAt (before ++ rest) (Text.byteLength before) = .ok none) :
    saved.scanFrom (before ++ rest) (Text.byteLength before) tokens =
      .ok (.error ⟨String.ofList rest⟩) := by
  have hlt : Text.byteLength before < Text.byteLength (before ++ rest) := by
    have hpos := Nat.pos_of_ne_zero (mt Text.byteLength_eq_zero_iff.1 hne)
    rw [Text.byteLength_append]
    omega
  rw [scanFrom, if_pos hlt]
  split
  next hfault => cases h.symm.trans hfault
  next =>
    rw [cut_rest]
    rfl
  next hfound => cases h.symm.trans hfound

/-- With a match the loop ends if nothing is left over, and otherwise does what the policy says. -/
theorem scanFrom_of_some {lexeme : Lexeme} (hstarts : lexeme.Starts rest)
    (h : saved.matchAt (before ++ rest) (Text.byteLength before) =
      .ok (some (lexeme.matchFrom (Text.byteLength before)))) :
    saved.scanFrom (before ++ rest) (Text.byteLength before) tokens =
      if lexeme.rest = [] then .ok (.ok (tokens ++ [lexeme.token]))
      else
        match saved.policy with
        | .drop => .ok (.ok (tokens ++ [lexeme.token]))
        | .reject => .ok (.error ⟨String.ofList (before ++ rest)⟩)
        | .rescan =>
          saved.scanFrom (before ++ lexeme.chars ++ lexeme.rest)
            (Text.byteLength (before ++ lexeme.chars)) (tokens ++ [lexeme.token]) := by
  have hstop := hstarts.stop_eq_iff before
  obtain ⟨hne, rfl⟩ := hstarts
  have hlt : Text.byteLength before <
      Text.byteLength (before ++ (lexeme.chars ++ lexeme.rest)) := by
    have hpos := Nat.pos_of_ne_zero (mt Text.byteLength_eq_zero_iff.1 hne)
    rw [Text.byteLength_append, Text.byteLength_append]
    omega
  rw [scanFrom, if_pos hlt]
  split
  next hfault => cases h.symm.trans hfault
  next hnone => cases h.symm.trans hnone
  next found hfound =>
    cases h.symm.trans hfound
    by_cases hrest : lexeme.rest = []
    · rw [if_pos hrest]
      exact if_pos (hstop.2 hrest)
    · rw [if_neg hrest, List.append_assoc, Text.byteLength_append before lexeme.chars]
      exact if_neg (mt hstop.1 hrest)

end Loop

/-- If the first look-up fails, so does the scan of the fragment. -/
theorem scan_of_next_eq_error {saved : SavedScanner} {c : Char} {rest : List Char}
    {fault : ScanFault} (h : saved.next saved.table.initial c = .error fault) :
    saved.scan (c :: rest) = .error fault := by
  have hmatch : saved.matchAt (c :: rest) 0 = .error fault := by
    rw [matchAt, if_neg (by simp [Text.dropBytes?])]
    show (cut (Text.byteLength []) (Text.byteLength ([] ++ c :: rest)) ([] ++ c :: rest) >>= _) = _
    rw [cut_rest]
    show (saved.lastAccept _ _ _ (c :: rest) >>= _) = _
    rw [lastAccept, h]
    rfl
  have hlt : 0 < Text.byteLength (c :: rest) :=
    Nat.pos_of_ne_zero (mt Text.byteLength_eq_zero_iff.1 (List.cons_ne_nil c rest))
  rw [scan, scanFrom, if_pos hlt]
  split
  next hfault => exact congrArg _ (Except.error.inj (hfault.symm.trans hmatch))
  next hnone => cases hmatch.symm.trans hnone
  next hfound => cases hmatch.symm.trans hfound

namespace Simulates

variable {saved : SavedScanner} {scanner : Scanner} (h : saved.Simulates scanner)

include h

/-! ## Matches -/

/-- The walk over a word goes through the same states. -/
theorem foldlM_next_eq (word : List Char) (state : Fin scanner.table.states) :
    word.foldlM saved.next state.val = .ok (word.foldl scanner.table.next state).val :=
  Checked.foldlM_eq_ok h.next_eq word state

theorem isError_eq (state : Fin scanner.table.states) :
    saved.table.isError state.val = decide (state = scanner.table.stuck) := by
  rw [← Table.isError_eq, SavedTable.isError, SavedTable.errorState, h.states_eq]
  rfl

/-- What the walk over a text remembers is the end of the longest match, or what it remembered
before. -/
theorem lastAccept_eq (text : List Char) (state : Fin scanner.table.states) (offset : Nat)
    (last : Option (Nat × TokenType)) : saved.lastAccept state.val offset last text =
      .ok (((scanner.table.longest state text).map fun lexeme =>
        (offset + Text.byteLength lexeme.chars, lexeme.tokenType)).or last) := by
  induction text generalizing state offset last with
  | nil => rfl
  | cons c rest ih =>
    rw [lastAccept, h.next_eq, Table.longest]
    show (if saved.table.isError (scanner.table.next state c).val then _ else _) = _
    rw [h.isError_eq]
    by_cases hstuck : scanner.table.next state c = scanner.table.stuck
    · rw [if_pos (decide_eq_true hstuck), if_pos hstuck]
      rfl
    · rw [if_neg (by simpa using hstuck), if_neg hstuck, h.accept_eq]
      show saved.lastAccept _ _ _ rest = _
      rw [ih]
      cases scanner.table.longest (scanner.table.next state c) rest with
      | some longer => simp [Nat.add_assoc]
      | none =>
        rw [Table.tokenType]
        cases scanner.table.tag (scanner.table.next state c) <;> simp

/-- At a position in a text the same match is found. -/
theorem matchAt_append (before rest : List Char) :
    saved.matchAt (before ++ rest) (Text.byteLength before) =
      .ok ((scanner.longest rest).map (·.matchFrom (Text.byteLength before))) := by
  have hposition : ¬ (Text.dropBytes? (Text.byteLength before) (before ++ rest)).isNone = true := by
    rw [Text.dropBytes?_append]
    simp
  have hinitial : saved.table.initial = scanner.table.start.val := h.initial_eq
  rw [matchAt, if_neg hposition, cut_rest, hinitial]
  show (saved.lastAccept _ _ _ _ >>= _) = _
  rw [h.lastAccept_eq, ← Scanner.longest]
  cases hlongest : scanner.longest rest with
  | none => rfl
  | some lexeme =>
    have hpart : cut (Text.byteLength before)
        (Text.byteLength before + Text.byteLength lexeme.chars) (before ++ rest) =
          .ok lexeme.chars := by
      rw [← Text.byteLength_append, ← (Table.longest_append hlongest).2, cut_append]
    show (cut (Text.byteLength before) _ (before ++ rest) >>= _) = _
    rw [hpart]
    rfl

/-- Elsewhere no match is found. -/
theorem matchAt_eq (text : List Char) (start : Nat) :
    saved.matchAt text start = .ok (scanner.matchAt (String.ofList text) start) := by
  cases hdrop : Text.dropBytes? start text with
  | none =>
    rw [matchAt, Scanner.matchAt, String.toList_ofList, hdrop]
    rfl
  | some rest =>
    obtain ⟨before, rfl, rfl⟩ := Text.dropBytes?_eq_some_iff.1 hdrop
    rw [h.matchAt_append, Scanner.matchAt_append]

/-! ## Fragments -/

/-- If the policy is to go on behind a match, the loop cuts the rest of the fragment into segments. -/
theorem scanFrom_eq (hpolicy : scanner.policy = .rescan) (before rest : List Char)
    (tokens : List Token) :
    saved.scanFrom (before ++ rest) (Text.byteLength before) tokens =
      .ok ((scanner.segment rest).map (tokens ++ ·)) := by
  fun_induction scanner.segment rest generalizing before tokens with
  | case1 rest hempty =>
    rw [List.isEmpty_iff.1 hempty, List.append_nil, scanFrom_length]
    simp [Except.map]
  | case2 rest hne hlongest =>
    have hmatch := h.matchAt_append before rest
    rw [hlongest] at hmatch
    rw [scanFrom_of_none tokens (by simpa using hne) hmatch]
    rfl
  | case3 rest hne found hlongest ih =>
    have hmatch := h.matchAt_append before rest
    rw [hlongest] at hmatch
    rw [scanFrom_of_some tokens (Table.longest_append hlongest) hmatch, h.policy_eq, hpolicy]
    by_cases hrest : found.rest = []
    · rw [if_pos hrest, hrest, Scanner.segment_nil]
      rfl
    · rw [if_neg hrest, Checked.map_map]
      show saved.scanFrom _ _ _ = _
      rw [ih]
      simp only [List.append_assoc, List.singleton_append]

/-- A fragment is scanned to the same tokens. -/
theorem scan_eq (fragment : List Char) : saved.scan fragment = .ok (scanner.scan fragment) := by
  by_cases hne : fragment = []
  · subst hne
    exact scanFrom_length [] []
  have hmatch := h.matchAt_append [] fragment
  cases hlongest : scanner.longest fragment with
  | none =>
    rw [hlongest] at hmatch
    rw [Scanner.scan_of_longest_eq_none hne hlongest]
    exact scanFrom_of_none [] hne hmatch
  | some found =>
    rw [hlongest] at hmatch
    rw [Scanner.scan_of_longest_eq_some hlongest]
    refine (scanFrom_of_some [] (Table.longest_append hlongest) hmatch).trans ?_
    by_cases hrest : found.rest = []
    · rw [if_pos hrest, if_pos hrest]
      rfl
    · rw [if_neg hrest, if_neg hrest, h.policy_eq]
      cases hpolicy : scanner.policy with
      | drop => rfl
      | reject => rfl
      | rescan => exact h.scanFrom_eq hpolicy _ _ _

/-! ## Texts -/

theorem tokenizeFragments_eq (fragments : List (List Char)) :
    saved.tokenizeFragments fragments = .ok (scanner.tokenizeFragments fragments) := by
  induction fragments with
  | nil => rfl
  | cons fragment rest ih =>
    rw [tokenizeFragments, h.scan_eq, ih, Scanner.tokenizeFragments]
    cases scanner.scan fragment with
    | error error => rfl
    | ok tokens => cases scanner.tokenizeFragments rest <;> rfl

theorem tokenizeFragmentsSkipping_eq (fragments : List (List Char)) :
    saved.tokenizeFragmentsSkipping fragments =
      .ok (scanner.tokenizeFragmentsSkipping fragments) := by
  induction fragments with
  | nil => rfl
  | cons fragment rest ih =>
    rw [tokenizeFragmentsSkipping, h.scan_eq, ih, Scanner.tokenizeFragmentsSkipping]
    cases scanner.scan fragment <;> rfl

end Simulates

/-! ## All operations -/

/-- Each operation of the scanner returns, and none is stopped by a fault. A walk stays among the
states of the table. -/
structure Safe (saved : SavedScanner) : Prop where
  exists_next : ∀ state, state < saved.table.states →
    ∀ c, ∃ target, saved.next state c = .ok target ∧ target < saved.table.states
  exists_accept : ∀ state, state < saved.table.states → ∃ tag, saved.accept state = .ok tag
  exists_walk : ∀ word, ∃ state, saved.walk word = .ok state ∧ state < saved.table.states
  exists_match : ∀ text start, ∃ found, saved.matchAt text start = .ok found
  exists_scan : ∀ fragment, ∃ result, saved.scan fragment = .ok result
  exists_tokens : ∀ text, ∃ result, saved.tokenize text = .ok result
  exists_tokensSkipping : ∀ text, ∃ result, saved.tokenizeSkipping text = .ok result

/-- The scanner with a stored table finds what a scanner with a table finds. -/
structure Agrees (saved : SavedScanner) (scanner : Scanner) : Prop where
  walk_eq : ∀ word, saved.walk word = .ok (scanner.table.walk word).val
  matchAt_eq : ∀ (text : String) start,
    saved.matchAt text.toList start = .ok (scanner.matchAt text start)
  scan_eq : ∀ fragment, saved.scan fragment = .ok (scanner.scan fragment)
  tokenize_eq : ∀ text, saved.tokenize text = .ok (scanner.tokenize text)
  tokenizeSkipping_eq : ∀ text,
    saved.tokenizeSkipping text = .ok (scanner.tokenizeSkipping text)

theorem Simulates.agrees {saved : SavedScanner} {scanner : Scanner} (h : saved.Simulates scanner) :
    saved.Agrees scanner where
  walk_eq word := by
    rw [walk, h.initial_eq]
    exact h.foldlM_next_eq word scanner.table.start
  matchAt_eq text start := by rw [h.matchAt_eq, String.ofList_toList]
  scan_eq := h.scan_eq
  tokenize_eq _ := h.tokenizeFragments_eq _
  tokenizeSkipping_eq _ := h.tokenizeFragmentsSkipping_eq _

/-- What simulates a scanner is safe. -/
theorem Simulates.safe {saved : SavedScanner} {scanner : Scanner} (h : saved.Simulates scanner) :
    saved.Safe where
  exists_next state hs c := by
    rw [h.states_eq] at hs ⊢
    exact ⟨_, h.next_eq ⟨state, hs⟩ c, (scanner.table.next ⟨state, hs⟩ c).isLt⟩
  exists_accept state hs := ⟨_, h.accept_eq ⟨state, h.states_eq ▸ hs⟩⟩
  exists_walk word := by
    rw [h.states_eq]
    exact ⟨_, h.agrees.walk_eq word, (scanner.table.walk word).isLt⟩
  exists_match text start := ⟨_, h.matchAt_eq text start⟩
  exists_scan fragment := ⟨_, h.scan_eq fragment⟩
  exists_tokens text := ⟨_, h.agrees.tokenize_eq text⟩
  exists_tokensSkipping text := ⟨_, h.agrees.tokenizeSkipping_eq text⟩

section

variable {scanner : Scanner} {column? : Char → Option Nat}

theorem accept_ofScanner (state : Fin scanner.table.states) :
    (ofScanner scanner column?).accept state.val = .ok (scanner.table.tag state) := by
  show (scanner.table.accept? state.val).mapError ScanFault.table = _
  rw [Table.accept?_eq]
  rfl

/-- With the first column of each character the scan takes the steps of the scanner. -/
theorem simulates_ofScanner (scanner : Scanner) :
    (ofScanner scanner scanner.table.column?).Simulates scanner where
  states_eq := rfl
  initial_eq := rfl
  next_eq state c := by
    show (scanner.table.next? state.val c).mapError ScanFault.table = _
    rw [Table.next?_eq]
    rfl
  accept_eq := accept_ofScanner
  policy_eq := rfl

/-- If columns are found in another way, the steps are those of another table. -/
theorem exists_simulates {table : Table} {column? : Char → Option Nat}
    (hcolumn : ∀ c column, column? c = some column → column < table.columns.length) :
    ∃ other : Table, (column? = table.column? → other = table) ∧
      ∀ policy, (ofScanner ⟨table, policy⟩ column?).Simulates ⟨other, policy⟩ := by
  by_cases hfirst : column? = table.column?
  · exact ⟨table, fun _ => rfl, fun policy => hfirst ▸ simulates_ofScanner ⟨table, policy⟩⟩
  · obtain ⟨characters, _, hall⟩ := exists_characters
    refine ⟨table.withColumns column? characters, fun h => absurd h hfirst, ?_⟩
    intro policy
    refine ⟨rfl, rfl, ?_, ?_, rfl⟩
    · intro state c
      show (table.nextBy? column? state.val c).mapError ScanFault.table = _
      rw [Table.nextBy?_withColumns hcolumn hall]
      rfl
    · intro state
      exact @accept_ofScanner ⟨table, policy⟩ column? state

/-- With a table whose parts fit together a scan is safe, if columns are found among the columns. -/
theorem safe_ofScanner
    (hcolumn : ∀ c column, column? c = some column → column < scanner.table.columns.length) :
    (ofScanner scanner column?).Safe := by
  obtain ⟨_, _, hsimulates⟩ := exists_simulates hcolumn
  exact (hsimulates scanner.policy).safe

/-- Where the first column of a character is found, a scan with the stored table comes to what the
scanner comes to. -/
theorem agrees_ofScanner (scanner : Scanner) :
    (ofScanner scanner scanner.table.column?).Agrees scanner :=
  (simulates_ofScanner scanner).agrees

end

end SavedScanner

/-- With the stored table, its columns being found in some way, the same is found as with the other
table, whatever the policy. -/
def SavedTable.ScansAs (saved : SavedTable) (column? : Char → Option Nat) (table : Table) : Prop :=
  ∀ policy, SavedScanner.Agrees ⟨saved, column?, policy⟩ ⟨table, policy⟩

/-- A loaded table whose parts fit together scans as a table does whose columns are looked up in their
order; it is the loaded one if its own columns are. -/
theorem SavedTable.exists_scansAs {saved : SavedTable} {loaded : Table} {column? : Char → Option Nat}
    (h : saved.check = .ok loaded.toSavedTable)
    (hcolumn : ∀ c column, column? c = some column → column < saved.columns.length) :
    ∃ table, (column? = saved.column? → table = loaded) ∧ saved.ScansAs column? table := by
  obtain ⟨_, rfl⟩ := check_eq_ok_iff.1 h
  obtain ⟨table, hfirst, hsimulates⟩ := SavedScanner.exists_simulates hcolumn
  exact ⟨table, hfirst, fun policy => (hsimulates policy).agrees⟩

/-! ## Loading -/

/-- A search that knows the columns of two characters finds none behind the last one. -/
theorem SavedTable.lt_of_either {first second c : Char} {i j width column : Nat} (hi : i < width)
    (hj : j < width)
    (h : (if c = first then some i else if c = second then some j else none) = some column) :
    column < width := by
  split at h
  next =>
    cases h
    exact hi
  next =>
    split at h
    next =>
      cases h
      exact hj
    next => cases h

/-- The parts of a loaded table fit together exactly if a machine word holds the product of its states
and columns. Where it does, exactly the stored tables whose parts fit together are loaded, and
unchanged. With such a table no scan goes wrong, even if its columns are out of order and the search
among them gives any column; and where it gives the first one, the results are those of a scanner. -/
theorem SavedTable.check_safe (saved : SavedTable) :
    (∀ loaded, saved.check = .ok loaded → (loaded.FitsTogether ↔ loaded.NoOverflow)) ∧
    (saved.NoOverflow →
      ((∃ loaded, saved.check = .ok loaded) ↔ saved.FitsTogether) ∧
      ∀ loaded, saved.check = .ok loaded → loaded = saved ∧
        ∀ (column? : Char → Option Nat) (policy : TrailingPolicy),
          (∀ c column, column? c = some column → column < loaded.columns.length) →
            SavedScanner.Safe ⟨loaded, column?, policy⟩ ∧
              ∃ table : Table, table.toSavedTable = loaded ∧ (column? = loaded.column? →
                SavedScanner.Agrees ⟨loaded, column?, policy⟩ ⟨table, policy⟩)) := by
  refine ⟨fun _ => fitsTogether_iff_noOverflow, ?_⟩
  intro hword
  constructor
  · constructor
    · intro hloads
      obtain ⟨loaded, hload⟩ := hloads
      exact (hword.check_eq_ok_iff.1 hload).1
    · intro hfits
      exact ⟨saved, hword.check_eq_ok_iff.2 ⟨hfits, rfl⟩⟩
  · intro loaded hload
    obtain ⟨hfits, rfl⟩ := hword.check_eq_ok_iff.1 hload
    refine ⟨rfl, ?_⟩
    intro column? policy hcolumn
    obtain ⟨table, rfl⟩ := exists_table_iff.2 hfits
    have hsafe : (SavedScanner.ofScanner ⟨table, policy⟩ column?).Safe :=
      SavedScanner.safe_ofScanner hcolumn
    refine ⟨hsafe, table, rfl, ?_⟩
    intro hfirst
    rw [hfirst]
    exact SavedScanner.agrees_ofScanner ⟨table, policy⟩

/-- Columns in the order `b`, `a`, `b`, among which a search that halves them finds the last `b`,
and an error row with entries of its own. -/
theorem SavedTable.check_safe_out_of_order : ∃ saved : SavedTable,
    saved = ⟨#[1, 0, 2, 0, 1, 1, 0, 1, 0], #[none, some ⟨⟨"word"⟩, 0⟩, none],
      ['b', 'a', 'b'], 3, 0⟩ ∧
    saved.NoOverflow ∧ saved.check = .ok saved ∧
    SavedScanner.Safe ⟨saved,
      fun c => if c = 'a' then some 1 else if c = 'b' then some 2 else none, .rescan⟩ := by
  let saved : SavedTable :=
    ⟨#[1, 0, 2, 0, 1, 1, 0, 1, 0], #[none, some ⟨⟨"word"⟩, 0⟩, none], ['b', 'a', 'b'], 3, 0⟩
  have hword : saved.NoOverflow := by
    show 3 * 3 < UInt64.size
    decide
  have hfits : saved.FitsTogether :=
    ⟨by decide, by decide, by decide, by decide, by decide, by decide⟩
  obtain ⟨hloads, hscans⟩ := (check_safe saved).2 hword
  obtain ⟨loaded, hload⟩ := hloads.2 hfits
  obtain ⟨rfl, hscans⟩ := hscans loaded hload
  refine ⟨saved, rfl, hword, hload, (hscans _ .rescan ?_).1⟩
  exact fun c column hcolumn => lt_of_either (by decide) (by decide) hcolumn

/-! ## Tables without entries

What the word does not hold is lost, so a table may pass that has no entry at all. -/

/-- A stored table without entries. All its columns are for one character. -/
def SavedTable.hollow (states width : Nat) : SavedTable :=
  ⟨#[], Array.replicate states none, List.replicate width 'a', states, 0⟩

namespace SavedTable

variable {states width : Nat}

/-- A table without entries is loaded if the word does not tell the product of its states and columns
from zero. -/
theorem check_hollow (hstates : 0 < states) (hproduct : UInt64.size ∣ states * width) :
    (hollow states width).check = .ok (hollow states width) := by
  refine check_eq_ok_iff.2 ⟨⟨hstates, ?_, Array.size_replicate, ?_, hstates, ?_⟩, rfl⟩
  · rw [expectedEntries_eq_mod, hollow, List.length_replicate]
    exact (Nat.mod_eq_zero_of_dvd hproduct).symm
  · rw [back?_accept_iff Array.size_replicate]
    rw [hollow, Array.getElem?_replicate, if_pos (Nat.sub_lt hstates (by decide))]
  · intro target htarget
    exact absurd htarget (Array.not_mem_empty target)

theorem not_fitsTogether_hollow (hstates : 0 < states) (hwidth : 0 < width) :
    ¬ (hollow states width).FitsTogether := by
  intro h
  have hsize : 0 = states * (List.replicate width 'a').length := h.data_size
  rw [List.length_replicate] at hsize
  exact absurd hsize (Nat.ne_of_lt (Nat.mul_pos hstates hwidth))

/-- The first look-up in a table without entries fails. -/
theorem next?_hollow (hstates : 1 < states) (hwidth : 0 < width) :
    (hollow states width).next? 0 'a' = .error (.indexOutOfBounds 0 0) := by
  have hcolumn : (hollow states width).column? 'a' = some 0 := by
    obtain ⟨width, rfl⟩ := Nat.exists_eq_succ_of_ne_zero (Nat.ne_of_gt hwidth)
    simp [column?, hollow, List.replicate_succ, List.idxOf?_cons]
  have herror : (hollow states width).isError 0 = false := by
    simp [isError, errorState, hollow]
    omega
  rw [next?, nextBy?, herror, hcolumn]
  simp [cell, hollow]

/-- So no text can be scanned with it that starts with the character of its columns. -/
theorem tokenize_hollow (hstates : 1 < states) (hwidth : 0 < width) (policy : TrailingPolicy) :
    (SavedScanner.mk (hollow states width) (hollow states width).column? policy).tokenize "a" =
      .error (.table (.indexOutOfBounds 0 0)) := by
  have hfragments : Text.fragments "a".toList = [['a']] := by decide
  rw [SavedScanner.tokenize, hfragments, SavedScanner.tokenizeFragments,
    SavedScanner.scan_of_next_eq_error]
  · rfl
  · show ((hollow states width).next? 0 'a').mapError ScanFault.table = _
    rw [next?_hollow hstates hwidth]
    rfl

/-- The word does not hold the product of `2 ^ 31` states and `2 ^ 33` columns, and what it keeps is
zero. So a table of this size is loaded without an entry, its parts do not fit together, and a scan
with it fails. -/
theorem not_safe_of_overflow : ∃ saved : SavedTable,
    saved = ⟨#[], Array.replicate 2147483648 none, List.replicate 8589934592 'a', 2147483648, 0⟩ ∧
    saved.check = .ok saved ∧ ¬ saved.FitsTogether ∧
    (∀ c column, saved.column? c = some column → column < saved.columns.length) ∧
    ∀ policy, (SavedScanner.mk saved saved.column? policy).tokenize "a" =
        .error (.table (.indexOutOfBounds 0 0)) ∧
      ¬ SavedScanner.Safe ⟨saved, saved.column?, policy⟩ := by
  refine ⟨hollow 2147483648 8589934592, rfl, check_hollow (by decide) (by decide), ?_, ?_, ?_⟩
  · exact not_fitsTogether_hollow (by decide) (by decide)
  · intro c column hcolumn
    exact lt_of_column? hcolumn
  · intro policy
    have hfault := @tokenize_hollow 2147483648 8589934592 (by decide) (by decide) policy
    refine ⟨hfault, ?_⟩
    intro hsafe
    obtain ⟨result, hresult⟩ := hsafe.exists_tokens "a"
    cases hfault.symm.trans hresult

end SavedTable

/-- A table with two columns for one character. -/
def SavedTable.twofold : SavedTable :=
  ⟨#[2, 0, 1, 2, 2, 1, 0, 0, 0], #[none, some ⟨⟨"word"⟩, 0⟩, none], ['é', 'a', 'é'], 3, 0⟩

/-- What a search finds that halves the columns of `twofold`. -/
def SavedTable.halvingColumn? (c : Char) : Option Nat :=
  if c = 'a' then some 1 else if c = 'é' then some 2 else none

theorem SavedTable.exists_check_twofold :
    ∃ loaded : Table, twofold.check = .ok loaded.toSavedTable := by
  have hword : twofold.NoOverflow := by
    show 3 * 3 < UInt64.size
    decide
  have hfits : twofold.FitsTogether :=
    ⟨by decide, by decide, by decide, by decide, by decide, by decide⟩
  obtain ⟨table, htable⟩ := exists_table_iff.2 hfits
  exact ⟨table, hword.check_eq_ok_iff.2 ⟨hfits, htable⟩⟩

theorem SavedTable.lt_of_halvingColumn? (c : Char) (column : Nat)
    (h : halvingColumn? c = some column) : column < twofold.columns.length :=
  lt_of_either (by decide) (by decide) h

end LexGen
