import LexGen.Proofs.Scan.Safety

/-!
# Segments one behind the other

If the policy is to go on behind a match, a fragment is cut into longest matches, each of which
starts where the one before it has ended (`Scanner.Chain`). Such a chain comes to an offset at which
there is no match, and there is only one that does (`Scanner.Chain.unique`). If the offset is the end
of the fragment, the matches are the tokens; otherwise the error is the rest of the fragment from
there on (`Scanner.exists_chain`). No character is left out or taken twice
(`Scanner.values_of_segment`). `Scanner.Segments` gathers this.
-/

namespace LexGen

def Match.token (found : Match) : Token := ⟨found.tokenType, found.text⟩

namespace Scanner

variable {scanner : Scanner}

/-- Matches one behind the other: each is the longest one at the offset where the one before it has
ended. -/
inductive Chain (scanner : Scanner) (text : String) :
    (start : Nat) → List Match → (stop : Nat) → Prop where
  | nil (start : Nat) : Chain scanner text start [] start
  | cons {start stop : Nat} {found : Match} {others : List Match} :
    scanner.matchAt text start = some found → Chain scanner text found.stop others stop →
      Chain scanner text start (found :: others) stop

/-- From an offset on there is one chain that cannot go on. -/
theorem Chain.unique {text : String} {start stop end' : Nat} {found others : List Match}
    (h : scanner.Chain text start found stop) (hstop : scanner.matchAt text stop = none)
    (h' : scanner.Chain text start others end') (hend : scanner.matchAt text end' = none) :
    found = others ∧ stop = end' := by
  induction h generalizing others with
  | nil start =>
    cases h' with
    | nil => exact ⟨rfl, rfl⟩
    | cons hfirst _ => cases hstop.symm.trans hfirst
  | cons hfirst _ ih =>
    cases h' with
    | nil => cases hend.symm.trans hfirst
    | cons hother h' =>
      cases hfirst.symm.trans hother
      obtain ⟨rfl, rfl⟩ := ih hstop h'
      exact ⟨rfl, rfl⟩

/-- At the end of a text there is no match. -/
theorem matchAt_length (text : List Char) :
    scanner.matchAt (String.ofList text) (Text.byteLength text) = none := by
  have h := scanner.matchAt_append text []
  rwa [List.append_nil] at h

/-- From each position in a text a chain leads on to an offset at which it cannot go on. If nothing is
left over there, its tokens are the segments of the rest; otherwise what is left over is the error. -/
theorem exists_chain (scanner : Scanner) (before rest : List Char) : ∃ found stop left,
    scanner.Chain (String.ofList (before ++ rest)) (Text.byteLength before) found stop ∧
    scanner.matchAt (String.ofList (before ++ rest)) stop = none ∧
    Text.dropBytes? stop (before ++ rest) = some left ∧
    scanner.segment rest =
      if left = [] then .ok (found.map (·.token)) else .error ⟨String.ofList left⟩ := by
  fun_induction scanner.segment rest generalizing before with
  | case1 rest hempty =>
    have hdrop := Text.dropBytes?_append before []
    rw [List.isEmpty_iff.1 hempty]
    rw [List.append_nil] at hdrop ⊢
    exact ⟨[], _, [], .nil _, matchAt_length before, hdrop, rfl⟩
  | case2 rest hne hnone =>
    have hmatch := scanner.matchAt_append before rest
    rw [hnone] at hmatch
    exact ⟨[], _, rest, .nil _, hmatch, Text.dropBytes?_append before rest,
      (if_neg (by simpa using hne)).symm⟩
  | case3 rest _ lexeme hlexeme ih =>
    obtain ⟨_, happend⟩ := Table.longest_append hlexeme
    have hmatch := scanner.matchAt_append before rest
    rw [hlexeme] at hmatch
    have hsplit : before ++ lexeme.chars ++ lexeme.rest = before ++ rest := by
      rw [List.append_assoc, happend]
    obtain ⟨others, stop, left, hchain, hstop, hdrop, hsegment⟩ := ih (before ++ lexeme.chars)
    rw [hsplit] at hchain hstop hdrop
    rw [Text.byteLength_append] at hchain
    refine ⟨_, stop, left, .cons hmatch hchain, hstop, hdrop, ?_⟩
    rw [hsegment]
    split <;> rfl

/-- The values of the segments are not empty and make up the text. -/
theorem values_of_segment {text : List Char} {tokens : List Token}
    (h : scanner.segment text = .ok tokens) :
    tokens.flatMap (·.value.toList) = text ∧ ∀ token ∈ tokens, token.value ≠ "" := by
  fun_induction scanner.segment text generalizing tokens with
  | case1 text hempty =>
    cases h
    simpa using (List.isEmpty_iff.1 hempty).symm
  | case2 => cases h
  | case3 text _ lexeme hlexeme ih =>
    obtain ⟨others, hothers, rfl⟩ := Checked.map_eq_ok_iff.1 h
    obtain ⟨hne, happend⟩ := Table.longest_append hlexeme
    obtain ⟨hvalues, hnonempty⟩ := ih hothers
    have hvalue : lexeme.token.value.toList = lexeme.chars := String.toList_ofList
    constructor
    · rw [List.flatMap_cons, hvalues, hvalue, happend]
    · refine List.forall_mem_cons.2 ⟨?_, hnonempty⟩
      intro hempty
      rw [hempty] at hvalue
      exact hne hvalue.symm

/-- If the policy is to go on behind a match, a fragment is scanned by segments. -/
theorem scan_eq_segment (h : scanner.policy = .rescan) (fragment : List Char) :
    scanner.scan fragment = scanner.segment fragment := by
  by_cases hempty : fragment = []
  · rw [hempty, scan_nil, segment_nil]
  · rw [scan, if_neg (by simpa using hempty), h]

theorem exists_chain_of_fragment (h : scanner.policy = .rescan) (fragment : String) :
    ∃ found stop left, scanner.Chain fragment 0 found stop ∧
      scanner.matchAt fragment stop = none ∧
      Text.dropBytes? stop fragment.toList = some left ∧
      scanner.scan fragment.toList =
        if left = [] then .ok (found.map (·.token)) else .error ⟨String.ofList left⟩ := by
  have hchain := scanner.exists_chain [] fragment.toList
  rwa [List.nil_append, String.ofList_toList, ← scan_eq_segment h] at hchain

/-- Any chain that cannot go on decides what the scan of the fragment comes to. -/
theorem scan_of_chain (h : scanner.policy = .rescan) {fragment : String} {found : List Match}
    {stop : Nat} (hchain : scanner.Chain fragment 0 found stop)
    (hstop : scanner.matchAt fragment stop = none) :
    ∃ left, Text.dropBytes? stop fragment.toList = some left ∧
      scanner.scan fragment.toList =
        if left = [] then .ok (found.map (·.token)) else .error ⟨String.ofList left⟩ := by
  obtain ⟨others, last, left, hothers, hlast, hscan⟩ := exists_chain_of_fragment h fragment
  obtain ⟨rfl, rfl⟩ := hchain.unique hstop hothers hlast
  exact ⟨left, hscan⟩

/-- A fragment is cut into longest matches without loss. If at some offset before its end there is no
match, the error is what is left over. -/
structure Segments (scanner : Scanner) (fragment : String) : Prop where
  ok_iff : ∀ tokens, scanner.scan fragment.toList = .ok tokens ↔
    ∃ found, scanner.Chain fragment 0 found (Text.byteLength fragment.toList) ∧
      tokens = found.map (·.token)
  values_eq : ∀ tokens, scanner.scan fragment.toList = .ok tokens →
    tokens.flatMap (·.value.toList) = fragment.toList ∧ ∀ token ∈ tokens, token.value ≠ ""
  exists_error_iff : (∃ error, scanner.scan fragment.toList = .error error) ↔
    ∃ found stop, scanner.Chain fragment 0 found stop ∧
      stop < Text.byteLength fragment.toList ∧ scanner.matchAt fragment stop = none
  error_eq : ∀ error found stop, scanner.scan fragment.toList = .error error →
    scanner.Chain fragment 0 found stop → scanner.matchAt fragment stop = none →
      ∃ rest, rest ≠ [] ∧ Text.dropBytes? stop fragment.toList = some rest ∧
        error = ⟨String.ofList rest⟩

/-- The tokens of a fragment are those of a chain that comes to its end. -/
theorem scan_eq_ok_iff (h : scanner.policy = .rescan) {fragment : String} {tokens : List Token} :
    scanner.scan fragment.toList = .ok tokens ↔
      ∃ found, scanner.Chain fragment 0 found (Text.byteLength fragment.toList) ∧
        tokens = found.map (·.token) := by
  constructor
  · intro htokens
    obtain ⟨found, stop, left, hchain, _, hdrop, hscan⟩ := exists_chain_of_fragment h fragment
    rw [htokens] at hscan
    split at hscan
    next hleft =>
      have hlength := Text.add_byteLength_of_dropBytes? hdrop
      rw [hleft] at hlength
      cases hscan
      exact ⟨found, hlength ▸ hchain, rfl⟩
    next => cases hscan
  · rintro ⟨found, hchain, rfl⟩
    have hend := @matchAt_length scanner fragment.toList
    rw [String.ofList_toList] at hend
    obtain ⟨left, hdrop, hscan⟩ := scan_of_chain h hchain hend
    have hlength := Text.add_byteLength_of_dropBytes? hdrop
    have hleft : left = [] := Text.byteLength_eq_zero_iff.1 (by omega)
    rw [hscan, if_pos hleft]

/-- Where a chain ends before the end of the fragment, what is left over is the error. -/
theorem scan_of_chain_of_lt (h : scanner.policy = .rescan) {fragment : String} {found : List Match}
    {stop : Nat} (hchain : scanner.Chain fragment 0 found stop)
    (hlt : stop < Text.byteLength fragment.toList) (hstop : scanner.matchAt fragment stop = none) :
    ∃ rest, rest ≠ [] ∧ Text.dropBytes? stop fragment.toList = some rest ∧
      scanner.scan fragment.toList = .error ⟨String.ofList rest⟩ := by
  obtain ⟨rest, hdrop, hscan⟩ := scan_of_chain h hchain hstop
  have hne : rest ≠ [] := by
    rintro rfl
    have hlength := Text.add_byteLength_of_dropBytes? hdrop
    rw [Text.byteLength_nil] at hlength
    omega
  rw [if_neg hne] at hscan
  exact ⟨rest, hne, hdrop, hscan⟩

/-- A fragment that cannot be scanned has a chain that ends before its end. -/
theorem exists_chain_of_scan_eq_error (h : scanner.policy = .rescan) {fragment : String}
    {error : Unrecognized} (herror : scanner.scan fragment.toList = .error error) :
    ∃ found stop, scanner.Chain fragment 0 found stop ∧
      stop < Text.byteLength fragment.toList ∧ scanner.matchAt fragment stop = none := by
  obtain ⟨found, stop, left, hchain, hstop, hdrop, hscan⟩ := exists_chain_of_fragment h fragment
  rw [herror] at hscan
  refine ⟨found, stop, hchain, ?_, hstop⟩
  split at hscan
  next => cases hscan
  next hne =>
    have hpos := Nat.pos_of_ne_zero (mt Text.byteLength_eq_zero_iff.1 hne)
    have hlength := Text.add_byteLength_of_dropBytes? hdrop
    omega

theorem segments (h : scanner.policy = .rescan) (fragment : String) :
    scanner.Segments fragment where
  ok_iff _ := scan_eq_ok_iff h
  values_eq tokens htokens := by
    rw [scan_eq_segment h] at htokens
    exact values_of_segment htokens
  exists_error_iff := by
    constructor
    · rintro ⟨error, herror⟩
      exact exists_chain_of_scan_eq_error h herror
    · rintro ⟨found, stop, hchain, hlt, hstop⟩
      obtain ⟨rest, _, _, hscan⟩ := scan_of_chain_of_lt h hchain hlt hstop
      exact ⟨_, hscan⟩
  error_eq error found stop herror hchain hstop := by
    obtain ⟨others, last, hothers, hlt, hlast⟩ := exists_chain_of_scan_eq_error h herror
    obtain ⟨rfl, rfl⟩ := hchain.unique hstop hothers hlast
    obtain ⟨rest, hne, hdrop, hscan⟩ := scan_of_chain_of_lt h hchain hlt hstop
    exact ⟨rest, hne, hdrop, Except.error.inj (herror.symm.trans hscan)⟩

/-- With every table a fragment is cut into longest matches without loss. With a loaded table whose
parts fit together, whatever the order of its columns and however they are found, a scan is that of
such a scanner too. -/
theorem rescan_segments :
    (∀ (table : Table) (fragment : String), (Scanner.mk table .rescan).Segments fragment) ∧
    ∀ (saved : SavedTable) (loaded : Table) (column? : Char → Option Nat),
      saved.check = .ok loaded.toSavedTable →
      (∀ c column, column? c = some column → column < saved.columns.length) →
        ∃ table, (column? = saved.column? → table = loaded) ∧ saved.ScansAs column? table :=
  ⟨fun _ fragment => segments rfl fragment,
    fun _ _ _ hload hcolumn => SavedTable.exists_scansAs hload hcolumn⟩

/-- With columns that a search halves, `éaéa` is cut into `é` and `aé`, behind which there is no match,
since `a` is no token. -/
theorem rescan_segments_halved : ∃ table : Table,
    SavedTable.twofold.ScansAs SavedTable.halvingColumn? table ∧
      (SavedScanner.mk SavedTable.twofold SavedTable.halvingColumn? .rescan).scan
        "éaéa".toList = .ok (.error ⟨"a"⟩) ∧
      ∃ found stop, (Scanner.mk table .rescan).Chain "éaéa" 0 found stop ∧
        stop < Text.byteLength "éaéa".toList ∧
        (Scanner.mk table .rescan).matchAt "éaéa" stop = none := by
  obtain ⟨loaded, hload⟩ := SavedTable.exists_check_twofold
  obtain ⟨table, _, hscans⟩ := rescan_segments.2 _ loaded _ hload SavedTable.lt_of_halvingColumn?
  have hscan : (SavedScanner.mk SavedTable.twofold SavedTable.halvingColumn? .rescan).scan
      "éaéa".toList = .ok (.error ⟨"a"⟩) := by decide +kernel
  have hagrees := (hscans .rescan).scan_eq "éaéa".toList
  rw [hscan, Except.ok.injEq] at hagrees
  exact ⟨table, hscans, hscan,
    (rescan_segments.1 table "éaéa").exists_error_iff.1 ⟨_, hagrees.symm⟩⟩

end Scanner

end LexGen
