import LexGen.Proofs.Scan.Segmentation

/-!
# The three policies

The policy has no part in the search for matches, so what the policies make of a fragment can be
compared by the longest match at its start. If there is none, each of them refuses the whole
fragment (`Table.scan_of_matchAt_eq_none`), and if the match takes the whole fragment, each of them
gives its token. They differ only if characters are left over (`Table.scan_of_matchAt_eq_some`), and
then all that are not refused start with the same token. `Table.PoliciesAgree` gathers this.
-/

namespace LexGen

theorem Scanner.matchAt_zero (scanner : Scanner) (fragment : String) :
    scanner.matchAt fragment 0 = (scanner.longest fragment.toList).map (·.matchFrom 0) := by
  have h := scanner.matchAt_append [] fragment.toList
  rwa [List.nil_append, String.ofList_toList] at h

/-- What the three policies make of a fragment, by the longest match at its start, which is the same for
all three. -/
structure Table.PoliciesAgree (table : Table) (fragment : String) : Prop where
  matchAt_eq : ∀ policy start, (Scanner.mk table policy).matchAt fragment start =
    (Scanner.ofTable table).matchAt fragment start
  reject_ok_iff : (∃ tokens, (Scanner.mk table .reject).scan fragment.toList = .ok tokens) ↔
    ∃ found, (Scanner.ofTable table).matchAt fragment 0 = some found ∧
      found.stop = Text.byteLength fragment.toList
  scan_eq_of_whole : ∀ found, (Scanner.ofTable table).matchAt fragment 0 = some found →
    found.stop = Text.byteLength fragment.toList →
      ∀ policy, (Scanner.mk table policy).scan fragment.toList = .ok [found.token]
  reject_eq_error : (¬ ∃ found, (Scanner.ofTable table).matchAt fragment 0 = some found ∧
      found.stop = Text.byteLength fragment.toList) →
    (Scanner.mk table .reject).scan fragment.toList = .error ⟨fragment⟩
  drop_ok_iff : (∃ tokens, (Scanner.mk table .drop).scan fragment.toList = .ok tokens) ↔
    ∃ found, (Scanner.ofTable table).matchAt fragment 0 = some found
  drop_eq : ∀ found, (Scanner.ofTable table).matchAt fragment 0 = some found →
    (Scanner.mk table .drop).scan fragment.toList = .ok [found.token]
  head?_rescan : ∀ found tokens, (Scanner.ofTable table).matchAt fragment 0 = some found →
    (Scanner.mk table .rescan).scan fragment.toList = .ok tokens →
      tokens.head? = some found.token
  scan_eq_error : (Scanner.ofTable table).matchAt fragment 0 = none →
    ∀ policy, (Scanner.mk table policy).scan fragment.toList = .error ⟨fragment⟩
  reject_of_rescan : ∀ token, (Scanner.mk table .rescan).scan fragment.toList = .ok [token] →
    (Scanner.mk table .reject).scan fragment.toList = .ok [token]

namespace Table

variable {table : Table} {fragment : String}

/-- Without a match at its start a fragment is refused. -/
theorem scan_of_matchAt_eq_none (hne : fragment ≠ "")
    (h : (Scanner.ofTable table).matchAt fragment 0 = none) (policy : TrailingPolicy) :
    (Scanner.mk table policy).scan fragment.toList = .error ⟨fragment⟩ := by
  rw [Scanner.matchAt_zero, Option.map_eq_none_iff] at h
  have hlongest : (Scanner.mk table policy).longest fragment.toList = none := h
  rw [Scanner.scan_of_longest_eq_none (by simpa using hne) hlongest, String.ofList_toList]

/-- With a match at its start the policy counts only if something is left over. -/
theorem scan_of_matchAt_eq_some {found : Match}
    (h : (Scanner.ofTable table).matchAt fragment 0 = some found) :
    ∃ rest, Text.dropBytes? found.stop fragment.toList = some rest ∧
      ∀ policy, (Scanner.mk table policy).scan fragment.toList =
        if found.stop = Text.byteLength fragment.toList then .ok [found.token]
        else
          match policy with
          | .drop => .ok [found.token]
          | .reject => .error ⟨fragment⟩
          | .rescan => ((Scanner.mk table .rescan).segment rest).map (found.token :: ·) := by
  rw [Scanner.matchAt_zero] at h
  obtain ⟨lexeme, hlexeme, rfl⟩ := Option.map_eq_some_iff.1 h
  have hstarts : lexeme.Starts fragment.toList := longest_append hlexeme
  have hstop : (lexeme.matchFrom 0).stop = Text.byteLength fragment.toList ↔ lexeme.rest = [] :=
    hstarts.stop_eq_iff []
  refine ⟨lexeme.rest, ?_, ?_⟩
  · exact Text.dropBytes?_eq_some_iff.2 ⟨lexeme.chars, hstarts.2.symm, Nat.zero_add _⟩
  · intro policy
    have hlongest : (Scanner.mk table policy).longest fragment.toList = some lexeme := hlexeme
    rw [Scanner.scan_of_longest_eq_some hlongest, String.ofList_toList]
    simp only [hstop]
    cases policy <;> rfl

/-- A fragment that can be scanned at all starts with a match. -/
theorem exists_matchAt_of_scan (hne : fragment ≠ "") {policy : TrailingPolicy} {tokens : List Token}
    (h : (Scanner.mk table policy).scan fragment.toList = .ok tokens) :
    ∃ found, (Scanner.ofTable table).matchAt fragment 0 = some found := by
  cases hfound : (Scanner.ofTable table).matchAt fragment 0 with
  | some found => exact ⟨found, rfl⟩
  | none => cases h.symm.trans (scan_of_matchAt_eq_none hne hfound policy)

section Matched

variable {found : Match} (h : (Scanner.ofTable table).matchAt fragment 0 = some found)

include h

/-- If the match takes the whole fragment, its token is what is found. -/
theorem scan_of_stop_eq (hstop : found.stop = Text.byteLength fragment.toList)
    (policy : TrailingPolicy) :
    (Scanner.mk table policy).scan fragment.toList = .ok [found.token] := by
  obtain ⟨rest, _, hscan⟩ := scan_of_matchAt_eq_some h
  rw [hscan, if_pos hstop]

theorem drop_eq : (Scanner.mk table .drop).scan fragment.toList = .ok [found.token] := by
  obtain ⟨rest, _, hscan⟩ := scan_of_matchAt_eq_some h
  rw [hscan, ite_self]

/-- If anything is left over, the fragment is refused as a whole. -/
theorem reject_of_stop_ne (hstop : found.stop ≠ Text.byteLength fragment.toList) :
    (Scanner.mk table .reject).scan fragment.toList = .error ⟨fragment⟩ := by
  obtain ⟨rest, _, hscan⟩ := scan_of_matchAt_eq_some h
  rw [hscan, if_neg hstop]

/-- What is left over gives further tokens, and at least one. -/
theorem rescan_eq_ok {tokens : List Token}
    (htokens : (Scanner.mk table .rescan).scan fragment.toList = .ok tokens) :
    ∃ others, tokens = found.token :: others ∧
      (others = [] → found.stop = Text.byteLength fragment.toList) := by
  obtain ⟨rest, hdrop, hscan⟩ := scan_of_matchAt_eq_some h
  have hrescan := hscan .rescan
  rw [htokens] at hrescan
  split at hrescan
  next hstop =>
    cases hrescan
    exact ⟨[], rfl, fun _ => hstop⟩
  next =>
    obtain ⟨others, hothers, rfl⟩ := Checked.map_eq_ok_iff.1 hrescan.symm
    refine ⟨others, rfl, ?_⟩
    rintro rfl
    have hrest : [] = rest := (Scanner.values_of_segment hothers).1
    have hlength := Text.add_byteLength_of_dropBytes? hdrop
    rw [← hrest] at hlength
    exact hlength

end Matched

theorem reject_ok_iff (hne : fragment ≠ "") :
    (∃ tokens, (Scanner.mk table .reject).scan fragment.toList = .ok tokens) ↔
      ∃ found, (Scanner.ofTable table).matchAt fragment 0 = some found ∧
        found.stop = Text.byteLength fragment.toList := by
  constructor
  · rintro ⟨tokens, htokens⟩
    obtain ⟨found, hfound⟩ := exists_matchAt_of_scan hne htokens
    refine ⟨found, hfound, ?_⟩
    by_contra hstop
    cases htokens.symm.trans (reject_of_stop_ne hfound hstop)
  · rintro ⟨found, hfound, hstop⟩
    exact ⟨_, scan_of_stop_eq hfound hstop .reject⟩

/-- What cannot be taken as a whole is refused as a whole. -/
theorem reject_eq_error (hne : fragment ≠ "")
    (h : ¬ ∃ found, (Scanner.ofTable table).matchAt fragment 0 = some found ∧
      found.stop = Text.byteLength fragment.toList) :
    (Scanner.mk table .reject).scan fragment.toList = .error ⟨fragment⟩ := by
  cases hfound : (Scanner.ofTable table).matchAt fragment 0 with
  | none => exact scan_of_matchAt_eq_none hne hfound .reject
  | some found => exact reject_of_stop_ne hfound fun hstop => h ⟨found, hfound, hstop⟩

theorem drop_ok_iff (hne : fragment ≠ "") :
    (∃ tokens, (Scanner.mk table .drop).scan fragment.toList = .ok tokens) ↔
      ∃ found, (Scanner.ofTable table).matchAt fragment 0 = some found := by
  constructor
  · rintro ⟨tokens, htokens⟩
    exact exists_matchAt_of_scan hne htokens
  · rintro ⟨found, hfound⟩
    exact ⟨_, drop_eq hfound⟩

/-- A single token takes the whole fragment. -/
theorem reject_of_rescan (hne : fragment ≠ "") {token : Token}
    (h : (Scanner.mk table .rescan).scan fragment.toList = .ok [token]) :
    (Scanner.mk table .reject).scan fragment.toList = .ok [token] := by
  obtain ⟨found, hfound⟩ := exists_matchAt_of_scan hne h
  obtain ⟨others, htokens, hstop⟩ := rescan_eq_ok hfound h
  cases htokens
  exact scan_of_stop_eq hfound (hstop rfl) .reject

theorem policiesAgree (hne : fragment ≠ "") : table.PoliciesAgree fragment where
  matchAt_eq _ _ := rfl
  reject_ok_iff := reject_ok_iff hne
  scan_eq_of_whole _ := scan_of_stop_eq
  reject_eq_error := reject_eq_error hne
  drop_ok_iff := drop_ok_iff hne
  drop_eq _ := drop_eq
  head?_rescan _ _ hfound htokens := by
    obtain ⟨others, rfl, _⟩ := rescan_eq_ok hfound htokens
    rfl
  scan_eq_error := scan_of_matchAt_eq_none hne
  reject_of_rescan _ := reject_of_rescan hne

/-- With every table the three policies agree on what starts a fragment. With a loaded table whose
parts fit together, whatever the order of its columns and however they are found, a scan under each
policy is that with such a table too. -/
theorem policies_agree :
    (∀ (table : Table) (fragment : String), fragment ≠ "" → table.PoliciesAgree fragment) ∧
    ∀ (saved : SavedTable) (loaded : Table) (column? : Char → Option Nat),
      saved.check = .ok loaded.toSavedTable →
      (∀ c column, column? c = some column → column < saved.columns.length) →
        ∃ table, (column? = saved.column? → table = loaded) ∧ saved.ScansAs column? table :=
  ⟨fun _ _ hne => policiesAgree hne,
    fun _ _ _ hload hcolumn => SavedTable.exists_scansAs hload hcolumn⟩

/-- With columns that a search halves, `éaé` starts with `é`, which is all that is found if the rest is
dropped, and the first of two tokens otherwise. So the fragment is refused if nothing may be left
over. -/
theorem policies_agree_halved : ∃ table : Table,
    SavedTable.twofold.ScansAs SavedTable.halvingColumn? table ∧
      (SavedScanner.mk SavedTable.twofold SavedTable.halvingColumn? .rescan).scan "éaé".toList =
        .ok (.ok [⟨⟨"word"⟩, "é"⟩, ⟨⟨"word"⟩, "aé"⟩]) ∧
      (SavedScanner.mk SavedTable.twofold SavedTable.halvingColumn? .drop).scan "éaé".toList =
        .ok (.ok [⟨⟨"word"⟩, "é"⟩]) ∧
      (Scanner.mk table .reject).scan "éaé".toList = .error ⟨"éaé"⟩ := by
  obtain ⟨loaded, hload⟩ := SavedTable.exists_check_twofold
  obtain ⟨table, _, hscans⟩ := policies_agree.2 _ loaded _ hload SavedTable.lt_of_halvingColumn?
  have hmatch : (SavedScanner.mk SavedTable.twofold SavedTable.halvingColumn? .drop).matchAt
      "éaé".toList 0 = .ok (some ⟨⟨"word"⟩, "é", 0, 2⟩) := by rfl
  have hagrees := (hscans .drop).matchAt_eq "éaé" 0
  rw [hmatch, Except.ok.injEq] at hagrees
  refine ⟨table, hscans, by decide +kernel, by decide +kernel, ?_⟩
  apply (policies_agree.1 table "éaé" (by decide)).reject_eq_error
  rintro ⟨found, hfound, hstop⟩
  cases hagrees.trans hfound
  exact absurd hstop (by decide)

end Table

end LexGen
