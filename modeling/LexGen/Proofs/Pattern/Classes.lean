import LexGen.Proofs.Nfa.Compile
import Mathlib.Data.List.Perm.Basic

/-!
# Classes written out

What a class lists is said by rules (`CharClass.Lists`): a character, a dash and a further character
are a range wherever all three are still to be read, and any other character is a member itself. A
range has the characters between its ends, each once (`CharClass.Between`). A class is good if it
lists something and nothing reserved, and then it is written as a union; otherwise it is bad, for one
reason only (`CharClass.read_eq_error_iff`).

A pattern is expanded piece by piece (`Pattern.expanded_eq_ok_iff`), and the leftmost bad class is
why it is refused (`Pattern.expanded_eq_error_iff`).
-/

namespace LexGen

namespace CharClass

/-! ## Members -/

theorem ofCodePoint?_eq_some_iff {n : Nat} {c : Char} : ofCodePoint? n = some c ↔ c.toNat = n := by
  unfold ofCodePoint?
  split
  next hvalid =>
    have hback : (Char.ofNat n).toNat = n := by
      unfold Char.ofNat
      rw [dif_pos hvalid]
      rfl
    rw [Option.some.injEq, ← Char.toNat_inj, hback, eq_comm]
  next hinvalid =>
    refine iff_of_false (by simp) ?_
    rintro rfl
    exact hinvalid c.valid

/-- The members are the characters from `low` to `high`, each once and in ascending order. -/
structure Between (low high : Char) (members : List Char) : Prop where
  ascending : members.Pairwise (· < ·)
  mem_iff : ∀ c, c ∈ members ↔ low ≤ c ∧ c ≤ high

theorem between_range (low high : Char) : Between low high (range low high) where
  ascending := by
    refine List.Pairwise.filterMap _ ?_ (List.pairwise_lt_range' 1)
    intro m n hlt c hc d hd
    rw [ofCodePoint?_eq_some_iff] at hc hd
    rw [← hc, ← hd] at hlt
    exact hlt
  mem_iff c := by
    simp only [range, List.mem_filterMap, ofCodePoint?_eq_some_iff, List.mem_range'_1]
    show _ ↔ low.toNat ≤ c.toNat ∧ c.toNat ≤ high.toNat
    constructor
    · rintro ⟨n, hn, rfl⟩
      omega
    · intro h
      exact ⟨c.toNat, by omega, rfl⟩

theorem Between.nodup {low high : Char} {members : List Char} (h : Between low high members) :
    members.Nodup := by
  refine h.ascending.imp ?_
  rintro c _ hlt rfl
  exact Char.lt_irrefl _ hlt

theorem Between.unique {low high : Char} {a b : List Char} (ha : Between low high a)
    (hb : Between low high b) : a = b := by
  have hperm : a.Perm b := by
    refine (List.perm_ext_iff_of_nodup ha.nodup hb.nodup).2 ?_
    intro c
    rw [ha.mem_iff, hb.mem_iff]
  refine hperm.eq_of_pairwise ?_ ha.ascending hb.ascending
  intro c d _ _ hcd hdc
  exact absurd (Char.lt_trans hcd hdc) (Char.lt_irrefl _)

/-- The text between the brackets lists the members, read from left to right. -/
inductive Lists : List Char → List Char → Prop where
  | nil : Lists [] []
  | range {low high : Char} {rest between members : List Char} :
    Between low high between → Lists rest members →
      Lists (low :: '-' :: high :: rest) (between ++ members)
  | char {c : Char} {rest members : List Char} :
    (∀ high after, rest ≠ '-' :: high :: after) → Lists rest members →
      Lists (c :: rest) (c :: members)

theorem lists_members (content : List Char) : Lists content (members content) := by
  induction content using members.induct with
  | case1 low high rest ih => exact .range (between_range low high) ih
  | case2 c rest hrest ih =>
    rw [members]
    · exact .char hrest ih
    · exact hrest
  | case3 => exact .nil

theorem Lists.members_eq {content listed : List Char} (h : Lists content listed) :
    members content = listed := by
  induction h with
  | nil => rfl
  | range hbetween _ ih => rw [members, (between_range _ _).unique hbetween, ih]
  | char hrest _ ih =>
    rw [members, ih]
    exact hrest

theorem lists_iff {content listed : List Char} :
    Lists content listed ↔ members content = listed :=
  ⟨Lists.members_eq, fun h => h ▸ lists_members content⟩

/-! ## Good and bad classes -/

theorem isLiteral_iff {c : Char} : Symbol.isLiteral c = true ↔ c ∉ Symbol.reserved := by
  simp [Symbol.isLiteral]

/-- The class lists the members, and they can be written as a union: there is one, and none is
reserved. -/
structure Good (content members : List Char) : Prop where
  lists : Lists content members
  ne_nil : members ≠ []
  not_reserved : ∀ c ∈ members, c ∉ Symbol.reserved

/-- The class cannot be written as a union. A reserved member is a reason before a missing one is. -/
inductive Bad : (content : List Char) → PatternError → Prop where
  | reserved {content before after : List Char} {c : Char} :
    Lists content (before ++ c :: after) → (∀ d ∈ before, d ∉ Symbol.reserved) →
      c ∈ Symbol.reserved → Bad content (.reservedInClass c)
  | empty {content : List Char} : Lists content [] → Bad content (.emptyClass (String.ofList content))

theorem read_eq_ok_iff_good {content members : List Char} :
    read content = .ok members ↔ Good content members := by
  rw [read_eq_ok_iff]
  simp only [isLiteral_iff, ← lists_iff]
  exact ⟨fun ⟨hlists, hne, hall⟩ => ⟨hlists, hne, hall⟩, fun h => ⟨h.1, h.2, h.3⟩⟩

theorem read_eq_error_iff {content : List Char} {cause : PatternError} :
    read content = .error cause ↔ Bad content cause := by
  constructor
  · intro h
    rw [read] at h
    split at h
    next c hc =>
      cases h
      obtain ⟨hreserved, before, after, hsplit, hbefore⟩ := List.find?_eq_some_iff_append.1 hc
      refine .reserved (lists_iff.2 hsplit) ?_ (by simpa [Symbol.isLiteral] using hreserved)
      intro d hd
      exact isLiteral_iff.1 (by simpa using hbefore d hd)
    next =>
      split at h
      next hempty =>
        cases h
        exact .empty (lists_iff.2 (List.isEmpty_iff.1 hempty))
      next => cases h
  · intro h
    cases h with
    | @reserved before after c hlists hbefore hreserved =>
      have hfirst : (members content).find? (!Symbol.isLiteral ·) = some c := by
        refine List.find?_eq_some_iff_append.2 ⟨?_, before, after, hlists.members_eq, ?_⟩
        · simpa [Symbol.isLiteral] using hreserved
        · intro d hd
          simpa using isLiteral_iff.2 (hbefore d hd)
      simp only [read, hfirst]
    | empty hlists =>
      rw [read, hlists.members_eq]
      rfl

end CharClass

/-! ## Patterns -/

namespace Piece

/-- A character stays as it is, and a class becomes the union of its members in parentheses. -/
inductive ExpandsTo : Piece → List Char → Prop where
  | char (c : Char) : ExpandsTo (.char c) [c]
  | charClass {content members : List Char} : CharClass.Good content members →
    ExpandsTo (.charClass content) ('(' :: members.intersperse '|' ++ [')'])

theorem expanded_eq_ok_iff {piece : Piece} {text : List Char} :
    piece.expanded = .ok text ↔ piece.ExpandsTo text := by
  cases piece with
  | char c =>
    constructor
    · intro h
      cases h
      exact .char c
    · intro h
      cases h
      rfl
  | charClass content =>
    rw [expanded, Checked.map_eq_ok_iff]
    simp only [CharClass.read_eq_ok_iff_good]
    constructor
    · rintro ⟨members, hgood, rfl⟩
      exact .charClass hgood
    · intro h
      cases h with
      | charClass hgood => exact ⟨_, hgood, rfl⟩

theorem expanded_eq_error_iff {piece : Piece} {cause : PatternError} :
    piece.expanded = .error cause ↔
      ∃ content, piece = .charClass content ∧ CharClass.Bad content cause := by
  cases piece with
  | char c => exact iff_of_false (by cases ·) (by rintro ⟨_, h, _⟩; cases h)
  | charClass content =>
    rw [expanded, Checked.map_eq_error_iff, CharClass.read_eq_error_iff]
    simp

/-- A piece is written without classes unless it is a class that is not good. -/
theorem exists_expandsTo_iff {piece : Piece} : (∃ text, piece.ExpandsTo text) ↔
    ∀ content, piece = .charClass content → ∃ members, CharClass.Good content members := by
  constructor
  · rintro ⟨_, h⟩ content rfl
    cases h with
    | charClass hgood => exact ⟨_, hgood⟩
  · intro h
    cases piece with
    | char c => exact ⟨_, .char c⟩
    | charClass content =>
      obtain ⟨members, hgood⟩ := h content rfl
      exact ⟨_, .charClass hgood⟩

end Piece

namespace Pattern

theorem expanded_eq_ok_iff {pattern text : List Char} : expanded pattern = .ok text ↔
    ∃ texts, List.Forall₂ Piece.ExpandsTo (Piece.cut none pattern) texts ∧ texts.flatten = text := by
  rw [expanded, Checked.map_eq_ok_iff]
  simp only [Checked.mapM_eq_ok_iff, Piece.expanded_eq_ok_iff]

theorem expanded_eq_error_iff {pattern : List Char} {cause : PatternError} :
    expanded pattern = .error cause ↔ ∃ front content back,
      Piece.cut none pattern = front ++ .charClass content :: back ∧ CharClass.Bad content cause ∧
        ∀ piece ∈ front, ∃ text, piece.ExpandsTo text := by
  rw [expanded, Checked.map_eq_error_iff, Checked.mapM_eq_error_iff]
  simp only [Piece.expanded_eq_ok_iff, Piece.expanded_eq_error_iff]
  constructor
  · rintro ⟨front, _, back, hcut, ⟨content, rfl, hbad⟩, hfront⟩
    exact ⟨front, content, back, hcut, hbad, hfront⟩
  · rintro ⟨front, content, back, hcut, hbad, hfront⟩
    exact ⟨front, _, back, hcut, ⟨content, rfl, hbad⟩, hfront⟩

/-- There is an expansion exactly if every class is good. -/
theorem exists_expanded_iff {pattern : List Char} : (∃ text, expanded pattern = .ok text) ↔
    ∀ content, .charClass content ∈ Piece.cut none pattern →
      ∃ members, CharClass.Good content members := by
  have hall : (∃ text, expanded pattern = .ok text) ↔
      ∃ texts, (Piece.cut none pattern).mapM Piece.expanded = .ok texts := by
    simp only [expanded, Checked.map_eq_ok_iff]
    exact ⟨fun ⟨_, texts, h, _⟩ => ⟨texts, h⟩, fun ⟨texts, h⟩ => ⟨_, texts, h, rfl⟩⟩
  rw [hall, Checked.exists_mapM_eq_ok_iff]
  simp only [Piece.expanded_eq_ok_iff, Piece.exists_expandsTo_iff]
  constructor
  · intro h content hm
    exact h _ hm content rfl
  · rintro h _ hm content rfl
    exact h content hm

end Pattern

/-! ## What a class stands for -/

/-- A class alone is compiled, and its automaton accepts each member as a word of one character. -/
theorem Nfa.exists_compile_charClass {content members : List Char} (hclose : ']' ∉ content)
    (hgood : CharClass.Good content members) :
    ∃ nfa, compile (String.ofList ('[' :: content ++ [']'])) = .ok nfa ∧
      ∀ word, nfa.accepts word = true ↔ ∃ c ∈ members, word = [c] := by
  obtain ⟨first, others, rfl⟩ := List.exists_cons_of_ne_nil hgood.ne_nil
  have hreads : Piece.Reads ('[' :: (content ++ [']'])) [.charClass content] :=
    .charClass hclose .nil
  have hatom : Piece.Derives .atom [.charClass content] (.ofMembers first others) :=
    .charClass hgood.lists.members_eq fun c hc => CharClass.isLiteral_iff.2 (hgood.not_reserved c hc)
  have hderives : Pattern.Derives (String.ofList ('[' :: content ++ [']'])).toList
      (.ofMembers first others) := by
    rw [Pattern.Derives, String.toList_ofList, List.cons_append, hreads.cut_eq]
    exact .ofConcat (.ofRepeated (.ofAtom hatom))
  refine ⟨_, compile_eq_ok_iff.2 ⟨_, hderives, rfl⟩, ?_⟩
  intro word
  rw [accepts_iff, recognizes_ofRegex_iff, Regex.matches_ofMembers_iff]

namespace Pattern

/-- What a pattern that is read as the pieces is expanded to. -/
structure Expansion (pattern : List Char) (pieces : List Piece) : Prop where
  reads : Piece.Reads pattern pieces
  reads_unique : ∀ other, Piece.Reads pattern other → other = pieces
  exists_iff : (∃ text, expanded pattern = .ok text) ↔
    ∀ content, .charClass content ∈ pieces → ∃ members, CharClass.Good content members
  ok_iff : ∀ text, expanded pattern = .ok text ↔
    ∃ texts, List.Forall₂ Piece.ExpandsTo pieces texts ∧ texts.flatten = text
  /-- The leftmost bad class is the reason. -/
  error_iff : ∀ cause, expanded pattern = .error cause ↔ ∃ front content back,
    pieces = front ++ .charClass content :: back ∧ CharClass.Bad content cause ∧
      ∀ piece ∈ front, ∃ text, piece.ExpandsTo text

/-- A pattern is read as its pieces and expanded piece by piece, what a class lists is determined by
its text, and a class stands for what it lists. -/
theorem exists_expansion :
    (∀ pattern, ∃ pieces, Expansion pattern pieces) ∧
    (∀ content, ∃! members, CharClass.Lists content members) ∧
    ∀ content members, ']' ∉ content → CharClass.Good content members →
      ∃ nfa, Nfa.compile (String.ofList ('[' :: content ++ [']'])) = .ok nfa ∧
        ∀ word, nfa.accepts word = true ↔ ∃ c ∈ members, word = [c] := by
  refine ⟨?_, ?_, fun _ _ => Nfa.exists_compile_charClass⟩
  · intro pattern
    refine ⟨Piece.cut none pattern, Piece.reads_cut pattern, ?_, exists_expanded_iff,
      fun _ => expanded_eq_ok_iff, fun _ => expanded_eq_error_iff⟩
    exact fun other hother => hother.cut_eq.symm
  · intro content
    refine ⟨CharClass.members content, CharClass.lists_members content, ?_⟩
    exact fun other hother => hother.members_eq.symm

/-- A dash at the end and one behind a range are members, and a `[` without a `]` is no class. Of
three classes the second one is bad, since its range is empty, and so is the third one. -/
theorem exists_expansion_dashes :
    expanded "x[b-d-f]y[".toList = .ok "x(b|c|d|-|f)y[".toList ∧
    expanded "[a-][z-a][*]".toList = .error (.emptyClass "z-a") ∧
    ∃ nfa, Nfa.compile "[a-]" = .ok nfa ∧ nfa.accepts ['-'] = true := by
  obtain ⟨hexpansion, -, hlanguage⟩ := exists_expansion
  have hrange : CharClass.Good ['b', '-', 'd', '-', 'f'] ['b', 'c', 'd', '-', 'f'] :=
    ⟨CharClass.lists_iff.2 (by decide), by simp, by simp [Symbol.reserved]⟩
  have hdash : CharClass.Good ['a', '-'] ['a', '-'] :=
    ⟨CharClass.lists_iff.2 (by decide), by simp, by simp [Symbol.reserved]⟩
  have hempty : CharClass.Bad ['z', '-', 'a'] (.emptyClass "z-a") :=
    .empty (CharClass.lists_iff.2 (by decide))
  refine ⟨?_, ?_, ?_⟩
  · obtain ⟨pieces, h⟩ := hexpansion "x[b-d-f]y[".toList
    have hreads : Piece.Reads "x[b-d-f]y[".toList [.char 'x',
        .charClass ['b', '-', 'd', '-', 'f'], .char 'y', .char '['] :=
      Piece.reads_iff.2 (by decide)
    rw [h.ok_iff, ← h.reads_unique _ hreads]
    exact ⟨_, .cons (.char _) (.cons (.charClass hrange) (.cons (.char _) (.cons (.char _) .nil))),
      rfl⟩
  · obtain ⟨pieces, h⟩ := hexpansion "[a-][z-a][*]".toList
    have hreads : Piece.Reads "[a-][z-a][*]".toList [.charClass ['a', '-'],
        .charClass ['z', '-', 'a'], .charClass ['*']] := Piece.reads_iff.2 (by decide)
    rw [h.error_iff, ← h.reads_unique _ hreads]
    refine ⟨[_], _, [_], rfl, hempty, ?_⟩
    simpa using ⟨_, .charClass hdash⟩
  · obtain ⟨nfa, hnfa, haccepts⟩ := hlanguage ['a', '-'] ['a', '-'] (by decide) hdash
    exact ⟨nfa, hnfa, (haccepts _).2 ⟨'-', by decide, rfl⟩⟩

end Pattern

end LexGen
