import LexGen.Proofs.Pattern.Grammatical

/-!
# Patterns without classes

A text without classes is brought into the postorder of its syntax tree
(`Pattern.DerivesPlain.postorder_eq`), and different trees have different postorders. A tree does not
show how it was written: any part may stand in parentheses, and the mark of a concatenation may be
left out. `Written` keeps these choices, and the texts that the grammar derives are exactly those
that some `Written` gives (`Pattern.derivesPlain_iff_written`). So the postorder is the same for all
ways to write a tree.
-/

namespace LexGen

/-- Different trees have different postorders. -/
theorem Regex.postorder_injective {a b : Regex} (h : a.postorder = b.postorder) : a = b := by
  have hsame : (.ok a : Except PatternError Regex) = .ok b := by
    rw [← ofPostorder_postorder a, h, ofPostorder_postorder]
  exact Except.ok.inj hsame

/-! ## The grammar and the reader -/

namespace Pattern

variable {text : List Char} {regex : Regex}

theorem expandedAll_map_char (text : List Char) : Piece.expandedAll (text.map .char) = .ok text := by
  induction text with
  | nil => rfl
  | cons c rest ih => exact Piece.expandedAll_cons_char c ih

/-- A derived text is brought into the postorder of its tree. -/
theorem DerivesPlain.postorder_eq (h : DerivesPlain text regex) :
    postorder text = .ok regex.postorder := by
  obtain ⟨expanded, hexpanded, hspell, -⟩ := Piece.Derives.spells h
  rw [expandedAll_map_char] at hexpanded
  cases hexpanded
  exact hspell.arrange_eq

theorem DerivesPlain.unique {other : Regex} (h : DerivesPlain text regex)
    (ho : DerivesPlain text other) : other = regex := by
  apply Regex.postorder_injective
  have hsame := ho.postorder_eq
  rw [h.postorder_eq] at hsame
  exact (Except.ok.inj hsame).symm

/-- What is read as a tree is derived. -/
theorem derivesPlain_of_ofPostorder {items : List Item} (hitems : postorder text = .ok items)
    (h : Regex.ofPostorder [] items = .ok regex) : DerivesPlain text regex := by
  obtain ⟨halternates, hbalanced, -⟩ := Regex.shape_of_postorder hitems h
  have haccepted : ∀ piece ∈ text.map Piece.char, piece.Accepted := by
    intro piece hp
    obtain ⟨c, -, rfl⟩ := List.mem_map.1 hp
    exact ⟨[c], rfl⟩
  have hsymbols : (text.map Piece.char).map Piece.symbol = text.map Symbol.ofChar := List.map_map ..
  obtain ⟨derived, hderived⟩ : Piece.Derivable .union (text.map Piece.char) :=
    Piece.derivable_of_shape haccepted (hsymbols ▸ halternates) (hsymbols ▸ hbalanced)
  have hpostorder := DerivesPlain.postorder_eq hderived
  rw [hitems] at hpostorder
  rw [Except.ok.inj hpostorder, Regex.ofPostorder_postorder] at h
  exact Except.ok.inj h ▸ hderived

end Pattern

/-! ## Ways to write a tree -/

/-- An expression as it is written: any part may stand in parentheses of its own, and concatenations
are marked or not. -/
inductive Written where
  | literal (c : Char)
  | concat (marked : Bool) (left right : Written)
  | union (left right : Written)
  | repeated (mark : Repetition) (inner : Written)
  | group (inner : Written)
  deriving DecidableEq, Repr

namespace Written

/-- The tree does not show how it is written. -/
def tree : Written → Regex
  | literal c => .literal c
  | concat _ left right => .concat left.tree right.tree
  | union left right => .union left.tree right.tree
  | repeated mark inner => .repeated mark inner.tree
  | group inner => inner.tree

/-- No literal is a reserved character. -/
def Unreserved : Written → Prop
  | literal c => Symbol.isLiteral c = true
  | concat _ left right | union left right => left.Unreserved ∧ right.Unreserved
  | repeated _ inner | group inner => inner.Unreserved

/-- How tightly the outermost part binds. -/
def level : Written → Level
  | literal _ | group _ => .atom
  | concat .. => .concat
  | union .. => .union
  | repeated .. => .repeated

/-- A part where an operand of a level is asked for: what binds looser needs parentheses. -/
def enclosed (asked level : Level) (text : List Char) : List Char :=
  if asked.precedence ≤ level.precedence then text else '(' :: text ++ [')']

/-- The text, with parentheses where they are needed and where they are asked for. -/
def text : Written → List Char
  | literal c => [c]
  | concat marked left right =>
    enclosed .concat left.level left.text ++
      (if marked then [(Operator.binary .concat).char] else []) ++
        enclosed .repeated right.level right.text
  | union left right =>
    left.text ++ (Operator.binary .union).char :: enclosed .concat right.level right.text
  | repeated mark inner =>
    enclosed .repeated inner.level inner.text ++ [(Operator.unary mark).char]
  | group inner => '(' :: inner.text ++ [')']

end Written

/-- What is derived at a level is derived at the looser ones. -/
theorem Piece.Derives.mono {tight loose : Level} {pieces : List Piece} {regex : Regex}
    (h : Piece.Derives tight pieces regex) (hle : loose.precedence ≤ tight.precedence) :
    Piece.Derives loose pieces regex := by
  cases tight with
  | union =>
    cases loose with
    | union => exact h
    | concat | repeated | atom => exact absurd hle (by decide)
  | concat =>
    cases loose with
    | union => exact .ofConcat h
    | concat => exact h
    | repeated | atom => exact absurd hle (by decide)
  | repeated =>
    cases loose with
    | union => exact .ofConcat (.ofRepeated h)
    | concat => exact .ofRepeated h
    | repeated => exact h
    | atom => exact absurd hle (by decide)
  | atom =>
    cases loose with
    | union => exact .ofConcat (.ofRepeated (.ofAtom h))
    | concat => exact .ofRepeated (.ofAtom h)
    | repeated => exact .ofAtom h
    | atom => exact h

namespace Written

theorem map_group (text : List Char) :
    ('(' :: text ++ [')']).map Piece.char = .char '(' :: text.map .char ++ [.char ')'] := by
  simp

theorem enclosed_of_le {asked level : Level} (h : asked.precedence ≤ level.precedence)
    (text : List Char) : enclosed asked level text = text := if_pos h

theorem union_le (level : Level) : Level.union.precedence ≤ level.precedence := by
  cases level <;> decide

/-- Parentheses make an operand of any level. -/
theorem derives_enclosed {level : Level} {text : List Char} {regex : Regex} (asked : Level)
    (h : Piece.Derives level (text.map .char) regex) :
    Piece.Derives asked ((enclosed asked level text).map .char) regex := by
  unfold enclosed
  split
  next hle => exact h.mono hle
  next =>
    rw [map_group]
    exact Piece.Derives.mono (.group (h.mono (union_le level))) (by cases asked <;> decide)

/-- What is written derives its tree. -/
theorem derives_text {written : Written} (h : written.Unreserved) :
    Piece.Derives written.level (written.text.map .char) written.tree := by
  induction written with
  | literal c => exact .literal h
  | concat marked left right ihl ihr =>
    have hleft := derives_enclosed .concat (ihl h.1)
    have hright := derives_enclosed .repeated (ihr h.2)
    cases marked with
    | false =>
      rw [text, if_neg Bool.false_ne_true, List.append_nil, List.map_append]
      exact .juxtaposed hleft hright
    | true =>
      rw [text, if_pos rfl, List.append_assoc, List.singleton_append, List.map_append, List.map_cons]
      exact .concat hleft hright
  | union left right ihl ihr =>
    rw [text, List.map_append, List.map_cons]
    exact .union ((ihl h.1).mono (union_le _)) (derives_enclosed .concat (ihr h.2))
  | repeated mark inner ih =>
    rw [text, List.map_append, List.map_singleton]
    exact .repeated mark (derives_enclosed .repeated (ih h))
  | group inner ih =>
    rw [text, map_group]
    exact .group ((ih h).mono (union_le _))

/-- Each derivation is a way to write its tree. -/
theorem exists_written {level : Level} {pieces : List Piece} {regex : Regex}
    (h : Piece.Derives level pieces regex) (hplain : ∀ content, .charClass content ∉ pieces) :
    ∃ written : Written, written.Unreserved ∧ written.tree = regex ∧
      written.text.map .char = pieces ∧ level.precedence ≤ written.level.precedence := by
  induction h with
  | @literal c hc => exact ⟨.literal c, hc, rfl, rfl, Nat.le_refl _⟩
  | charClass => exact absurd (List.mem_singleton_self _) (hplain _)
  | group _ ih =>
    obtain ⟨inner, hu, rfl, rfl, -⟩ := ih fun content hm => hplain content (by simp [hm])
    exact ⟨.group inner, hu, rfl, map_group _, Nat.le_refl _⟩
  | ofAtom _ ih | ofRepeated _ ih | ofConcat _ ih =>
    obtain ⟨written, hu, htree, htext, hle⟩ := ih hplain
    exact ⟨written, hu, htree, htext, Nat.le_trans (by decide) hle⟩
  | repeated mark _ ih =>
    obtain ⟨inner, hu, rfl, rfl, hle⟩ := ih fun content hm => hplain content (by simp [hm])
    refine ⟨.repeated mark inner, hu, rfl, ?_, Nat.le_refl _⟩
    simp [text, enclosed_of_le hle]
  | juxtaposed _ _ ihf ihb =>
    obtain ⟨left, hul, rfl, rfl, hlel⟩ := ihf fun content hm => hplain content (by simp [hm])
    obtain ⟨right, hur, rfl, rfl, hler⟩ := ihb fun content hm => hplain content (by simp [hm])
    refine ⟨.concat false left right, ⟨hul, hur⟩, rfl, ?_, Nat.le_refl _⟩
    simp [text, enclosed_of_le hlel, enclosed_of_le hler]
  | concat _ _ ihf ihb =>
    obtain ⟨left, hul, rfl, rfl, hlel⟩ := ihf fun content hm => hplain content (by simp [hm])
    obtain ⟨right, hur, rfl, rfl, hler⟩ := ihb fun content hm => hplain content (by simp [hm])
    refine ⟨.concat true left right, ⟨hul, hur⟩, rfl, ?_, Nat.le_refl _⟩
    simp [text, enclosed_of_le hlel, enclosed_of_le hler]
  | union _ _ ihf ihb =>
    obtain ⟨left, hul, rfl, rfl, -⟩ := ihf fun content hm => hplain content (by simp [hm])
    obtain ⟨right, hur, rfl, rfl, hler⟩ := ihb fun content hm => hplain content (by simp [hm])
    refine ⟨.union left right, ⟨hul, hur⟩, rfl, ?_, Nat.le_refl _⟩
    simp [text, enclosed_of_le hler]

end Written

namespace Pattern

theorem derivesPlain_of_written {written : Written} (h : written.Unreserved) :
    DerivesPlain written.text written.tree :=
  (Written.derives_text h).mono (Written.union_le _)

/-- The texts of the grammar are those that a tree can be written as. -/
theorem derivesPlain_iff_written {text : List Char} {regex : Regex} : DerivesPlain text regex ↔
    ∃ written : Written, written.Unreserved ∧ written.tree = regex ∧ written.text = text := by
  constructor
  · intro h
    obtain ⟨written, hunreserved, htree, htext, -⟩ := Written.exists_written h (by simp)
    have hinjective : Function.Injective Piece.char := fun _ _ heq => Piece.char.inj heq
    exact ⟨written, hunreserved, htree, hinjective.list_map htext⟩
  · rintro ⟨written, hunreserved, rfl, rfl⟩
    exact derivesPlain_of_written hunreserved

/-- A text of the grammar is brought into the postorder of its only tree, and the texts with a tree
are the ways to write it. So what may be left out, parentheses and marks, makes no difference. -/
theorem postorder_eq_of_sameTree :
    (∀ text regex, DerivesPlain text regex → postorder text = .ok regex.postorder ∧
      ∀ other, DerivesPlain text other → other = regex) ∧
    (∀ text regex, DerivesPlain text regex ↔
      ∃ written : Written, written.Unreserved ∧ written.tree = regex ∧ written.text = text) ∧
    ∀ a b : Written, a.Unreserved → b.Unreserved → a.tree = b.tree →
      postorder a.text = postorder b.text := by
  refine ⟨?_, fun _ _ => derivesPlain_iff_written, ?_⟩
  · intro text regex h
    exact ⟨h.postorder_eq, fun _ => h.unique⟩
  · intro a b ha hb htree
    rw [(derivesPlain_of_written ha).postorder_eq, (derivesPlain_of_written hb).postorder_eq, htree]

/-- The texts `ab|c*d` and `((a)·b)|((c))*d` have the same tree. -/
theorem postorder_eq_of_sameTree_groups :
    postorder "((a)·b)|((c))*d".toList = postorder "ab|c*d".toList ∧
    postorder "ab|c*d".toList = .ok [.literal 'a', .literal 'b', .operator (.binary .concat),
      .literal 'c', .operator (.unary .star), .literal 'd', .operator (.binary .concat),
      .operator (.binary .union)] := by
  let short : Written := .union (.concat false (.literal 'a') (.literal 'b'))
    (.concat false (.repeated .star (.literal 'c')) (.literal 'd'))
  let long : Written := .union (.group (.concat true (.group (.literal 'a')) (.literal 'b')))
    (.concat false (.repeated .star (.group (.group (.literal 'c')))) (.literal 'd'))
  have hshort : short.Unreserved := ⟨⟨rfl, rfl⟩, rfl, rfl⟩
  have hlong : long.Unreserved := ⟨⟨rfl, rfl⟩, rfl, rfl⟩
  obtain ⟨hpostorder, hderives, hsame⟩ := postorder_eq_of_sameTree
  exact ⟨hsame long short hlong hshort rfl,
    (hpostorder _ _ ((hderives _ _).2 ⟨short, hshort, rfl, rfl⟩)).1⟩

end Pattern

end LexGen
