import LexGen.Pattern.Grammar
import LexGen.Proofs.Checked

/-!
# Patterns with every concatenation written out

`Symbol.Spells` is the grammar of patterns after `Pattern.concatenated`: there are no classes, and
two operands never stand side by side. A pattern without classes that derives a tree spells the same
tree once its concatenations are written out (`Piece.Derives.spells`), because a derived text starts
where an operand can start and ends where one can end, so a mark is written exactly where the
grammar puts two operands side by side.
-/

namespace LexGen

/-- The symbols spell the tree at the level, with every concatenation written out. -/
inductive Symbol.Spells : Level → List Symbol → Regex → Prop where
  | literal (c : Char) : Spells .atom [.literal c] (.literal c)
  | group {inner : List Symbol} {regex : Regex} :
    Spells .union inner regex → Spells .atom (.openParen :: inner ++ [.closeParen]) regex
  | ofAtom {symbols : List Symbol} {regex : Regex} :
    Spells .atom symbols regex → Spells .repeated symbols regex
  | repeated {inner : List Symbol} {regex : Regex} (mark : Repetition) :
    Spells .repeated inner regex →
      Spells .repeated (inner ++ [.operator (.unary mark)]) (.repeated mark regex)
  | ofRepeated {symbols : List Symbol} {regex : Regex} :
    Spells .repeated symbols regex → Spells .concat symbols regex
  | concat {front back : List Symbol} {left right : Regex} :
    Spells .concat front left → Spells .repeated back right →
      Spells .concat (front ++ .operator (.binary .concat) :: back) (.concat left right)
  | ofConcat {symbols : List Symbol} {regex : Regex} :
    Spells .concat symbols regex → Spells .union symbols regex
  | union {front back : List Symbol} {left right : Regex} :
    Spells .union front left → Spells .concat back right →
      Spells .union (front ++ .operator (.binary .union) :: back) (.union left right)

namespace Pattern

/-! ## Where marks are written -/

theorem concatenated_cons_of_not_ends {a : Char} (rest : List Char) (h : endsOperand a = false) :
    concatenated (a :: rest) = a :: concatenated rest := by
  cases rest with
  | nil => rfl
  | cons b rest => simp [concatenated, h]

/-- No mark is written in front of a character that no operand starts with. -/
theorem concatenated_append_of_not_starts (front : List Char) {b : Char} (back : List Char)
    (h : startsOperand b = false) :
    concatenated (front ++ b :: back) = concatenated front ++ concatenated (b :: back) := by
  induction front with
  | nil => rfl
  | cons a front ih =>
    cases front with
    | nil => simp [concatenated, h]
    | cons c front =>
      rw [List.cons_append, List.cons_append, concatenated, concatenated]
      rw [List.cons_append] at ih
      split <;> simp [ih]

/-- A mark is written between two operands. -/
theorem concatenated_append_of_operands (front : List Char) {a b : Char} (back : List Char)
    (ha : endsOperand a = true) (hb : startsOperand b = true) :
    concatenated (front ++ a :: b :: back) =
      concatenated (front ++ [a]) ++ '·' :: concatenated (b :: back) := by
  induction front with
  | nil => simp [concatenated, ha, hb]
  | cons c front ih =>
    cases front with
    | nil =>
      simp only [List.cons_append, List.nil_append, concatenated, ha, hb, Bool.and_self, if_true]
      split <;> simp
    | cons d front =>
      simp only [List.cons_append] at ih ⊢
      rw [concatenated, concatenated, ih]
      split <;> simp

/-- The symbols of a text with every concatenation written out. -/
def marked (text : List Char) : List Symbol := (concatenated text).map Symbol.ofChar

/-- The text starts where an operand can start and ends where one can end. -/
structure Bounded (text : List Char) : Prop where
  starts : ∃ a rest, text = a :: rest ∧ startsOperand a = true
  ends : ∃ front b, text = front ++ [b] ∧ endsOperand b = true

theorem Bounded.singleton {c : Char} (h : Symbol.isLiteral c = true) : Bounded [c] where
  starts := ⟨c, [], rfl, by simp [startsOperand, h]⟩
  ends := ⟨[], c, rfl, by simp [endsOperand, h]⟩

/-- A text from the start of one bounded text to the end of another is bounded. -/
theorem Bounded.append {front back : List Char} (hfront : Bounded front) (middle : List Char)
    (hback : Bounded back) : Bounded (front ++ (middle ++ back)) where
  starts := by
    obtain ⟨a, rest, rfl, ha⟩ := hfront.starts
    exact ⟨a, rest ++ (middle ++ back), rfl, ha⟩
  ends := by
    obtain ⟨rest, b, rfl, hb⟩ := hback.ends
    exact ⟨front ++ (middle ++ rest), b, by simp, hb⟩

theorem Bounded.append_mark {text : List Char} (h : Bounded text) (mark : Repetition) :
    Bounded (text ++ [(Operator.unary mark).char]) where
  starts := by
    obtain ⟨a, rest, rfl, ha⟩ := h.starts
    exact ⟨a, rest ++ [(Operator.unary mark).char], rfl, ha⟩
  ends := ⟨text, _, rfl, by cases mark <;> decide⟩

theorem Bounded.group (inner : List Char) : Bounded ('(' :: inner ++ [')']) where
  starts := ⟨'(', inner ++ [')'], rfl, by decide⟩
  ends := ⟨'(' :: inner, ')', rfl, by decide⟩

theorem marked_append_of_bounded {front back : List Char} (hfront : Bounded front)
    (hback : Bounded back) :
    marked (front ++ back) = marked front ++ .operator (.binary .concat) :: marked back := by
  obtain ⟨before, a, rfl, ha⟩ := hfront.ends
  obtain ⟨b, after, rfl, hb⟩ := hback.starts
  have hmark := concatenated_append_of_operands before after ha hb
  rw [marked, List.append_assoc, List.singleton_append, hmark, List.map_append]
  rfl

theorem marked_append_binary (front : List Char) (joint : Joint) (back : List Char) :
    marked (front ++ (Operator.binary joint).char :: back) =
      marked front ++ .operator (.binary joint) :: marked back := by
  have hs : startsOperand (Operator.binary joint).char = false := by cases joint <;> decide
  have he : endsOperand (Operator.binary joint).char = false := by cases joint <;> decide
  rw [marked, concatenated_append_of_not_starts front back hs, concatenated_cons_of_not_ends back he,
    List.map_append, List.map_cons, Symbol.ofChar_char]
  rfl

theorem marked_append_unary (front : List Char) (mark : Repetition) :
    marked (front ++ [(Operator.unary mark).char]) =
      marked front ++ [.operator (.unary mark)] := by
  have hs : startsOperand (Operator.unary mark).char = false := by cases mark <;> decide
  rw [marked, concatenated_append_of_not_starts front [] hs, List.map_append]
  simp [concatenated, Symbol.ofChar_char, marked]

theorem marked_group (inner : List Char) :
    marked ('(' :: inner ++ [')']) = .openParen :: marked inner ++ [.closeParen] := by
  have hopen : endsOperand '(' = false := by decide
  have hclose : startsOperand ')' = false := by decide
  rw [marked, List.cons_append, concatenated_cons_of_not_ends _ hopen,
    concatenated_append_of_not_starts inner [] hclose]
  simp [concatenated, marked, Symbol.ofChar]

theorem marked_literal {c : Char} (h : Symbol.isLiteral c = true) : marked [c] = [.literal c] := by
  have hc : Symbol.ofChar c = .literal c := Symbol.ofChar_eq_literal_iff.2 ⟨h, rfl⟩
  simp [marked, concatenated, hc]

end Pattern

/-! ## Expansion -/

namespace Piece

/-- The text without classes that the pieces stand for. -/
def expandedAll (pieces : List Piece) : Except PatternError (List Char) :=
  (pieces.mapM expanded).map List.flatten

theorem expandedAll_append {front back : List Piece} {text : List Char} :
    expandedAll (front ++ back) = .ok text ↔
      ∃ before after, expandedAll front = .ok before ∧ expandedAll back = .ok after ∧
        text = before ++ after := by
  simp only [expandedAll, List.mapM_append, Checked.map_eq_ok_iff, Checked.bind_eq_ok_iff]
  constructor
  · rintro ⟨_, ⟨before, hf, after, hb, h⟩, rfl⟩
    cases h
    exact ⟨_, _, ⟨before, hf, rfl⟩, ⟨after, hb, rfl⟩, List.flatten_append⟩
  · rintro ⟨_, _, ⟨before, hf, rfl⟩, ⟨after, hb, rfl⟩, rfl⟩
    exact ⟨before ++ after, ⟨before, hf, after, hb, rfl⟩, List.flatten_append⟩

theorem expandedAll_cons_char {pieces : List Piece} {text : List Char} (c : Char)
    (h : expandedAll pieces = .ok text) : expandedAll (.char c :: pieces) = .ok (c :: text) := by
  have happend : expandedAll ([.char c] ++ pieces) = .ok ([c] ++ text) :=
    expandedAll_append.2 ⟨[c], text, rfl, h, rfl⟩
  exact happend

theorem expandedAll_charClass {content members : List Char}
    (h : CharClass.read content = .ok members) :
    expandedAll [.charClass content] = .ok (CharClass.unionText members) := by
  have hexpanded : expanded (.charClass content) = .ok (CharClass.unionText members) := by
    rw [expanded, h, Checked.map_ok]
  simp [expandedAll, hexpanded]

end Piece

/-- A class whose members can all be literals is accepted if it has any. -/
theorem CharClass.read_eq_ok_iff {content members : List Char} :
    CharClass.read content = .ok members ↔
      CharClass.members content = members ∧ members ≠ [] ∧
        ∀ c ∈ members, Symbol.isLiteral c = true := by
  rw [CharClass.read]
  split
  next c hc =>
    have hm : c ∈ CharClass.members content := List.mem_of_find?_eq_some hc
    have hreserved : Symbol.isLiteral c = false := by simpa using List.find?_some hc
    constructor
    · intro h
      cases h
    · rintro ⟨rfl, -, hall⟩
      rw [hall c hm] at hreserved
      cases hreserved
  next hn =>
    have hall : ∀ c ∈ CharClass.members content, Symbol.isLiteral c = true := by
      simpa using List.find?_eq_none.1 hn
    constructor
    · intro h
      split at h
      · cases h
      next hne =>
        cases h
        exact ⟨rfl, by simpa using hne, hall⟩
    · rintro ⟨rfl, hne, -⟩
      rw [if_neg (by simpa using hne)]

/-- The members of a class written as a union spell the union. -/
theorem Symbol.Spells.members {text : List Char} {regex : Regex} {others : List Char}
    (h : Symbol.Spells .union (Pattern.marked text) regex)
    (hothers : ∀ c ∈ others, Symbol.isLiteral c = true) :
    Symbol.Spells .union (Pattern.marked (text ++ others.flatMap fun c => ['|', c]))
      (others.foldl (fun regex c => .union regex (.literal c)) regex) := by
  induction others generalizing text regex with
  | nil => simpa using h
  | cons c others ih =>
    obtain ⟨hc, hrest⟩ := List.forall_mem_cons.1 hothers
    have hliteral : Symbol.Spells .concat (Pattern.marked [c]) (.literal c) := by
      rw [Pattern.marked_literal hc]
      exact .ofRepeated (.ofAtom (.literal c))
    have hstep := Symbol.Spells.union h hliteral
    have hmarked : Pattern.marked (text ++ ['|', c]) =
        Pattern.marked text ++ .operator (.binary .union) :: Pattern.marked [c] :=
      Pattern.marked_append_binary text .union [c]
    rw [← hmarked] at hstep
    have hall := ih hstep hrest
    rw [List.append_assoc] at hall
    exact hall

theorem CharClass.unionText_cons (first : Char) (others : List Char) :
    CharClass.unionText (first :: others) =
      '(' :: ([first] ++ others.flatMap fun c => ['|', c]) ++ [')'] := by
  have h : (first :: others).intersperse '|' = [first] ++ others.flatMap fun c => ['|', c] := by
    induction others generalizing first with
    | nil => rfl
    | cons second others ih => rw [List.intersperse_cons_cons, ih]; rfl
  rw [CharClass.unionText, h]

/-- A derived text is accepted by the expansion, and what it expands to spells the derived tree once
its concatenations are written out. -/
theorem Piece.Derives.spells {level : Level} {pieces : List Piece} {regex : Regex}
    (h : Piece.Derives level pieces regex) :
    ∃ text, Piece.expandedAll pieces = .ok text ∧
      Symbol.Spells level (Pattern.marked text) regex ∧ Pattern.Bounded text := by
  induction h with
  | @literal c hc =>
    refine ⟨[c], rfl, ?_, .singleton hc⟩
    rw [Pattern.marked_literal hc]
    exact .literal c
  | @charClass content others first hmembers hliteral =>
    have hread : CharClass.read content = .ok (first :: others) :=
      CharClass.read_eq_ok_iff.2 ⟨hmembers, by simp, hliteral⟩
    obtain ⟨hfirst, hothers⟩ := List.forall_mem_cons.1 hliteral
    have hspell : Symbol.Spells .union (Pattern.marked [first]) (.literal first) := by
      rw [Pattern.marked_literal hfirst]
      exact .ofConcat (.ofRepeated (.ofAtom (.literal first)))
    refine ⟨_, expandedAll_charClass hread, ?_, ?_⟩
    · rw [CharClass.unionText_cons, Pattern.marked_group]
      exact .group (hspell.members hothers)
    · rw [CharClass.unionText_cons]
      exact .group _
  | group _ ih =>
    obtain ⟨text, htext, hspell, _⟩ := ih
    refine ⟨'(' :: text ++ [')'], ?_, ?_, .group text⟩
    · exact expandedAll_append.2 ⟨'(' :: text, [')'], expandedAll_cons_char _ htext, rfl, rfl⟩
    · rw [Pattern.marked_group]
      exact .group hspell
  | ofAtom _ ih =>
    obtain ⟨text, htext, hspell, hbound⟩ := ih
    exact ⟨text, htext, .ofAtom hspell, hbound⟩
  | repeated mark _ ih =>
    obtain ⟨text, htext, hspell, hbound⟩ := ih
    refine ⟨text ++ [(Operator.unary mark).char], ?_, ?_, hbound.append_mark mark⟩
    · exact expandedAll_append.2 ⟨text, _, htext, rfl, rfl⟩
    · rw [Pattern.marked_append_unary]
      exact .repeated mark hspell
  | ofRepeated _ ih =>
    obtain ⟨text, htext, hspell, hbound⟩ := ih
    exact ⟨text, htext, .ofRepeated hspell, hbound⟩
  | juxtaposed _ _ ihf ihb =>
    obtain ⟨front, hfront, hsf, hbf⟩ := ihf
    obtain ⟨back, hback, hsb, hbb⟩ := ihb
    refine ⟨front ++ back, expandedAll_append.2 ⟨front, back, hfront, hback, rfl⟩, ?_,
      hbf.append [] hbb⟩
    rw [Pattern.marked_append_of_bounded hbf hbb]
    exact .concat hsf hsb
  | concat _ _ ihf ihb =>
    obtain ⟨front, hfront, hsf, hbf⟩ := ihf
    obtain ⟨back, hback, hsb, hbb⟩ := ihb
    refine ⟨front ++ (Operator.binary .concat).char :: back, ?_, ?_, hbf.append ['·'] hbb⟩
    · exact expandedAll_append.2 ⟨front, _, hfront, expandedAll_cons_char _ hback, rfl⟩
    · rw [Pattern.marked_append_binary]
      exact .concat hsf hsb
  | ofConcat _ ih =>
    obtain ⟨text, htext, hspell, hbound⟩ := ih
    exact ⟨text, htext, .ofConcat hspell, hbound⟩
  | union _ _ ihf ihb =>
    obtain ⟨front, hfront, hsf, hbf⟩ := ihf
    obtain ⟨back, hback, hsb, hbb⟩ := ihb
    refine ⟨front ++ (Operator.binary .union).char :: back, ?_, ?_, hbf.append ['|'] hbb⟩
    · exact expandedAll_append.2 ⟨front, _, hfront, expandedAll_cons_char _ hback, rfl⟩
    · rw [Pattern.marked_append_binary]
      exact .union hsf hsb

end LexGen
