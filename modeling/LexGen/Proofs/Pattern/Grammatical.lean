import LexGen.Proofs.Pattern.Reading
import LexGen.Proofs.Pattern.Steps

/-!
# What is read is grammatical

`Postorder.arrange` keeps literals and operators and pairs parentheses (`arrange_keeps`), and a tree
has one operand more than joints (`Regex.postorder_of_ofPostorder`, `Regex.count_postorder`). So in a
pattern that is read as a tree no operand is missing anywhere and every parenthesis has its partner.
From these two facts alone a derivation can be built by reading the pieces from left to right
(`Piece.derivable_of_shape`). Together with `Pattern.Derives.parse_eq` this says that exactly the
derivable patterns are read, each as the tree that it derives (`Regex.parse_eq_ok_iff_derives`).
-/

namespace LexGen

namespace Postorder

/-- What is written holds the literals and the joints that were read, and the parentheses pair up. -/
theorem arrange_keeps {symbols : List Symbol} {items : List Item}
    (h : arrange [] symbols = .ok items) :
    Symbol.Balanced 0 symbols ∧ items.filterMap Item.literal? = Symbol.literals symbols ∧
      items.countP Item.isBinary = Symbol.joints symbols := by
  refine ⟨exists_arrange_iff.1 ⟨items, h⟩, literals_of_arrange h, ?_⟩
  rw [(perm_of_arrange h).countP_eq, List.filterMap_nil, List.nil_append, List.countP_filterMap]
  refine List.countP_congr ?_
  rintro (c | ⟨mark | joint⟩ | _ | _) _ <;> simp [Symbol.item?, Item.isBinary, Symbol.isBinary]

end Postorder

namespace Regex

/-- A tree that is built is the tree whose postorder was read, behind those of the stack. -/
theorem postorder_of_ofPostorder {stack : List Regex} {items : List Item} {regex : Regex}
    (h : ofPostorder stack items = .ok regex) :
    regex.postorder = stack.reverse.flatMap postorder ++ items := by
  induction items generalizing stack with
  | nil =>
    rcases stack with _ | ⟨last, _ | ⟨second, below⟩⟩ <;> cases h
    simp
  | cons item items ih =>
    rcases item with c | ⟨mark | mark⟩
    · rw [ih (show ofPostorder (literal c :: stack) items = .ok regex from h)]
      simp [postorder]
    · cases stack with
      | nil => cases h
      | cons inner below =>
        rw [ih (show ofPostorder (repeated mark inner :: below) items = .ok regex from h)]
        simp [postorder]
    · rcases stack with _ | ⟨right, _ | ⟨left, below⟩⟩
      · cases h
      · cases h
      · rw [ih (show ofPostorder (joined mark left right :: below) items = .ok regex from h)]
        cases mark <;> simp [postorder, joined]

/-- A tree has one operand more than joints. -/
theorem count_postorder (regex : Regex) :
    (regex.postorder.filterMap Item.literal?).length =
      regex.postorder.countP Item.isBinary + 1 := by
  induction regex with
  | literal c => rfl
  | concat left right ihl ihr | union left right ihl ihr =>
    have hliteral : ∀ joint, [Item.operator (.binary joint)].filterMap Item.literal? = [] :=
      fun _ => rfl
    have hjoint : ∀ joint, [Item.operator (.binary joint)].countP Item.isBinary = 1 := fun _ => rfl
    simp only [postorder, List.filterMap_append, List.countP_append, List.length_append, ihl, ihr,
      hliteral, hjoint, List.length_nil]
    omega
  | repeated mark inner ih =>
    have hliteral : [Item.operator (.unary mark)].filterMap Item.literal? = [] := rfl
    have hjoint : [Item.operator (.unary mark)].countP Item.isBinary = 0 := rfl
    simp only [postorder, List.filterMap_append, List.countP_append, List.length_append, ih,
      hliteral, hjoint, List.length_nil]

/-- In a text without classes that is read as a tree no operand is missing and every parenthesis has
its partner, and the tree has the text's literals. -/
theorem shape_of_postorder {text : List Char} {items : List Item} {regex : Regex}
    (hitems : Pattern.postorder text = .ok items) (h : ofPostorder [] items = .ok regex) :
    Symbol.Alternates false (text.map Symbol.ofChar) ∧
      Symbol.Balanced 0 (text.map Symbol.ofChar) ∧
      regex.postorder.filterMap Item.literal? = text.filter Symbol.isLiteral := by
  obtain ⟨hbalanced, hliterals, hjoints⟩ := Postorder.arrange_keeps hitems
  have hpostorder : regex.postorder = items := by simpa using postorder_of_ofPostorder h
  have hcount := count_postorder regex
  rw [hpostorder, hliterals, hjoints] at hcount
  refine ⟨?_, ?_, ?_⟩
  · apply Pattern.alternates_of_marked
    apply Symbol.alternates_of_count (Pattern.joined_marked text)
    simpa [Pattern.marked] using hcount
  · exact Pattern.balanced_marked.1 hbalanced
  · rw [hpostorder, hliterals]
    exact Pattern.literals_marked text

end Regex

namespace Piece

/-- The symbol of a piece. A class stands wherever a literal can stand. -/
def symbol : Piece → Symbol
  | .char c => .ofChar c
  | .charClass _ => .literal '['

/-- The piece is no class, or a class that is accepted. -/
def Accepted (piece : Piece) : Prop := ∃ text, piece.expanded = .ok text

/-- The pieces derive some tree at the level. -/
def Derivable (level : Level) (pieces : List Piece) : Prop := ∃ regex, Derives level pieces regex

/-! ## From texts to pieces -/

theorem expandedAll_cons_eq_ok {piece : Piece} {pieces : List Piece} {text : List Char}
    (h : expandedAll (piece :: pieces) = .ok text) :
    ∃ first rest, piece.expanded = .ok first ∧ expandedAll pieces = .ok rest ∧
      text = first ++ rest := by
  obtain ⟨texts, hall, rfl⟩ := Checked.map_eq_ok_iff.1 h
  cases Checked.mapM_eq_ok_iff.1 hall with
  | cons hfirst hrest =>
    refine ⟨_, _, hfirst, Checked.map_eq_ok_iff.2 ⟨_, Checked.mapM_eq_ok_iff.2 hrest, rfl⟩, ?_⟩
    simp

theorem accepted_of_expandedAll {pieces : List Piece} {text : List Char}
    (h : expandedAll pieces = .ok text) : ∀ piece ∈ pieces, Accepted piece := by
  induction pieces generalizing text with
  | nil => simp
  | cons piece pieces ih =>
    obtain ⟨first, rest, hfirst, hrest, -⟩ := expandedAll_cons_eq_ok h
    exact List.forall_mem_cons.2 ⟨⟨first, hfirst⟩, ih hrest⟩

/-- What a class expands to ends like an operand, so what comes behind it can go on as behind the
class. -/
theorem alternates_of_expandedAll {complete : Bool} {pieces : List Piece} {text : List Char}
    (h : expandedAll pieces = .ok text)
    (ha : Symbol.Alternates complete (text.map Symbol.ofChar)) :
    Symbol.Alternates complete (pieces.map symbol) := by
  induction pieces generalizing complete text with
  | nil =>
    cases h
    exact ha
  | cons piece pieces ih =>
    obtain ⟨first, rest, hfirst, hrest, rfl⟩ := expandedAll_cons_eq_ok h
    cases piece with
    | char c =>
      cases hfirst
      exact ⟨ha.1, ih hrest ha.2⟩
    | charClass content =>
      obtain ⟨members, -, rfl⟩ := Checked.map_eq_ok_iff.1 hfirst
      have hsplit : (CharClass.unionText members ++ rest).map Symbol.ofChar =
          ('(' :: members.intersperse '|').map Symbol.ofChar ++
            .closeParen :: rest.map Symbol.ofChar := by
        simp [CharClass.unionText, Symbol.ofChar]
      rw [hsplit] at ha
      exact ⟨.inr rfl, ih hrest ha.of_append⟩

/-- Parentheses pair up around symbols that are none. -/
theorem balanced_append {depth : Nat} {front rest : List Symbol}
    (h : ∀ symbol ∈ front, symbol ≠ .openParen ∧ symbol ≠ .closeParen) :
    Symbol.Balanced depth (front ++ rest) ↔ Symbol.Balanced depth rest := by
  induction front with
  | nil => rfl
  | cons first front ih =>
    obtain ⟨⟨hopen, hclose⟩, hfront⟩ := List.forall_mem_cons.1 h
    rw [List.cons_append, ← ih hfront]
    cases first with
    | literal c => exact Iff.rfl
    | operator op => exact Iff.rfl
    | openParen => exact absurd rfl hopen
    | closeParen => exact absurd rfl hclose

/-- Inside a class that is accepted there are no parentheses. -/
theorem balanced_unionText {depth : Nat} {content members : List Char} {rest : List Symbol}
    (hread : CharClass.read content = .ok members) :
    Symbol.Balanced depth ((CharClass.unionText members).map Symbol.ofChar ++ rest) ↔
      Symbol.Balanced depth rest := by
  obtain ⟨-, hne, hliteral⟩ := CharClass.read_eq_ok_iff.1 hread
  obtain ⟨first, others, rfl⟩ := List.exists_cons_of_ne_nil hne
  have hinner : ∀ symbol ∈ ([first] ++ others.flatMap fun c => ['|', c]).map Symbol.ofChar,
      symbol ≠ .openParen ∧ symbol ≠ .closeParen := by
    intro symbol hs
    obtain ⟨c, hc, rfl⟩ := List.mem_map.1 hs
    have hcases : c = '|' ∨ c ∈ first :: others := by
      rcases List.mem_append.1 hc with hc | hc
      · exact .inr (by simp [List.mem_singleton.1 hc])
      · obtain ⟨d, hd, hcd⟩ := List.mem_flatMap.1 hc
        rcases List.mem_cons.1 hcd with rfl | hcd
        · exact .inl rfl
        · exact .inr (List.mem_cons_of_mem _ (List.mem_singleton.1 hcd ▸ hd))
    rcases hcases with rfl | hm
    · exact ⟨by decide, by decide⟩
    · rw [Symbol.ofChar_eq_literal_iff.2 ⟨hliteral c hm, rfl⟩]
      exact ⟨by simp, by simp⟩
  rw [CharClass.unionText_cons, List.map_append, List.map_cons, List.append_assoc, List.cons_append]
  show Symbol.Balanced (depth + 1) (_ ++ .closeParen :: rest) ↔ _
  rw [balanced_append hinner]
  exact Iff.rfl

theorem balanced_of_expandedAll {depth : Nat} {pieces : List Piece} {text : List Char}
    (h : expandedAll pieces = .ok text) (hb : Symbol.Balanced depth (text.map Symbol.ofChar)) :
    Symbol.Balanced depth (pieces.map symbol) := by
  induction pieces generalizing depth text with
  | nil =>
    cases h
    exact hb
  | cons piece pieces ih =>
    obtain ⟨first, rest, hfirst, hrest, rfl⟩ := expandedAll_cons_eq_ok h
    cases piece with
    | char c =>
      cases hfirst
      rw [List.map_append, List.map_singleton, List.singleton_append] at hb
      rw [List.map_cons, symbol]
      cases hc : Symbol.ofChar c with
      | literal d =>
        rw [hc] at hb
        exact ih hrest hb
      | operator op =>
        rw [hc] at hb
        exact ih hrest hb
      | openParen =>
        rw [hc] at hb
        exact ih hrest hb
      | closeParen =>
        rw [hc] at hb
        cases depth with
        | zero => exact hb
        | succ depth => exact ih hrest hb
    | charClass content =>
      obtain ⟨members, hread, rfl⟩ := Checked.map_eq_ok_iff.1 hfirst
      rw [List.map_append, balanced_unionText hread] at hb
      exact ih hrest hb

/-! ## Building derivations -/

/-- What is read in front of an operand: with any operand behind it, it is an operand of the outer
level. -/
def Takes (inner outer : Level) (front : List Piece) : Prop :=
  ∀ back, Derivable inner back → Derivable outer (front ++ back)

theorem takes_concat_nil : Takes .repeated .concat [] := fun _ ⟨regex, h⟩ => ⟨regex, .ofRepeated h⟩

theorem takes_union_nil : Takes .concat .union [] := fun _ ⟨regex, h⟩ => ⟨regex, .ofConcat h⟩

theorem Takes.juxtaposed {front operand : List Piece} (h : Takes .repeated .concat front)
    (ho : Derivable .repeated operand) : Takes .repeated .concat (front ++ operand) := by
  rintro back ⟨right, hright⟩
  obtain ⟨left, hleft⟩ := h operand ho
  exact ⟨_, .juxtaposed hleft hright⟩

theorem Takes.concat {front operand : List Piece} (h : Takes .repeated .concat front)
    (ho : Derivable .repeated operand) :
    Takes .repeated .concat (front ++ operand ++ [.char (Operator.binary .concat).char]) := by
  rintro back ⟨right, hright⟩
  obtain ⟨left, hleft⟩ := h operand ho
  refine ⟨.concat left right, ?_⟩
  rw [List.append_assoc (front ++ operand), List.singleton_append]
  exact .concat hleft hright

theorem Takes.union {front operand : List Piece} (h : Takes .concat .union front)
    (ho : Derivable .concat operand) :
    Takes .concat .union (front ++ operand ++ [.char (Operator.binary .union).char]) := by
  rintro back ⟨right, hright⟩
  obtain ⟨left, hleft⟩ := h operand ho
  refine ⟨.union left right, ?_⟩
  rw [List.append_assoc (front ++ operand), List.singleton_append]
  exact .union hleft hright

/-- A piece that stands for a reserved symbol is its character. -/
theorem eq_char_of_symbol {piece : Piece} {symbol : Symbol} (h : piece.symbol = symbol)
    (hn : ∀ c, symbol ≠ .literal c) : piece = .char symbol.char := by
  cases piece with
  | char c => rw [← h, Piece.symbol, Symbol.char_ofChar]
  | charClass content => exact absurd h.symm (hn _)

theorem derivable_of_literal {piece : Piece} {c : Char} (ha : Accepted piece)
    (h : piece.symbol = .literal c) : Derivable .repeated [piece] := by
  obtain ⟨text, htext⟩ := ha
  cases piece with
  | char d =>
    obtain ⟨hd, -⟩ := Symbol.ofChar_eq_literal_iff.1 h
    exact ⟨_, .ofAtom (.literal hd)⟩
  | charClass content =>
    obtain ⟨members, hread, -⟩ := Checked.map_eq_ok_iff.1 htext
    obtain ⟨hmembers, hne, hliteral⟩ := CharClass.read_eq_ok_iff.1 hread
    obtain ⟨first, others, rfl⟩ := List.exists_cons_of_ne_nil hne
    exact ⟨_, .ofAtom (.charClass hmembers hliteral)⟩

theorem derivable_group {inner : List Piece} (h : Derivable .union inner) :
    Derivable .repeated (.char '(' :: inner ++ [.char ')']) := by
  obtain ⟨regex, hregex⟩ := h
  exact ⟨regex, .ofAtom (.group hregex)⟩

theorem derivable_unary {operand : List Piece} (h : Derivable .repeated operand)
    (mark : Repetition) : Derivable .repeated (operand ++ [.char (Operator.unary mark).char]) := by
  obtain ⟨regex, hregex⟩ := h
  exact ⟨_, .repeated mark hregex⟩

/-- The end of an operand in `depth` parentheses: the end of the text, or a parenthesis that closes
the innermost one. -/
def Stops (depth : Nat) (rest : List Piece) : Prop :=
  (rest = [] ∧ depth = 0) ∨
    ∃ after below, rest = .char ')' :: after ∧ depth = below + 1 ∧
      Symbol.Alternates true (after.map symbol) ∧ Symbol.Balanced below (after.map symbol)

/-- Behind what waits for an operand, the pieces complete a union. -/
def CompletesFront (depth : Nat) (pieces : List Piece) : Prop :=
  ∀ unions concats, Takes .concat .union unions → Takes .repeated .concat concats →
    ∃ inside rest, pieces = inside ++ rest ∧ Derivable .union (unions ++ (concats ++ inside)) ∧
      Stops depth rest

/-- Behind an operand, the pieces complete a union. -/
def CompletesOperand (depth : Nat) (pieces : List Piece) : Prop :=
  ∀ unions concats operand, Takes .concat .union unions → Takes .repeated .concat concats →
    Derivable .repeated operand →
      ∃ inside rest, pieces = inside ++ rest ∧
        Derivable .union (unions ++ (concats ++ (operand ++ inside))) ∧ Stops depth rest

/-- A piece is read into the operand, and the rest goes on behind the longer one. -/
theorem CompletesOperand.cons {depth : Nat} {piece : Piece} {pieces : List Piece}
    (h : CompletesOperand depth pieces)
    (hgrow : ∀ operand, Derivable .repeated operand → Derivable .repeated (operand ++ [piece])) :
    CompletesOperand depth (piece :: pieces) := by
  intro unions concats operand hunions hconcats hoperand
  obtain ⟨inside, rest, rfl, hd, hs⟩ := h unions concats _ hunions hconcats (hgrow operand hoperand)
  exact ⟨piece :: inside, rest, rfl, by simpa using hd, hs⟩

theorem completes_nil {depth : Nat} (h : Symbol.Balanced depth []) : CompletesOperand depth [] := by
  intro unions concats operand hunions hconcats hoperand
  refine ⟨[], [], rfl, ?_, .inl ⟨rfl, h⟩⟩
  rw [List.append_nil]
  exact hunions _ (hconcats _ hoperand)

theorem completes_close {below : Nat} {pieces : List Piece}
    (halternates : Symbol.Alternates true (pieces.map symbol))
    (hbalanced : Symbol.Balanced below (pieces.map symbol)) :
    CompletesOperand (below + 1) (.char ')' :: pieces) := by
  intro unions concats operand hunions hconcats hoperand
  refine ⟨[], .char ')' :: pieces, rfl, ?_,
    .inr ⟨pieces, below, rfl, rfl, halternates, hbalanced⟩⟩
  rw [List.append_nil]
  exact hunions _ (hconcats _ hoperand)

/-- An operand that follows another one is concatenated to it. -/
theorem CompletesFront.juxtaposed {depth : Nat} {pieces : List Piece}
    (h : CompletesFront depth pieces) : CompletesOperand depth pieces := by
  intro unions concats operand hunions hconcats hoperand
  obtain ⟨inside, rest, rfl, hd, hstop⟩ := h unions _ hunions (hconcats.juxtaposed hoperand)
  exact ⟨inside, rest, rfl, by simpa using hd, hstop⟩

theorem CompletesFront.binary {depth : Nat} {pieces : List Piece} (h : CompletesFront depth pieces)
    (joint : Joint) : CompletesOperand depth (.char (Operator.binary joint).char :: pieces) := by
  intro unions concats operand hunions hconcats hoperand
  cases joint with
  | concat =>
    obtain ⟨inside, rest, rfl, hd, hstop⟩ := h unions _ hunions (hconcats.concat hoperand)
    exact ⟨_ :: inside, rest, rfl, by simpa using hd, hstop⟩
  | union =>
    obtain ⟨inside, rest, rfl, hd, hstop⟩ :=
      h _ [] (hunions.union (hconcats _ hoperand)) takes_concat_nil
    exact ⟨_ :: inside, rest, rfl, by simpa using hd, hstop⟩

/-- From a piece where an operand starts on, a whole operand is read and then what follows it. -/
theorem completesFront_cons {depth : Nat} {piece : Piece} {pieces : List Piece}
    (ha : Accepted piece) (hstarts : piece.symbol.starts = true)
    (hliteral : ∀ c, piece.symbol = .literal c → CompletesOperand depth pieces)
    (hopen : piece.symbol = .openParen → CompletesFront (depth + 1) pieces)
    (hafter : ∀ inside after, pieces = inside ++ .char ')' :: after →
      Symbol.Alternates true (after.map symbol) → Symbol.Balanced depth (after.map symbol) →
        CompletesOperand depth after) :
    CompletesFront depth (piece :: pieces) := by
  intro unions concats hunions hconcats
  cases hs : piece.symbol with
  | literal c =>
    obtain ⟨inside, rest, rfl, hd, hstop⟩ :=
      hliteral c hs unions concats [piece] hunions hconcats (derivable_of_literal ha hs)
    exact ⟨piece :: inside, rest, rfl, hd, hstop⟩
  | openParen =>
    have hpiece : piece = .char '(' := eq_char_of_symbol hs (by simp)
    obtain ⟨group, behind, rfl, hgroup, hstop⟩ :=
      hopen hs [] [] takes_union_nil takes_concat_nil
    rcases hstop with ⟨-, hdepth⟩ | ⟨after, below, rfl, hdepth, halt, hbal⟩
    · cases hdepth
    · cases hdepth
      obtain ⟨inside, rest, rfl, hd, hstop⟩ := hafter group after rfl halt hbal unions concats _
        hunions hconcats (derivable_group hgroup)
      refine ⟨piece :: (group ++ .char ')' :: inside), rest, by simp, ?_, hstop⟩
      rw [hpiece]
      simpa using hd
  | closeParen => rw [hs] at hstarts; cases hstarts
  | operator op => rw [hs] at hstarts; cases hstarts

/-- Behind an operand stands what starts another one, the end of a group, or an operator. -/
theorem completesOperand_cons {depth : Nat} {piece : Piece} {pieces : List Piece}
    (halternates : Symbol.Alternates piece.symbol.ends (pieces.map symbol))
    (hbalanced : Symbol.Balanced depth ((piece :: pieces).map symbol))
    (hfront : piece.symbol.starts = true → CompletesFront depth (piece :: pieces))
    (hrest : Symbol.Balanced depth (pieces.map symbol) →
      (Symbol.Alternates false (pieces.map symbol) → CompletesFront depth pieces) ∧
        (Symbol.Alternates true (pieces.map symbol) → CompletesOperand depth pieces)) :
    CompletesOperand depth (piece :: pieces) := by
  rw [List.map_cons] at hbalanced
  cases hs : piece.symbol with
  | literal c | openParen =>
    have hstarts : piece.symbol.starts = true := by rw [hs]; rfl
    exact (hfront hstarts).juxtaposed
  | closeParen =>
    have hclose : piece = .char ')' := eq_char_of_symbol hs (by simp)
    rw [hs] at hbalanced halternates
    cases depth with
    | zero => exact absurd hbalanced (by simp [Symbol.Balanced])
    | succ below =>
      rw [hclose]
      exact completes_close halternates hbalanced
  | operator op =>
    have hop : piece = .char op.char := eq_char_of_symbol hs (by simp)
    rw [hs] at hbalanced halternates
    rw [hop]
    cases op with
    | unary mark =>
      exact CompletesOperand.cons ((hrest hbalanced).2 halternates)
        fun _ hoperand => derivable_unary hoperand mark
    | binary joint => exact ((hrest hbalanced).1 halternates).binary joint

/-- Pieces in which no operand is missing and all parentheses pair up complete a union: behind an
operand, or where one is missing. By induction on the number of pieces, since a group is followed by
pieces that are no part of it. -/
theorem completes (length : Nat) : ∀ (depth : Nat) (pieces : List Piece), pieces.length = length →
    (∀ piece ∈ pieces, Accepted piece) → Symbol.Balanced depth (pieces.map symbol) →
      (Symbol.Alternates false (pieces.map symbol) → CompletesFront depth pieces) ∧
        (Symbol.Alternates true (pieces.map symbol) → CompletesOperand depth pieces) := by
  induction length using Nat.strongRecOn with
  | ind length ih =>
    intro depth pieces hlength haccepted hbalanced
    cases pieces with
    | nil =>
      refine ⟨?_, fun _ => completes_nil hbalanced⟩
      intro h
      cases h
    | cons piece pieces =>
      obtain ⟨hpiece, hpieces⟩ := List.forall_mem_cons.1 haccepted
      have hshort : pieces.length < length := by rw [← hlength]; simp
      have hrest := fun depth => ih pieces.length hshort depth pieces rfl hpieces
      have hfront : piece.symbol.starts = true →
          Symbol.Alternates piece.symbol.ends (pieces.map symbol) →
            CompletesFront depth (piece :: pieces) := by
        intro hstarts halt
        refine completesFront_cons hpiece hstarts ?_ ?_ ?_
        · intro c hs
          rw [List.map_cons, hs] at hbalanced
          rw [hs] at halt
          exact (hrest depth hbalanced).2 halt
        · intro hs
          rw [List.map_cons, hs] at hbalanced
          rw [hs] at halt
          exact (hrest (depth + 1) hbalanced).1 halt
        · intro inside after heq halt hbal
          have hlt : after.length < length := by
            rw [heq] at hshort
            simp at hshort
            omega
          have hmem : ∀ piece ∈ after, Accepted piece := by
            intro other ho
            exact hpieces other (by simp [heq, ho])
          exact (ih after.length hlt depth after rfl hmem hbal).2 halt
      refine ⟨fun h => hfront (h.1.resolve_left (by simp)) h.2, ?_⟩
      rintro ⟨-, halt⟩
      exact completesOperand_cons halt hbalanced (fun hstarts => hfront hstarts halt) (hrest depth)

/-- Pieces in which no operand is missing and all parentheses pair up have a syntax tree. -/
theorem derivable_of_shape {pieces : List Piece} (haccepted : ∀ piece ∈ pieces, Accepted piece)
    (halternates : Symbol.Alternates false (pieces.map symbol))
    (hbalanced : Symbol.Balanced 0 (pieces.map symbol)) : Derivable .union pieces := by
  obtain ⟨inside, rest, rfl, hd, hstop⟩ :=
    (completes pieces.length 0 pieces rfl haccepted hbalanced).1 halternates [] []
      takes_union_nil takes_concat_nil
  rcases hstop with ⟨rfl, -⟩ | ⟨after, below, -, hdepth, -⟩
  · simpa using hd
  · cases hdepth

end Piece

namespace Regex

theorem parse_eq_ok_iff {pattern : String} {regex : Regex} :
    parse pattern = .ok regex ↔
      ∃ text items, Pattern.expanded pattern.toList = .ok text ∧
        Pattern.postorder text = .ok items ∧ ofPostorder [] items = .ok regex := by
  rw [parse, Checked.bind_eq_ok_iff]
  constructor
  · rintro ⟨text, htext, h⟩
    obtain ⟨items, hitems, htree⟩ := Checked.bind_eq_ok_iff.1 h
    exact ⟨text, items, htext, hitems, htree⟩
  · rintro ⟨text, items, htext, hitems, htree⟩
    exact ⟨text, htext, Checked.bind_eq_ok_iff.2 ⟨items, hitems, htree⟩⟩

/-- A pattern that is read is derivable, and as its tree. The derivation is built from the shape of
the pattern, and then reading it cannot have given another tree. -/
theorem derives_of_parse {pattern : String} {regex : Regex} (h : parse pattern = .ok regex) :
    Pattern.Derives pattern.toList regex := by
  obtain ⟨text, items, htext, hitems, htree⟩ := parse_eq_ok_iff.1 h
  have hexpanded : Piece.expandedAll (Piece.cut none pattern.toList) = .ok text := htext
  obtain ⟨halternates, hbalanced, -⟩ := shape_of_postorder hitems htree
  obtain ⟨derived, hderived⟩ : Piece.Derivable .union (Piece.cut none pattern.toList) :=
    Piece.derivable_of_shape (Piece.accepted_of_expandedAll hexpanded)
      (Piece.alternates_of_expandedAll hexpanded halternates)
      (Piece.balanced_of_expandedAll hexpanded hbalanced)
  have hsame : (.ok derived : Except PatternError Regex) = .ok regex := by
    rw [← Pattern.Derives.parse_eq hderived, h]
  cases hsame
  exact hderived

/-- Exactly the derivable patterns are read, each as the tree that it derives. -/
theorem parse_eq_ok_iff_derives {pattern : String} {regex : Regex} :
    parse pattern = .ok regex ↔ Pattern.Derives pattern.toList regex :=
  ⟨derives_of_parse, Pattern.Derives.parse_eq⟩

/-- The tree of a pattern has the literals of the pattern's text without classes. -/
theorem literals_of_parse {pattern : String} {regex : Regex} (h : parse pattern = .ok regex) :
    ∃ text, Pattern.expanded pattern.toList = .ok text ∧
      regex.postorder.filterMap Item.literal? = text.filter Symbol.isLiteral := by
  obtain ⟨text, items, htext, hitems, htree⟩ := parse_eq_ok_iff.1 h
  exact ⟨text, htext, (shape_of_postorder hitems htree).2.2⟩

end Regex

/-- A pattern has at most one syntax tree. -/
theorem Pattern.Derives.unique {pattern : List Char} {a b : Regex} (ha : Pattern.Derives pattern a)
    (hb : Pattern.Derives pattern b) : a = b := by
  rw [← String.toList_ofList (l := pattern)] at ha hb
  have hsame : (.ok a : Except PatternError Regex) = .ok b := by
    rw [← ha.parse_eq, hb.parse_eq]
  cases hsame
  rfl

end LexGen
