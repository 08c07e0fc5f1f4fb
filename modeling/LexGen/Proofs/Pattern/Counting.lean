import LexGen.Proofs.Pattern.Arrangement

/-!
# Counting operands

Neither `Postorder.arrange` nor `Regex.ofPostorder` remembers whether an operand or an operator has
to come next, and still only grammatical patterns get through. The reason is a count: a tree has one
operand more than it has operators between operands (`Regex.count_postorder`), while a text in
which concatenations are written out never has more than that, and has as many only if an operand
stands wherever one is missing (`Symbol.count_le`, `Symbol.alternates_of_count`).
-/

namespace LexGen

theorem length_filterMap_cons {α β : Type} (f : α → Option β) (a : α) (list : List α) :
    ((a :: list).filterMap f).length = (f a).toList.length + (list.filterMap f).length := by
  rw [List.filterMap_cons]
  cases f a <;> simp [Nat.add_comm]

theorem countP_cons_eq {α : Type} (p : α → Bool) (a : α) (list : List α) :
    (a :: list).countP p = (p a).toNat + list.countP p := by
  rw [List.countP_cons, Nat.add_comm]
  cases p a <;> rfl

namespace Symbol

def literal? : Symbol → Option Char
  | .literal c => some c
  | _ => none

def isBinary : Symbol → Bool
  | .operator (.binary _) => true
  | _ => false

/-- An operand can end with this symbol. -/
def ends : Symbol → Bool
  | .literal _ | .closeParen | .operator (.unary _) => true
  | .openParen | .operator (.binary _) => false

/-- An operand can start with this symbol. -/
def starts : Symbol → Bool
  | .literal _ | .openParen => true
  | .closeParen | .operator _ => false

theorem ends_ofChar (c : Char) : (ofChar c).ends = Pattern.endsOperand c := by
  unfold ofChar
  split <;> first | rfl | skip
  simp_all [ends, Pattern.endsOperand, isLiteral, reserved]

theorem starts_ofChar (c : Char) : (ofChar c).starts = Pattern.startsOperand c := by
  unfold ofChar
  split <;> first | rfl | skip
  simp_all [starts, Pattern.startsOperand, isLiteral, reserved]

/-- What stands behind an operand (`complete`) or where one is missing can go on there, and in the
end no operand is missing. -/
def Alternates : (complete : Bool) → List Symbol → Prop
  | complete, [] => complete = true
  | complete, symbol :: rest =>
    (complete = true ∨ symbol.starts = true) ∧ Alternates symbol.ends rest

/-- Every parenthesis has its partner, if `depth` parentheses are open already. -/
def Balanced : (depth : Nat) → List Symbol → Prop
  | depth, [] => depth = 0
  | depth, .openParen :: rest => Balanced (depth + 1) rest
  | 0, .closeParen :: _ => False
  | depth + 1, .closeParen :: rest => Balanced depth rest
  | depth, .literal _ :: rest => Balanced depth rest
  | depth, .operator _ :: rest => Balanced depth rest

/-- No operand follows another one without an operator between them. -/
def Joined : (complete : Bool) → List Symbol → Prop
  | _, [] => True
  | complete, symbol :: rest => (complete = true → symbol.starts = false) ∧ Joined symbol.ends rest

/-! ## The count -/

/-- The literals among the symbols. -/
def literals (symbols : List Symbol) : List Char := symbols.filterMap literal?

/-- The number of operators that stand between two operands. -/
def joints (symbols : List Symbol) : Nat := symbols.countP isBinary

theorem literals_cons (symbol : Symbol) (rest : List Symbol) :
    literals (symbol :: rest) = symbol.literal?.toList ++ literals rest := by
  cases symbol <;> rfl

theorem length_literals_cons (symbol : Symbol) (rest : List Symbol) :
    (literals (symbol :: rest)).length =
      symbol.literal?.toList.length + (literals rest).length :=
  length_filterMap_cons literal? symbol rest

theorem joints_cons (symbol : Symbol) (rest : List Symbol) :
    joints (symbol :: rest) = symbol.isBinary.toNat + joints rest :=
  countP_cons_eq isBinary symbol rest

/-- A symbol behind an operand (`complete`) or behind none adds no operand that is not missing, and
keeps the count only if it can stand there. -/
theorem balance_symbol {complete : Bool} {symbol : Symbol}
    (h : complete = true → symbol.starts = false) :
    symbol.literal?.toList.length + complete.toNat ≤ symbol.isBinary.toNat + symbol.ends.toNat ∧
      (symbol.literal?.toList.length + complete.toNat =
          symbol.isBinary.toNat + symbol.ends.toNat →
        complete = true ∨ symbol.starts = true) := by
  rcases symbol with c | ⟨mark | joint⟩ | _ | _ <;> cases complete <;>
    simp_all [ends, starts, literal?, isBinary]

/-- Joined symbols hold at most one operand more than joints. -/
theorem count_le {complete : Bool} {symbols : List Symbol} (h : Joined complete symbols) :
    (literals symbols).length + complete.toNat ≤ joints symbols + 1 := by
  induction symbols generalizing complete with
  | nil => cases complete <;> simp [literals, joints]
  | cons symbol rest ih =>
    obtain ⟨hstart, hrest⟩ := h
    have hsymbol := (balance_symbol hstart).1
    have hle := ih hrest
    rw [length_literals_cons, joints_cons]
    omega

/-- If joined symbols hold as many operands as they can, then none is missing anywhere. -/
theorem alternates_of_count {complete : Bool} {symbols : List Symbol} (h : Joined complete symbols)
    (hcount : (literals symbols).length + complete.toNat = joints symbols + 1) :
    Alternates complete symbols := by
  induction symbols generalizing complete with
  | nil => cases complete <;> simp_all [literals, joints, Alternates]
  | cons symbol rest ih =>
    obtain ⟨hstart, hrest⟩ := h
    obtain ⟨hsymbol, hplace⟩ := balance_symbol hstart
    have hle := count_le hrest
    rw [length_literals_cons, joints_cons] at hcount
    exact ⟨hplace (by omega), ih hrest (by omega)⟩

/-- Only the last symbol before a place says whether an operand is missing there. -/
theorem Alternates.of_append {complete : Bool} {front : List Symbol} {symbol : Symbol}
    {rest : List Symbol} (h : Alternates complete (front ++ symbol :: rest)) :
    Alternates symbol.ends rest := by
  induction front generalizing complete with
  | nil => exact h.2
  | cons first front ih => exact ih h.2

end Symbol

/-! ## Writing out concatenations -/

namespace Pattern

theorem marked_cons_of_mark {a b : Char} (rest : List Char)
    (h : (endsOperand a && startsOperand b) = true) :
    marked (a :: b :: rest) =
      Symbol.ofChar a :: .operator (.binary .concat) :: marked (b :: rest) := by
  rw [marked, concatenated, if_pos h]
  rfl

theorem marked_cons_of_no_mark {a b : Char} (rest : List Char)
    (h : ¬ (endsOperand a && startsOperand b) = true) :
    marked (a :: b :: rest) = Symbol.ofChar a :: marked (b :: rest) := by
  rw [marked, concatenated, if_neg h]
  rfl

theorem exists_marked_cons (a : Char) (rest : List Char) :
    ∃ after, marked (a :: rest) = Symbol.ofChar a :: after := by
  cases rest with
  | nil => exact ⟨[], rfl⟩
  | cons b rest =>
    by_cases hmark : (endsOperand a && startsOperand b) = true
    · exact ⟨_, marked_cons_of_mark rest hmark⟩
    · exact ⟨_, marked_cons_of_no_mark rest hmark⟩

/-- Where concatenations are written out, no two operands stand side by side. -/
theorem joined_marked (text : List Char) : Symbol.Joined false (marked text) := by
  induction text with
  | nil => trivial
  | cons a rest ih =>
    cases rest with
    | nil => exact ⟨by simp, trivial⟩
    | cons b rest =>
      by_cases hmark : (endsOperand a && startsOperand b) = true
      · rw [marked_cons_of_mark rest hmark]
        exact ⟨by simp, fun _ => rfl, ih⟩
      · rw [marked_cons_of_no_mark rest hmark]
        refine ⟨by simp, ?_⟩
        obtain ⟨after, hafter⟩ := exists_marked_cons b rest
        rw [hafter] at ih ⊢
        refine ⟨?_, ih.2⟩
        intro hends
        rw [Symbol.ends_ofChar] at hends
        rw [Symbol.starts_ofChar]
        simpa [hends] using hmark

/-- Without the marks that are written out a place behind an operand is still one, and where a mark
stood an operand starts. -/
theorem alternates_of_marked {complete : Bool} {text : List Char}
    (h : Symbol.Alternates complete (marked text)) :
    Symbol.Alternates complete (text.map Symbol.ofChar) := by
  induction text generalizing complete with
  | nil => exact h
  | cons a rest ih =>
    cases rest with
    | nil => exact h
    | cons b rest =>
      by_cases hmark : (endsOperand a && startsOperand b) = true
      · rw [marked_cons_of_mark rest hmark] at h
        obtain ⟨hplace, -, hrest⟩ := h
        obtain ⟨-, hafter⟩ := ih hrest
        have hstarts : (Symbol.ofChar b).starts = true := by
          rw [Symbol.starts_ofChar]
          exact (Bool.and_eq_true_iff.1 hmark).2
        exact ⟨hplace, .inr hstarts, hafter⟩
      · rw [marked_cons_of_no_mark rest hmark] at h
        exact ⟨h.1, ih h.2⟩

/-- The marks that are written out are no parentheses. -/
theorem balanced_marked {depth : Nat} {text : List Char} :
    Symbol.Balanced depth (marked text) ↔ Symbol.Balanced depth (text.map Symbol.ofChar) := by
  induction text generalizing depth with
  | nil => rfl
  | cons a rest ih =>
    cases rest with
    | nil => rfl
    | cons b rest =>
      have hstep : ∀ {symbols : List Symbol},
          (∀ depth, Symbol.Balanced depth symbols ↔
            Symbol.Balanced depth ((b :: rest).map Symbol.ofChar)) →
          (Symbol.Balanced depth (Symbol.ofChar a :: symbols) ↔
            Symbol.Balanced depth ((a :: b :: rest).map Symbol.ofChar)) := by
        intro symbols hsymbols
        rw [List.map_cons]
        cases Symbol.ofChar a with
        | literal | operator | openParen => exact hsymbols _
        | closeParen =>
          cases depth with
          | zero => exact Iff.rfl
          | succ depth => exact hsymbols depth
      by_cases hmark : (endsOperand a && startsOperand b) = true
      · rw [marked_cons_of_mark rest hmark]
        exact hstep fun depth => ih
      · rw [marked_cons_of_no_mark rest hmark]
        exact hstep fun depth => ih

/-- The marks that are written out are no literals. -/
theorem literals_marked (text : List Char) :
    Symbol.literals (marked text) = text.filter Symbol.isLiteral := by
  induction text with
  | nil => rfl
  | cons a rest ih =>
    have hfirst : ∀ symbols, Symbol.literals symbols = rest.filter Symbol.isLiteral →
        Symbol.literals (Symbol.ofChar a :: symbols) =
          (a :: rest).filter Symbol.isLiteral := by
      intro symbols hsymbols
      rw [Symbol.literals, List.filterMap_cons, ← Symbol.literals, hsymbols, List.filter_cons]
      by_cases ha : Symbol.isLiteral a = true
      · rw [if_pos ha, Symbol.ofChar_eq_literal_iff.2 ⟨ha, rfl⟩]
        rfl
      · rw [if_neg ha]
        cases hs : Symbol.ofChar a with
        | literal c => exact absurd (Symbol.ofChar_eq_literal_iff.1 hs).1 ha
        | operator | openParen | closeParen => rfl
    cases rest with
    | nil => exact hfirst [] rfl
    | cons b rest =>
      by_cases hmark : (endsOperand a && startsOperand b) = true
      · rw [marked_cons_of_mark rest hmark]
        exact hfirst _ ih
      · rw [marked_cons_of_no_mark rest hmark]
        exact hfirst _ ih

end Pattern

end LexGen
