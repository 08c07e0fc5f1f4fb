import LexGen.Proofs.Pattern.Counting
import Mathlib.Data.List.Perm.Basic

/-!
# One symbol after the other

What `Postorder.arrange` does at a symbol is said once (`Postorder.arrange_cons`): the symbol writes
some items and changes what is held back (`Postorder.Steps`), or it is a parenthesis that closes
nothing. So a text is refused exactly if its parentheses are not balanced
(`Postorder.arrange_eq_error_iff`), and otherwise the items are the literals and the operators of the
text (`Postorder.perm_of_arrange`), with the literals in their order (`Postorder.literals_of_arrange`).
-/

namespace LexGen

def Symbol.item? : Symbol → Option Item
  | .literal c => some (.literal c)
  | .operator op => some (.operator op)
  | .openParen | .closeParen => none

def Held.item? : Held → Option Item
  | .operator op => some (.operator op)
  | .paren => none

namespace Item

def literal? : Item → Option Char
  | .literal c => some c
  | .operator _ => none

def isBinary : Item → Bool
  | .operator (.binary _) => true
  | _ => false

end Item

namespace Postorder

/-- A symbol writes items and leaves what is held back then. -/
inductive Steps : List Held → Symbol → List Item → List Held → Prop where
  | literal {held : List Held} (c : Char) : Steps held (.literal c) [.literal c] held
  | openParen {held : List Held} : Steps held .openParen [] (.paren :: held)
  | closeParen {below : List Held} (ops : List Operator) :
    Steps (ops.map .operator ++ .paren :: below) .closeParen (ops.map .operator) below
  | operator {below : List Held} (ops : List Operator) (op : Operator) :
    Steps (ops.map .operator ++ below) (.operator op) (ops.map .operator) (.operator op :: below)

/-! ## Releasing -/

/-- A release takes operators from the top. -/
theorem exists_of_release (op : Operator) (held : List Held) :
    ∃ (ops : List Operator) (below : List Held), held = ops.map .operator ++ below ∧
      release op held = (ops.map .operator, below) := by
  induction held with
  | nil => exact ⟨[], [], rfl, rfl⟩
  | cons top held ih =>
    cases top with
    | paren => exact ⟨[], _, rfl, rfl⟩
    | operator top =>
      rw [release]
      split
      · exact ⟨[], _, rfl, rfl⟩
      · obtain ⟨ops, below, rfl, hrelease⟩ := ih
        exact ⟨top :: ops, below, rfl, by rw [hrelease]; rfl⟩

/-- Closing a parenthesis takes the operators down to the last open one. -/
theorem exists_of_paren_mem {held : List Held} (h : .paren ∈ held) :
    ∃ (ops : List Operator) (below : List Held), held = ops.map .operator ++ .paren :: below := by
  induction held with
  | nil => cases h
  | cons top held ih =>
    cases top with
    | paren => exact ⟨[], held, rfl⟩
    | operator top =>
      obtain ⟨ops, below, rfl⟩ := ih (by simpa using h)
      exact ⟨top :: ops, below, rfl⟩

theorem close?_eq_none {held : List Held} (h : .paren ∉ held) : close? held = none := by
  induction held with
  | nil => rfl
  | cons top held ih =>
    cases top with
    | paren => exact absurd (List.mem_cons_self ..) h
    | operator top => exact Option.map_eq_none_iff.2 (ih fun hm => h (List.mem_cons_of_mem _ hm))

/-- In the end everything is released, unless a parenthesis is still open. -/
theorem drain_eq (held : List Held) : drain held =
    if .paren ∈ held then .error .unbalancedParentheses else .ok (held.filterMap Held.item?) := by
  induction held with
  | nil => rfl
  | cons top held ih =>
    cases top with
    | paren => simp [drain]
    | operator top =>
      rw [drain, ih]
      by_cases hm : Held.paren ∈ held
      · simp [hm, Except.map]
      · simp [hm, Held.item?]

/-! ## Steps -/

theorem arrange_cons (held : List Held) (symbol : Symbol) (rest : List Symbol) :
    (∃ written below, Steps held symbol written below ∧
      arrange held (symbol :: rest) = (arrange below rest).map (written ++ ·)) ∨
    symbol = .closeParen ∧ .paren ∉ held ∧
      arrange held (symbol :: rest) = .error .unbalancedParentheses := by
  cases symbol with
  | literal c => exact .inl ⟨_, _, .literal c, rfl⟩
  | openParen =>
    refine .inl ⟨_, _, .openParen, ?_⟩
    rw [arrange]
    cases arrange (.paren :: held) rest <;> rfl
  | closeParen =>
    by_cases hm : .paren ∈ held
    · obtain ⟨ops, below, rfl⟩ := exists_of_paren_mem hm
      refine .inl ⟨_, _, .closeParen ops, ?_⟩
      rw [arrange, close?_append]
    · refine .inr ⟨rfl, hm, ?_⟩
      rw [arrange, close?_eq_none hm]
  | operator op =>
    obtain ⟨ops, below, rfl, hrelease⟩ := exists_of_release op held
    refine .inl ⟨_, _, .operator ops op, ?_⟩
    rw [arrange, hrelease]

/-! ## What a step keeps -/

theorem filterMap_item?_operators (ops : List Operator) :
    (ops.map Held.operator).filterMap Held.item? = ops.map Item.operator := by
  induction ops with
  | nil => rfl
  | cons op ops ih => rw [List.map_cons, List.filterMap_cons, Held.item?, ih, List.map_cons]

theorem filterMap_literal?_operators (ops : List Operator) :
    (ops.map Item.operator).filterMap Item.literal? = [] := by
  induction ops with
  | nil => rfl
  | cons op ops ih => rw [List.map_cons, List.filterMap_cons, Item.literal?, ih]

theorem count_paren_operators (ops : List Operator) : (ops.map Held.operator).count .paren = 0 := by
  simp [List.count_eq_zero]

theorem filterMap_item?_cons_paren (held : List Held) :
    (Held.paren :: held).filterMap Held.item? = held.filterMap Held.item? := rfl

theorem filterMap_item?_cons (symbol : Symbol) (rest : List Symbol) :
    (symbol :: rest).filterMap Symbol.item? =
      symbol.item?.toList ++ rest.filterMap Symbol.item? := by
  cases symbol <;> rfl

namespace Steps

variable {held below : List Held} {symbol : Symbol} {written : List Item}

/-- Nothing is lost and nothing is added. -/
theorem perm (h : Steps held symbol written below) :
    (written ++ below.filterMap Held.item?).Perm
      (held.filterMap Held.item? ++ symbol.item?.toList) := by
  cases h with
  | literal c => exact List.perm_append_comm
  | openParen =>
    rw [filterMap_item?_cons_paren, Symbol.item?]
    simp
  | closeParen ops =>
    rw [List.filterMap_append, filterMap_item?_operators, filterMap_item?_cons_paren, Symbol.item?]
    simp
  | @operator below ops op =>
    have hswap : (Item.operator op :: below.filterMap Held.item?).Perm
        (below.filterMap Held.item? ++ [.operator op]) := (List.perm_append_singleton ..).symm
    rw [List.filterMap_append, filterMap_item?_operators, List.append_assoc]
    exact hswap.append_left _

/-- Operators have no part in the balance. -/
theorem balanced_iff (h : Steps held symbol written below) {rest : List Symbol} :
    Symbol.Balanced (held.count .paren) (symbol :: rest) ↔
      Symbol.Balanced (below.count .paren) rest := by
  cases h with
  | literal c => rfl
  | openParen => rw [List.count_cons_self, Symbol.Balanced]
  | closeParen ops =>
    rw [List.count_append, count_paren_operators, List.count_cons_self, Nat.zero_add,
      Symbol.Balanced]
  | operator ops op =>
    rw [List.count_append, count_paren_operators, Nat.zero_add,
      List.count_cons_of_ne (by simp), Symbol.Balanced]

/-- Only a literal writes a literal. -/
theorem literals_eq (h : Steps held symbol written below) :
    written.filterMap Item.literal? = symbol.literal?.toList := by
  cases h with
  | literal | openParen => rfl
  | closeParen ops | operator ops => exact filterMap_literal?_operators ops

end Steps

/-! ## Whole texts -/

/-- A text is refused exactly if its parentheses are not balanced. -/
theorem arrange_eq_error_iff {held : List Held} {symbols : List Symbol} {cause : PatternError} :
    arrange held symbols = .error cause ↔
      cause = .unbalancedParentheses ∧ ¬ Symbol.Balanced (held.count .paren) symbols := by
  induction symbols generalizing held with
  | nil =>
    rw [arrange, drain_eq, Symbol.Balanced, List.count_eq_zero]
    split <;> simp_all [eq_comm]
  | cons symbol rest ih =>
    rcases arrange_cons held symbol rest with ⟨written, below, hstep, h⟩ | ⟨rfl, hm, h⟩
    · rw [h, Checked.map_eq_error_iff, ih, hstep.balanced_iff]
    · rw [h, List.count_eq_zero.2 hm]
      simp [Symbol.Balanced, eq_comm]

theorem exists_arrange_iff {held : List Held} {symbols : List Symbol} :
    (∃ items, arrange held symbols = .ok items) ↔
      Symbol.Balanced (held.count .paren) symbols := by
  cases h : arrange held symbols with
  | ok items =>
    refine iff_of_true ⟨items, rfl⟩ ?_
    by_contra hunbalanced
    rw [arrange_eq_error_iff.2 ⟨rfl, hunbalanced⟩] at h
    cases h
  | error cause =>
    obtain ⟨-, hunbalanced⟩ := arrange_eq_error_iff.1 h
    exact iff_of_false (fun ⟨_, heq⟩ => by cases heq) hunbalanced

/-- A text that is not refused is read step by step. -/
theorem exists_of_arrange_cons {held : List Held} {symbol : Symbol} {rest : List Symbol}
    {items : List Item} (h : arrange held (symbol :: rest) = .ok items) :
    ∃ written below others, Steps held symbol written below ∧ arrange below rest = .ok others ∧
      written ++ others = items := by
  rcases arrange_cons held symbol rest with ⟨written, below, hstep, heq⟩ | ⟨-, -, heq⟩
  · rw [heq] at h
    obtain ⟨others, hothers, rfl⟩ := Checked.map_eq_ok_iff.1 h
    exact ⟨written, below, others, hstep, hothers, rfl⟩
  · rw [heq] at h
    cases h

theorem eq_of_drain {held : List Held} {items : List Item} (h : drain held = .ok items) :
    items = held.filterMap Held.item? := by
  rw [drain_eq] at h
  split at h
  · cases h
  · exact (Except.ok.inj h).symm

/-- The items are the literals and the operators that were read or held back. -/
theorem perm_of_arrange {held : List Held} {symbols : List Symbol} {items : List Item}
    (h : arrange held symbols = .ok items) :
    items.Perm (held.filterMap Held.item? ++ symbols.filterMap Symbol.item?) := by
  induction symbols generalizing held items with
  | nil =>
    rw [eq_of_drain h]
    simp
  | cons symbol rest ih =>
    obtain ⟨written, below, others, hstep, hothers, rfl⟩ := exists_of_arrange_cons h
    have hrest := (ih hothers).append_left written
    have hwritten := hstep.perm.append_right (rest.filterMap Symbol.item?)
    rw [← List.append_assoc] at hrest
    rw [filterMap_item?_cons, ← List.append_assoc]
    exact hrest.trans hwritten

/-- The literals stay in their order. -/
theorem literals_of_arrange {held : List Held} {symbols : List Symbol} {items : List Item}
    (h : arrange held symbols = .ok items) :
    items.filterMap Item.literal? = Symbol.literals symbols := by
  induction symbols generalizing held items with
  | nil =>
    rw [eq_of_drain h, List.filterMap_filterMap]
    refine List.filterMap_eq_nil_iff.2 ?_
    intro entry _
    cases entry <;> rfl
  | cons symbol rest ih =>
    obtain ⟨written, below, others, hstep, hothers, rfl⟩ := exists_of_arrange_cons h
    rw [List.filterMap_append, hstep.literals_eq, ih hothers, Symbol.literals_cons]

end Postorder

end LexGen
