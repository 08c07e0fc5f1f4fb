import LexGen.Pattern.Postorder
import LexGen.Proofs.Pattern.Spelling

/-!
# Operators that are held back

What `Postorder.arrange` holds back while it reads an operand is explained by the operand's tree:
the items written and the operators held back behind them are together the tree's postorder, and
nothing that was held back before is touched, as long as it binds looser than the operand
(`Symbol.Spells.reads`). At the end all that is held back is written, so a spelled tree is arranged
to its postorder (`Symbol.Spells.arrange_eq`), and a pattern is read as the tree that it derives
(`Pattern.Derives.parse_eq`).
-/

namespace LexGen

/-- Operands are tighter than every operator. -/
def Level.precedence : Level → Nat
  | .union => 1
  | .concat => 2
  | .repeated => 3
  | .atom => 4

namespace Postorder

/-- No operator that binds at least with this strength is on top. -/
def Looser (strength : Nat) : List Held → Prop
  | .operator top :: _ => top.precedence < strength
  | _ => True

theorem Looser.mono {weak strong : Nat} {held : List Held} (h : Looser weak held)
    (hle : weak ≤ strong) : Looser strong held := by
  unfold Looser at h ⊢
  split <;> first | trivial | exact Nat.lt_of_lt_of_le h hle

/-- Operators that bind at least as tightly as the new one are released in front of looser ones. -/
theorem release_append {op : Operator} {ops : List Operator} {held : List Held}
    (hops : ∀ top ∈ ops, op.precedence ≤ top.precedence) (hheld : Looser op.precedence held) :
    release op (ops.map .operator ++ held) = (ops.map .operator, held) := by
  induction ops with
  | nil =>
    simp only [List.map_nil, List.nil_append]
    unfold release
    split
    next top rest => exact if_pos hheld
    next => rfl
  | cons top ops ih =>
    obtain ⟨htop, hrest⟩ := List.forall_mem_cons.1 hops
    rw [List.map_cons, List.cons_append, release, if_neg (Nat.not_lt.2 htop), ih hrest]
    rfl

/-- A parenthesis that closes releases the operators since its partner. -/
theorem close?_append (ops : List Operator) (held : List Held) :
    close? (ops.map .operator ++ .paren :: held) = some (ops.map .operator, held) := by
  induction ops with
  | nil => rfl
  | cons top ops ih => simp [close?, ih]

theorem drain_operators (ops : List Operator) :
    drain (ops.map .operator) = .ok (ops.map .operator) := by
  induction ops with
  | nil => rfl
  | cons top ops ih => simp [drain, ih]

/-- What reading an operand does: its items are written or held back, what was held back before stays
as it was, and the rest is arranged behind it. -/
def Reads (strength : Nat) (symbols : List Symbol) (items : List Item) : Prop :=
  ∀ (held : List Held) (rest : List Symbol), Looser strength held →
    ∃ (written : List Item) (ops : List Operator), items = written ++ ops.map .operator ∧
      (∀ top ∈ ops, strength ≤ top.precedence) ∧
      arrange held (symbols ++ rest) =
        (arrange (ops.map .operator ++ held) rest).map (written ++ ·)

theorem Reads.mono {weak strong : Nat} {symbols : List Symbol} {items : List Item}
    (h : Reads strong symbols items) (hle : weak ≤ strong) : Reads weak symbols items := by
  intro held rest hheld
  obtain ⟨written, ops, hitems, hops, harrange⟩ := h held rest (hheld.mono hle)
  exact ⟨written, ops, hitems, fun top ht => Nat.le_trans hle (hops top ht), harrange⟩

theorem Reads.nil (strength : Nat) : Reads strength [] [] := by
  intro held rest _
  exact ⟨[], [], rfl, by simp, by cases h : arrange held rest <;> simp [h, Except.map]⟩

theorem Reads.literal (strength : Nat) (c : Char) :
    Reads strength [.literal c] [.literal c] := by
  intro held rest _
  exact ⟨[.literal c], [], by simp, by simp, rfl⟩

/-- The parenthesis keeps what was held back before out of sight. -/
theorem Reads.group {strength : Nat} {inner : List Symbol} {items : List Item}
    (h : Reads strength inner items) (outer : Nat) :
    Reads outer (.openParen :: inner ++ [.closeParen]) items := by
  intro held rest _
  obtain ⟨written, ops, hitems, -, harrange⟩ := h (.paren :: held) (.closeParen :: rest) trivial
  refine ⟨items, [], by simp, by simp, ?_⟩
  have hclose : arrange (ops.map .operator ++ .paren :: held) (.closeParen :: rest) =
      (arrange held rest).map (ops.map .operator ++ ·) := by
    rw [arrange, close?_append]
  calc
    arrange held (.openParen :: inner ++ [.closeParen] ++ rest)
        = arrange (.paren :: held) (inner ++ .closeParen :: rest) := by simp [arrange]
    _ = ((arrange held rest).map (ops.map .operator ++ ·)).map (written ++ ·) := by
      rw [harrange, hclose]
    _ = (arrange ([].map .operator ++ held) rest).map (items ++ ·) := by simp [hitems]

/-- The operator releases those of the operand in front of it. -/
theorem Reads.arrange_operator {op : Operator} {symbols : List Symbol} {items : List Item}
    (h : Reads op.precedence symbols items) {held : List Held} (hheld : Looser op.precedence held)
    (rest : List Symbol) :
    arrange held (symbols ++ .operator op :: rest) =
      (arrange (.operator op :: held) rest).map (items ++ ·) := by
  obtain ⟨written, ops, hitems, hops, harrange⟩ := h held (.operator op :: rest) hheld
  rw [harrange, arrange, release_append hops hheld, Checked.map_map, hitems]
  simp

theorem Reads.unary {symbols : List Symbol} {items : List Item} (mark : Repetition)
    (h : Reads (Operator.unary mark).precedence symbols items) :
    Reads (Operator.unary mark).precedence (symbols ++ [.operator (.unary mark)])
      (items ++ [.operator (.unary mark)]) := by
  intro held rest hheld
  refine ⟨items, [.unary mark], by simp, by simp, ?_⟩
  rw [List.append_assoc, List.singleton_append, h.arrange_operator hheld]
  rfl

/-- The second operand binds tighter than the operator, so the operator stays held back below it. -/
theorem Reads.binary {front back : List Symbol} {left right : List Item} (joint : Joint)
    (hfront : Reads (Operator.binary joint).precedence front left)
    (hback : Reads ((Operator.binary joint).precedence + 1) back right) :
    Reads (Operator.binary joint).precedence (front ++ .operator (.binary joint) :: back)
      (left ++ right ++ [.operator (.binary joint)]) := by
  intro held rest hheld
  have hlooser : Looser ((Operator.binary joint).precedence + 1)
      (.operator (.binary joint) :: held) := Nat.lt_succ_self _
  obtain ⟨written, ops, hitems, hops, harrange⟩ := hback _ rest hlooser
  refine ⟨left ++ written, ops ++ [.binary joint], by simp [hitems], ?_, ?_⟩
  · intro top ht
    rcases List.mem_append.1 ht with ht | ht
    · exact Nat.le_of_succ_le (hops top ht)
    · exact Nat.le_of_eq (congrArg Operator.precedence (List.mem_singleton.1 ht).symm)
  · rw [List.append_assoc, List.cons_append, hfront.arrange_operator hheld, harrange,
      Checked.map_map]
    simp

/-- At the end of the text all that is held back is written. -/
theorem Reads.arrange_eq {strength : Nat} {symbols : List Symbol} {items : List Item}
    (h : Reads strength symbols items) : arrange [] symbols = .ok items := by
  obtain ⟨written, ops, hitems, -, harrange⟩ := h [] [] trivial
  rw [List.append_nil, List.append_nil, arrange, drain_operators] at harrange
  rw [harrange, hitems, Checked.map_ok]

end Postorder

theorem Symbol.Spells.reads {level : Level} {symbols : List Symbol} {regex : Regex}
    (h : Symbol.Spells level symbols regex) :
    Postorder.Reads level.precedence symbols regex.postorder := by
  induction h with
  | literal c => exact .literal _ c
  | group _ ih => exact ih.group _
  | ofAtom _ ih | ofRepeated _ ih | ofConcat _ ih => exact ih.mono (by decide)
  | repeated mark _ ih => exact .unary mark ih
  | concat _ _ ihf ihb => exact .binary .concat ihf ihb
  | union _ _ ihf ihb => exact .binary .union ihf ihb

/-- A spelled tree is arranged to its postorder. -/
theorem Symbol.Spells.arrange_eq {level : Level} {symbols : List Symbol} {regex : Regex}
    (h : Symbol.Spells level symbols regex) :
    Postorder.arrange [] symbols = .ok regex.postorder := h.reads.arrange_eq

/-- A pattern that derives a tree is read as that tree. -/
theorem Pattern.Derives.parse_eq {pattern : String} {regex : Regex}
    (h : Pattern.Derives pattern.toList regex) : Regex.parse pattern = .ok regex := by
  obtain ⟨text, htext, hspell, -⟩ := Piece.Derives.spells h
  have hexpanded : Pattern.expanded pattern.toList = .ok text := htext
  have hpostorder : Pattern.postorder text = .ok regex.postorder := hspell.arrange_eq
  rw [Regex.parse, hexpanded]
  show (Pattern.postorder text >>= Regex.ofPostorder []) = .ok regex
  rw [hpostorder]
  exact Regex.ofPostorder_postorder regex

end LexGen
