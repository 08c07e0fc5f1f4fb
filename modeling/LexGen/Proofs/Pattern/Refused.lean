import LexGen.Proofs.Nfa.Arena
import LexGen.Proofs.Pattern.Classes
import LexGen.Proofs.Pattern.Plain

/-!
# Why a pattern is refused

`Nfa.compile` can stop at a class, at a parenthesis, or where it builds the tree, and the first that
fails gives the reason. Which reason it is can be told from the text with its classes written out
(`Nfa.Outcome`): parentheses that are not balanced come first, then a text of parentheses only, and
every other text that the grammar does not derive lacks an operand.

Two reasons in the code never apply. Where concatenations are written out there are never more
operands than the joints can take (`Pattern.count_of_postorder`), so nothing is left over
(`Regex.cases_of_ofPostorder`), and all parentheses are gone before the automaton is built
(`Arena.buildText_eq`).
-/

namespace LexGen

/-! ## Balanced parentheses -/

namespace Symbol

/-- How much deeper a character leads into parentheses, and how much less deep. -/
def opens (c : Char) : Nat := if c == '(' then 1 else 0

def closes (c : Char) : Nat := if c == ')' then 1 else 0

theorem balanced_cons_iff {depth : Nat} {c : Char} {rest : List Symbol} :
    Balanced depth (ofChar c :: rest) ↔
      closes c ≤ depth + opens c ∧ Balanced (depth + opens c - closes c) rest := by
  by_cases hopen : c = '('
  · subst hopen
    simp [ofChar, Balanced, opens, closes]
  · by_cases hclose : c = ')'
    · subst hclose
      cases depth <;> simp [ofChar, Balanced, opens, closes]
    · have hopens : opens c = 0 := if_neg (by simpa using hopen)
      have hcloses : closes c = 0 := if_neg (by simpa using hclose)
      rw [hopens, hcloses]
      cases hc : ofChar c with
      | literal | operator => simp [Balanced]
      | openParen => exact absurd ((char_ofChar c).symm.trans (congrArg char hc)) hopen
      | closeParen => exact absurd ((char_ofChar c).symm.trans (congrArg char hc)) hclose

theorem count_open_cons (c : Char) (rest : List Char) :
    (c :: rest).count '(' = rest.count '(' + opens c := List.count_cons

theorem count_close_cons (c : Char) (rest : List Char) :
    (c :: rest).count ')' = rest.count ')' + closes c := List.count_cons

/-- Balance can be told from the number of parentheses in each front part. -/
theorem balanced_iff_count {depth : Nat} {text : List Char} :
    Balanced depth (text.map ofChar) ↔
      (∀ front, front <+: text → front.count ')' ≤ depth + front.count '(') ∧
        text.count ')' = depth + text.count '(' := by
  induction text generalizing depth with
  | nil => simp [Balanced, eq_comm]
  | cons c rest ih =>
    rw [List.map_cons, balanced_cons_iff, ih, count_open_cons, count_close_cons]
    constructor
    · rintro ⟨hc, hrest, htotal⟩
      refine ⟨?_, by omega⟩
      intro front hfront
      rcases List.prefix_cons_iff.1 hfront with rfl | ⟨after, rfl, hafter⟩
      · simp
      · have hle := hrest after hafter
        rw [count_open_cons, count_close_cons]
        omega
    · rintro ⟨hfront, htotal⟩
      have hcons : ∀ after, after <+: rest →
          after.count ')' + closes c ≤ depth + (after.count '(' + opens c) := by
        intro after hafter
        rw [← count_open_cons, ← count_close_cons]
        exact hfront _ (List.prefix_cons_iff.2 (.inr ⟨after, rfl, hafter⟩))
      have hc : closes c ≤ depth + opens c := by simpa using hcons [] List.nil_prefix
      refine ⟨hc, ?_, by omega⟩
      intro after hafter
      have hle := hcons after hafter
      omega

end Symbol

/-- At no place have more parentheses been closed than opened, and in the end as many. -/
structure Pattern.Balanced (text : List Char) : Prop where
  front_le : ∀ front, front <+: text → front.count ')' ≤ front.count '('
  total_eq : text.count ')' = text.count '('

theorem Pattern.balanced_iff {text : List Char} :
    Balanced text ↔ Symbol.Balanced 0 (text.map Symbol.ofChar) := by
  rw [Symbol.balanced_iff_count]
  simp only [Nat.zero_add]
  exact ⟨fun ⟨hfront, htotal⟩ => ⟨hfront, htotal⟩, fun ⟨hfront, htotal⟩ => ⟨hfront, htotal⟩⟩

/-! ## Texts without anything inside -/

namespace Pattern

/-- Parentheses are opened and then closed again, and nothing else. -/
def Hollow (text : List Char) : Prop :=
  ∃ n, text = List.replicate n '(' ++ List.replicate n ')'

theorem postorder_eq_error_iff {text : List Char} {cause : PatternError} :
    postorder text = .error cause ↔ cause = .unbalancedParentheses ∧ ¬ Balanced text := by
  rw [balanced_iff, ← balanced_marked]
  exact Postorder.arrange_eq_error_iff

theorem exists_postorder_iff {text : List Char} :
    (∃ items, postorder text = .ok items) ↔ Balanced text := by
  rw [balanced_iff, ← balanced_marked]
  exact Postorder.exists_arrange_iff

theorem eq_paren_of_item? {c : Char} (h : (Symbol.ofChar c).item? = none) : c = '(' ∨ c = ')' := by
  rw [← Symbol.char_ofChar c]
  cases hc : Symbol.ofChar c with
  | literal | operator =>
    rw [hc] at h
    cases h
  | openParen => exact .inl rfl
  | closeParen => exact .inr rfl

/-- If nothing is written for a text, its first character is a parenthesis, and no mark stands behind
it. -/
theorem marked_cons_of_item? {a : Char} {rest : List Char}
    (h : (marked (a :: rest)).filterMap Symbol.item? = []) :
    (a = '(' ∨ a = ')' ∧ ∀ after, rest ≠ '(' :: after) ∧
      (marked rest).filterMap Symbol.item? = [] := by
  cases rest with
  | nil =>
    have ha : (Symbol.ofChar a).item? = none :=
      List.filterMap_eq_nil_iff.1 h _ (List.mem_singleton_self _)
    refine ⟨(eq_paren_of_item? ha).imp_right fun ha => ⟨ha, by simp⟩, rfl⟩
  | cons b rest =>
    by_cases hmark : (endsOperand a && startsOperand b) = true
    · rw [marked_cons_of_mark rest hmark, List.filterMap_eq_nil_iff] at h
      have hmarked := h (.operator (.binary .concat)) (by simp)
      cases hmarked
    · rw [marked_cons_of_no_mark rest hmark, List.filterMap_eq_nil_iff, List.forall_mem_cons] at h
      refine ⟨?_, List.filterMap_eq_nil_iff.2 h.2⟩
      refine (eq_paren_of_item? h.1).imp_right fun ha => ⟨ha, ?_⟩
      rintro after heq
      cases heq
      exact hmark (by rw [ha]; decide)

/-- If nothing is written for a text, it opens parentheses and then closes some. -/
theorem exists_replicate_of_marked {text : List Char}
    (h : (marked text).filterMap Symbol.item? = []) :
    ∃ opened closed, text = List.replicate opened '(' ++ List.replicate closed ')' := by
  induction text with
  | nil => exact ⟨0, 0, rfl⟩
  | cons a rest ih =>
    obtain ⟨hfirst, hrest⟩ := marked_cons_of_item? h
    obtain ⟨opened, closed, rfl⟩ := ih hrest
    rcases hfirst with rfl | ⟨rfl, hfirst⟩
    · exact ⟨opened + 1, closed, rfl⟩
    · cases opened with
      | zero => exact ⟨0, closed + 1, rfl⟩
      | succ opened => exact absurd rfl (hfirst _)

/-- Nested parentheses are read without writing anything. -/
theorem reads_hollow (strength n : Nat) : Postorder.Reads strength
    (marked (List.replicate n '(' ++ List.replicate n ')')) [] := by
  induction n with
  | zero => exact .nil strength
  | succ n ih =>
    have hsplit : List.replicate (n + 1) '(' ++ List.replicate (n + 1) ')' =
        '(' :: (List.replicate n '(' ++ List.replicate n ')') ++ [')'] := by
      rw [List.replicate_succ, List.replicate_succ', List.cons_append, List.cons_append,
        List.append_assoc]
    rw [hsplit, marked_group]
    exact ih.group strength

theorem postorder_eq_nil_iff {text : List Char} : postorder text = .ok [] ↔ Hollow text := by
  constructor
  · intro h
    have hitems := (Postorder.perm_of_arrange h).nil_eq
    obtain ⟨opened, closed, rfl⟩ := exists_replicate_of_marked hitems.symm
    have htotal := (exists_postorder_iff.1 ⟨[], h⟩).total_eq
    have hsame : closed = opened := by simpa [List.count_replicate] using htotal
    exact ⟨opened, by rw [hsame]⟩
  · rintro ⟨n, rfl⟩
    exact (reads_hollow 0 n).arrange_eq

end Pattern

/-! ## Building the tree -/

/-- If there are no more operands than the joints can take, a tree is missing only where an operator
has too few operands, or because there are no items at all. -/
theorem Regex.cases_of_ofPostorder {stack : List Regex} {items : List Item} {cause : PatternError}
    (h : ofPostorder stack items = .error cause)
    (hcount : stack.length + (items.filterMap Item.literal?).length ≤
      items.countP Item.isBinary + 1) :
    (cause = .empty ∧ stack = [] ∧ items = []) ∨ ∃ op, cause = .missingOperand op := by
  induction items generalizing stack with
  | nil =>
    rcases stack with _ | ⟨last, _ | ⟨second, below⟩⟩
    · cases h
      exact .inl ⟨rfl, rfl, rfl⟩
    · cases h
    · simp at hcount
  | cons item items ih =>
    rw [length_filterMap_cons, countP_cons_eq] at hcount
    -- What an item leaves on the stack is never nothing, so the rest fails at an operator.
    rcases item with c | ⟨mark | joint⟩
    · refine .inr ((ih h ?_).resolve_left (by simp))
      simp [Item.literal?, Item.isBinary] at hcount ⊢
      omega
    · cases stack with
      | nil =>
        cases h
        exact .inr ⟨_, rfl⟩
      | cons inner below =>
        refine .inr ((ih h ?_).resolve_left (by simp))
        simpa [Item.literal?, Item.isBinary] using hcount
    · rcases stack with _ | ⟨right, _ | ⟨left, below⟩⟩
      · cases h
        exact .inr ⟨_, rfl⟩
      · cases h
        exact .inr ⟨_, rfl⟩
      · refine .inr ((ih h ?_).resolve_left (by simp))
        simp [Item.literal?, Item.isBinary] at hcount ⊢
        omega

namespace Pattern

variable {text : List Char} {items : List Item}

/-- Where concatenations are written out, no more operands arrive than the joints can take. -/
theorem count_of_postorder (h : postorder text = .ok items) :
    (items.filterMap Item.literal?).length ≤ items.countP Item.isBinary + 1 := by
  obtain ⟨-, hliterals, hjoints⟩ := Postorder.arrange_keeps h
  rw [hliterals, hjoints]
  exact Symbol.count_le (joined_marked text)

theorem isLiteral_of_postorder (h : postorder text = .ok items) {c : Char}
    (hc : .literal c ∈ items) : Symbol.isLiteral c = true := by
  have hliterals : items.filterMap Item.literal? = text.filter Symbol.isLiteral :=
    (Postorder.literals_of_arrange h).trans (literals_marked text)
  have hm : c ∈ items.filterMap Item.literal? := List.mem_filterMap.2 ⟨_, hc, rfl⟩
  rw [hliterals] at hm
  exact (List.mem_filter.1 hm).2

/-- If no tree is built from the postorder, the grammar derives none. -/
theorem not_derivesPlain_of_error {cause : PatternError} (hitems : postorder text = .ok items)
    (htree : Regex.ofPostorder [] items = .error cause) : ¬ ∃ regex, DerivesPlain text regex := by
  rintro ⟨regex, hregex⟩
  rw [hregex.postorder_eq] at hitems
  rw [← Except.ok.inj hitems, Regex.ofPostorder_postorder] at htree
  cases htree

/-! ## Balanced texts -/

theorem Hollow.balanced (h : Hollow text) : Balanced text :=
  exists_postorder_iff.1 ⟨[], postorder_eq_nil_iff.2 h⟩

theorem DerivesPlain.balanced {regex : Regex} (h : DerivesPlain text regex) : Balanced text :=
  exists_postorder_iff.1 ⟨_, h.postorder_eq⟩

/-- A tree has an operand. -/
theorem DerivesPlain.not_hollow {regex : Regex} (h : DerivesPlain text regex) : ¬ Hollow text := by
  intro hhollow
  have hnil : (.ok regex.postorder : Except PatternError (List Item)) = .ok [] := by
    rw [← h.postorder_eq, postorder_eq_nil_iff.2 hhollow]
  have hcount := Regex.count_postorder regex
  rw [Except.ok.inj hnil] at hcount
  simp at hcount

end Pattern

/-! ## Building from characters -/

/-- The character of an item is no parenthesis. -/
theorem Item.char_ne_paren {item : Item} (h : ∀ c, item = .literal c → Symbol.isLiteral c = true) :
    item.char ≠ '(' ∧ item.char ≠ ')' := by
  cases item with
  | literal c =>
    have hc := h c rfl
    constructor <;> rintro rfl <;> cases hc
  | operator op => rcases op with ⟨⟨⟩⟩ | ⟨⟨⟩⟩ <;> decide

namespace Arena

/-- Build a character of a text in postorder, where no parenthesis has a place. -/
def placeChar (arena : List NfaState) (fragments : List Fragment) (c : Char) :
    Except PatternError (List NfaState × List Fragment) :=
  match Symbol.ofChar c with
  | .literal c => place arena fragments (.literal c)
  | .operator op => place arena fragments (.operator op)
  | .openParen | .closeParen => .error .unbalancedParentheses

/-- Build a text in postorder. -/
def buildText (arena : List NfaState) (fragments : List Fragment) :
    List Char → Except PatternError (List NfaState × Fragment)
  | c :: rest =>
    (placeChar arena fragments c).bind fun (arena, fragments) => buildText arena fragments rest
  | [] => build arena fragments []

variable (arena : List NfaState) (fragments : List Fragment)

theorem placeChar_char {item : Item} (h : ∀ c, item = .literal c → Symbol.isLiteral c = true) :
    placeChar arena fragments item.char = place arena fragments item := by
  cases item with
  | literal c =>
    have hc : Symbol.ofChar c = .literal c := Symbol.ofChar_eq_literal_iff.2 ⟨h c rfl, rfl⟩
    simp only [placeChar, Item.char, hc]
  | operator op => simp only [placeChar, Item.char, Symbol.ofChar_char]

theorem buildText_eq {items : List Item}
    (h : ∀ c, .literal c ∈ items → Symbol.isLiteral c = true) :
    buildText arena fragments (items.map Item.char) = build arena fragments items := by
  induction items generalizing arena fragments with
  | nil => rfl
  | cons item items ih =>
    have hitem : ∀ c, item = .literal c → Symbol.isLiteral c = true := by
      rintro c rfl
      exact h c (List.mem_cons_self ..)
    have hitems : ∀ c, .literal c ∈ items → Symbol.isLiteral c = true :=
      fun c hc => h c (List.mem_cons_of_mem _ hc)
    rw [List.map_cons, buildText, build, placeChar_char _ _ hitem]
    simp only [ih _ _ hitems]

end Arena

/-! ## What comes of a pattern -/

namespace Nfa

/-- A pattern is compiled as the tree of the postorder of its expansion. -/
theorem compile_of_expanded {pattern : String} {text : List Char}
    (h : Pattern.expanded pattern.toList = .ok text) :
    compile pattern = ((Pattern.postorder text).bind (Regex.ofPostorder [])).map ofRegex := by
  rw [compile, Regex.parse, h]
  rfl

theorem compile_of_expanded_error {pattern : String} {cause : PatternError}
    (h : Pattern.expanded pattern.toList = .error cause) : compile pattern = .error cause := by
  rw [compile, Regex.parse, h]
  rfl

/-- There are four ways to end, and the text decides which one it is. -/
theorem compile_cases {pattern : String} {text : List Char}
    (h : Pattern.expanded pattern.toList = .ok text) :
    (compile pattern = .error .unbalancedParentheses ∧ ¬ Pattern.Balanced text) ∨
      (compile pattern = .error .empty ∧ Pattern.Hollow text) ∨
      (∃ nfa regex, compile pattern = .ok nfa ∧ Pattern.DerivesPlain text regex) ∨
      ∃ op, compile pattern = .error (.missingOperand op) ∧ Pattern.Balanced text ∧
        ¬ Pattern.Hollow text ∧ ¬ ∃ regex, Pattern.DerivesPlain text regex := by
  rw [compile_of_expanded h]
  cases hitems : Pattern.postorder text with
  | error cause =>
    obtain ⟨rfl, hunbalanced⟩ := Pattern.postorder_eq_error_iff.1 hitems
    exact .inl ⟨rfl, hunbalanced⟩
  | ok items =>
    refine .inr ?_
    rw [show (Except.ok items : Except PatternError _).bind (Regex.ofPostorder []) =
      Regex.ofPostorder [] items from rfl]
    cases htree : Regex.ofPostorder [] items with
    | ok regex =>
      exact .inr (.inl ⟨_, regex, rfl, Pattern.derivesPlain_of_ofPostorder hitems htree⟩)
    | error cause =>
      have hbalanced : Pattern.Balanced text := Pattern.exists_postorder_iff.1 ⟨items, hitems⟩
      have hnone := Pattern.not_derivesPlain_of_error hitems htree
      have hcount := Pattern.count_of_postorder hitems
      rcases Regex.cases_of_ofPostorder htree (by simpa using hcount) with
        ⟨rfl, -, rfl⟩ | ⟨op, rfl⟩
      · exact .inl ⟨rfl, Pattern.postorder_eq_nil_iff.1 hitems⟩
      · refine .inr (.inr ⟨op, rfl, hbalanced, ?_, hnone⟩)
        intro hhollow
        rw [Pattern.postorder_eq_nil_iff.2 hhollow] at hitems
        cases hitems
        cases htree

/-- What comes of a pattern whose classes are written out as the text. -/
structure Outcome (pattern : String) (text : List Char) : Prop where
  unbalanced_iff :
    compile pattern = .error .unbalancedParentheses ↔ ¬ Pattern.Balanced text
  empty_iff : compile pattern = .error .empty ↔ Pattern.Hollow text
  ok_iff : (∃ nfa, compile pattern = .ok nfa) ↔ ∃ regex, Pattern.DerivesPlain text regex
  /-- Everything else lacks an operand. -/
  missingOperand_iff : (∃ op, compile pattern = .error (.missingOperand op)) ↔
    Pattern.Balanced text ∧ ¬ Pattern.Hollow text ∧ ¬ ∃ regex, Pattern.DerivesPlain text regex

theorem outcome_of_expanded {pattern : String} {text : List Char}
    (h : Pattern.expanded pattern.toList = .ok text) : Outcome pattern text := by
  rcases compile_cases h with ⟨h, hunbalanced⟩ | ⟨h, hhollow⟩ | ⟨nfa, regex, h, hregex⟩ |
    ⟨op, h, hbalanced, hhollow, hnone⟩
  · have hhollow : ¬ Pattern.Hollow text := fun hhollow => hunbalanced hhollow.balanced
    have hnone : ¬ ∃ regex, Pattern.DerivesPlain text regex :=
      fun ⟨_, hregex⟩ => hunbalanced hregex.balanced
    constructor <;> simp [h, hunbalanced, hhollow, hnone]
  · have hnone : ¬ ∃ regex, Pattern.DerivesPlain text regex :=
      fun ⟨_, hregex⟩ => hregex.not_hollow hhollow
    constructor <;> simp [h, hhollow, hhollow.balanced, hnone]
  · have hsome : ∃ regex, Pattern.DerivesPlain text regex := ⟨regex, hregex⟩
    constructor <;> simp [h, hregex.balanced, hregex.not_hollow, hsome]
  · constructor <;> simp [h, hbalanced, hhollow, hnone]

/-- Fragments are never left over: a class that is refused is refused for another reason, and behind
that the text decides. -/
theorem compile_ne_leftover (pattern : String) (count : Nat) :
    compile pattern ≠ .error (.leftover count) := by
  intro h
  cases hexpanded : Pattern.expanded pattern.toList with
  | error cause =>
    rw [compile_of_expanded_error hexpanded] at h
    cases h
    obtain ⟨-, content, -, -, hbad, -⟩ := Pattern.expanded_eq_error_iff.1 hexpanded
    cases hbad
  | ok text =>
    rcases compile_cases hexpanded with ⟨hc, -⟩ | ⟨hc, -⟩ | ⟨_, _, hc, -⟩ | ⟨_, hc, -⟩ <;>
      rw [hc] at h <;> cases h

/-- If the classes of a pattern can be written out, then the text without classes decides by its
parentheses, and behind that by the grammar, what comes of the pattern. If not, that is the reason to
refuse it. Fragments are never left over, and no parenthesis is left where an automaton is built. -/
theorem outcome_compile :
    (∀ pattern text, Pattern.expanded pattern.toList = .ok text → Outcome pattern text) ∧
    (∀ pattern cause, Pattern.expanded pattern.toList = .error cause →
      compile pattern = .error cause) ∧
    (∀ pattern count, compile pattern ≠ .error (.leftover count)) ∧
    ∀ text items, Pattern.postorder text = .ok items →
      (∀ c ∈ items.map Item.char, c ≠ '(' ∧ c ≠ ')') ∧
        ∀ arena, Arena.buildText arena [] (items.map Item.char) = Arena.build arena [] items := by
  refine ⟨fun _ _ => outcome_of_expanded, fun _ _ => compile_of_expanded_error,
    compile_ne_leftover, ?_⟩
  intro text items hitems
  have hliteral : ∀ c, .literal c ∈ items → Symbol.isLiteral c = true :=
    fun c hc => Pattern.isLiteral_of_postorder hitems hc
  refine ⟨?_, fun arena => Arena.buildText_eq arena [] hliteral⟩
  intro c hc
  obtain ⟨item, hitem, rfl⟩ := List.mem_map.1 hc
  exact Item.char_ne_paren fun c heq => hliteral c (heq ▸ hitem)

/-- Parentheses in the wrong order, parentheses only, an operator between groups that hold nothing,
and a range without characters. -/
theorem outcome_compile_garbage :
    compile "a)(b" = .error .unbalancedParentheses ∧
    compile "(())" = .error .empty ∧
    (¬ ∃ regex, Pattern.DerivesPlain "()()".toList regex) ∧
    compile "a[z-a]" = .error (.emptyClass "z-a") := by
  obtain ⟨houtcome, herror, -, -⟩ := outcome_compile
  refine ⟨?_, ?_, ?_, herror _ _ (by decide)⟩
  · refine (houtcome "a)(b" "a)(b".toList (by decide)).unbalanced_iff.2 ?_
    intro hbalanced
    exact absurd (hbalanced.front_le "a)".toList (by decide)) (by decide)
  · exact (houtcome "(())" "(())".toList (by decide)).empty_iff.2 ⟨2, by decide⟩
  · have hmissing : compile "()()" = .error (.missingOperand (.binary .concat)) := rfl
    exact ((houtcome "()()" "()()".toList (by decide)).missingOperand_iff.1 ⟨_, hmissing⟩).2.2

end Nfa

end LexGen
