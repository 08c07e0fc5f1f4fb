import LexGen.Proofs.Nfa.Thompson

/-!
# Building in an arena

An expression in postorder can be built at the end of a list of states that is there already, the
arena. Each literal and each operator but a concatenation adds two states, and edges are added to
new states and to old ones (`Arena.place`). The operands on the stack are blocks one behind the
other (`Arena.Stacked`), and of all that is there an operator changes the last states of its
operands only. So a whole expression is built as the block of its tree, behind an arena that is as
it was before (`Arena.buildInto_eq`).
-/

namespace LexGen.Arena

/-- What has been built for an operand: a state to enter it and a state to leave it. -/
structure Fragment where
  start : Nat
  finish : Nat

/-- A new state. -/
def fresh : NfaState := ⟨[], false⟩

/-- Put an edge behind the other edges of a state. -/
def link (arena : List NfaState) (source : Nat) (label : Option Char) (target : Nat) :
    List NfaState :=
  arena.modify source fun state => ⟨state.edges ++ [⟨label, target⟩], state.accepting⟩

/-- Let a state accept. -/
def accept (arena : List NfaState) (state : Nat) : List NfaState :=
  arena.modify state fun entry => ⟨entry.edges, true⟩

/-- Build a literal, or an operator with the operands on top of the stack. -/
def place (arena : List NfaState) (fragments : List Fragment) :
    Item → Except PatternError (List NfaState × List Fragment)
  | .literal c =>
    let start := arena.length
    let finish := start + 1
    .ok (link (arena ++ [fresh, fresh]) start (some c) finish, ⟨start, finish⟩ :: fragments)
  | .operator (.binary .concat) =>
    match fragments with
    | right :: left :: fragments =>
      .ok (link arena left.finish none right.start, ⟨left.start, right.finish⟩ :: fragments)
    | _ => .error (.missingOperand (.binary .concat))
  | .operator (.binary .union) =>
    match fragments with
    | right :: left :: fragments =>
      let start := arena.length
      let finish := start + 1
      let arena := link (arena ++ [fresh, fresh]) start none left.start
      let arena := link arena start none right.start
      let arena := link arena left.finish none finish
      let arena := link arena right.finish none finish
      .ok (arena, ⟨start, finish⟩ :: fragments)
    | _ => .error (.missingOperand (.binary .union))
  | .operator (.unary mark) =>
    match fragments with
    | inner :: fragments =>
      let start := arena.length
      let finish := start + 1
      let arena := link (arena ++ [fresh, fresh]) start none inner.start
      let arena := if mark = .plus then arena else link arena start none finish
      let arena := if mark = .optional then arena else link arena inner.finish none inner.start
      let arena := link arena inner.finish none finish
      .ok (arena, ⟨start, finish⟩ :: fragments)
    | _ => .error (.missingOperand (.unary mark))

/-- Build a sequence in postorder. One fragment must be left. -/
def build (arena : List NfaState) (fragments : List Fragment) :
    List Item → Except PatternError (List NfaState × Fragment)
  | item :: rest =>
    (place arena fragments item).bind fun (arena, fragments) => build arena fragments rest
  | [] =>
    match fragments with
    | [fragment] => .ok (arena, fragment)
    | [] => .error .empty
    | fragments => .error (.leftover fragments.length)

/-- Build a pattern into an arena. -/
def buildInto (arena : List NfaState) (pattern : String) :
    Except PatternError (List NfaState × Fragment) := do
  build arena [] (← Pattern.postorder (← Pattern.expanded pattern.toList))

/-! ## Blocks behind an arena -/

/-- The fragment of a block. -/
def fragment (base : Nat) (regex : Regex) : Fragment := ⟨base + regex.entry, base + regex.size - 1⟩

theorem modify_append_cons {α : Type} {front back : List α} {a : α} {f : α → α} :
    (front ++ a :: back).modify front.length f = front ++ f a :: back := by
  induction front with
  | nil => rfl
  | cons first front ih =>
    rw [List.cons_append, List.length_cons, List.modify_succ_cons, ih, List.cons_append]

/-- An edge of the first of the states behind others. -/
theorem link_length {front back : List NfaState} {state : NfaState} {label : Option Char}
    {target : Nat} : link (front ++ state :: back) front.length label target =
      front ++ ⟨state.edges ++ [⟨label, target⟩], state.accepting⟩ :: back := modify_append_cons

/-- A change of the last state of a block. -/
theorem modify_block {front behind : List NfaState} {regex : Regex} {last : NfaState} {base : Nat}
    {f : NfaState → NfaState} :
    (front ++ regex.block base last ++ behind).modify (front.length + regex.size - 1) f =
      front ++ regex.block base (f last) ++ behind := by
  rcases regex.exists_block_eq base with ⟨states, hblock, hlength, _⟩
  have hplace : front.length + regex.size - 1 = (front ++ states).length := by
    rw [List.length_append]
    omega
  rw [hplace, hblock, hblock]
  simpa using @modify_append_cons _ (front ++ states) behind last f

theorem link_block {front behind : List NfaState} {regex : Regex} {last : NfaState} {base : Nat}
    {label : Option Char} {target : Nat} :
    link (front ++ regex.block base last ++ behind) (front.length + regex.size - 1) label target =
      front ++ regex.block base ⟨last.edges ++ [⟨label, target⟩], last.accepting⟩ ++ behind :=
  modify_block

/-- The last state of a new block behind the others can be made to accept. -/
theorem accept_block {arena : List NfaState} {regex : Regex} {base : Nat} :
    accept (arena ++ regex.block base fresh) (arena.length + regex.size - 1) =
      arena ++ regex.block base ⟨[], true⟩ := by
  rw [accept]
  simpa [fresh] using @modify_block arena [] regex fresh base fun entry => ⟨entry.edges, true⟩

/-! ## One item -/

theorem place_literal (arena : List NfaState) (fragments : List Fragment) (c : Char) :
    place arena fragments (.literal c) =
      .ok (arena ++ (Regex.literal c).block arena.length fresh,
        fragment arena.length (.literal c) :: fragments) := by
  simp only [place, link_length]
  rfl

theorem place_repeated (arena : List NfaState) (fragments : List Fragment) (mark : Repetition)
    (inner : Regex) :
    place (arena ++ inner.block arena.length fresh) (fragment arena.length inner :: fragments)
        (.operator (.unary mark)) =
      .ok (arena ++ (Regex.repeated mark inner).block arena.length fresh,
        fragment arena.length (.repeated mark inner) :: fragments) := by
  cases mark
  all_goals
    simp only [place, fragment, reduceCtorEq, if_false, if_true, link_length, link_block]
    simp [Regex.block, Regex.junction, fresh, Regex.size, Regex.entry, Nat.add_assoc]

/-- Two blocks side by side get an edge to the same state. -/
theorem link_ends {arena behind : List NfaState} {left right : Regex} {finish : Nat} :
    link (link (arena ++ left.block arena.length fresh ++
        right.block (arena.length + left.size) fresh ++ behind)
          (arena.length + left.size - 1) none finish)
        (arena.length + left.size + right.size - 1) none finish =
      arena ++ left.block arena.length (Regex.junction [finish]) ++
        right.block (arena.length + left.size) (Regex.junction [finish]) ++ behind := by
  have hlength : (arena ++ left.block arena.length (Regex.junction [finish])).length =
      arena.length + left.size := by
    rw [List.length_append, Regex.length_block]
  rw [List.append_assoc (arena ++ _), link_block, ← List.append_assoc, ← hlength]
  exact link_block

theorem place_joined (arena : List NfaState) (fragments : List Fragment) (mark : Joint)
    (left right : Regex) :
    place (arena ++ left.block arena.length fresh ++ right.block (arena.length + left.size) fresh)
        (fragment (arena.length + left.size) right :: fragment arena.length left :: fragments)
        (.operator (.binary mark)) =
      .ok (arena ++ (Regex.joined mark left right).block arena.length fresh,
        fragment arena.length (Regex.joined mark left right) :: fragments) := by
  cases mark with
  | concat =>
    simp only [place, fragment, link_block]
    simp [Regex.joined, Regex.block, Regex.junction, fresh, Regex.size, Regex.entry, Nat.add_assoc]
  | union =>
    have hlength : (arena ++ left.block arena.length fresh ++
        right.block (arena.length + left.size) fresh).length =
          arena.length + left.size + right.size := by
      simp [Nat.add_assoc]
    -- The edges of the new state first, while the blocks in front of it have their lengths.
    simp only [place, fragment, link_length]
    simp only [hlength, link_ends]
    simp [Regex.joined, Regex.block, Regex.junction, fresh, Regex.size, Regex.entry, Nat.add_assoc]
    omega

/-! ## Building a sequence -/

/-- The arena has the blocks of the operands on the stack behind the states that it began with. -/
inductive Stacked (before : List NfaState) : List Regex → List NfaState → List Fragment → Prop where
  | nil : Stacked before [] before []
  | cons {stack : List Regex} {arena : List NfaState} {fragments : List Fragment} (regex : Regex) :
    Stacked before stack arena fragments →
      Stacked before (regex :: stack) (arena ++ regex.block arena.length fresh)
        (fragment arena.length regex :: fragments)

theorem Stacked.length_eq {before arena : List NfaState} {stack : List Regex}
    {fragments : List Fragment} (h : Stacked before stack arena fragments) :
    fragments.length = stack.length := by
  induction h with
  | nil => rfl
  | cons regex _ ih => rw [List.length_cons, List.length_cons, ih]

/-- A sequence is built as the block of its tree, and the states before it are left as they are. If
it has no tree, both fail with the same error. -/
theorem Stacked.build_eq {before arena : List NfaState} {stack : List Regex}
    {fragments : List Fragment} (h : Stacked before stack arena fragments) (items : List Item) :
    build arena fragments items = (Regex.ofPostorder stack items).map fun regex =>
      (before ++ regex.block before.length fresh, fragment before.length regex) := by
  induction items generalizing stack arena fragments with
  | nil =>
    cases h with
    | nil => rfl
    | cons regex h =>
      cases h with
      | nil => rfl
      | cons other h =>
        show Except.error (PatternError.leftover _) = .error (.leftover _)
        simp [h.length_eq]
  | cons item items ih =>
    rw [build]
    -- Each item leaves one block on top, and both sides fail if operands are missing.
    rcases item with c | ⟨mark | mark⟩
    · rw [place_literal]
      exact ih (.cons _ h)
    · cases h with
      | nil => rfl
      | cons inner h =>
        rw [place_repeated]
        exact ih (.cons _ h)
    · cases h with
      | nil => cases mark <;> rfl
      | cons right h =>
        cases h with
        | nil => cases mark <;> rfl
        | cons left h =>
          rw [List.length_append, Regex.length_block, place_joined]
          exact ih (.cons _ h)

/-- A pattern is built as the block of its tree behind the states that are there. -/
theorem buildInto_eq (arena : List NfaState) (pattern : String) :
    buildInto arena pattern = (Regex.parse pattern).map fun regex =>
      (arena ++ regex.block arena.length fresh, fragment arena.length regex) := by
  have hbuild := (@Stacked.nil arena).build_eq
  rw [buildInto, Regex.parse]
  cases hexpanded : Pattern.expanded pattern.toList with
  | error cause => rfl
  | ok text =>
    cases hitems : Pattern.postorder text with
    | error cause => simp [hitems, bind, Except.bind, Except.map]
    | ok items => simp [hitems, bind, Except.bind, hbuild]

/-- An automaton of its own is a pattern built into an empty arena, with its last state accepting.
-/
theorem compile_eq (pattern : String) :
    (Nfa.compile pattern).map (fun nfa => (nfa.states.toList, nfa.start, nfa.finish)) =
      (buildInto [] pattern).map fun (arena, fragment) =>
        (accept arena fragment.finish, fragment.start, some fragment.finish) := by
  rw [Nfa.compile, buildInto_eq]
  cases Regex.parse pattern with
  | error cause => rfl
  | ok regex =>
    have haccept : accept (regex.block 0 fresh) (regex.size - 1) = regex.block 0 ⟨[], true⟩ := by
      simpa using @accept_block [] regex 0
    simp [Except.map, fragment, haccept, Nfa.ofRegex]

end LexGen.Arena
