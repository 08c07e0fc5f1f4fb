import LexGen.Proofs.Nfa.Arena
import LexGen.Proofs.Pattern.Grammatical
import Mathlib.Logic.Relation

/-!
# What a pattern adds to an arena

A pattern is built behind the states that an arena has already, and it leaves them as they are. What
it adds is closed in itself: its edges lead to added states only, none of them leads back to the
state that is entered, and none starts from the state that is left (`Arena.Framed`). Nothing in it is
dead: each added state lies on a way from the entry to the end.

All of this holds of the block of an expression, by induction on the expression
(`Regex.target_ne_entry`, `Regex.length_edges_le`, `Nfa.Hosts.exists_path_from_entry`), and a
pattern is built as the block of its tree (`Arena.buildInto_eq`).
-/

namespace LexGen

/-! ## The edges of a block -/

/-- A repetition puts two states behind the block of what it repeats. The first of them is where it is
entered, and nothing of the repetition leads there. -/
theorem Regex.exists_block_repeated (mark : Repetition) (inner : Regex) (base : Nat)
    (last : NfaState) : ∃ exits targets : List Nat,
      (repeated mark inner).block base last =
        inner.block base (junction exits) ++ [junction targets, last] ∧
      base + inner.entry ∈ targets ∧ base + inner.size ∉ exits ∧ base + inner.size ∉ targets ∧
      exits.length ≤ 2 ∧ targets.length ≤ 2 := by
  have hinner := inner.entry_lt
  cases mark <;> (
    refine ⟨_, _, rfl, by simp, ?_, ?_, by simp, by simp⟩ <;>
      simp only [List.mem_cons, List.not_mem_nil, or_false] <;> omega)

/-- No edge of a block leads to its entry, unless it is one of the last state's. -/
theorem Regex.target_ne_entry {regex : Regex} {base : Nat} {last state : NfaState} {edge : Edge}
    (hs : state ∈ regex.block base last) (he : edge ∈ state.edges) :
    edge.target ≠ base + regex.entry ∨ edge ∈ last.edges := by
  induction regex generalizing base last with
  | literal c =>
    simp only [block, List.mem_cons, List.not_mem_nil, or_false] at hs
    rcases hs with rfl | rfl
    · obtain rfl := List.mem_singleton.1 he
      exact .inl (by simp [entry])
    · exact .inr he
  | concat left right ihl _ =>
    have hleft := left.entry_lt
    simp only [block, List.mem_append] at hs
    simp only [entry]
    rcases hs with hs | hs
    · rcases ihl hs with h | h
      · exact .inl h
      · simp only [mem_edges_junction, List.mem_singleton] at h
        exact .inl (by omega)
    · rcases target_of_mem_block hs he with h | h
      · exact .inl (by omega)
      · exact .inr h
  | union left right _ _ =>
    have hleft := left.entry_lt
    have hright := right.entry_lt
    -- The blocks of the two operands end before the entry, and the way out of them is behind it.
    have inside : ∀ {operand : Regex} {first : Nat},
        first + operand.size ≤ base + left.size + right.size →
        state ∈ operand.block first (junction [base + left.size + right.size + 1]) →
        edge.target ≠ base + (left.size + right.size) := by
      intro operand first hfirst hs
      rcases target_of_mem_block hs he with h | h
      · omega
      · simp only [mem_edges_junction, List.mem_singleton] at h
        omega
    simp only [block, List.mem_append, List.mem_cons, List.not_mem_nil, or_false] at hs
    simp only [entry]
    rcases hs with (hs | hs) | rfl | rfl
    · exact .inl (inside (by omega) hs)
    · exact .inl (inside (by omega) hs)
    · simp only [mem_edges_junction, List.mem_cons, List.not_mem_nil, or_false] at he
      exact .inl (by omega)
    · exact .inr he
  | repeated mark inner _ =>
    obtain ⟨exits, targets, hblock, -, hexits, htargets, -⟩ :=
      exists_block_repeated mark inner base last
    simp only [hblock, List.mem_append, List.mem_cons, List.not_mem_nil, or_false] at hs
    simp only [entry]
    rcases hs with hs | rfl | rfl
    · rcases target_of_mem_block hs he with h | h
      · exact .inl (by omega)
      · refine .inl fun heq => hexits ?_
        rw [← heq]
        exact (mem_edges_junction.1 h).2
    · refine .inl fun heq => htargets ?_
      rw [← heq]
      exact (mem_edges_junction.1 he).2
    · exact .inr he

/-- A state of a block has at most two edges, unless it is the last one. -/
theorem Regex.length_edges_le {regex : Regex} {base : Nat} {last state : NfaState}
    (hs : state ∈ regex.block base last) : state.edges.length ≤ 2 ∨ state = last := by
  have hjunction : ∀ {targets : List Nat}, targets.length ≤ 2 →
      (junction targets).edges.length ≤ 2 := by
    intro targets hle
    rw [junction, List.length_map]
    exact hle
  induction regex generalizing base last with
  | literal c =>
    simp only [block, List.mem_cons, List.not_mem_nil, or_false] at hs
    rcases hs with rfl | rfl
    · exact .inl (by simp)
    · exact .inr rfl
  | concat left right ihl ihr =>
    simp only [block, List.mem_append] at hs
    rcases hs with hs | hs
    · rcases ihl hs with h | rfl
      · exact .inl h
      · exact .inl (hjunction (by simp))
    · exact ihr hs
  | union left right ihl ihr =>
    simp only [block, List.mem_append, List.mem_cons, List.not_mem_nil, or_false] at hs
    rcases hs with (hs | hs) | rfl | rfl
    · rcases ihl hs with h | rfl
      · exact .inl h
      · exact .inl (hjunction (by simp))
    · rcases ihr hs with h | rfl
      · exact .inl h
      · exact .inl (hjunction (by simp))
    · exact .inl (hjunction (by simp))
    · exact .inr rfl
  | repeated mark inner ih =>
    obtain ⟨exits, targets, hblock, -, -, -, hexits, htargets⟩ :=
      exists_block_repeated mark inner base last
    simp only [hblock, List.mem_append, List.mem_cons, List.not_mem_nil, or_false] at hs
    rcases hs with hs | rfl | rfl
    · rcases ih hs with h | rfl
      · exact .inl h
      · exact .inl (hjunction hexits)
    · exact .inl (hjunction htargets)
    · exact .inr rfl

/-! ## Ways through a block -/

/-- From the entry of a block there is a way to each of its states. -/
theorem Nfa.Hosts.exists_path_from_entry {nfa : Nfa} {base state : Nat} {regex : Regex}
    {last : NfaState} (h : nfa.Hosts base (regex.block base last)) (hbase : base ≤ state)
    (hlt : state < base + regex.size) : ∃ word, nfa.Path (base + regex.entry) word state := by
  have hend := h.exists_path_entry
  induction regex generalizing base last with
  | literal c =>
    simp only [Regex.size, Regex.entry] at hlt hend ⊢
    by_cases hs : state = base
    · exact ⟨[], hs ▸ .nil _⟩
    · obtain rfl : state = base + 1 := by omega
      exact hend
  | concat left right ihl ihr =>
    rw [Regex.block, hosts_append, Regex.length_block] at h
    simp only [Regex.size, Regex.entry, ← Nat.add_assoc] at hlt ⊢
    by_cases hs : state < base + left.size
    · exact ihl h.1 hbase hs h.1.exists_path_entry
    · obtain ⟨front, hfront⟩ := h.1.exists_path_entry
      obtain ⟨back, hback⟩ := ihr h.2 (by omega) hlt h.2.exists_path_entry
      have hleft := hfront.exit h.1.getElem?_last (List.mem_singleton_self _)
      exact ⟨front ++ back, hleft.append hback⟩
  | union left right ihl ihr =>
    simp only [Regex.block, hosts_append, hosts_cons, List.length_append, Regex.length_block,
      ← Nat.add_assoc] at h
    obtain ⟨⟨hl, hr⟩, hentry, -⟩ := h
    simp only [Regex.size, Regex.entry, ← Nat.add_assoc] at hlt hend ⊢
    by_cases hleft : state < base + left.size
    · obtain ⟨word, hword⟩ := ihl hl hbase hleft hl.exists_path_entry
      exact ⟨word, .junction hentry (by simp) hword⟩
    by_cases hright : state < base + left.size + right.size
    · obtain ⟨word, hword⟩ := ihr hr (by omega) hright hr.exists_path_entry
      exact ⟨word, .junction hentry (by simp) hword⟩
    by_cases hs : state = base + left.size + right.size
    · exact ⟨[], hs ▸ .nil _⟩
    · obtain rfl : state = base + left.size + right.size + 1 := by omega
      exact hend
  | repeated mark inner ih =>
    simp only [Regex.size, Regex.entry, ← Nat.add_assoc] at hlt hend ⊢
    obtain ⟨exits, targets, hblock, henter, -⟩ := Regex.exists_block_repeated mark inner base last
    rw [hblock, hosts_append, hosts_cons, Regex.length_block] at h
    obtain ⟨hinner, hentry, -⟩ := h
    by_cases hs : state < base + inner.size
    · obtain ⟨word, hword⟩ := ih hinner hbase hs hinner.exists_path_entry
      exact ⟨word, .junction hentry henter hword⟩
    by_cases hs : state = base + inner.size
    · exact ⟨[], hs ▸ .nil _⟩
    · obtain rfl : state = base + inner.size + 1 := by omega
      exact hend

namespace Arena

/-- An edge of one state leads to the other. -/
def Leads (arena : List NfaState) (source target : Nat) : Prop :=
  ∃ state, arena[source]? = some state ∧ ∃ edge ∈ state.edges, edge.target = target

/-- The block alone, at its place: in front of it there are states without edges. -/
def blockNfa (base : Nat) (regex : Regex) : Nfa where
  states := (List.replicate base fresh ++ regex.block base fresh).toArray
  start := base + regex.entry
  finish := none
  start_lt := by simpa using regex.entry_lt
  target_lt state hs edge he := by
    rw [List.size_toArray, List.length_append, List.length_replicate, Regex.length_block]
    rcases List.mem_append.1 (List.mem_toArray.1 hs) with hs | hs
    · rw [List.eq_of_mem_replicate hs] at he
      cases he
    · rcases Regex.target_of_mem_block hs he with h | h
      · exact h.2
      · cases h

theorem hosts_blockNfa (base : Nat) (regex : Regex) :
    (blockNfa base regex).Hosts base (regex.block base fresh) := by
  intro i state hi
  rw [blockNfa, List.getElem?_toArray, List.getElem?_append_right (by simp), List.length_replicate,
    Nat.add_sub_cancel_left, hi]

/-- The edges of the block alone are edges of each arena that ends with the block. -/
theorem leads_of_mem_targets {arena : List NfaState} {regex : Regex} {label : Option Char}
    {source target : Nat} (h : target ∈ (blockNfa arena.length regex).targets label source) :
    Leads (arena ++ regex.block arena.length fresh) source target := by
  have hedge := Nfa.mem_targets_iff.1 h
  rw [Nfa.edges] at hedge
  cases hstate : (blockNfa arena.length regex).states[source]? with
  | none => simp [hstate] at hedge
  | some state =>
    rw [hstate] at hedge
    rw [blockNfa, List.getElem?_toArray] at hstate
    by_cases hs : source < arena.length
    · rw [List.getElem?_append_left (by simpa using hs), List.getElem?_replicate, if_pos hs] at hstate
      cases hstate
      cases hedge
    · rw [List.getElem?_append_right (by simpa using hs), List.length_replicate] at hstate
      refine ⟨state, ?_, _, hedge, rfl⟩
      rw [List.getElem?_append_right (Nat.not_lt.1 hs), hstate]

theorem leads_of_path {arena : List NfaState} {regex : Regex} {word : List Char}
    {source target : Nat} (h : (blockNfa arena.length regex).Path source word target) :
    Relation.ReflTransGen (Leads (arena ++ regex.block arena.length fresh)) source target := by
  induction h with
  | nil => exact .refl
  | silent hnext _ ih => exact .head (leads_of_mem_targets hnext) ih
  | read hnext _ ih => exact .head (leads_of_mem_targets hnext) ih

/-! ## What is added -/

/-- What a sequence in postorder adds to an arena, with the entry and the end of what is new. -/
structure Framed (arena : List NfaState) (items : List Item) (built : List NfaState)
    (fragment : Fragment) : Prop where
  /-- All states that were there are as they were. -/
  isPrefix : arena <+: built
  /-- Each literal and each operator but a concatenation adds two states. -/
  length_eq : built.length =
    arena.length + 2 * items.countP (· != .operator (.binary .concat))
  start_mem : arena.length ≤ fragment.start ∧ fragment.start < built.length
  finish_mem : arena.length ≤ fragment.finish ∧ fragment.finish < built.length
  target_mem : ∀ i state, arena.length ≤ i → built[i]? = some state → ∀ edge ∈ state.edges,
    arena.length ≤ edge.target ∧ edge.target < built.length
  /-- Only an edge that led out of the arena before can lead to the entry. -/
  lt_of_target_eq_start : ∀ i state, built[i]? = some state → ∀ edge ∈ state.edges,
    edge.target = fragment.start → i < arena.length
  target_ne_start : (∀ state ∈ arena, ∀ edge ∈ state.edges, edge.target < arena.length) →
    ∀ state ∈ built, ∀ edge ∈ state.edges, edge.target ≠ fragment.start
  edges_finish : ∃ state, built[fragment.finish]? = some state ∧ state.edges = []
  length_edges_le : ∀ i state, arena.length ≤ i → built[i]? = some state → state.edges.length ≤ 2
  /-- Each new state is on a way from the entry to the end. -/
  reached : ∀ i, arena.length ≤ i → i < built.length →
    Relation.ReflTransGen (Leads built) fragment.start i ∧
      Relation.ReflTransGen (Leads built) i fragment.finish
  accepting_eq_false : ∀ i state, arena.length ≤ i → built[i]? = some state →
    state.accepting = false

/-- A state behind those of the arena is one of the block's. -/
theorem mem_block_of_getElem? {arena : List NfaState} {regex : Regex} {i : Nat} {state : NfaState}
    (hi : arena.length ≤ i)
    (h : (arena ++ regex.block arena.length fresh)[i]? = some state) :
    state ∈ regex.block arena.length fresh := by
  rw [List.getElem?_append_right hi] at h
  exact List.mem_of_getElem? h

theorem framed_block (arena : List NfaState) (regex : Regex) :
    Framed arena regex.postorder (arena ++ regex.block arena.length fresh)
      (fragment arena.length regex) := by
  have hentry := regex.entry_lt
  have hlength : (arena ++ regex.block arena.length fresh).length = arena.length + regex.size := by
    rw [List.length_append, Regex.length_block]
  have hhosts := hosts_blockNfa arena.length regex
  have hne : ∀ state ∈ regex.block arena.length fresh, ∀ edge ∈ state.edges,
      edge.target ≠ arena.length + regex.entry := by
    intro state hs edge he
    exact (Regex.target_ne_entry hs he).resolve_right (by simp [fresh])
  constructor
  case isPrefix => exact List.prefix_append ..
  case length_eq => rw [hlength, Regex.size_eq, List.countP_eq_length_filter]
  case start_mem =>
    rw [hlength, fragment]
    exact ⟨Nat.le_add_right .., by simp; omega⟩
  case finish_mem =>
    rw [hlength, fragment]
    simp only
    omega
  case target_mem =>
    intro i state hi hs edge he
    rw [hlength]
    exact (Regex.target_of_mem_block (mem_block_of_getElem? hi hs) he).resolve_right (by simp [fresh])
  case lt_of_target_eq_start =>
    intro i state hs edge he heq
    by_contra hi
    exact hne state (mem_block_of_getElem? (Nat.not_lt.1 hi) hs) edge he heq
  case target_ne_start =>
    intro hclosed state hs edge he
    rcases List.mem_append.1 hs with hs | hs
    · have hlt := hclosed state hs edge he
      simp only [fragment]
      omega
    · exact hne state hs edge he
  case edges_finish =>
    obtain ⟨front, hfront, hsize, -⟩ := regex.exists_block_eq arena.length
    refine ⟨fresh, ?_, rfl⟩
    have hplace : (fragment arena.length regex).finish = arena.length + front.length := by
      simp only [fragment]
      omega
    rw [hfront, hplace, List.getElem?_append_right (Nat.le_add_right ..)]
    simp
  case length_edges_le =>
    intro i state hi hs
    rcases Regex.length_edges_le (mem_block_of_getElem? hi hs) with h | rfl
    · exact h
    · simp [fresh]
  case reached =>
    intro i hi hlt
    rw [hlength] at hlt
    obtain ⟨front, hfront⟩ := hhosts.exists_path_from_entry hi hlt
    obtain ⟨back, hback⟩ := hhosts.exists_path_last hi hlt
    exact ⟨leads_of_path hfront, leads_of_path hback⟩
  case accepting_eq_false =>
    intro i state hi hs
    by_contra haccepting
    have hmem : state ∈ (regex.block arena.length fresh).filter (·.accepting) :=
      List.mem_filter.2 ⟨mem_block_of_getElem? hi hs, by simpa using haccepting⟩
    rw [Regex.filter_accepting_block] at hmem
    simp [fresh] at hmem

/-- What is built into an arena comes from the postorder of the pattern without its classes, and
nothing but this is added. -/
theorem buildInto_framed {arena built : List NfaState} {fragment : Fragment} {pattern : String}
    (h : buildInto arena pattern = .ok (built, fragment)) :
    ∃ text items, Pattern.expanded pattern.toList = .ok text ∧
      Pattern.postorder text = .ok items ∧ Framed arena items built fragment := by
  rw [buildInto_eq, Checked.map_eq_ok_iff] at h
  obtain ⟨regex, hparse, heq⟩ := h
  cases heq
  obtain ⟨text, hexpanded, hparse⟩ := Checked.bind_eq_ok_iff.1 hparse
  obtain ⟨items, hitems, htree⟩ := Checked.bind_eq_ok_iff.1 hparse
  have hpostorder : regex.postorder = items := by
    simpa using Regex.postorder_of_ofPostorder htree
  refine ⟨text, items, hexpanded, hitems, ?_⟩
  rw [← hpostorder]
  exact framed_block arena regex

/-- Behind a start with an edge to a state that accepts, the pattern `(a*)*|b` adds twelve states.
The start and the other state stay as they are, and no edge leads to the entry. -/
theorem buildInto_framed_nested_star : ∃ built fragment text items,
    buildInto [Regex.junction [1], ⟨[], true⟩] "(a*)*|b" = .ok (built, fragment) ∧
    Pattern.expanded "(a*)*|b".toList = .ok text ∧ Pattern.postorder text = .ok items ∧
    Framed [Regex.junction [1], ⟨[], true⟩] items built fragment ∧
    built.length = 12 ∧ built[0]? = some (Regex.junction [1]) ∧
    ∀ state ∈ built, ∀ edge ∈ state.edges, edge.target ≠ fragment.start := by
  have hparse : Regex.parse "(a*)*|b" = .ok (.union
      (.repeated .star (.repeated .star (.literal 'a'))) (.literal 'b')) := by decide
  have hbuilt := buildInto_eq [Regex.junction [1], ⟨[], true⟩] "(a*)*|b"
  rw [hparse, Checked.map_ok] at hbuilt
  obtain ⟨text, items, htext, hitems, hframed⟩ := buildInto_framed hbuilt
  refine ⟨_, _, text, items, hbuilt, htext, hitems, hframed, rfl, rfl, ?_⟩
  exact hframed.target_ne_start (by decide)

end Arena

end LexGen
