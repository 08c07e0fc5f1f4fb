import LexGen.Proofs.Dfa.Minimality

/-!
# One minimal automaton for what is assigned

Two trim automata in which words separate the states, and which assign the same to every word, have
the same moves, acceptance and token types (`Dfa.Trim.agrees`). For each state of one there is a
state of the other that assigns the same, and this is a map of automata. Both number their states
in the order of their discovery, which a map of automata keeps, so it maps each state to itself.
Agreement is what canonical forms compare (`Dfa.Trim.canonical_eq_iff`).
-/

namespace LexGen.Dfa

/-- The automata have the same states, as far as a scanner can see. -/
structure Agrees (a b : Dfa) : Prop where
  size_eq : a.size = b.size
  isAccepting_eq : ∀ state, state < a.size → a.isAccepting state = b.isAccepting state
  tokenType_eq : ∀ state, state < a.size → a.tokenType state = b.tokenType state
  moves_eq : ∀ state, state < a.size → a.moves state = b.moves state

/-- No word is assigned the same from two states. -/
def Separated (dfa : Dfa) : Prop :=
  ∀ a b, a < dfa.size → b < dfa.size → (∀ word, dfa.assigned a word = dfa.assigned b word) → a = b

variable {a b : Dfa}

theorem lt_size_of_assigned {state : Nat} {word : List Char} {verdict : Option TokenType}
    (h : a.assigned state word = some verdict) : state < a.size := by
  by_contra hge
  have hstate : a.states[state]? = none := Array.getElem?_eq_none (Nat.not_lt.1 hge)
  cases word with
  | nil =>
    rw [assigned_nil, Dfa.verdict, isAccepting, hstate] at h
    cases h
  | cons c word =>
    rw [assigned_cons, next?, moves, hstate] at h
    cases h

/-! ## The map between the states -/

/-- Each state goes to one that assigns the same. -/
def Matching (a b : Dfa) (f : Nat → Nat) : Prop :=
  ∀ state, state < a.size → ∀ word, b.assigned (f state) word = a.assigned state word

namespace Trim

theorem exists_matching (ha : a.Trim)
    (h : ∀ word, b.assigned b.start word = a.assigned a.start word) : ∃ f, Matching a b f := by
  have hstate : ∀ state, ∃ other, state < a.size →
      ∀ word, b.assigned other word = a.assigned state word := by
    intro state
    by_cases hs : state < a.size
    · obtain ⟨other, hother⟩ :=
        @exists_rival_state a ha Nat ⟨b.start, b.next?, b.verdict⟩ h state hs
      exact ⟨other, fun _ => hother⟩
    · exact ⟨0, fun hlt => absurd hlt hs⟩
  choose f hf using hstate
  exact ⟨f, hf⟩

variable {f : Nat → Nat}

theorem lt_of_matching (ha : a.Trim) (hf : Matching a b f) {state : Nat} (hs : state < a.size) :
    f state < b.size := by
  obtain ⟨word, verdict, hverdict⟩ := ha.live state hs
  exact lt_size_of_assigned ((hf state hs word).trans hverdict)

theorem matching_start (ha : a.Trim) (hseparated : b.Separated) (hf : Matching a b f)
    (h : ∀ word, b.assigned b.start word = a.assigned a.start word) : f a.start = b.start := by
  apply hseparated _ _ (ha.lt_of_matching hf a.start_lt) b.start_lt
  intro word
  rw [hf _ a.start_lt, h]

/-- The map takes moves to moves. A move is missing exactly if nothing is assigned behind it. -/
theorem moves_matching (ha : a.Trim) (hb : b.Trim) (hseparated : b.Separated)
    (hf : Matching a b f) {state : Nat} (hs : state < a.size) :
    b.moves (f state) = (a.moves state).renumber f := by
  apply Moves.ext
  intro c
  rw [Moves.next?_renumber]
  show b.next? (f state) c = (a.next? state c).map f
  cases hnext : a.next? state c with
  | none =>
    rw [Option.map_none, hb.next?_eq_none_iff]
    intro word
    rw [hf state hs, assigned_cons, hnext, Option.bind_none]
  | some next =>
    have hlt := lt_of_next? hnext
    cases hother : b.next? (f state) c with
    | none =>
      have hnone : a.next? state c = none := by
        rw [ha.next?_eq_none_iff]
        intro word
        rw [← hf state hs, assigned_cons, hother, Option.bind_none]
      rw [hnext] at hnone
      cases hnone
    | some other =>
      have hsame : other = f next := by
        apply hseparated _ _ (lt_of_next? hother) (ha.lt_of_matching hf hlt)
        intro word
        have hword := hf state hs (c :: word)
        rw [assigned_cons, assigned_cons, hother, hnext] at hword
        rw [hf next hlt]
        exact hword
      rw [hsame, Option.map_some]

/-- The map goes from state to state in the order of their discovery. -/
theorem map_matching (ha : a.Trim) (hb : b.Trim) (hsa : a.Separated) (hsb : b.Separated)
    (hf : Matching a b f) (h : ∀ word, b.assigned b.start word = a.assigned a.start word) :
    (List.range a.size).map f = List.range b.size := by
  have hnext : ∀ state ∈ a.reached,
      (b.moves (f state)).targets = (a.moves state).targets.map f := by
    intro state hs
    rw [ha.reached_eq] at hs
    rw [ha.moves_matching hb hsb hf (List.mem_range.1 hs), Moves.targets_renumber]
  have hinjective : ∀ s ∈ List.range a.size, ∀ t ∈ List.range a.size, f s = f t → s = t := by
    intro s hs t ht hst
    rw [List.mem_range] at hs ht
    apply hsa s t hs ht
    intro word
    rw [← hf s hs, ← hf t ht, hst]
  have hreached := reached_eq_image a.explores_reached (ha.matching_start hsb hf h) hnext
  rw [ha.reached_eq, hb.reached_eq,
    Discovery.image_of_injOn List.nodup_range hinjective] at hreached
  exact hreached.symm

/-- Trim automata with separated states that assign the same to every word agree. -/
theorem agrees (ha : a.Trim) (hb : b.Trim) (hsa : a.Separated) (hsb : b.Separated)
    (h : ∀ word, b.assigned b.start word = a.assigned a.start word) : Agrees a b := by
  obtain ⟨f, hf⟩ := ha.exists_matching h
  have hmap := ha.map_matching hb hsa hsb hf h
  have hsize : a.size = b.size := by
    have hlength := congrArg List.length hmap
    rwa [List.length_map, List.length_range, List.length_range] at hlength
  have hself : ∀ state, state < a.size → f state = state := by
    intro state hs
    have hplace : ((List.range a.size).map f)[state]? = (List.range b.size)[state]? := by rw [hmap]
    rw [List.getElem?_map, List.getElem?_range hs, List.getElem?_range (hsize ▸ hs)] at hplace
    exact Option.some.inj hplace
  have hsame : ∀ state, state < a.size →
      ∀ word, b.assigned state word = a.assigned state word := by
    intro state hs word
    have hword := hf state hs word
    rwa [hself state hs] at hword
  refine ⟨hsize, ?_, ?_, ?_⟩
  · intro state hs
    exact isAccepting_eq_of_verdict (hsame state hs []).symm
  · intro state hs
    exact ha.typesAccept.tokenType_eq_of_verdict hb.typesAccept (hsame state hs []).symm
  · intro state hs
    have hmoves := ha.moves_matching hb hsb hf hs
    rw [hself state hs] at hmoves
    rw [hmoves]
    apply Moves.ext
    intro c
    rw [Moves.next?_renumber]
    show a.next? state c = (a.next? state c).map f
    cases hnext : a.next? state c with
    | none => rfl
    | some next => rw [Option.map_some, hself next (lt_of_next? hnext)]

end Trim

/-! ## Canonical forms -/

/-- Automata that agree assign the same. -/
theorem Agrees.assigned_eq (h : Agrees a b) {state : Nat} (hs : state < a.size)
    (word : List Char) : a.assigned state word = b.assigned state word := by
  induction word generalizing state with
  | nil => rw [assigned_nil, assigned_nil, verdict, verdict, h.isAccepting_eq state hs,
      h.tokenType_eq state hs]
  | cons c word ih =>
    rw [assigned_cons, assigned_cons, next?, next?, ← h.moves_eq state hs]
    cases hnext : (a.moves state).next? c with
    | none => rfl
    | some next =>
      rw [Option.bind_some, Option.bind_some]
      exact ih (lt_of_next? hnext)

/-- If the states are numbered in the order of their discovery, they keep their numbers in the canonical
form. -/
theorem canonical_eq_of_reached (h : a.reached = List.range a.size) :
    a.canonical = (List.range a.size).map fun state =>
      ⟨a.isAccepting state, a.tokenType state, (a.moves state).entries⟩ := by
  have hmoves : ∀ state,
      (a.canonicalState (List.range a.size) state).moves = (a.moves state).entries := by
    intro state
    unfold canonicalState
    refine (List.filterMap_congr ?_).trans List.filterMap_some
    rintro ⟨c, target⟩ hm
    have hlt : target < a.size := lt_of_next? (Moves.next?_eq_some_iff.2 hm)
    have hindex : (List.range a.size).idxOf? target = some target :=
      (idxOf?_eq_some_iff_of_nodup List.nodup_range).2 (List.getElem?_range hlt)
    show ((List.range a.size).idxOf? target).map (c, ·) = some (c, target)
    rw [hindex]
    rfl
  rw [canonical, h]
  apply List.map_congr_left
  intro state _
  rw [← hmoves]
  rfl

namespace Trim

/-- The canonical forms of trim automata are equal exactly if the automata agree. -/
theorem canonical_eq_iff (ha : a.Trim) (hb : b.Trim) : a.canonical = b.canonical ↔ Agrees a b := by
  rw [canonical_eq_of_reached ha.reached_eq, canonical_eq_of_reached hb.reached_eq]
  constructor
  · intro h
    have hsize : a.size = b.size := by
      have hlength := congrArg List.length h
      rwa [List.length_map, List.length_map, List.length_range, List.length_range] at hlength
    rw [← hsize, List.map_inj_left] at h
    have hstate := fun state (hs : state < a.size) =>
      CanonicalState.mk.inj (h state (List.mem_range.2 hs))
    refine ⟨hsize, fun state hs => (hstate state hs).1, fun state hs => (hstate state hs).2.1, ?_⟩
    intro state hs
    have hentries := (hstate state hs).2.2
    apply Moves.ext
    intro c
    rw [Moves.next?, Moves.next?, hentries]
  · intro h
    rw [← h.size_eq]
    apply List.map_congr_left
    intro state hs
    have hlt := List.mem_range.1 hs
    rw [h.isAccepting_eq state hlt, h.tokenType_eq state hlt, h.moves_eq state hlt]

/-- If words separate the states, the canonical forms are equal exactly if the same is assigned to
every word. -/
theorem canonical_eq_iff_assigned (ha : a.Trim) (hb : b.Trim) (hsa : a.Separated)
    (hsb : b.Separated) : a.canonical = b.canonical ↔
      ∀ word, a.assigned a.start word = b.assigned b.start word := by
  rw [ha.canonical_eq_iff hb]
  constructor
  · intro h word
    rw [h.assigned_eq a.start_lt, ha.start_eq_zero, hb.start_eq_zero]
  · intro h
    exact ha.agrees hb hsa hsb fun word => (h word).symm

end Trim

end LexGen.Dfa
