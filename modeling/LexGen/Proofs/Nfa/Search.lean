import LexGen.Nfa.Closure
import LexGen.Nfa.OfRegex
import LexGen.Proofs.Nfa.Thompson
import Mathlib.Logic.Relation

/-!
# The search for a closure, in any order

`Nfa.closure` takes the pending states in one order. Here any pending state may be taken next
(`Nfa.Round`), and still there is one result. In each search the states that are seen are reached
from the first ones, and whatever silent edges lead to from a seen state is seen too, unless that
state is still pending (`Nfa.Searched`). A round takes one state from the pending ones for good,
since only states that have not been seen become pending, so the search also ends where silent edges
go in a cycle (`Nfa.Rounds.add_le`).

What is left when nothing is pending is the closure. As the set of all states that the first ones
lead to over silent edges, it holds the first states, grows with them, is closed already, and can be
put together from the closures of parts (`Nfa.closure_exact`).
-/

namespace LexGen.Nfa

/-- A silent edge leads from one state to the other. -/
def Silent (nfa : Nfa) (source target : Nat) : Prop := (⟨none, target⟩ : Edge) ∈ nfa.edges source

/-- A round of the search with the pending states and the seen ones: some pending state is taken, and
what its silent edges lead to is marked. -/
inductive Round (nfa : Nfa) : List Nat × StateSet → List Nat × StateSet → Prop where
  | take {pending rest : List Nat} {state : Nat} {seen : StateSet} :
    pending.Perm (state :: rest) →
      Round nfa (pending, seen) ((nfa.targets none state).foldl mark (rest, seen))

/-- Rounds one after the other, with their number. -/
inductive Rounds (nfa : Nfa) (first : List Nat × StateSet) : Nat → List Nat × StateSet → Prop where
  | start : Rounds nfa first 0 first
  | next {n : Nat} {search later : List Nat × StateSet} :
    Rounds nfa first n search → nfa.Round search later → Rounds nfa first (n + 1) later

variable {nfa : Nfa} {set : StateSet} {search later : List Nat × StateSet} {n : Nat}

theorem path_nil_iff {source target : Nat} :
    nfa.Path source [] target ↔ Relation.ReflTransGen nfa.Silent source target := by
  constructor
  · intro h
    generalize hw : ([] : List Char) = word at h
    induction h with
    | nil => exact .refl
    | silent hnext _ ih => exact .head (mem_targets_iff.1 hnext) (ih hw)
    | read => cases hw
  · intro h
    induction h using Relation.ReflTransGen.head_induction_on with
    | refl => exact .nil target
    | head hedge _ ih => exact .silent (mem_targets_iff.2 hedge) ih

/-! ## What a search has found -/

/-- Where a search for what silent edges reach from a set has come to. -/
structure Searched (nfa : Nfa) (set : StateSet) (search : List Nat × StateSet) : Prop where
  seen_of_mem : ∀ state, state ∈ set → state ∈ search.2
  seen_of_pending : ∀ state ∈ search.1, state ∈ search.2
  reached : ∀ state, state ∈ search.2 →
    ∃ source, source ∈ set ∧ Relation.ReflTransGen nfa.Silent source state
  pending_or_closed : ∀ state, state ∈ search.2 →
    state ∈ search.1 ∨ ∀ target ∈ nfa.targets none state, target ∈ search.2

theorem searched_members (nfa : Nfa) (set : StateSet) : nfa.Searched set (set.members, set) where
  seen_of_mem _ hs := hs
  seen_of_pending _ hs := StateSet.mem_members.1 hs
  reached state hs := ⟨state, hs, .refl⟩
  pending_or_closed _ hs := .inl (StateSet.mem_members.2 hs)

/-- A round goes on with a search. -/
theorem Searched.round (h : nfa.Searched set search) (hround : nfa.Round search later) :
    nfa.Searched set later := by
  obtain @⟨pending, rest, taken, seen, hperm⟩ := hround
  have hpending : ∀ state, state ∈ pending ↔ state = taken ∨ state ∈ rest := by
    intro state
    rw [hperm.mem_iff, List.mem_cons]
  have htaken : taken ∈ seen := h.seen_of_pending taken ((hpending taken).2 (.inl rfl))
  constructor
  case seen_of_mem => exact fun state hs => mem_seen_foldl_mark.2 (.inl (h.seen_of_mem state hs))
  case seen_of_pending =>
    intro state hs
    rcases mem_pending_foldl_mark hs with hs | hs
    · have hseen := h.seen_of_pending state ((hpending state).2 (.inr hs))
      exact mem_seen_foldl_mark.2 (.inl hseen)
    · exact mem_seen_foldl_mark.2 (.inr hs)
  case reached =>
    intro state hs
    rcases mem_seen_foldl_mark.1 hs with hs | hs
    · exact h.reached state hs
    · obtain ⟨source, hsource, hway⟩ := h.reached taken htaken
      exact ⟨source, hsource, hway.tail (mem_targets_iff.1 hs)⟩
  case pending_or_closed =>
    intro state hs
    rcases seen_or_pending hs with hs | hs
    · rcases h.pending_or_closed state hs with hp | hclosed
      · rcases (hpending state).1 hp with rfl | hrest
        · exact .inr fun target ht => mem_seen_foldl_mark.2 (.inr ht)
        · exact .inl (mem_foldl_mark_of_mem hrest)
      · exact .inr fun target ht => mem_seen_foldl_mark.2 (.inl (hclosed target ht))
    · exact .inl hs

theorem Searched.rounds (hrounds : nfa.Rounds search n later) (h : nfa.Searched set search) :
    nfa.Searched set later := by
  induction hrounds with
  | start => exact h
  | next _ hround ih => exact ih.round hround

/-- With nothing pending, the seen states are those that silent edges lead to. -/
theorem Searched.mem_iff {seen : StateSet} (h : nfa.Searched set ([], seen)) (state : Nat) :
    state ∈ seen ↔ ∃ source, source ∈ set ∧ Relation.ReflTransGen nfa.Silent source state := by
  constructor
  · exact h.reached state
  · rintro ⟨source, hsource, hway⟩
    induction hway with
    | refl => exact h.seen_of_mem source hsource
    | @tail middle target _ hedge ih =>
      have hclosed := (h.pending_or_closed middle ih).resolve_left List.not_mem_nil
      exact hclosed target (mem_targets_iff.2 hedge)

/-- All states that are pending are states of the automaton, if the first ones are. -/
theorem Searched.lt_size (h : nfa.Searched set search) (hset : ∀ state, state ∈ set → state < nfa.size)
    {state : Nat} (hs : state ∈ search.1) : state < nfa.size := by
  obtain ⟨source, hsource, hway⟩ := h.reached state (h.seen_of_pending state hs)
  exact (path_nil_iff.2 hway).lt_size (hset source hsource)

/-! ## The end of a search -/

theorem exists_round (h : search.1 ≠ []) : ∃ later, nfa.Round search later := by
  obtain ⟨pending, seen⟩ := search
  obtain ⟨state, rest, rfl⟩ := List.exists_cons_of_ne_nil h
  exact ⟨_, .take (.refl _)⟩

/-- The pending states and those that have not been seen become fewer. -/
def remaining (nfa : Nfa) (search : List Nat × StateSet) : Nat :=
  search.1.length + (unseen nfa.size search.2).length

theorem Round.remaining_lt (h : nfa.Round search later) : nfa.remaining later < nfa.remaining search := by
  obtain @⟨pending, rest, state, seen, hperm⟩ := h
  have hmeasure : _ ≤ rest.length + (unseen nfa.size seen).length :=
    @measure_foldl_mark nfa.size (nfa.targets none state) (rest, seen) fun _ ht => lt_of_mem_targets ht
  have hlength : pending.length = rest.length + 1 := by rw [hperm.length_eq, List.length_cons]
  simp only [remaining]
  omega

/-- There are no more rounds than what remains at first, whatever states are taken. -/
theorem Rounds.add_le (h : nfa.Rounds search n later) :
    n + nfa.remaining later ≤ nfa.remaining search := by
  induction h with
  | start => omega
  | next _ hround ih =>
    have hlt := hround.remaining_lt
    omega

/-- A search can be carried on until nothing is pending. -/
theorem Rounds.exists_end {first : List Nat × StateSet} (h : nfa.Rounds first n search) :
    ∃ m seen, nfa.Rounds first m ([], seen) := by
  induction hr : nfa.remaining search using Nat.strongRecOn generalizing n search with
  | ind r ih =>
    by_cases hpending : search.1 = []
    · obtain ⟨pending, seen⟩ := search
      obtain rfl : pending = [] := hpending
      exact ⟨n, seen, h⟩
    · obtain ⟨later, hround⟩ := @exists_round nfa _ hpending
      exact ih _ (hr ▸ hround.remaining_lt) (h.next hround) rfl

theorem mem_closure_members {state : Nat} : state ∈ nfa.closure set.members ↔
    ∃ source, source ∈ set ∧ Relation.ReflTransGen nfa.Silent source state := by
  simp only [mem_closure, StateSet.mem_members, path_nil_iff]

/-- The set is what silent edges reach from the first set, and each search for it ends there. -/
structure Closes (nfa : Nfa) (set result : StateSet) : Prop where
  mem_iff : ∀ state, state ∈ result ↔
    ∃ source, source ∈ set ∧ Relation.ReflTransGen nfa.Silent source state
  /-- No search goes on for more rounds. -/
  rounds_le : ∀ n search, nfa.Rounds (set.members, set) n search →
    n ≤ set.members.length + nfa.size
  /-- A search stops only where nothing is pending. -/
  exists_round : ∀ n search, nfa.Rounds (set.members, set) n search → search.1 ≠ [] →
    ∃ later, nfa.Round search later
  exists_end : ∃ n, nfa.Rounds (set.members, set) n ([], result)
  eq_of_end : ∀ n seen, nfa.Rounds (set.members, set) n ([], seen) → seen = result
  /-- Only states of the automaton are taken. -/
  pending_lt : (∀ state, state ∈ set → state < nfa.size) → ∀ n search,
    nfa.Rounds (set.members, set) n search → ∀ state ∈ search.1, state < nfa.size

theorem closes_closure (nfa : Nfa) (set : StateSet) : nfa.Closes set (nfa.closure set.members) := by
  have hsearched : ∀ {n search}, nfa.Rounds (set.members, set) n search → nfa.Searched set search :=
    fun hrounds => (searched_members nfa set).rounds hrounds
  have hend : ∀ {n seen}, nfa.Rounds (set.members, set) n ([], seen) →
      seen = nfa.closure set.members := by
    intro n seen hrounds
    refine StateSet.ext fun state => ?_
    rw [(hsearched hrounds).mem_iff, mem_closure_members]
  constructor
  case mem_iff => exact fun _ => mem_closure_members
  case rounds_le =>
    intro n search hrounds
    have hle := hrounds.add_le
    have hunseen : (unseen nfa.size set).length ≤ nfa.size :=
      Nat.le_trans (List.length_filter_le ..) (Nat.le_of_eq List.length_range)
    simp only [remaining] at hle
    omega
  case exists_round => exact fun _ _ _ hpending => Nfa.exists_round hpending
  case exists_end =>
    obtain ⟨m, seen, hrounds⟩ := (@Rounds.start nfa (set.members, set)).exists_end
    exact ⟨m, hend hrounds ▸ hrounds⟩
  case eq_of_end => exact fun _ _ hrounds => hend hrounds
  case pending_lt => exact fun hset _ _ hrounds _ hs => (hsearched hrounds).lt_size hset hs

/-- From every set each search ends, in whatever order it takes the pending states, and leaves the
states that silent edges reach. So the closure is extensive, monotone and idempotent, and that of a
union is the union of the closures. -/
theorem closure_exact (nfa : Nfa) :
    (∀ set : StateSet, nfa.Closes set (nfa.closure set.members)) ∧
    (∀ (set : StateSet) (state : Nat), state ∈ set → state ∈ nfa.closure set.members) ∧
    (∀ set other : StateSet, (∀ state, state ∈ set → state ∈ other) →
      ∀ state, state ∈ nfa.closure set.members → state ∈ nfa.closure other.members) ∧
    (∀ set : StateSet,
      nfa.closure (nfa.closure set.members).members = nfa.closure set.members) ∧
    ∀ set other : StateSet, nfa.closure (set.union other).members =
      (nfa.closure set.members).union (nfa.closure other.members) := by
  refine ⟨closes_closure nfa, ?_, ?_, ?_, ?_⟩
  · exact fun set state hs => mem_closure_members.2 ⟨state, hs, .refl⟩
  · intro set other hsub state hs
    obtain ⟨source, hsource, hway⟩ := mem_closure_members.1 hs
    exact mem_closure_members.2 ⟨source, hsub source hsource, hway⟩
  · intro set
    refine StateSet.ext fun state => ?_
    simp only [mem_closure_members]
    constructor
    · rintro ⟨middle, ⟨source, hsource, hfront⟩, hback⟩
      exact ⟨source, hsource, hfront.trans hback⟩
    · exact fun hs => ⟨state, hs, .refl⟩
  · intro set other
    refine StateSet.ext fun state => ?_
    simp only [mem_closure_members, StateSet.mem_union, or_and_right, exists_or]

/-- The automaton of `(a*)*` has a cycle of silent edges. From the state behind the letter each search
leaves the same five states. -/
theorem closure_exact_nested_star : ∃ nfa, compile "(a*)*" = .ok nfa ∧
    ∀ n seen, nfa.Rounds ([1], .ofList [1]) n ([], seen) → seen = .ofList [0, 1, 2, 3, 5] := by
  refine ⟨.ofRegex (.repeated .star (.repeated .star (.literal 'a'))), rfl, ?_⟩
  intro n seen hrounds
  have hmembers : (StateSet.ofList [1]).members = [1] := by decide
  have hcloses := (closure_exact (.ofRegex (.repeated .star (.repeated .star (.literal 'a'))))).1
    (.ofList [1])
  rw [hmembers] at hcloses
  rw [hcloses.eq_of_end n seen (hmembers ▸ hrounds)]
  decide

end LexGen.Nfa
