/-!
# Sets of states

A finite set of state numbers, held as the natural number whose binary digits mark the members.
Equal sets are equal numbers (`StateSet.ext`), so a set can name a state of another automaton.
-/

namespace LexGen

structure StateSet where
  bits : Nat
  deriving DecidableEq, Repr

namespace StateSet

instance : Membership Nat StateSet where
  mem set state := set.bits.testBit state = true

instance (state : Nat) (set : StateSet) : Decidable (state ∈ set) :=
  inferInstanceAs (Decidable (set.bits.testBit state = true))

def empty : StateSet := ⟨0⟩

def insert (state : Nat) (set : StateSet) : StateSet := ⟨set.bits ||| 1 <<< state⟩

def union (a b : StateSet) : StateSet := ⟨a.bits ||| b.bits⟩

def isEmpty (set : StateSet) : Bool := set.bits == 0

def ofList (states : List Nat) : StateSet := states.foldr insert empty

/-- The members in ascending order. -/
def members (set : StateSet) : List Nat := (List.range (set.bits.log2 + 1)).filter set.bits.testBit

theorem mem_def {state : Nat} {set : StateSet} :
    state ∈ set ↔ set.bits.testBit state = true := Iff.rfl

theorem ext {a b : StateSet} (h : ∀ state, state ∈ a ↔ state ∈ b) : a = b := by
  obtain ⟨a⟩ := a
  obtain ⟨b⟩ := b
  congr 1
  exact Nat.eq_of_testBit_eq fun i => Bool.eq_iff_iff.2 (h i)

@[simp]
theorem not_mem_empty (state : Nat) : ¬ state ∈ empty := by simp [mem_def, empty]

@[simp]
theorem mem_insert {state other : Nat} {set : StateSet} :
    other ∈ insert state set ↔ other = state ∨ other ∈ set := by
  rw [mem_def, insert, Nat.testBit_or, Nat.one_shiftLeft, Nat.testBit_two_pow, Bool.or_eq_true,
    decide_eq_true_eq, or_comm, eq_comm, ← mem_def]

@[simp]
theorem mem_union {state : Nat} {a b : StateSet} : state ∈ union a b ↔ state ∈ a ∨ state ∈ b := by
  simp [mem_def, union]

@[simp]
theorem mem_ofList {state : Nat} {states : List Nat} : state ∈ ofList states ↔ state ∈ states := by
  induction states with
  | nil => simp [ofList]
  | cons other rest ih => rw [ofList, List.foldr_cons, ← ofList, mem_insert, ih, List.mem_cons]

@[simp]
theorem mem_members {state : Nat} {set : StateSet} : state ∈ set.members ↔ state ∈ set := by
  simp only [members, List.mem_filter, List.mem_range, mem_def, and_iff_right_iff_imp]
  intro h
  have hle : 2 ^ state ≤ set.bits := Nat.ge_two_pow_of_testBit h
  have hne : set.bits ≠ 0 := by
    have := Nat.two_pow_pos state
    omega
  exact Nat.lt_succ_of_le ((Nat.le_log2 hne).2 hle)

end StateSet

end LexGen
