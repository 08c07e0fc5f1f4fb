/-!
# Marks on pairs of states

A pair of distinct numbers below `n` has a slot in a triangular array: the pairs with the same
larger number `high` are consecutive, and those with a smaller one come before them. So no two
pairs share a slot (`Pair.eq_of_slot_eq`), no slot is left over (`Pair.exists_slot_eq`), and a mark
touches its own pair only (`get_mark`).
-/

namespace LexGen

/-- Two distinct numbers below `n`, the smaller one first. -/
structure Pair (n : Nat) where
  low : Nat
  high : Nat
  low_lt : low < high
  high_lt : high < n
  deriving DecidableEq, Repr

namespace Pair

/-- The two numbers make up a pair. -/
def Ends (n a b : Nat) : Prop := a ≠ b ∧ a < n ∧ b < n

/-- The pair of two numbers in any order; none if they are equal or out of range. -/
def of? (n a b : Nat) : Option (Pair n) :=
  if h : a < b ∧ b < n then some ⟨a, b, h.1, h.2⟩
  else if h : b < a ∧ a < n then some ⟨b, a, h.1, h.2⟩
  else none

/-- All pairs, in the order of the smaller and then of the larger number. -/
def all (n : Nat) : List (Pair n) :=
  (List.range n).flatMap fun low =>
    (List.range n).filterMap fun high =>
      if h : low < high ∧ high < n then some ⟨low, high, h.1, h.2⟩ else none

def slot {n : Nat} (pair : Pair n) : Nat := pair.high * (pair.high - 1) / 2 + pair.low

/-- The triangular numbers grow by the length of the next row. -/
theorem triangle_succ (n : Nat) : (n + 1) * n / 2 = n * (n - 1) / 2 + n := by
  cases n with
  | zero => rfl
  | succ n =>
    have : (n + 1 + 1) * (n + 1) = (n + 1) * n + (n + 1) * 2 := by
      rw [Nat.mul_comm, ← Nat.mul_add]
    rw [this, Nat.add_mul_div_right _ _ (by decide), Nat.add_sub_cancel]

theorem triangle_le {m n : Nat} (h : m ≤ n) : m * (m - 1) / 2 ≤ n * (n - 1) / 2 :=
  Nat.div_le_div_right (Nat.mul_le_mul h (Nat.sub_le_sub_right h 1))

theorem slot_lt {n : Nat} (pair : Pair n) : pair.slot < n * (n - 1) / 2 := by
  have h1 := triangle_succ pair.high
  have h2 : (pair.high + 1) * (pair.high + 1 - 1) / 2 ≤ n * (n - 1) / 2 := triangle_le pair.high_lt
  rw [Nat.add_sub_cancel] at h2
  have h3 := pair.low_lt
  unfold slot
  omega

/-- A pair whose larger number is smaller has the earlier slot. -/
theorem slot_lt_of_high_lt {n : Nat} {a b : Pair n} (h : a.high < b.high) : a.slot < b.slot := by
  have h1 := triangle_succ a.high
  have h2 : (a.high + 1) * (a.high + 1 - 1) / 2 ≤ b.high * (b.high - 1) / 2 := triangle_le h
  rw [Nat.add_sub_cancel] at h2
  have h3 := a.low_lt
  unfold slot
  omega

/-- Different pairs have different slots. -/
theorem eq_of_slot_eq {n : Nat} {a b : Pair n} (h : a.slot = b.slot) : a = b := by
  have hh : a.high = b.high := by
    rcases Nat.lt_trichotomy a.high b.high with hlt | heq | hlt
    · exact absurd h (Nat.ne_of_lt (slot_lt_of_high_lt hlt))
    · exact heq
    · exact absurd h.symm (Nat.ne_of_lt (slot_lt_of_high_lt hlt))
  have hl : a.low = b.low := by
    unfold slot at h
    rw [hh] at h
    exact Nat.add_left_cancel h
  cases a
  cases b
  cases hh
  cases hl
  rfl

/-- Every slot is that of a pair. The slots of the last row are behind those of all other pairs. -/
theorem exists_slot_eq {n slot : Nat} (h : slot < n * (n - 1) / 2) :
    ∃ pair : Pair n, pair.slot = slot := by
  induction n with
  | zero => simp at h
  | succ n ih =>
    rw [Nat.add_sub_cancel, triangle_succ] at h
    by_cases hrow : slot < n * (n - 1) / 2
    · obtain ⟨pair, hslot⟩ := ih hrow
      exact ⟨⟨pair.low, pair.high, pair.low_lt, Nat.lt_succ_of_lt pair.high_lt⟩, hslot⟩
    · refine ⟨⟨slot - n * (n - 1) / 2, n, by omega, Nat.lt_succ_self n⟩, ?_⟩
      show n * (n - 1) / 2 + (slot - n * (n - 1) / 2) = slot
      omega

theorem exists_of?_iff {n a b : Nat} : (∃ pair, of? n a b = some pair) ↔ Ends n a b := by
  unfold of? Ends
  by_cases hab : a < b ∧ b < n
  · simp only [dif_pos hab, Option.some.injEq, exists_eq', true_iff]
    omega
  · by_cases hba : b < a ∧ a < n
    · simp only [dif_neg hab, dif_pos hba, Option.some.injEq, exists_eq', true_iff]
      omega
    · simp only [dif_neg hab, dif_neg hba, reduceCtorEq, exists_false, false_iff]
      omega

theorem of?_comm (n a b : Nat) : of? n a b = of? n b a := by
  unfold of?
  by_cases hab : a < b
  · simp [hab, Nat.lt_asymm hab]
  · by_cases hba : b < a
    · simp [hba, Nat.lt_asymm hba]
    · simp [hab, hba]

theorem of?_ends {n : Nat} (pair : Pair n) : of? n pair.low pair.high = some pair :=
  dif_pos ⟨pair.low_lt, pair.high_lt⟩

theorem ends_of_of? {n a b : Nat} {pair : Pair n} (h : of? n a b = some pair) :
    pair.low = a ∧ pair.high = b ∨ pair.low = b ∧ pair.high = a := by
  unfold of? at h
  split at h
  · cases h
    exact .inl ⟨rfl, rfl⟩
  · split at h
    · cases h
      exact .inr ⟨rfl, rfl⟩
    · cases h

/-- A pair is that of its two numbers, in both orders, and of no others. -/
theorem of?_eq_some_iff {n a b c d : Nat} {pair : Pair n} (h : of? n a b = some pair) :
    of? n c d = some pair ↔ c = a ∧ d = b ∨ c = b ∧ d = a := by
  constructor
  · intro hother
    have hends := ends_of_of? h
    have hotherEnds := ends_of_of? hother
    omega
  · intro heq
    rcases heq with ⟨rfl, rfl⟩ | ⟨rfl, rfl⟩
    · exact h
    · rw [of?_comm]
      exact h

theorem mem_all {n : Nat} (pair : Pair n) : pair ∈ all n := by
  obtain ⟨low, high, hl, hh⟩ := pair
  simp only [all, List.mem_flatMap, List.mem_filterMap, List.mem_range]
  exact ⟨low, by omega, high, hh, by simp [hl, hh]⟩

end Pair

/-- One mark for each pair of distinct numbers below `n`. -/
structure PairMarks (n : Nat) where
  marks : Vector Bool (n * (n - 1) / 2)
  deriving DecidableEq

namespace PairMarks

variable {n : Nat}

def empty : PairMarks n := ⟨Vector.replicate _ false⟩

def get (pairs : PairMarks n) (pair : Pair n) : Bool :=
  have := pair.slot_lt
  pairs.marks[pair.slot]

def mark (pairs : PairMarks n) (pair : Pair n) : PairMarks n :=
  ⟨pairs.marks.set pair.slot true pair.slot_lt⟩

@[simp]
theorem get_empty (pair : Pair n) : (empty : PairMarks n).get pair = false := by
  simp [empty, get]

/-- A mark changes the entry of its own pair and no other. -/
theorem get_mark {pairs : PairMarks n} {pair other : Pair n} :
    (pairs.mark pair).get other = true ↔ other = pair ∨ pairs.get other = true := by
  simp only [get, mark, Vector.getElem_set]
  by_cases h : pair.slot = other.slot
  · simp [Pair.eq_of_slot_eq h]
  · have hne : other ≠ pair := fun heq => h (heq ▸ rfl)
    simp [h, hne]

end PairMarks

end LexGen
