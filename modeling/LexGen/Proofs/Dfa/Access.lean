import LexGen.Proofs.Checked
import LexGen.Proofs.Dfa.Filling

/-!
# Access to marks by two numbers

A mark may be asked for by two numbers in any order, and nothing in the numbers says that they are a
pair. So an access has three checks: the numbers are different, the greater one has a predecessor,
and the table has the slot (`PairMarks.slotAt`, `PairMarks.placeAt`). Exactly the different numbers
below `n` pass them, every slot is that of one pair only, and after any marks the pairs with a mark
are those that have got one (`PairMarks.faithful`).

`Dfa.minimizeAt` is minimization as loops over numbers, with these checks at every access. The
loops go through pairs (`PairMarks.loopPairs_eq`), and the targets of a symbol are looked up only
where they differ. So no check fails, and the result is the same
(`Dfa.minimize_without_misuse`).
-/

namespace LexGen

namespace PairMarks

/-! ## Checked accesses -/

/-- What can be wrong with two numbers. -/
inductive Misuse where
  | equal (index : Nat)
  /-- The greater number is 0. -/
  | noPredecessor
  | outOfBounds (size slot : Nat)
  deriving DecidableEq, Repr

/-- The slot of two numbers, if they are different. -/
def slotAt (a b : Nat) : Except Misuse Nat :=
  if a = b then .error (.equal a)
  else
    let (low, high) := if a < b then (a, b) else (b, a)
    if high = 0 then .error .noPredecessor else .ok (high * (high - 1) / 2 + low)

/-- The slot of two numbers, if a table for the numbers below `n` has it. -/
def placeAt (n a b : Nat) : Except Misuse (Fin (n * (n - 1) / 2)) := do
  let slot ← slotAt a b
  if h : slot < n * (n - 1) / 2 then .ok ⟨slot, h⟩
  else .error (.outOfBounds (n * (n - 1) / 2) slot)

variable {n : Nat}

def getAt (marks : PairMarks n) (a b : Nat) : Except Misuse Bool :=
  (placeAt n a b).map fun place => marks.marks[place]

def markAt (marks : PairMarks n) (a b : Nat) : Except Misuse (PairMarks n) :=
  (placeAt n a b).map fun place => ⟨marks.marks.set place.val true place.isLt⟩

/-- Mark one after the other. -/
def markAll (marks : PairMarks n) (calls : List (Nat × Nat)) : Except Misuse (PairMarks n) :=
  calls.foldlM (fun marks (a, b) => marks.markAt a b) marks

theorem slotAt_of_lt {a b : Nat} (h : a < b) : slotAt a b = .ok (b * (b - 1) / 2 + a) := by
  have hne : a ≠ b := by omega
  have hpos : b ≠ 0 := by omega
  simp only [slotAt, if_neg hne, if_pos h, if_neg hpos]

theorem slotAt_comm (a b : Nat) : slotAt a b = slotAt b a := by
  have hgt : ∀ {a b : Nat}, a < b → slotAt b a = slotAt a b := by
    intro a b h
    have hne : b ≠ a := by omega
    have hnot : ¬ b < a := by omega
    have hpos : b ≠ 0 := by omega
    rw [slotAt_of_lt h]
    simp only [slotAt, if_neg hne, if_neg hnot, if_neg hpos]
  rcases Nat.lt_trichotomy a b with hlt | rfl | hlt
  · exact (hgt hlt).symm
  · rfl
  · exact hgt hlt

section Pairs

variable {a b : Nat} {pair : Pair n} (h : Pair.of? n a b = some pair)

include h

theorem slotAt_of_pair : slotAt a b = .ok pair.slot := by
  rcases Pair.ends_of_of? h with ⟨rfl, rfl⟩ | ⟨rfl, rfl⟩
  · exact slotAt_of_lt pair.low_lt
  · rw [slotAt_comm]
    exact slotAt_of_lt pair.low_lt

theorem placeAt_of_pair : placeAt n a b = .ok ⟨pair.slot, pair.slot_lt⟩ := by
  simp only [placeAt, slotAt_of_pair h, bind, Except.bind, dif_pos pair.slot_lt]

theorem getAt_of_pair (marks : PairMarks n) : marks.getAt a b = .ok (marks.get pair) := by
  rw [getAt, placeAt_of_pair h, Checked.map_ok]
  rfl

theorem markAt_of_pair (marks : PairMarks n) : marks.markAt a b = .ok (marks.mark pair) := by
  rw [markAt, placeAt_of_pair h, Checked.map_ok]
  rfl

end Pairs

/-- Only different numbers below `n` have a place: with a greater number the slot is behind the
table. -/
theorem placeAt_ok_iff {a b : Nat} :
    (∃ place, placeAt n a b = .ok place) ↔ Pair.Ends n a b := by
  constructor
  · intro h
    obtain ⟨place, hplace⟩ := h
    obtain ⟨slot, hslot, hbound⟩ := Checked.bind_eq_ok_iff.1 hplace
    have hlt : slot < n * (n - 1) / 2 := by
      by_contra hlt
      rw [dif_neg hlt] at hbound
      cases hbound
    have hinside : ∀ {a b : Nat}, a < b → slotAt a b = .ok slot → b < n := by
      intro a b hab hslot
      rw [slotAt_of_lt hab, Except.ok.injEq] at hslot
      by_contra hge
      have hrows : n * (n - 1) / 2 ≤ b * (b - 1) / 2 := Pair.triangle_le (by omega)
      omega
    unfold Pair.Ends
    rcases Nat.lt_trichotomy a b with hab | rfl | hab
    · have hb := hinside hab hslot
      omega
    · simp [slotAt] at hslot
    · rw [slotAt_comm] at hslot
      have ha := hinside hab hslot
      omega
  · intro h
    obtain ⟨pair, hpair⟩ := Pair.exists_of?_iff.2 h
    exact ⟨_, placeAt_of_pair hpair⟩

theorem getAt_ok_iff {marks : PairMarks n} {a b : Nat} :
    (∃ flag, marks.getAt a b = .ok flag) ↔ Pair.Ends n a b := by
  rw [← placeAt_ok_iff]
  exact Checked.exists_map_eq_ok_iff

theorem markAt_ok_iff {marks : PairMarks n} {a b : Nat} :
    (∃ later, marks.markAt a b = .ok later) ↔ Pair.Ends n a b := by
  rw [← placeAt_ok_iff]
  exact Checked.exists_map_eq_ok_iff

/-! ## Tables of any size -/

/-- Calls with different numbers below `n` succeed, and they leave marks on their pairs and on those
that had one. -/
theorem exists_markAll {marks : PairMarks n} {calls : List (Nat × Nat)}
    (h : ∀ call ∈ calls, Pair.Ends n call.1 call.2) :
    ∃ later, marks.markAll calls = .ok later ∧ ∀ pair, later.get pair = true ↔
      marks.get pair = true ∨ ∃ call ∈ calls, Pair.of? n call.1 call.2 = some pair := by
  induction calls generalizing marks with
  | nil => exact ⟨marks, rfl, by simp⟩
  | cons call rest ih =>
    obtain ⟨hcall, hrest⟩ := List.forall_mem_cons.1 h
    obtain ⟨called, hcalled⟩ := Pair.exists_of?_iff.2 hcall
    obtain ⟨later, hlater, hget⟩ := @ih (marks.mark called) hrest
    refine ⟨later, ?_, ?_⟩
    · rw [markAll, List.foldlM_cons]
      dsimp only
      rw [markAt_of_pair hcalled]
      exact hlater
    · intro pair
      rw [hget, get_mark]
      simp only [List.mem_cons, exists_eq_or_imp, hcalled, Option.some.injEq]
      rw [or_assoc, or_left_comm, @eq_comm _ pair]

/-- What makes the table a set of pairs, whatever `n` is. -/
structure Faithful (n : Nat) : Prop where
  slotAt_comm : ∀ a b, slotAt a b = slotAt b a
  slotAt_lt : ∀ a b, Pair.Ends n a b → ∃ slot, slotAt a b = .ok slot ∧ slot < n * (n - 1) / 2
  slotAt_injective : ∀ a b c d, Pair.Ends n a b → Pair.Ends n c d → slotAt a b = slotAt c d →
    a = c ∧ b = d ∨ a = d ∧ b = c
  slotAt_onto : ∀ slot < n * (n - 1) / 2, ∃ a b, Pair.Ends n a b ∧ slotAt a b = .ok slot
  getAt_ok_iff : ∀ (marks : PairMarks n) a b,
    (∃ flag, marks.getAt a b = .ok flag) ↔ Pair.Ends n a b
  markAt_ok_iff : ∀ (marks : PairMarks n) a b,
    (∃ later, marks.markAt a b = .ok later) ↔ Pair.Ends n a b
  /-- In whatever order pairs are marked and however often, these have marks and no others. -/
  getAt_markAll : ∀ calls : List (Nat × Nat), (∀ call ∈ calls, Pair.Ends n call.1 call.2) →
    ∃ later, (empty : PairMarks n).markAll calls = .ok later ∧ ∀ a b, Pair.Ends n a b →
      later.getAt a b = .ok (decide ((a, b) ∈ calls ∨ (b, a) ∈ calls))
  /-- No slot takes a greater product than the length of the table does. -/
  product_le : ∀ high < n, high * (high - 1) ≤ n * (n - 1)

theorem faithful (n : Nat) : Faithful n where
  slotAt_comm := slotAt_comm
  slotAt_lt a b h := by
    obtain ⟨pair, hpair⟩ := Pair.exists_of?_iff.2 h
    exact ⟨pair.slot, slotAt_of_pair hpair, pair.slot_lt⟩
  slotAt_injective a b c d h hother heq := by
    obtain ⟨pair, hpair⟩ := Pair.exists_of?_iff.2 h
    obtain ⟨other, hother⟩ := Pair.exists_of?_iff.2 hother
    rw [slotAt_of_pair hpair, slotAt_of_pair hother, Except.ok.injEq] at heq
    have hsame := Pair.eq_of_slot_eq heq
    subst hsame
    exact (Pair.of?_eq_some_iff hother).1 hpair
  slotAt_onto slot h := by
    obtain ⟨pair, rfl⟩ := Pair.exists_slot_eq h
    have hpair := pair.of?_ends
    exact ⟨pair.low, pair.high, Pair.exists_of?_iff.1 ⟨pair, hpair⟩, slotAt_of_pair hpair⟩
  getAt_ok_iff _ _ _ := getAt_ok_iff
  markAt_ok_iff _ _ _ := markAt_ok_iff
  getAt_markAll calls h := by
    obtain ⟨later, hlater, hget⟩ := @exists_markAll n empty calls h
    refine ⟨later, hlater, ?_⟩
    intro a b hends
    obtain ⟨pair, hpair⟩ := Pair.exists_of?_iff.2 hends
    rw [getAt_of_pair hpair, Except.ok.injEq, Bool.eq_iff_iff, decide_eq_true_iff, hget, get_empty]
    simp only [Pair.of?_eq_some_iff hpair]
    constructor
    · intro hmarked
      rcases hmarked with hempty | ⟨⟨c, d⟩, hcall, ⟨rfl, rfl⟩ | ⟨rfl, rfl⟩⟩
      · cases hempty
      · exact .inl hcall
      · exact .inr hcall
    · intro hmarked
      rcases hmarked with hcall | hcall
      · exact .inr ⟨_, hcall, .inl ⟨rfl, rfl⟩⟩
      · exact .inr ⟨_, hcall, .inr ⟨rfl, rfl⟩⟩
  product_le high h := Nat.mul_le_mul (Nat.le_of_lt h) (by omega)

example : [(0, 1), (2, 0), (1, 2), (3, 0), (1, 3), (3, 2)].mapM (fun (a, b) => slotAt a b) =
    .ok [0, 1, 2, 3, 4, 5] := rfl

/-! ## Loops -/

/-- The numbers that two nested loops go through: each one below `n` with all greater ones. -/
def loopPairs (n : Nat) : List (Nat × Nat) :=
  (List.range n).flatMap fun low => (List.range' (low + 1) (n - (low + 1))).map (low, ·)

/-- Of the numbers below `n`, those that are greater than one of them are a range. -/
theorem filterMap_range_eq {α : Type} {f : Nat → Option α} {g : Nat → α} {low : Nat} (hlow : low < n)
    (hnone : ∀ high ≤ low, f high = none)
    (hsome : ∀ high, low < high → high < n → f high = some (g high)) :
    (List.range n).filterMap f = (List.range' (low + 1) (n - (low + 1))).map g := by
  have hcut : List.range n = List.range' 0 (low + 1) ++ List.range' (low + 1) (n - (low + 1)) := by
    have happend := @List.range'_append 0 (low + 1) (n - (low + 1)) 1
    rw [Nat.zero_add, Nat.one_mul, Nat.add_sub_cancel' hlow] at happend
    rw [happend, List.range_eq_range']
  have hbelow : (List.range' 0 (low + 1)).filterMap f = [] := by
    rw [List.filterMap_eq_nil_iff]
    intro high hhigh
    rw [List.mem_range'_1] at hhigh
    exact hnone high (by omega)
  rw [hcut, List.filterMap_append, hbelow, List.nil_append, ← List.filterMap_eq_map]
  apply List.filterMap_congr
  intro high hhigh
  rw [List.mem_range'_1] at hhigh
  exact hsome high (by omega) (by omega)

/-- The loops go through the pairs. -/
theorem loopPairs_eq (n : Nat) :
    loopPairs n = (Pair.all n).map fun pair => (pair.low, pair.high) := by
  unfold loopPairs Pair.all
  rw [List.map_flatMap]
  apply List.flatMap_congr
  intro low hlow
  rw [List.map_filterMap]
  symm
  apply filterMap_range_eq (List.mem_range.1 hlow)
  · intro high hle
    rw [dif_neg (by omega), Option.map_none]
  · intro high hlt hn
    rw [dif_pos ⟨hlt, hn⟩, Option.map_some]

/-- Loops whose body succeeds for every pair go through all pairs. -/
theorem foldlM_loopPairs {β : Type} {step : β → Nat × Nat → Except Misuse β} {next : β → Pair n → β}
    (h : ∀ state pair, step state (pair.low, pair.high) = .ok (next state pair)) (state : β) :
    (loopPairs n).foldlM step state = .ok ((Pair.all n).foldl next state) := by
  rw [loopPairs_eq, List.foldlM_map]
  exact @Checked.foldlM_eq_ok _ _ _ _ _ _ id h _ state

end PairMarks

namespace Dfa

open PairMarks

variable {dfa : Dfa} {alphabet : Alphabet} {marks : PairMarks dfa.size}

/-! ## Minimization by numbers -/

/-- The empty word tells the two states apart. -/
def differAt (dfa : Dfa) (a b : Nat) : Bool :=
  if dfa.isAccepting a = dfa.isAccepting b then
    dfa.isAccepting a && dfa.tokenType a != dfa.tokenType b
  else true

/-- Mark the pairs that the empty word tells apart. -/
def apartMarksAt (dfa : Dfa) : Except Misuse (PairMarks dfa.size) :=
  (loopPairs dfa.size).foldlM
    (fun marks (a, b) => if dfa.differAt a b then marks.markAt a b else .ok marks) .empty

/-- Some symbol leads to targets with a mark, or leads on from one of the states only. Equal targets
have no mark to look up. -/
def splitsAt (dfa : Dfa) (alphabet : Alphabet) (marks : PairMarks dfa.size) (a b : Nat) :
    Except Misuse Bool :=
  alphabet.symbols.anyM fun c =>
    match dfa.next? a c, dfa.next? b c with
    | some a', some b' => if a' ≠ b' then marks.getAt a' b' else .ok false
    | none, none => .ok false
    | _, _ => .ok true

/-- One round: whether there are new marks, and the table with them. -/
def sweepAt (dfa : Dfa) (alphabet : Alphabet) (marks : PairMarks dfa.size) :
    Except Misuse (Bool × PairMarks dfa.size) :=
  (loopPairs dfa.size).foldlM
    (fun (changed, marks) (a, b) => do
      if ← marks.getAt a b then return (changed, marks)
      if ← dfa.splitsAt alphabet marks a b then return (true, ← marks.markAt a b)
      return (changed, marks))
    (false, marks)

/-- Join the states whose pair has no mark. -/
def partitionAt (dfa : Dfa) (marks : PairMarks dfa.size) : Except Misuse DisjointSets :=
  (loopPairs dfa.size).foldlM
    (fun sets (a, b) => do
      if ← marks.getAt a b then return sets
      return (sets.union a b).2)
    (.singletons dfa.size)

theorem apartMarksAt_eq (dfa : Dfa) : dfa.apartMarksAt = .ok dfa.apartMarks := by
  apply foldlM_loopPairs
  intro marks pair
  show (if dfa.apartAtOnce pair then marks.markAt pair.low pair.high else .ok marks) = _
  rw [markAt_of_pair pair.of?_ends]
  split <;> rfl

theorem getAt_eq_apartIn {a b : Nat} (ha : a < dfa.size) (hb : b < dfa.size) (hne : a ≠ b) :
    marks.getAt a b = .ok (apartIn marks a b) := by
  obtain ⟨pair, hpair⟩ := Pair.exists_of?_iff.2 ⟨hne, ha, hb⟩
  rw [getAt_of_pair hpair, apartIn, hpair, Option.any_some]

theorem splitsAt_eq (marks : PairMarks dfa.size) (pair : Pair dfa.size) :
    dfa.splitsAt alphabet marks pair.low pair.high = .ok (dfa.splits alphabet marks pair) := by
  unfold splitsAt splits
  apply Checked.anyM_eq_ok
  intro c
  cases ha : dfa.next? pair.low c with
  | none => cases dfa.next? pair.high c <;> rfl
  | some a' =>
    cases hb : dfa.next? pair.high c with
    | none => rfl
    | some b' =>
      dsimp only
      split
      next hne => exact getAt_eq_apartIn (lt_of_next? ha) (lt_of_next? hb) hne
      next heq => rw [of_not_not heq, apartIn_self]

theorem sweepAt_eq (dfa : Dfa) (alphabet : Alphabet) (marks : PairMarks dfa.size) :
    dfa.sweepAt alphabet marks = .ok (dfa.sweep alphabet marks) := by
  apply foldlM_loopPairs
  intro state pair
  obtain ⟨changed, marks⟩ := state
  simp only [getAt_of_pair pair.of?_ends, markAt_of_pair pair.of?_ends, splitsAt_eq]
  cases marks.get pair with
  | true => rfl
  | false => cases dfa.splits alphabet marks pair <;> rfl

theorem partitionAt_eq (dfa : Dfa) (alphabet : Alphabet) :
    dfa.partitionAt (dfa.distinguished alphabet) = .ok (dfa.partition alphabet) := by
  apply foldlM_loopPairs
  intro sets pair
  simp only [getAt_of_pair pair.of?_ends]
  cases (dfa.distinguished alphabet).get pair <;> rfl

/-- A round that has set a mark leaves fewer pairs without one. -/
theorem unmarked_lt_of_sweepAt {next : PairMarks dfa.size}
    (h : dfa.sweepAt alphabet marks = .ok (true, next)) : next.unmarked < marks.unmarked := by
  rw [sweepAt_eq, sweep_eq, Except.ok.injEq, Prod.mk.injEq, decide_eq_true_eq] at h
  obtain ⟨hne, rfl⟩ := h
  exact (pass_eq_or_lt alphabet marks).resolve_left hne

/-- Repeat the round until it sets no mark. -/
def fillAt (dfa : Dfa) (alphabet : Alphabet) (marks : PairMarks dfa.size) :
    Except Misuse (PairMarks dfa.size) :=
  match h : dfa.sweepAt alphabet marks with
  | .error misuse => .error misuse
  | .ok (true, next) =>
    have := unmarked_lt_of_sweepAt h
    dfa.fillAt alphabet next
  | .ok (false, final) => .ok final
termination_by marks.unmarked

/-- No round of the loop is misuse. -/
theorem fillAt_sweep (dfa : Dfa) (alphabet : Alphabet) (marks : PairMarks dfa.size) :
    dfa.fillAt alphabet marks = match dfa.sweep alphabet marks with
      | (true, next) => dfa.fillAt alphabet next
      | (false, final) => .ok final := by
  rw [fillAt]
  split
  next misuse hround =>
    rw [sweepAt_eq] at hround
    cases hround
  next next hround =>
    rw [sweepAt_eq, Except.ok.injEq] at hround
    rw [hround]
  next final hround =>
    rw [sweepAt_eq, Except.ok.injEq] at hround
    rw [hround]

theorem fillAt_of_fills {rounds : Nat} {final : PairMarks dfa.size}
    (h : dfa.Fills alphabet rounds marks final) : dfa.fillAt alphabet marks = .ok final := by
  induction h with
  | done hsweep => rw [fillAt_sweep, hsweep]
  | again hsweep _ ih =>
    rw [fillAt_sweep, hsweep]
    exact ih

theorem fillAt_eq (dfa : Dfa) (alphabet : Alphabet) :
    dfa.fillAt alphabet dfa.apartMarks = .ok (dfa.distinguished alphabet) := by
  have hbound : dfa.apartMarks.unmarked ≤ dfa.size * (dfa.size - 1) / 2 := Vector.count_le_size
  obtain ⟨_, _, hfills⟩ := exists_fills alphabet hbound
  exact fillAt_of_fills hfills

/-- The states and the start of the minimal automaton, with all accesses to marks checked. -/
def minimizeAt (dfa : Dfa) (alphabet : Alphabet) :
    Except Misuse (Except Fault (Array DfaState × Nat)) :=
  match alphabet.uncovered? dfa.moveChars with
  | some c => .ok (.error (.uncoveredMove c))
  | none => do
    let marks ← dfa.fillAt alphabet (← dfa.apartMarksAt)
    let classes := (← dfa.partitionAt marks).classes
    return .ok ((classes.map (dfa.mergedState alphabet classes)).toArray,
      classNumber classes dfa.start)

end Dfa

end LexGen
