import LexGen.Proofs.Dfa.Merge

/-!
# Filling the table of marks

The table is filled by a loop that goes through all pairs, marks in place those that a symbol
splits, and starts again if it has marked any. `Dfa.Fills` is that loop with the number of its
rounds. A round is a pass (`Dfa.sweep_eq`), and each round but the last one leaves fewer pairs
without a mark, so the loop ends after at most one round more than there are pairs, with the table
that the classes are made from (`Dfa.exists_fills`). In it a pair has a mark exactly if some word of
symbols tells the two states apart. So states that are equal or have no mark are an equivalence
(`Dfa.together_equivalence`), and the classes of the disjoint sets are its classes
(`Dfa.groups_together`).
-/

namespace LexGen

/-- The numbers are equal, or they have a pair without a mark. -/
def PairMarks.Together {n : Nat} (marks : PairMarks n) (a b : Nat) : Prop :=
  a = b ∨ ∃ pair, Pair.of? n a b = some pair ∧ marks.get pair = false

namespace Dfa

open PairMarks

variable {dfa : Dfa} {alphabet : Alphabet} {marks : PairMarks dfa.size}

/-! ## The loop -/

/-- Go through pairs and mark those that a symbol splits; the flag is set with each mark. -/
def sweepPairs (dfa : Dfa) (alphabet : Alphabet) (pairs : List (Pair dfa.size))
    (state : Bool × PairMarks dfa.size) : Bool × PairMarks dfa.size :=
  pairs.foldl
    (fun (changed, marks) pair =>
      if marks.get pair then (changed, marks)
      else if dfa.splits alphabet marks pair then (true, marks.mark pair)
      else (changed, marks))
    state

/-- One round: whether there are new marks, and the table with them. -/
def sweep (dfa : Dfa) (alphabet : Alphabet) (marks : PairMarks dfa.size) :
    Bool × PairMarks dfa.size :=
  dfa.sweepPairs alphabet (Pair.all dfa.size) (false, marks)

/-- The loop ends after so many rounds, and leaves the last table. -/
inductive Fills (dfa : Dfa) (alphabet : Alphabet) :
    Nat → PairMarks dfa.size → PairMarks dfa.size → Prop
  | done {marks final : PairMarks dfa.size} :
    dfa.sweep alphabet marks = (false, final) → Fills dfa alphabet 1 marks final
  | again {rounds : Nat} {marks next final : PairMarks dfa.size} :
    dfa.sweep alphabet marks = (true, next) → Fills dfa alphabet rounds next final →
      Fills dfa alphabet (rounds + 1) marks final

/-- The loop has one way to go. -/
theorem Fills.unique {rounds otherRounds : Nat} {final other : PairMarks dfa.size}
    (h : dfa.Fills alphabet rounds marks final)
    (hother : dfa.Fills alphabet otherRounds marks other) :
    otherRounds = rounds ∧ other = final := by
  induction h generalizing otherRounds with
  | done hsweep =>
    cases hother with
    | done hother =>
      rw [hsweep] at hother
      cases hother
      exact ⟨rfl, rfl⟩
    | again hother =>
      rw [hsweep] at hother
      cases hother
  | again hsweep _ ih =>
    cases hother with
    | done hother =>
      rw [hsweep] at hother
      cases hother
    | again hother hrest =>
      rw [hsweep] at hother
      cases hother
      obtain ⟨rfl, rfl⟩ := ih hrest
      exact ⟨rfl, rfl⟩

/-! ## Rounds and passes -/

/-- A symbol splits the pair, and it has no mark yet. -/
def splitsAnew (dfa : Dfa) (alphabet : Alphabet) (marks : PairMarks dfa.size)
    (pair : Pair dfa.size) : Bool :=
  !marks.get pair && dfa.splits alphabet marks pair

theorem sweepPairs_eq (pairs : List (Pair dfa.size)) (changed : Bool)
    (marks : PairMarks dfa.size) :
    dfa.sweepPairs alphabet pairs (changed, marks) =
      (changed || decide (markWhere (dfa.splitsAnew alphabet) pairs marks ≠ marks),
        markWhere (dfa.splitsAnew alphabet) pairs marks) := by
  induction pairs generalizing changed marks with
  | nil => simp [sweepPairs, markWhere]
  | cons pair rest ih =>
    rw [sweepPairs, List.foldl_cons, ← sweepPairs, markWhere, List.foldl_cons, ← markWhere]
    cases hget : marks.get pair with
    | true => simpa [splitsAnew, hget] using ih changed marks
    | false =>
      cases hsplits : dfa.splits alphabet marks pair with
      | false => simpa [splitsAnew, hget, hsplits] using ih changed marks
      | true =>
        -- The flag stays set, and the table is never again what it was before the new mark.
        have hne : markWhere (dfa.splitsAnew alphabet) rest (marks.mark pair) ≠ marks := by
          intro heq
          have hmarked : (markWhere (dfa.splitsAnew alphabet) rest (marks.mark pair)).get pair =
              true := le_markWhere pair (get_mark.2 (.inl rfl))
          rw [heq, hget] at hmarked
          cases hmarked
        simpa [splitsAnew, hget, hsplits, hne] using ih true (marks.mark pair)

/-- A round is a pass, and its flag says whether the pass has changed the table. -/
theorem sweep_eq (dfa : Dfa) (alphabet : Alphabet) (marks : PairMarks dfa.size) :
    dfa.sweep alphabet marks =
      (decide (dfa.pass alphabet marks ≠ marks), dfa.pass alphabet marks) := by
  rw [sweep, sweepPairs_eq, Bool.false_or]
  rfl

/-- The loop ends. Every round but the last one leaves fewer pairs without a mark, so the bound on
the passes, if it is large enough for all of them, is not what ends them. -/
theorem exists_fills (alphabet : Alphabet) {bound : Nat} {marks : PairMarks dfa.size}
    (h : marks.unmarked ≤ bound) :
    ∃ rounds, rounds ≤ marks.unmarked + 1 ∧
      dfa.Fills alphabet rounds marks (dfa.refine alphabet bound marks) := by
  have hlast : ∀ {marks : PairMarks dfa.size}, dfa.pass alphabet marks = marks →
      dfa.Fills alphabet 1 marks marks := by
    intro marks heq
    apply Fills.done
    rw [sweep_eq, heq]
    simp
  induction bound generalizing marks with
  | zero =>
    rcases pass_eq_or_lt alphabet marks with heq | hlt
    · exact ⟨1, by omega, hlast heq⟩
    · omega
  | succ bound ih =>
    rw [refine]
    split
    next heq => exact ⟨1, by omega, hlast heq⟩
    next hne =>
      have hlt := (pass_eq_or_lt alphabet marks).resolve_left hne
      obtain ⟨rounds, hrounds, hfills⟩ := @ih (dfa.pass alphabet marks) (by omega)
      refine ⟨rounds + 1, by omega, .again ?_ hfills⟩
      rw [sweep_eq, decide_eq_true hne]

/-! ## Separation -/

/-- The word leads on from one of the states only, or it leads to states of which one accepts and
the other does not, or to states that accept with different token types. -/
def TellsApart (dfa : Dfa) (word : List Char) (a b : Nat) : Prop :=
  match dfa.runFrom a word, dfa.runFrom b word with
  | none, none => False
  | some last, some other =>
    dfa.isAccepting last ≠ dfa.isAccepting other ∨
      dfa.isAccepting last = true ∧ dfa.isAccepting other = true ∧
        dfa.tokenType last ≠ dfa.tokenType other
  | _, _ => True

theorem tellsApart_iff {word : List Char} {a b : Nat} :
    dfa.TellsApart word a b ↔ dfa.Separates word a b := by
  unfold TellsApart Separates outcome
  cases dfa.runFrom a word with
  | none => cases dfa.runFrom b word <;> simp
  | some last =>
    cases dfa.runFrom b word with
    | none => simp
    | some other =>
      simp only [verdict, Option.map_some]
      cases dfa.isAccepting last <;> cases dfa.isAccepting other <;> simp

theorem not_alikeOver_iff {a b : Nat} : ¬ dfa.AlikeOver alphabet a b ↔
    ∃ word, (∀ c ∈ word, c ∈ alphabet) ∧ dfa.TellsApart word a b := by
  simp only [AlikeOver, not_forall, tellsApart_iff, Separates, exists_prop]

/-- In the last table states have no mark exactly if no word of symbols separates them. -/
theorem together_distinguished_iff {a b : Nat} :
    (dfa.distinguished alphabet).Together a b ↔
      a = b ∨ a < dfa.size ∧ b < dfa.size ∧ dfa.AlikeOver alphabet a b := by
  have hsymm := fun {a b} => (dfa.alikeOver_equivalence alphabet).symm (x := a) (y := b)
  constructor
  · rintro (heq | ⟨pair, hpair, hget⟩)
    · exact .inl heq
    · have halike := get_distinguished_eq_false_iff.1 hget
      have hhigh := pair.high_lt
      have hlow := Nat.lt_trans pair.low_lt hhigh
      rcases Pair.ends_of_of? hpair with ⟨rfl, rfl⟩ | ⟨rfl, rfl⟩
      · exact .inr ⟨hlow, hhigh, halike⟩
      · exact .inr ⟨hhigh, hlow, hsymm halike⟩
  · rintro (heq | ⟨ha, hb, halike⟩)
    · exact .inl heq
    · rcases Nat.lt_trichotomy a b with hlt | heq | hlt
      · exact .inr ⟨⟨a, b, hlt, hb⟩, dif_pos ⟨hlt, hb⟩, get_distinguished_eq_false_iff.2 halike⟩
      · exact .inl heq
      · have hpair : Pair.of? dfa.size a b = some ⟨b, a, hlt, ha⟩ := by
          rw [Pair.of?_comm]
          exact dif_pos ⟨hlt, ha⟩
        exact .inr ⟨_, hpair, get_distinguished_eq_false_iff.2 (hsymm halike)⟩

theorem together_distinguished_iff_of_lt {a b : Nat} (ha : a < dfa.size) (hb : b < dfa.size) :
    (dfa.distinguished alphabet).Together a b ↔ dfa.AlikeOver alphabet a b := by
  rw [together_distinguished_iff]
  constructor
  · rintro (rfl | ⟨_, _, halike⟩)
    · exact (dfa.alikeOver_equivalence alphabet).refl a
    · exact halike
  · exact fun halike => .inr ⟨ha, hb, halike⟩

theorem together_equivalence (dfa : Dfa) (alphabet : Alphabet) :
    Equivalence (dfa.distinguished alphabet).Together where
  refl _ := .inl rfl
  symm := by
    intro a b h
    rw [together_distinguished_iff] at h ⊢
    rcases h with heq | ⟨ha, hb, halike⟩
    · exact .inl heq.symm
    · exact .inr ⟨hb, ha, (dfa.alikeOver_equivalence alphabet).symm halike⟩
  trans := by
    intro a b c hab hbc
    rw [together_distinguished_iff] at hab hbc ⊢
    rcases hab with rfl | ⟨ha, hb, hab⟩
    · exact hbc
    · rcases hbc with rfl | ⟨_, hc, hbc⟩
      · exact .inr ⟨ha, hb, hab⟩
      · exact .inr ⟨ha, hc, (dfa.alikeOver_equivalence alphabet).trans hab hbc⟩

/-! ## The classes -/

/-- The states of one class have no marks between them, and all that have none with one of them are
in its class. -/
theorem groups_together (dfa : Dfa) (alphabet : Alphabet) :
    DisjointSets.Groups dfa.size (dfa.distinguished alphabet).Together
      (dfa.classes alphabet) := by
  have hgroups := DisjointSets.groups_classes (dfa.partition alphabet)
  rw [size_partition] at hgroups
  refine hgroups.congr ?_
  intro a ha b hb
  rw [same_partition_iff ha hb, together_distinguished_iff_of_lt ha hb]

section Classes

variable {members : List Nat} (hmembers : members ∈ dfa.classes alphabet) {a b : Nat}
  (ha : a ∈ members) (hb : b ∈ members)

include hmembers ha hb

theorem alikeOver_of_mem_classes : dfa.AlikeOver alphabet a b := by
  have hgroups := dfa.groups_together alphabet
  obtain ⟨hlt, htogether⟩ := (hgroups.mem_iff members hmembers a ha b).1 hb
  exact (together_distinguished_iff_of_lt (hgroups.lt_of_mem hmembers ha) hlt).1 htogether

/-- A symbol leads on from all states of a class or from none, and it leads into one class. -/
theorem next?_of_mem_classes {c : Char} (hc : c ∈ alphabet) :
    (dfa.next? a c = none ∧ dfa.next? b c = none) ∨
      ∃ a' b', dfa.next? a c = some a' ∧ dfa.next? b c = some b' ∧
        ∃ targets ∈ dfa.classes alphabet, a' ∈ targets ∧ b' ∈ targets := by
  have hgroups := dfa.groups_together alphabet
  have halike := alikeOver_of_mem_classes hmembers ha hb
  have hsome := halike.isSome_next? hc
  cases hfirst : dfa.next? a c with
  | none =>
    cases hsecond : dfa.next? b c with
    | none => exact .inl ⟨rfl, rfl⟩
    | some b' => simp [hfirst, hsecond] at hsome
  | some a' =>
    cases hsecond : dfa.next? b c with
    | none => simp [hfirst, hsecond] at hsome
    | some b' =>
      have ha' := lt_of_next? hfirst
      have hb' := lt_of_next? hsecond
      have hlisted : a' ∈ (dfa.classes alphabet).flatten :=
        hgroups.perm.mem_iff.2 (List.mem_range.2 ha')
      obtain ⟨targets, htargets, hmem⟩ := List.mem_flatten.1 hlisted
      refine .inr ⟨a', b', rfl, rfl, targets, htargets, hmem, ?_⟩
      rw [hgroups.mem_iff targets htargets a' hmem, together_distinguished_iff_of_lt ha' hb']
      exact ⟨hb', halike.next? hc hfirst hsecond⟩

end Classes

/-- What the loop is for: the marks are on the pairs that some word of symbols tells apart, and the
classes are those of the states without marks. -/
structure Filled (dfa : Dfa) (alphabet : Alphabet) (marks : PairMarks dfa.size) : Prop where
  get_iff : ∀ pair, marks.get pair = true ↔
    ∃ word, (∀ c ∈ word, c ∈ alphabet) ∧ dfa.TellsApart word pair.low pair.high
  equivalence : Equivalence marks.Together
  groups : DisjointSets.Groups dfa.size marks.Together (dfa.classes alphabet)
  get_eq_false : ∀ members ∈ dfa.classes alphabet, ∀ pair : Pair dfa.size,
    pair.low ∈ members → pair.high ∈ members → marks.get pair = false
  moves : ∀ members ∈ dfa.classes alphabet, ∀ a ∈ members, ∀ b ∈ members, ∀ c ∈ alphabet,
    (dfa.next? a c = none ∧ dfa.next? b c = none) ∨
      ∃ a' b', dfa.next? a c = some a' ∧ dfa.next? b c = some b' ∧
        ∃ targets ∈ dfa.classes alphabet, a' ∈ targets ∧ b' ∈ targets

theorem filled_distinguished (dfa : Dfa) (alphabet : Alphabet) :
    dfa.Filled alphabet (dfa.distinguished alphabet) where
  get_iff pair := by rw [get_distinguished_iff, not_alikeOver_iff]
  equivalence := dfa.together_equivalence alphabet
  groups := dfa.groups_together alphabet
  get_eq_false _ hmembers _ hlow hhigh :=
    get_distinguished_eq_false_iff.2 (alikeOver_of_mem_classes hmembers hlow hhigh)
  moves _ hmembers _ ha _ hb _ hc := next?_of_mem_classes hmembers ha hb hc

/-- From the pairs that the empty word tells apart the loop ends, with one table only, after at most
one round more than there are pairs. It is the table that the classes are made from, and it has the
marks that it is to have. -/
theorem filling_ends_filled (dfa : Dfa) (alphabet : Alphabet) : ∃ rounds final,
    rounds ≤ dfa.size * (dfa.size - 1) / 2 + 1 ∧
      dfa.Fills alphabet rounds dfa.apartMarks final ∧
      (∀ otherRounds other, dfa.Fills alphabet otherRounds dfa.apartMarks other →
        otherRounds = rounds ∧ other = final) ∧
      final = dfa.distinguished alphabet ∧
      dfa.Filled alphabet final := by
  have hbound : dfa.apartMarks.unmarked ≤ dfa.size * (dfa.size - 1) / 2 := Vector.count_le_size
  obtain ⟨rounds, hrounds, hfills⟩ := exists_fills alphabet hbound
  exact ⟨rounds, _, by omega, hfills, fun _ _ hother => hfills.unique hother, rfl,
    dfa.filled_distinguished alphabet⟩

end Dfa

end LexGen
