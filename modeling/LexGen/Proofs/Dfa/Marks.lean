import LexGen.Dfa.Minimal
import LexGen.Dfa.Separation
import LexGen.Proofs.Dfa.Moves
import Mathlib.Tactic.ByContra

/-!
# Marked pairs are the separated ones

A pass only adds marks, and if it adds none, then no pair without a mark is split
(`get_of_splits`). Each other pass leaves fewer pairs without a mark, so the bound on the passes is
never what ends them (`pass_distinguished`). A pair with a mark is separated by a word of symbols,
since being stuck or a marked pair after one symbol tells it apart; a pair without one is not, by
induction on the word (`get_distinguished_iff`). Other words separate no more if the alphabet holds
the characters of all moves (`alikeOver_iff`).
-/

namespace LexGen

/-! ## Marking -/

namespace PairMarks

variable {n : Nat}

/-- Go through pairs and mark those that pass a test, which may look at the marks so far. -/
def markWhere (test : PairMarks n → Pair n → Bool) (pairs : List (Pair n)) (marks : PairMarks n) :
    PairMarks n :=
  pairs.foldl (fun marks pair => if test marks pair then marks.mark pair else marks) marks

/-- The number of pairs without a mark. -/
def unmarked (marks : PairMarks n) : Nat := marks.marks.count false

/-- One has all marks of the other. -/
def Le (a b : PairMarks n) : Prop := ∀ pair, a.get pair = true → b.get pair = true

theorem le_mark (marks : PairMarks n) (pair : Pair n) : Le marks (marks.mark pair) := by
  intro other ho
  exact get_mark.2 (.inr ho)

theorem unmarked_mark {marks : PairMarks n} {pair : Pair n} (h : marks.get pair = false) :
    (marks.mark pair).unmarked + 1 = marks.unmarked := by
  have hslot := pair.slot_lt
  have hentry : marks.marks[pair.slot] = false := h
  have hpos : 0 < marks.marks.count false := by
    apply Vector.count_pos_iff.2
    exact hentry ▸ Vector.getElem_mem hslot
  rw [unmarked, unmarked, mark, Vector.count_set, hentry]
  simp
  omega

variable {test : PairMarks n → Pair n → Bool} {pairs : List (Pair n)} {marks : PairMarks n}

theorem le_markWhere : Le marks (markWhere test pairs marks) := by
  induction pairs generalizing marks with
  | nil => exact fun _ h => h
  | cons pair rest ih =>
    intro other ho
    rw [markWhere, List.foldl_cons, ← markWhere]
    apply ih
    split
    · exact le_mark marks pair other ho
    · exact ho

/-- What holds of the marked pairs, and of the pairs that pass the test beside such marks, holds of
all that get marked. -/
theorem markWhere_induction {P : Pair n → Prop}
    (htest : ∀ marks pair, (∀ other, marks.get other = true → P other) →
      test marks pair = true → P pair)
    (h : ∀ pair, marks.get pair = true → P pair) :
    ∀ pair, (markWhere test pairs marks).get pair = true → P pair := by
  induction pairs generalizing marks with
  | nil => exact h
  | cons pair rest ih =>
    rw [markWhere, List.foldl_cons, ← markWhere]
    apply ih
    intro other ho
    split at ho
    next hpair =>
      rcases get_mark.1 ho with rfl | ho
      · exact htest marks other h hpair
      · exact h other ho
    next => exact h other ho

/-- A pair that passes the test beside any more marks gets marked. -/
theorem get_markWhere {pair : Pair n} (hpair : pair ∈ pairs)
    (htest : ∀ more, Le marks more → more.get pair = true ∨ test more pair = true) :
    (markWhere test pairs marks).get pair = true := by
  induction pairs generalizing marks with
  | nil => cases hpair
  | cons first rest ih =>
    rw [markWhere, List.foldl_cons, ← markWhere]
    rcases List.mem_cons.1 hpair with rfl | hpair
    · apply le_markWhere
      rcases htest marks (fun _ h => h) with hget | hpass
      · split
        · exact le_mark marks pair pair hget
        · exact hget
      · rw [if_pos hpass]
        exact get_mark.2 (.inl rfl)
    · apply ih hpair
      intro more hmore
      apply htest
      intro other ho
      apply hmore
      split
      · exact le_mark marks first other ho
      · exact ho

/-- If only pairs without a mark pass the test, either nothing changes or fewer pairs are without a
mark. -/
theorem markWhere_eq_or_lt (htest : ∀ marks pair, test marks pair = true → marks.get pair = false) :
    markWhere test pairs marks = marks ∨
      (markWhere test pairs marks).unmarked < marks.unmarked := by
  induction pairs generalizing marks with
  | nil => exact .inl rfl
  | cons pair rest ih =>
    rw [markWhere, List.foldl_cons, ← markWhere]
    split
    next hpair =>
      right
      have hfewer := unmarked_mark (htest marks pair hpair)
      rcases @ih (marks.mark pair) with heq | hlt
      · rw [heq]
        omega
      · omega
    next => exact ih

end PairMarks

namespace Dfa

open PairMarks

variable {dfa : Dfa} {alphabet : Alphabet}

/-! ## Passes -/

theorem pass_eq (dfa : Dfa) (alphabet : Alphabet) (marks : PairMarks dfa.size) :
    dfa.pass alphabet marks = markWhere
      (fun marks pair => !marks.get pair && dfa.splits alphabet marks pair)
      (Pair.all dfa.size) marks := rfl

theorem apartMarks_eq (dfa : Dfa) :
    dfa.apartMarks = markWhere (fun _ pair => dfa.apartAtOnce pair) (Pair.all dfa.size) .empty :=
  rfl

theorem apartIn_mono {marks more : PairMarks dfa.size} (h : Le marks more) {a b : Nat}
    (hab : apartIn marks a b = true) : apartIn more a b = true := by
  rw [apartIn, Option.any_eq_true] at hab ⊢
  obtain ⟨pair, hpair, hget⟩ := hab
  exact ⟨pair, hpair, h pair hget⟩

/-- More marks split all that fewer marks split. -/
theorem splits_mono {marks more : PairMarks dfa.size} (h : Le marks more) {pair : Pair dfa.size}
    (hs : dfa.splits alphabet marks pair = true) : dfa.splits alphabet more pair = true := by
  rw [splits, List.any_eq_true] at hs ⊢
  obtain ⟨c, hc, hs⟩ := hs
  refine ⟨c, hc, ?_⟩
  split at hs
  · exact apartIn_mono h hs
  · cases hs
  · exact rfl

/-- A pass that changes nothing leaves no split pair without a mark. -/
theorem get_of_splits {marks : PairMarks dfa.size} (h : dfa.pass alphabet marks = marks)
    {pair : Pair dfa.size} (hs : dfa.splits alphabet marks pair = true) :
    marks.get pair = true := by
  rw [← h, pass_eq]
  apply get_markWhere (Pair.mem_all pair)
  intro more hmore
  cases hget : more.get pair with
  | true => exact .inl rfl
  | false =>
    right
    rw [splits_mono hmore hs]
    rfl

/-- A pass changes nothing, or it leaves fewer pairs without a mark. -/
theorem pass_eq_or_lt (alphabet : Alphabet) (marks : PairMarks dfa.size) :
    dfa.pass alphabet marks = marks ∨
      (dfa.pass alphabet marks).unmarked < marks.unmarked := by
  rw [pass_eq]
  apply markWhere_eq_or_lt
  intro marks pair htest
  rw [Bool.and_eq_true, Bool.not_eq_true'] at htest
  exact htest.1

/-- The bound on the passes is large enough for a pass that changes nothing. -/
theorem pass_refine {bound : Nat} {marks : PairMarks dfa.size} (h : marks.unmarked ≤ bound) :
    dfa.pass alphabet (dfa.refine alphabet bound marks) = dfa.refine alphabet bound marks := by
  induction bound generalizing marks with
  | zero =>
    unfold refine
    rcases pass_eq_or_lt alphabet marks with heq | hlt
    · exact heq
    · omega
  | succ bound ih =>
    rw [refine]
    split
    next heq => exact heq
    next hne =>
      have hlt := (pass_eq_or_lt alphabet marks).resolve_left hne
      exact ih (by omega)

theorem pass_distinguished (dfa : Dfa) (alphabet : Alphabet) :
    dfa.pass alphabet (dfa.distinguished alphabet) = dfa.distinguished alphabet := by
  apply pass_refine
  exact Vector.count_le_size

theorem le_refine (bound : Nat) (marks : PairMarks dfa.size) :
    Le marks (dfa.refine alphabet bound marks) := by
  induction bound generalizing marks with
  | zero => exact fun _ h => h
  | succ bound ih =>
    intro pair hpair
    rw [refine]
    split
    · exact hpair
    · exact ih _ pair (le_markWhere pair hpair)

/-! ## Marks and separation -/

theorem verdict_eq_iff {pair : Pair dfa.size} :
    dfa.verdict pair.low = dfa.verdict pair.high ↔ dfa.apartAtOnce pair = false := by
  unfold verdict apartAtOnce
  cases dfa.isAccepting pair.low <;> cases dfa.isAccepting pair.high <;> simp

/-- A pair that is split beside marks on separated pairs is separated. -/
theorem not_alikeOver_of_splits {marks : PairMarks dfa.size}
    (h : ∀ pair, marks.get pair = true → ¬ dfa.AlikeOver alphabet pair.low pair.high)
    {pair : Pair dfa.size} (hs : dfa.splits alphabet marks pair = true) :
    ¬ dfa.AlikeOver alphabet pair.low pair.high := by
  intro halike
  rw [splits, List.any_eq_true] at hs
  obtain ⟨c, hc, hs⟩ := hs
  have hmoves := halike.isSome_next? hc
  split at hs
  next a b ha hb =>
    rw [apartIn, Option.any_eq_true] at hs
    obtain ⟨next, hnext, hget⟩ := hs
    have halikeNext := halike.next? hc ha hb
    rcases Pair.ends_of_of? hnext with ⟨hlow, hhigh⟩ | ⟨hlow, hhigh⟩
    · exact h next hget (hlow ▸ hhigh ▸ halikeNext)
    · exact h next hget (hlow ▸ hhigh ▸ (dfa.alikeOver_equivalence alphabet).symm halikeNext)
  · cases hs
  next hneither _ _ =>
    cases ha : dfa.next? pair.low c <;> cases hb : dfa.next? pair.high c <;>
      simp_all

theorem not_alikeOver_of_get_distinguished {pair : Pair dfa.size}
    (h : (dfa.distinguished alphabet).get pair = true) :
    ¬ dfa.AlikeOver alphabet pair.low pair.high := by
  have hpass : ∀ marks,
      (∀ pair, marks.get pair = true → ¬ dfa.AlikeOver alphabet pair.low pair.high) →
      ∀ pair, (dfa.pass alphabet marks).get pair = true →
        ¬ dfa.AlikeOver alphabet pair.low pair.high := by
    intro marks hmarks
    rw [pass_eq]
    refine markWhere_induction ?_ hmarks
    intro marks pair hmarks htest
    exact not_alikeOver_of_splits hmarks (Bool.and_eq_true_iff.1 htest).2
  have hrefine : ∀ bound marks,
      (∀ pair, marks.get pair = true → ¬ dfa.AlikeOver alphabet pair.low pair.high) →
      ∀ pair, (dfa.refine alphabet bound marks).get pair = true →
        ¬ dfa.AlikeOver alphabet pair.low pair.high := by
    intro bound
    induction bound with
    | zero => exact fun _ hmarks => hmarks
    | succ bound ih =>
      intro marks hmarks
      rw [refine]
      split
      · exact hmarks
      · exact ih _ (hpass marks hmarks)
  refine hrefine _ _ ?_ pair h
  rw [apartMarks_eq]
  refine markWhere_induction ?_ ?_
  · intro _ pair _ hapart halike
    rw [verdict_eq_iff.1 halike.verdict_eq] at hapart
    cases hapart
  · intro pair hget
    rw [get_empty] at hget
    cases hget

/-- What the end of all passes leaves of two states: they agree at once, and each symbol leads from
both to such states again or from both to none. -/
structure Unmarked (dfa : Dfa) (alphabet : Alphabet) (a b : Nat) : Prop where
  verdict_eq : dfa.verdict a = dfa.verdict b
  step : ∀ c ∈ alphabet, (dfa.next? a c = none ∧ dfa.next? b c = none) ∨
    ∃ a' b', dfa.next? a c = some a' ∧ dfa.next? b c = some b' ∧
      apartIn (dfa.distinguished alphabet) a' b' = false

theorem apartIn_comm {n : Nat} (marks : PairMarks n) (a b : Nat) :
    apartIn marks a b = apartIn marks b a := by
  rw [apartIn, apartIn, Pair.of?_comm]

theorem apartIn_self {n : Nat} (marks : PairMarks n) (a : Nat) : apartIn marks a a = false := by
  have hpair : Pair.of? n a a = none := by simp [Pair.of?]
  rw [apartIn, hpair]
  rfl

theorem Unmarked.symm {a b : Nat} (h : dfa.Unmarked alphabet a b) : dfa.Unmarked alphabet b a where
  verdict_eq := h.verdict_eq.symm
  step c hc := by
    rcases h.step c hc with ⟨ha, hb⟩ | ⟨a', b', ha, hb, hnext⟩
    · exact .inl ⟨hb, ha⟩
    · exact .inr ⟨b', a', hb, ha, apartIn_comm _ a' b' ▸ hnext⟩

theorem unmarked_self (a : Nat) : dfa.Unmarked alphabet a a where
  verdict_eq := rfl
  step c _ := by
    cases ha : dfa.next? a c with
    | none => exact .inl ⟨rfl, rfl⟩
    | some a' => exact .inr ⟨a', a', rfl, rfl, apartIn_self _ a'⟩

/-- A pair without a mark in the end is not told apart by the empty word and not split. -/
theorem unmarked_of_get_eq_false {pair : Pair dfa.size}
    (h : (dfa.distinguished alphabet).get pair = false) :
    dfa.Unmarked alphabet pair.low pair.high := by
  have hapart : dfa.apartAtOnce pair = false := by
    by_contra hapart
    rw [Bool.not_eq_false] at hapart
    have hfirst : dfa.apartMarks.get pair = true := by
      rw [apartMarks_eq]
      exact get_markWhere (Pair.mem_all pair) fun _ _ => .inr hapart
    rw [distinguished, le_refine _ _ pair hfirst] at h
    cases h
  have hsplit : dfa.splits alphabet (dfa.distinguished alphabet) pair = false := by
    by_contra hsplit
    rw [Bool.not_eq_false] at hsplit
    rw [get_of_splits (pass_distinguished dfa alphabet) hsplit] at h
    cases h
  refine ⟨verdict_eq_iff.2 hapart, ?_⟩
  intro c hc
  rw [splits, List.any_eq_false] at hsplit
  have hnot := hsplit c hc
  cases hlow : dfa.next? pair.low c with
  | none =>
    cases hhigh : dfa.next? pair.high c with
    | none => exact .inl ⟨rfl, rfl⟩
    | some high => simp [hlow, hhigh] at hnot
  | some low =>
    cases hhigh : dfa.next? pair.high c with
    | none => simp [hlow, hhigh] at hnot
    | some high =>
      rw [hlow, hhigh] at hnot
      exact .inr ⟨low, high, rfl, rfl, by simpa using hnot⟩

theorem unmarked_of_apartIn_eq_false {a b : Nat} (ha : a < dfa.size) (hb : b < dfa.size)
    (h : apartIn (dfa.distinguished alphabet) a b = false) : dfa.Unmarked alphabet a b := by
  have hlt : ∀ {a b : Nat}, a < b → b < dfa.size →
      apartIn (dfa.distinguished alphabet) a b = false → dfa.Unmarked alphabet a b := by
    intro a b hab hb h
    have hpair : Pair.of? dfa.size a b = some ⟨a, b, hab, hb⟩ := dif_pos ⟨hab, hb⟩
    rw [apartIn, hpair, Option.any_some] at h
    exact unmarked_of_get_eq_false h
  rcases Nat.lt_trichotomy a b with hab | rfl | hba
  · exact hlt hab hb h
  · exact unmarked_self a
  · rw [apartIn_comm] at h
    exact (hlt hba ha h).symm

/-- No word of symbols separates states whose pair has no mark. -/
theorem alikeOver_of_apartIn_eq_false {a b : Nat} (ha : a < dfa.size) (hb : b < dfa.size)
    (h : apartIn (dfa.distinguished alphabet) a b = false) : dfa.AlikeOver alphabet a b := by
  intro word hword
  induction word generalizing a b with
  | nil => simpa using (unmarked_of_apartIn_eq_false ha hb h).verdict_eq
  | cons c word ih =>
    obtain ⟨hc, hword⟩ := List.forall_mem_cons.1 hword
    have hstep := (unmarked_of_apartIn_eq_false ha hb h).step c hc
    rcases hstep with ⟨ha', hb'⟩ | ⟨a', b', ha', hb', hnext⟩
    · simp [ha', hb']
    · have heq := ih (lt_of_next? ha') (lt_of_next? hb') hnext hword
      simpa [ha', hb'] using heq

/-- Exactly the pairs get marked that some word of symbols separates. -/
theorem get_distinguished_iff {pair : Pair dfa.size} :
    (dfa.distinguished alphabet).get pair = true ↔
      ¬ dfa.AlikeOver alphabet pair.low pair.high := by
  constructor
  · exact not_alikeOver_of_get_distinguished
  · intro halike
    by_contra hget
    rw [Bool.not_eq_true] at hget
    have hlow : pair.low < dfa.size := Nat.lt_trans pair.low_lt pair.high_lt
    apply halike
    apply alikeOver_of_apartIn_eq_false hlow pair.high_lt
    rw [apartIn, pair.of?_ends, Option.any_some]
    exact hget

theorem get_distinguished_eq_false_iff {pair : Pair dfa.size} :
    (dfa.distinguished alphabet).get pair = false ↔
      dfa.AlikeOver alphabet pair.low pair.high := by
  rw [← Bool.not_eq_true, get_distinguished_iff, not_not]

/-- If the alphabet holds the characters of all moves, other words separate no states: both runs get
stuck at their first character that is no symbol. -/
theorem alikeOver_iff (hmoves : dfa.MovesWithin alphabet) {a b : Nat} :
    dfa.AlikeOver alphabet a b ↔ dfa.Alike a b := by
  constructor
  · intro h word
    induction word generalizing a b with
    | nil => exact h [] (by simp)
    | cons c word ih =>
      rw [outcome_cons, outcome_cons]
      by_cases hc : c ∈ alphabet
      · have hsome := h.isSome_next? hc
        cases ha : dfa.next? a c <;> cases hb : dfa.next? b c <;> simp [ha, hb] at hsome ⊢
        exact ih (h.next? hc ha hb)
      · have hstuck : ∀ state, dfa.next? state c = none := by
          intro state
          by_contra hsome
          exact hc (hmoves state c (Option.isSome_iff_ne_none.2 hsome))
        rw [hstuck a, hstuck b]
  · intro h word _
    exact h word

end Dfa

end LexGen
