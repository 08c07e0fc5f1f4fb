import LexGen.Dfa.Basic

/-!
# Separation of states

A scanner sees three things of the state it is in: whether it is stuck, whether it may accept,
and with which token type. A word separates two states if what it leads to from them differs in
one of these. States that no word separates are alike, and only such states may be merged. Where an
automaton reads symbols of an alphabet only, no other words count (`Dfa.AlikeOver`).
-/

namespace LexGen.Dfa

/-- What a scanner sees of a state: nothing, or acceptance with the token type. -/
def verdict (dfa : Dfa) (state : Nat) : Option (Option TokenType) :=
  if dfa.isAccepting state then some (dfa.tokenType state) else none

/-- What a scanner sees after a word; `none` if it is stuck. -/
def outcome (dfa : Dfa) (state : Nat) (word : List Char) : Option (Option (Option TokenType)) :=
  (dfa.runFrom state word).map dfa.verdict

def Separates (dfa : Dfa) (word : List Char) (a b : Nat) : Prop :=
  dfa.outcome a word ≠ dfa.outcome b word

/-- No word separates the states. -/
def Alike (dfa : Dfa) (a b : Nat) : Prop := ∀ word, dfa.outcome a word = dfa.outcome b word

/-- No word of symbols of the alphabet separates the states. -/
def AlikeOver (dfa : Dfa) (alphabet : Alphabet) (a b : Nat) : Prop :=
  ∀ word, (∀ c ∈ word, c ∈ alphabet) → dfa.outcome a word = dfa.outcome b word

/-- Some word leads to the state. -/
def Reachable (dfa : Dfa) (state : Nat) : Prop := ∃ word, dfa.run word = some state

@[simp]
theorem runFrom_nil (dfa : Dfa) (state : Nat) : dfa.runFrom state [] = some state := rfl

@[simp]
theorem runFrom_cons (dfa : Dfa) (state : Nat) (c : Char) (word : List Char) :
    dfa.runFrom state (c :: word) = (dfa.next? state c).bind (dfa.runFrom · word) := rfl

theorem runFrom_append (dfa : Dfa) (state : Nat) (front back : List Char) :
    dfa.runFrom state (front ++ back) = (dfa.runFrom state front).bind (dfa.runFrom · back) := by
  induction front generalizing state with
  | nil => rfl
  | cons c front ih =>
    rw [List.cons_append, runFrom_cons, runFrom_cons, Option.bind_assoc]
    simp only [ih]

/-- Moves lead to states. -/
theorem lt_of_next? {dfa : Dfa} {state target : Nat} {c : Char}
    (h : dfa.next? state c = some target) : target < dfa.size := by
  have ht := Moves.mem_targets_of_next? h
  unfold moves at ht
  split at ht
  next entry he => exact dfa.target_lt entry (Array.mem_of_getElem? he) target ht
  next => simp [Moves.empty, Moves.targets] at ht

/-- A run that starts in a state stays among the states. -/
theorem lt_of_runFrom {dfa : Dfa} {state target : Nat} {word : List Char} (hs : state < dfa.size)
    (h : dfa.runFrom state word = some target) : target < dfa.size := by
  induction word generalizing state with
  | nil => exact Option.some.inj h ▸ hs
  | cons c word ih =>
    rw [runFrom_cons] at h
    obtain ⟨next, hn, h⟩ := Option.bind_eq_some_iff.1 h
    exact ih (lt_of_next? hn) h

theorem Reachable.lt {dfa : Dfa} {state : Nat} (h : dfa.Reachable state) : state < dfa.size := by
  obtain ⟨word, h⟩ := h
  exact lt_of_runFrom dfa.start_lt h

@[simp]
theorem outcome_nil (dfa : Dfa) (state : Nat) : dfa.outcome state [] = some (dfa.verdict state) :=
  rfl

@[simp]
theorem outcome_cons (dfa : Dfa) (state : Nat) (c : Char) (word : List Char) :
    dfa.outcome state (c :: word) = (dfa.next? state c).bind (dfa.outcome · word) := by
  simp only [outcome, runFrom_cons, Option.map_bind]
  rfl

theorem alikeOver_equivalence (dfa : Dfa) (alphabet : Alphabet) :
    Equivalence (dfa.AlikeOver alphabet) where
  refl _ _ _ := rfl
  symm h word hword := (h word hword).symm
  trans hab hbc word hword := (hab word hword).trans (hbc word hword)

namespace AlikeOver

variable {dfa : Dfa} {alphabet : Alphabet} {a b : Nat} (h : dfa.AlikeOver alphabet a b)

include h

theorem verdict_eq : dfa.verdict a = dfa.verdict b := by simpa using h []

/-- Alike states have moves on the same symbols. -/
theorem isSome_next? {c : Char} (hc : c ∈ alphabet) :
    (dfa.next? a c).isSome = (dfa.next? b c).isSome := by
  have hword := congrArg Option.isSome (h [c] (by simpa using hc))
  cases ha : dfa.next? a c <;> cases hb : dfa.next? b c <;> simp [ha, hb] at hword ⊢

/-- Alike states have moves to alike states. -/
theorem next? {c : Char} (hc : c ∈ alphabet) {a' b' : Nat} (ha : dfa.next? a c = some a')
    (hb : dfa.next? b c = some b') : dfa.AlikeOver alphabet a' b' := by
  intro word hword
  have hcons := h (c :: word) (List.forall_mem_cons.2 ⟨hc, hword⟩)
  simpa [ha, hb] using hcons

end AlikeOver

end LexGen.Dfa
