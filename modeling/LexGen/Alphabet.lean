/-!
# Alphabets

An alphabet is a finite set of characters, listed in ascending order and without repeats, so that
every construction visits its symbols in one order and equal sets are equal values
(`Alphabet.ext`). `ofList` collects any list of characters into one (`mem_ofList`). The position of
a symbol is its column in a transition table.
-/

namespace LexGen

structure Alphabet where
  symbols : List Char
  ascending : symbols.Pairwise (· < ·)
  deriving DecidableEq, Repr

namespace Alphabet

instance : Membership Char Alphabet where
  mem alphabet c := c ∈ alphabet.symbols

instance (c : Char) (alphabet : Alphabet) : Decidable (c ∈ alphabet) :=
  inferInstanceAs (Decidable (c ∈ alphabet.symbols))

def empty : Alphabet := ⟨[], .nil⟩

/-- Put a character at its place in an ascending list that may already hold it. -/
def place (c : Char) : List Char → List Char
  | [] => [c]
  | d :: rest => if c < d then c :: d :: rest else if c = d then d :: rest else d :: place c rest

theorem mem_place {c d : Char} {symbols : List Char} :
    d ∈ place c symbols ↔ d = c ∨ d ∈ symbols := by
  induction symbols with
  | nil => simp [place]
  | cons e rest ih =>
    unfold place
    split
    · simp
    · split
      · next h => simp [h]
      · simp only [List.mem_cons, ih]
        exact ⟨by rintro (h | h | h) <;> simp [h], by rintro (h | h | h) <;> simp [h]⟩

theorem pairwise_place {c : Char} {symbols : List Char} (h : symbols.Pairwise (· < ·)) :
    (place c symbols).Pairwise (· < ·) := by
  induction symbols with
  | nil => simp [place]
  | cons e rest ih =>
    obtain ⟨he, hr⟩ := List.pairwise_cons.1 h
    unfold place
    split
    next hlt =>
      refine List.pairwise_cons.2 ⟨?_, h⟩
      intro d hd
      rcases List.mem_cons.1 hd with rfl | hd
      · exact hlt
      · exact Char.lt_trans hlt (he d hd)
    next hlt =>
      split
      · exact h
      next hne =>
        refine List.pairwise_cons.2 ⟨?_, ih hr⟩
        intro d hd
        rcases mem_place.1 hd with rfl | hd
        · exact Std.lt_of_le_of_ne (Char.not_lt.1 hlt) (Ne.symm hne)
        · exact he d hd

def insert (c : Char) (alphabet : Alphabet) : Alphabet :=
  ⟨place c alphabet.symbols, pairwise_place alphabet.ascending⟩

/-- The alphabet of the characters of a list. -/
def ofList (symbols : List Char) : Alphabet := symbols.foldr insert empty

/-- The column of a symbol. -/
def indexOf? (alphabet : Alphabet) (c : Char) : Option Nat := alphabet.symbols.idxOf? c

def size (alphabet : Alphabet) : Nat := alphabet.symbols.length

def isEmpty (alphabet : Alphabet) : Bool := alphabet.symbols.isEmpty

theorem mem_def {c : Char} {alphabet : Alphabet} : c ∈ alphabet ↔ c ∈ alphabet.symbols := Iff.rfl

/-- An alphabet is determined by its members. -/
theorem ext {a b : Alphabet} (h : ∀ c, c ∈ a ↔ c ∈ b) : a = b := by
  obtain ⟨as, ha⟩ := a
  obtain ⟨bs, hb⟩ := b
  simp only [mem_def] at h
  congr 1
  induction as generalizing bs with
  | nil =>
    cases bs with
    | nil => rfl
    | cons d bs => exact absurd ((h d).2 (List.mem_cons_self ..)) (by simp)
  | cons c as ih =>
    cases bs with
    | nil => exact absurd ((h c).1 (List.mem_cons_self ..)) (by simp)
    | cons d bs =>
      obtain ⟨hc, hta⟩ := List.pairwise_cons.1 ha
      obtain ⟨hd, htb⟩ := List.pairwise_cons.1 hb
      have hcd : c = d := by
        rcases List.mem_cons.1 ((h c).1 (List.mem_cons_self ..)) with heq | hm
        · exact heq
        · rcases List.mem_cons.1 ((h d).2 (List.mem_cons_self ..)) with heq | hn
          · exact heq.symm
          · exact absurd (Char.lt_trans (hd c hm) (hc d hn)) (Char.lt_irrefl d)
      subst hcd
      refine congrArg (c :: ·) (ih hta bs htb fun e => ⟨fun he => ?_, fun he => ?_⟩)
      · rcases List.mem_cons.1 ((h e).1 (List.mem_cons_of_mem _ he)) with rfl | hm
        · exact absurd (hc e he) (Char.lt_irrefl e)
        · exact hm
      · rcases List.mem_cons.1 ((h e).2 (List.mem_cons_of_mem _ he)) with rfl | hm
        · exact absurd (hd e he) (Char.lt_irrefl e)
        · exact hm

@[simp]
theorem mem_insert {c d : Char} {alphabet : Alphabet} :
    d ∈ insert c alphabet ↔ d = c ∨ d ∈ alphabet := mem_place

@[simp]
theorem mem_ofList {c : Char} {symbols : List Char} : c ∈ ofList symbols ↔ c ∈ symbols := by
  induction symbols with
  | nil => simp [ofList, empty, mem_def]
  | cons d rest ih =>
    rw [ofList, List.foldr_cons, ← ofList, mem_insert, ih, List.mem_cons]

end Alphabet

end LexGen
