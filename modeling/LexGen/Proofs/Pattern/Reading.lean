import LexGen.Pattern.Grammar

/-!
# How a pattern is read

`Piece.Reads` says by rules what the pieces of a pattern are: a class goes from a `[` to the nearest
`]` after it, a `[` that no `]` follows is an ordinary character, and so is everything else, a stray
`]` included. `Piece.cut` finds the only such reading (`Piece.reads_iff`).
-/

namespace LexGen.Piece

/-- The pattern is read as the pieces. -/
inductive Reads : List Char → List Piece → Prop where
  | nil : Reads [] []
  | char {c : Char} {rest : List Char} {pieces : List Piece} :
    c ≠ '[' → Reads rest pieces → Reads (c :: rest) (.char c :: pieces)
  | unclosed {rest : List Char} {pieces : List Piece} :
    ']' ∉ rest → Reads rest pieces → Reads ('[' :: rest) (.char '[' :: pieces)
  | charClass {content rest : List Char} {pieces : List Piece} :
    ']' ∉ content → Reads rest pieces →
      Reads ('[' :: (content ++ ']' :: rest)) (.charClass content :: pieces)

/-- A class that is open ends with the nearest `]`. -/
theorem cut_some_append {opened content rest : List Char} (h : ']' ∉ content) :
    cut (some opened) (content ++ ']' :: rest) =
      .charClass (opened.reverse ++ content) :: cut none rest := by
  induction content generalizing opened with
  | nil => simp [cut]
  | cons c content ih =>
    have hc : c ≠ ']' := fun heq => h (heq ▸ List.mem_cons_self ..)
    have hcontent : ']' ∉ content := fun hm => h (List.mem_cons_of_mem _ hm)
    rw [List.cons_append, cut, if_neg hc, ih hcontent]
    simp

/-- Without a `]` to come a class stays open, and all of it is ordinary. -/
theorem cut_some_of_not_mem {opened rest : List Char} (h : ']' ∉ rest) :
    cut (some opened) rest = .char '[' :: (opened.reverse ++ rest).map .char := by
  induction rest generalizing opened with
  | nil => simp [cut]
  | cons c rest ih =>
    have hc : c ≠ ']' := fun heq => h (heq ▸ List.mem_cons_self ..)
    have hrest : ']' ∉ rest := fun hm => h (List.mem_cons_of_mem _ hm)
    rw [cut, if_neg hc, ih hrest]
    simp

theorem cut_of_not_mem_close {pattern : List Char} (h : ']' ∉ pattern) :
    cut none pattern = pattern.map .char := by
  induction pattern with
  | nil => rfl
  | cons c rest ih =>
    have hrest : ']' ∉ rest := fun hm => h (List.mem_cons_of_mem _ hm)
    unfold cut
    split
    next heq => rw [heq, cut_some_of_not_mem hrest]; rfl
    next => rw [ih hrest, List.map_cons]

theorem Reads.cut_eq {pattern : List Char} {pieces : List Piece} (h : Reads pattern pieces) :
    cut none pattern = pieces := by
  induction h with
  | nil => rfl
  | char hc _ ih => rw [cut, if_neg hc, ih]
  | unclosed hn _ ih =>
    rw [cut, if_pos rfl, cut_some_of_not_mem hn, ← ih, cut_of_not_mem_close hn]
    rfl
  | charClass hn _ ih => rw [cut, if_pos rfl, cut_some_append hn, ih]; rfl

/-- Every pattern has a reading. -/
theorem reads_cut (pattern : List Char) : Reads pattern (cut none pattern) := by
  induction h : pattern.length using Nat.strongRecOn generalizing pattern with
  | ind length ih =>
    subst h
    cases pattern with
    | nil => exact .nil
    | cons c rest =>
      have hrest : Reads rest (cut none rest) := ih rest.length (by simp) rest rfl
      by_cases hc : c = '['
      · subst hc
        by_cases hm : ']' ∈ rest
        · obtain ⟨content, after, rfl, hn⟩ := List.eq_append_cons_of_mem hm
          have hafter : Reads after (cut none after) := ih after.length (by simp; omega) after rfl
          have hreads := Reads.charClass hn hafter
          rw [hreads.cut_eq]
          exact hreads
        · have hreads := Reads.unclosed hm hrest
          rw [hreads.cut_eq]
          exact hreads
      · have hreads := Reads.char hc hrest
        rw [hreads.cut_eq]
        exact hreads

theorem reads_iff {pattern : List Char} {pieces : List Piece} :
    Reads pattern pieces ↔ cut none pattern = pieces :=
  ⟨Reads.cut_eq, fun h => h ▸ reads_cut pattern⟩

end LexGen.Piece
