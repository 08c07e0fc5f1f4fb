import LexGen.Text.Ranges

/-!
# Blank characters, lines and fragments

A blank character is one with the Unicode property `White_Space`. Text is read in two ways: as
lines, which end at a line feed, and as fragments, the maximal runs of characters that are not
blank. Both are cuts of the text at separators, so both split over a separator that stands
between two texts (`lines_append`, `fragments_append`), and no fragment is empty or holds a blank
(`ne_nil_of_mem_fragments`, `isBlank_of_mem_fragments`). Fragments joined by single blanks are cut
into the same fragments again (`fragments_intercalate`).
-/

namespace LexGen.Text

/-- The code points with the property `White_Space`. -/
def blankRanges : Ranges :=
  [(0x09, 0x0d), (0x20, 0x20), (0x85, 0x85), (0xa0, 0xa0), (0x1680, 0x1680), (0x2000, 0x200a),
   (0x2028, 0x2029), (0x202f, 0x202f), (0x205f, 0x205f), (0x3000, 0x3000)]

def isBlank (c : Char) : Bool := blankRanges.has c

/-- The text without the blanks at its two ends. -/
def trim (text : List Char) : List Char :=
  ((text.dropWhile isBlank).reverse.dropWhile isBlank).reverse

/-- The lines of a text. A line feed ends a line, so the last line may be empty. -/
def lines (text : List Char) : List (List Char) := text.splitOnP (· == '\n')

/-- The maximal runs of characters that are not blank, in order. -/
def fragments (text : List Char) : List (List Char) :=
  (text.splitOnP isBlank).filter (!·.isEmpty)

/-- The text before the first `separator` and the text after it. -/
def cut? (separator : Char) (text : List Char) : Option (List Char × List Char) :=
  match text.dropWhile (· != separator) with
  | [] => none
  | _ :: after => some (text.takeWhile (· != separator), after)

theorem lines_append (before after : List Char) :
    lines (before ++ '\n' :: after) = lines before ++ lines after :=
  List.splitOnP_append_cons before after (by simp)

/-- A blank between two texts separates their fragments. -/
theorem fragments_append (before after : List Char) {blank : Char} (h : isBlank blank = true) :
    fragments (before ++ blank :: after) = fragments before ++ fragments after := by
  simp [fragments, List.splitOnP_append_cons before after h]

theorem ne_nil_of_mem_fragments {text fragment : List Char} (h : fragment ∈ fragments text) :
    fragment ≠ [] := by
  have := (List.mem_filter.1 h).2
  rintro rfl
  simp at this

/-- No piece of a cut text holds a separator. -/
theorem of_mem_splitOnP {p : Char → Bool} (text : List Char) {piece : List Char}
    (h : piece ∈ text.splitOnP p) : ∀ c ∈ piece, p c = false := by
  induction text generalizing piece with
  | nil =>
    rw [List.splitOnP_nil, List.mem_singleton] at h
    simp [h]
  | cons d text ih =>
    rw [List.splitOnP_cons_eq_if_modifyHead] at h
    split at h
    next =>
      rcases List.mem_cons.1 h with rfl | h
      · simp
      · exact ih h
    next hd =>
      cases hs : text.splitOnP p with
      | nil => exact absurd hs (List.splitOnP_ne_nil p text)
      | cons first others =>
        rw [hs] at h ih
        rw [List.modifyHead_cons] at h
        rcases List.mem_cons.1 h with rfl | h
        · intro c hc
          rcases List.mem_cons.1 hc with rfl | hc
          · simpa using hd
          · exact ih (List.mem_cons_self ..) c hc
        · exact ih (List.mem_cons_of_mem _ h)

theorem isBlank_of_mem_fragments {text fragment : List Char} (h : fragment ∈ fragments text) :
    ∀ c ∈ fragment, isBlank c = false :=
  of_mem_splitOnP text (List.mem_filter.1 h).1

/-- The text is not empty and holds no blank. -/
def IsFragment (text : List Char) : Prop := text ≠ [] ∧ ∀ c ∈ text, isBlank c = false

theorem isFragment_of_mem_fragments {text fragment : List Char} (h : fragment ∈ fragments text) :
    IsFragment fragment := ⟨ne_nil_of_mem_fragments h, isBlank_of_mem_fragments h⟩

theorem IsFragment.fragments_eq {fragment : List Char} (h : IsFragment fragment) :
    fragments fragment = [fragment] := by
  rw [fragments, List.splitOnP_eq_singleton h.2]
  simp [h.1]

/-- Fragments with a blank between any two of them are the fragments of what they make together. -/
theorem fragments_intercalate {blank : Char} (hblank : isBlank blank = true)
    {parts : List (List Char)} (h : ∀ part ∈ parts, IsFragment part) :
    fragments ([blank].intercalate parts) = parts := by
  induction parts with
  | nil => rfl
  | cons part rest ih =>
    obtain ⟨hpart, hrest⟩ := List.forall_mem_cons.1 h
    cases rest with
    | nil => rw [List.intercalate_singleton, hpart.fragments_eq]
    | cons next rest =>
      rw [List.intercalate_cons_cons, List.append_assoc, List.singleton_append,
        fragments_append _ _ hblank, hpart.fragments_eq, ih hrest]
      rfl

end LexGen.Text
