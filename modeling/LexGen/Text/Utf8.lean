/-!
# Byte offsets in a text

Positions in a text are counted in bytes of its UTF-8 form. An offset names a position only if it
falls between two characters or at an end of the text, and `dropBytes?` is defined at exactly those
(`dropBytes?_eq_some_iff`). Between two positions stands a part of the text (`slice?_eq_some_iff`).
-/

namespace LexGen.Text

/-- The number of bytes of the UTF-8 form. -/
def byteLength : List Char → Nat
  | [] => 0
  | c :: rest => c.utf8Size + byteLength rest

/-- What is left of the text from the byte offset on; nothing if the offset is inside a character
or past the end. -/
def dropBytes? : Nat → List Char → Option (List Char)
  | 0, text => some text
  | _ + 1, [] => none
  | offset + 1, c :: rest =>
    if c.utf8Size ≤ offset + 1 then dropBytes? (offset + 1 - c.utf8Size) rest else none

/-- The part of the text before the byte offset; nothing if the offset is inside a character or past
the end. -/
def takeBytes? : Nat → List Char → Option (List Char)
  | 0, _ => some []
  | _ + 1, [] => none
  | offset + 1, c :: rest =>
    if c.utf8Size ≤ offset + 1 then (takeBytes? (offset + 1 - c.utf8Size) rest).map (c :: ·)
    else none

/-- The part of the text between two byte offsets, if both are positions in this order. -/
def slice? (start stop : Nat) (text : List Char) : Option (List Char) :=
  if start ≤ stop then (dropBytes? start text).bind (takeBytes? (stop - start)) else none

@[simp]
theorem byteLength_nil : byteLength [] = 0 := rfl

@[simp]
theorem byteLength_cons (c : Char) (rest : List Char) :
    byteLength (c :: rest) = c.utf8Size + byteLength rest := rfl

@[simp]
theorem byteLength_append (before after : List Char) :
    byteLength (before ++ after) = byteLength before + byteLength after := by
  induction before with
  | nil => simp
  | cons c before ih => simp [ih, Nat.add_assoc]

@[simp]
theorem byteLength_eq_zero_iff {text : List Char} : byteLength text = 0 ↔ text = [] := by
  cases text with
  | nil => simp
  | cons c rest =>
    have hpos := c.utf8Size_pos
    simp
    omega

theorem dropBytes?_zero (text : List Char) : dropBytes? 0 text = some text := by
  simp [dropBytes?]

theorem dropBytes?_append (before after : List Char) :
    dropBytes? (byteLength before) (before ++ after) = some after := by
  induction before with
  | nil => exact dropBytes?_zero after
  | cons c before ih =>
    have hpos := c.utf8Size_pos
    obtain ⟨offset, ho⟩ : ∃ offset, byteLength (c :: before) = offset + 1 :=
      ⟨byteLength (c :: before) - 1, by simp; omega⟩
    rw [ho, List.cons_append, dropBytes?, ← ho]
    simp [ih]

/-- An offset is a position exactly if it is the length in bytes of an initial part of the text. -/
theorem dropBytes?_eq_some_iff {offset : Nat} {text rest : List Char} :
    dropBytes? offset text = some rest ↔
      ∃ before, text = before ++ rest ∧ offset = byteLength before := by
  constructor
  · intro h
    induction text generalizing offset with
    | nil =>
      cases offset with
      | zero => exact ⟨[], by simpa [dropBytes?] using h⟩
      | succ offset => simp [dropBytes?] at h
    | cons c text ih =>
      cases offset with
      | zero => exact ⟨[], by simpa [dropBytes?] using h⟩
      | succ offset =>
        rw [dropBytes?] at h
        split at h
        next hc =>
          obtain ⟨before, rfl, hb⟩ := ih h
          exact ⟨c :: before, rfl, by simp; omega⟩
        next => simp at h
  · rintro ⟨before, rfl, rfl⟩
    exact dropBytes?_append before rest

/-- What is left of the text makes up the rest of its bytes. -/
theorem add_byteLength_of_dropBytes? {offset : Nat} {text rest : List Char}
    (h : dropBytes? offset text = some rest) : offset + byteLength rest = byteLength text := by
  obtain ⟨before, rfl, rfl⟩ := dropBytes?_eq_some_iff.1 h
  rw [byteLength_append]

theorem takeBytes?_eq_some_iff {offset : Nat} {text part : List Char} :
    takeBytes? offset text = some part ↔
      ∃ after, text = part ++ after ∧ offset = byteLength part := by
  induction text generalizing offset part with
  | nil =>
    cases offset with
    | zero => cases part <;> simp [takeBytes?]
    | succ offset =>
      simp only [takeBytes?, reduceCtorEq, false_iff]
      rintro ⟨after, happend, hoffset⟩
      rw [(List.append_eq_nil_iff.1 happend.symm).1] at hoffset
      cases hoffset
  | cons c text ih =>
    cases offset with
    | zero =>
      rw [takeBytes?, Option.some.injEq]
      constructor
      · rintro rfl
        exact ⟨c :: text, rfl, rfl⟩
      · rintro ⟨_, _, hoffset⟩
        exact (byteLength_eq_zero_iff.1 hoffset.symm).symm
    | succ offset =>
      rw [takeBytes?]
      constructor
      · intro h
        split at h
        next hc =>
          obtain ⟨part, hpart, rfl⟩ := Option.map_eq_some_iff.1 h
          obtain ⟨after, rfl, hoffset⟩ := ih.1 hpart
          exact ⟨after, rfl, by rw [byteLength_cons]; omega⟩
        next => cases h
      · rintro ⟨after, happend, hoffset⟩
        cases part with
        | nil => cases hoffset
        | cons d part =>
          cases happend
          rw [byteLength_cons] at hoffset
          rw [if_pos (by omega), ih.2 ⟨after, rfl, by omega⟩]
          rfl

/-- Two offsets have a part of the text between them exactly if they are positions in this order. -/
theorem slice?_eq_some_iff {start stop : Nat} {text part : List Char} :
    slice? start stop text = some part ↔ ∃ before after, text = before ++ (part ++ after) ∧
      start = byteLength before ∧ stop = byteLength (before ++ part) := by
  rw [slice?]
  constructor
  · intro h
    split at h
    next hle =>
      obtain ⟨rest, hrest, hpart⟩ := Option.bind_eq_some_iff.1 h
      obtain ⟨before, rfl, rfl⟩ := dropBytes?_eq_some_iff.1 hrest
      obtain ⟨after, rfl, hstop⟩ := takeBytes?_eq_some_iff.1 hpart
      exact ⟨before, after, rfl, rfl, by rw [byteLength_append]; omega⟩
    next => cases h
  · rintro ⟨before, after, rfl, rfl, rfl⟩
    have hstop : byteLength (before ++ part) - byteLength before = byteLength part := by simp
    rw [if_pos (by simp), dropBytes?_append, Option.bind_some, hstop]
    exact takeBytes?_eq_some_iff.2 ⟨after, rfl, rfl⟩

end LexGen.Text
