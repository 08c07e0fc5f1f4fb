import LexGen.Json.Reader
import LexGen.Json.Writer

/-!
# Reading what was written

The compact text of a value is read back as that value (`Json.read?_compact`). A string is read one
escaped character after the other, a number ends where no character of a number follows, and for
arrays and objects the induction is on the value: the text of each part leaves the reader in front
of the next comma or closing bracket, with enough of its bound left for the parts that follow.

An object keeps its fields apart by their names, so they must differ. Numbers that are not natural
are kept as texts, which need not be numbers, and are left out here.
-/

namespace LexGen.Json

mutual

/-- All numbers in the value are natural, and no object in it has two fields of one name. -/
def Plain : Json → Prop
  | null => True
  | bool _ => True
  | natural _ => True
  | decimal _ => False
  | string _ => True
  | array items => PlainItems items
  | object fields => (fields.map Prod.fst).Nodup ∧ PlainFields fields

def PlainItems : List Json → Prop
  | [] => True
  | item :: rest => item.Plain ∧ PlainItems rest

def PlainFields : List (String × Json) → Prop
  | [] => True
  | (_, value) :: rest => value.Plain ∧ PlainFields rest

end

theorem plain_natural (n : Nat) : (natural n).Plain := trivial

theorem plain_string (text : String) : (string text).Plain := trivial

theorem plainFields_iff {fields : List (String × Json)} :
    PlainFields fields ↔ ∀ field ∈ fields, field.2.Plain := by
  induction fields with
  | nil => simp [PlainFields]
  | cons field rest ih => simp [PlainFields, ih]

theorem plainItems_iff {items : List Json} : PlainItems items ↔ ∀ item ∈ items, item.Plain := by
  induction items with
  | nil => simp [PlainItems]
  | cons item rest ih => simp [PlainItems, ih]

/-! ## Strings -/

theorem hexValue?_digitChar : ∀ n < 16, hexValue? n.digitChar = some n := by decide

/-- A control character is written by the last two of its four digits. -/
theorem unit?_digitChar {high low : Nat} (hhigh : high < 16) (hlow : low < 16) :
    unit? '0' '0' high.digitChar low.digitChar = some (high * 16 + low) := by
  have hzero : hexValue? '0' = some 0 := rfl
  simp [unit?, hexValue?_digitChar, hzero, hhigh, hlow]

theorem readString_unit {a b c d : Char} {value : Nat} (h : unit? a b c d = some value)
    (hlt : value < 0xd800) (done rest : List Char) :
    readString done ('\\' :: 'u' :: a :: b :: c :: d :: rest) =
      readString (Char.ofNat value :: done) rest := by
  rw [readString, h]
  simp only
  rw [if_neg (by omega), if_neg (by omega)]

theorem readString_cons {c : Char} (hquote : c ≠ '"') (hslash : c ≠ '\\') (hge : 0x20 ≤ c.toNat)
    (done rest : List Char) : readString done (c :: rest) = readString (c :: done) rest := by
  rw [readString, if_neg]
  · rintro (hlt | heq)
    · omega
    · exact hslash heq
  all_goals simp [hquote, hslash]

/-- The escaped form of a character is read back as this character. -/
theorem readString_escapedChar (c : Char) (done rest : List Char) :
    readString done (escapedChar c ++ rest) = readString (c :: done) rest := by
  unfold escapedChar
  -- The characters with an escape of their own.
  iterate 7
    split
    · subst_vars
      rfl
  split
  next hlt =>
    have hread := readString_unit (unit?_digitChar (by decide : 0 < 16) hlt) (by omega) done rest
    rw [Nat.zero_mul, Nat.zero_add, Char.ofNat_toNat] at hread
    rw [Nat.toDigits_of_lt_base hlt]
    exact hread
  split
  next hge hlt =>
    have hdigits : Nat.toDigits 16 c.toNat = [Nat.digitChar 1, (c.toNat % 16).digitChar] := by
      rw [Nat.toDigits_of_base_le (by decide) (by omega), Nat.toDigits_of_lt_base (by omega),
        show c.toNat / 16 = 1 by omega]
      rfl
    have hvalue : 1 * 16 + c.toNat % 16 = c.toNat := by omega
    have hunit := unit?_digitChar (by decide : 1 < 16) (Nat.mod_lt c.toNat (by decide : 0 < 16))
    rw [hvalue] at hunit
    have hread := readString_unit hunit (by omega) done rest
    rw [Char.ofNat_toNat] at hread
    rw [hdigits]
    exact hread
  next hquote hslash _ _ _ _ _ _ hge =>
    exact readString_cons hquote hslash (Nat.le_of_not_lt hge) done rest

/-- A quoted text is read back up to its closing quote. -/
theorem readString_flatMap_escapedChar (text done rest : List Char) :
    readString done (text.flatMap escapedChar ++ '"' :: rest) =
      some (String.ofList (done.reverse ++ text), rest) := by
  induction text generalizing done with
  | nil => simp [readString]
  | cons c text ih =>
    rw [List.flatMap_cons, List.append_assoc, readString_escapedChar, ih]
    simp

theorem toList_quotedString_append (text : String) (rest : List Char) :
    (quotedString text).toList ++ rest =
      '"' :: (text.toList.flatMap escapedChar ++ '"' :: rest) := by
  simp [quotedString]

/-! ## Numbers -/

/-- The text does not go on with a character of a number. -/
def EndsNumber (text : List Char) : Prop := ∀ c ∈ text.head?, isNumberChar c = false

theorem endsNumber_cons {c : Char} (h : isNumberChar c = false) (rest : List Char) :
    EndsNumber (c :: rest) := by
  intro other hother
  rw [← Option.some.inj hother, h]

theorem isNumberChar_of_isDigit {c : Char} (h : c.isDigit = true) : isNumberChar c = true := by
  simp [isNumberChar, h]

theorem isDigit_toDigits (n : Nat) : ∀ c ∈ Nat.toDigits 10 n, c.isDigit = true :=
  fun _ hc => Nat.isDigit_of_mem_toDigits (by decide) (by decide) hc

theorem head?_toDigits_of_pos {n : Nat} (h : 0 < n) : (Nat.toDigits 10 n).head? ≠ some '0' := by
  induction n using Nat.strongRecOn with
  | ind n ih =>
    rcases Nat.lt_or_ge n 10 with hlt | hge
    · rw [Nat.toDigits_of_lt_base hlt]
      have hall : ∀ n < 10, 0 < n → [n.digitChar].head? ≠ some '0' := by decide
      exact hall n hlt h
    · rw [Nat.toDigits_of_base_le (by decide) hge, List.head?_append,
        Option.or_of_isSome (by simp)]
      exact ih (n / 10) (by omega) (by omega)

theorem isWholePart_toDigits (n : Nat) : isWholePart (Nat.toDigits 10 n) = true := by
  have hne : (Nat.toDigits 10 n).isEmpty = false := by simp
  have hdigits : (Nat.toDigits 10 n).all Char.isDigit = true :=
    List.all_eq_true.2 (isDigit_toDigits n)
  rw [isWholePart, hne, hdigits]
  rcases Nat.eq_zero_or_pos n with rfl | hpos
  · rfl
  · simp [head?_toDigits_of_pos hpos]

/-- The digits of a natural number are read back as this number. -/
theorem number?_toDigits (n : Nat) : number? (Nat.toDigits 10 n) = some (natural n) := by
  rw [number?, if_pos (isWholePart_toDigits n)]
  have hvalue := @Nat.ofDigitChars_ten_toDigits n
  rw [Nat.ofDigitChars_eq_foldl] at hvalue
  simp only [Nat.mul_comm] at hvalue ⊢
  rw [hvalue]

/-! ## Values -/

theorem skipSpace_cons {c : Char} (h : isSpace c = false) (rest : List Char) :
    skipSpace (c :: rest) = c :: rest :=
  List.dropWhile_cons_of_neg (by simp [h])

theorem isSpace_of_isDigit {c : Char} (h : c.isDigit = true) : isSpace c = false := by
  rw [Bool.eq_false_iff]
  intro hspace
  simp only [isSpace, Bool.or_eq_true, beq_iff_eq] at hspace
  rcases hspace with ((rfl | rfl) | rfl) | rfl <;> cases h

/-- A value that starts with a digit is a number. -/
theorem readValue_of_isDigit {c : Char} (h : c.isDigit = true) (fuel : Nat) (rest : List Char) :
    readValue (fuel + 1) (c :: rest) =
      (number? ((c :: rest).takeWhile isNumberChar)).map fun value =>
        (value, (c :: rest).dropWhile isNumberChar) := by
  rw [readValue, skipSpace_cons (isSpace_of_isDigit h)]
  split <;> first | rfl | (next heq => cases heq; cases h)

theorem readValue_toDigits (n fuel : Nat) {rest : List Char} (hrest : EndsNumber rest) :
    readValue (fuel + 1) (Nat.toDigits 10 n ++ rest) = some (natural n, rest) := by
  have hall : ∀ c ∈ Nat.toDigits 10 n, isNumberChar c = true :=
    fun c hc => isNumberChar_of_isDigit (isDigit_toDigits n c hc)
  have htake : (Nat.toDigits 10 n ++ rest).takeWhile isNumberChar = Nat.toDigits 10 n := by
    rw [List.takeWhile_append_of_pos hall]
    cases rest with
    | nil => simp
    | cons c rest => simp [hrest c rfl]
  have hdrop : (Nat.toDigits 10 n ++ rest).dropWhile isNumberChar = rest := by
    rw [List.dropWhile_append_of_pos hall]
    cases rest with
    | nil => simp
    | cons c rest => simp [hrest c rfl]
  obtain ⟨c, digits, hdigits⟩ := List.exists_cons_of_ne_nil (@Nat.toDigits_ne_nil n 10)
  have hc : c.isDigit = true := isDigit_toDigits n c (by simp [hdigits])
  rw [hdigits, List.cons_append] at htake hdrop ⊢
  rw [readValue_of_isDigit hc, htake, hdrop, ← hdigits, number?_toDigits]
  rfl

/-- The text starts with a value, not with a blank or a closing bracket. -/
def StartsValue (text : List Char) : Prop :=
  ∃ c rest, text = c :: rest ∧ isSpace c = false ∧ c ≠ ']'

/-- The texts of the items with commas between them. -/
def itemsText (items : List Json) : List Char := (",".intercalate (compactItems items)).toList

/-- The texts of the fields with commas between them. -/
def fieldsText (fields : List (String × Json)) : List Char :=
  (",".intercalate (compactFields fields)).toList

theorem toList_compact_natural (n : Nat) : (natural n).compact.toList = Nat.toDigits 10 n := by
  rw [compact, Nat.toList_repr]

theorem toList_compact_array (items : List Json) :
    (array items).compact.toList = '[' :: (itemsText items ++ [']']) := by
  simp [compact, itemsText]

theorem toList_compact_object (fields : List (String × Json)) :
    (object fields).compact.toList = '\x7b' :: (fieldsText fields ++ ['\x7d']) := by
  simp [compact, fieldsText]

theorem itemsText_singleton (item : Json) : itemsText [item] = item.compact.toList := by
  simp [itemsText, compactItems]

theorem itemsText_cons_cons (item next : Json) (rest : List Json) :
    itemsText (item :: next :: rest) = item.compact.toList ++ ',' :: itemsText (next :: rest) := by
  simp [itemsText, compactItems]

theorem fieldsText_singleton (name : String) (value : Json) :
    fieldsText [(name, value)] = (quotedString name).toList ++ ':' :: value.compact.toList := by
  simp [fieldsText, compactFields]

theorem fieldsText_cons_cons (name : String) (value : Json) (next : String × Json)
    (rest : List (String × Json)) : fieldsText ((name, value) :: next :: rest) =
      (quotedString name).toList ++
        ':' :: (value.compact.toList ++ ',' :: fieldsText (next :: rest)) := by
  simp [fieldsText, compactFields]

theorem startsValue_compact {json : Json} (h : json.Plain) (rest : List Char) :
    StartsValue (json.compact.toList ++ rest) := by
  cases json with
  | null => exact ⟨_, _, rfl, rfl, by decide⟩
  | bool value => cases value <;> exact ⟨_, _, rfl, rfl, by decide⟩
  | natural n =>
    obtain ⟨c, digits, hdigits⟩ := List.exists_cons_of_ne_nil (@Nat.toDigits_ne_nil n 10)
    have hc : c.isDigit = true := isDigit_toDigits n c (by simp [hdigits])
    rw [toList_compact_natural, hdigits]
    refine ⟨c, _, rfl, isSpace_of_isDigit hc, ?_⟩
    rintro rfl
    cases hc
  | decimal text => cases h
  | string value =>
    rw [compact, toList_quotedString_append]
    exact ⟨_, _, rfl, rfl, by decide⟩
  | array items =>
    rw [toList_compact_array]
    exact ⟨_, _, rfl, rfl, by decide⟩
  | object fields =>
    rw [toList_compact_object]
    exact ⟨_, _, rfl, rfl, by decide⟩

/-! ## Arrays and objects -/

theorem readValue_array {text : List Char} (h : StartsValue text) (fuel : Nat) :
    readValue (fuel + 1) ('[' :: text) =
      (readItems fuel text).map fun (items, rest) => (array items, rest) := by
  obtain ⟨c, rest, rfl, hspace, hbracket⟩ := h
  rw [readValue, skipSpace_cons (by rfl)]
  simp only [skipSpace_cons hspace]
  split
  next heq => exact absurd (List.cons.inj heq).1 hbracket
  next => rfl

theorem readValue_object (name : String) (text : List Char) (fuel : Nat) :
    readValue (fuel + 1) ('\x7b' :: ((quotedString name).toList ++ text)) =
      (readFields fuel [] ((quotedString name).toList ++ text)).map
        fun (fields, rest) => (object fields, rest) := by
  rw [toList_quotedString_append, readValue, skipSpace_cons (by rfl)]
  simp only [skipSpace_cons (show isSpace '"' = false from rfl)]
  rfl

theorem readItems_comma {fuel : Nat} {text rest : List Char} {item : Json}
    (h : readValue fuel text = some (item, ',' :: rest)) : readItems (fuel + 1) text =
      (readItems fuel rest).map fun (items, rest) => (item :: items, rest) := by
  rw [readItems, h]
  rfl

theorem readItems_bracket {fuel : Nat} {text rest : List Char} {item : Json}
    (h : readValue fuel text = some (item, ']' :: rest)) :
    readItems (fuel + 1) text = some ([item], rest) := by
  rw [readItems, h]
  rfl

theorem readString_quotedString (text : String) (rest : List Char) :
    ∃ quoted, (quotedString text).toList ++ rest = '"' :: quoted ∧
      readString [] quoted = some (text, rest) := by
  refine ⟨_, toList_quotedString_append text rest, ?_⟩
  rw [readString_flatMap_escapedChar]
  simp

theorem readFields_eq (name : String) (text : List Char) (done : List (String × Json))
    (fuel : Nat) : readFields (fuel + 1) done ((quotedString name).toList ++ ':' :: text) =
      match readValue fuel text with
      | none => none
      | some (value, rest) =>
        match skipSpace rest with
        | ',' :: rest => readFields fuel (putField name value done) rest
        | '\x7d' :: rest => some (putField name value done, rest)
        | _ => none := by
  obtain ⟨quoted, hquoted, hread⟩ := readString_quotedString name (':' :: text)
  rw [hquoted, readFields, skipSpace_cons (by rfl)]
  simp only [hread]
  rfl

theorem readFields_comma {fuel : Nat} {text rest : List Char} {value : Json}
    (h : readValue fuel text = some (value, ',' :: rest)) (name : String)
    (done : List (String × Json)) :
    readFields (fuel + 1) done ((quotedString name).toList ++ ':' :: text) =
      readFields fuel (putField name value done) rest := by
  rw [readFields_eq, h]
  rfl

theorem readFields_bracket {fuel : Nat} {text rest : List Char} {value : Json}
    (h : readValue fuel text = some (value, '\x7d' :: rest)) (name : String)
    (done : List (String × Json)) :
    readFields (fuel + 1) done ((quotedString name).toList ++ ':' :: text) =
      some (putField name value done, rest) := by
  rw [readFields_eq, h]
  rfl

/-- A field of a new name is added at the end. -/
theorem putField_of_nodup {name : String} {value : Json} {done rest : List (String × Json)}
    (h : ((done ++ (name, value) :: rest).map Prod.fst).Nodup) :
    putField name value done = done ++ [(name, value)] := by
  induction done with
  | nil => rfl
  | cons field done ih =>
    rw [List.cons_append, List.map_cons, List.nodup_cons] at h
    have hne : field.1 ≠ name := by
      rintro rfl
      exact h.1 (by simp)
    rw [putField, if_neg hne, ih h.2, List.cons_append]

/-- The text of the value is read back as this value, whatever follows it. -/
def ReadsBack (json : Json) : Prop :=
  ∀ fuel rest, 2 * json.compact.toList.length ≤ fuel → EndsNumber rest →
    readValue (fuel + 1) (json.compact.toList ++ rest) = some (json, rest)

theorem readsBack_natural (n : Nat) : (natural n).ReadsBack := by
  intro fuel rest _ hrest
  rw [toList_compact_natural]
  exact readValue_toDigits n fuel hrest

theorem readsBack_string (text : String) : (string text).ReadsBack := by
  intro fuel rest _ _
  obtain ⟨quoted, hquoted, hread⟩ := readString_quotedString text rest
  rw [compact, hquoted, readValue, skipSpace_cons (by rfl)]
  simp only [hread]
  rfl

/-- An item takes one step of the bound, and the item and the comma behind it take more than one
from twice the length of the text. -/
theorem readItems_itemsText {item : Json} {items : List Json}
    (h : ∀ each ∈ item :: items, each.ReadsBack) {fuel : Nat}
    (hfuel : 2 * (itemsText (item :: items)).length ≤ fuel) (rest : List Char) :
    readItems (fuel + 2) (itemsText (item :: items) ++ ']' :: rest) =
      some (item :: items, rest) := by
  induction items generalizing item fuel with
  | nil =>
    rw [itemsText_singleton] at hfuel ⊢
    exact readItems_bracket
      (h item (List.mem_singleton_self _) _ _ (by omega) (endsNumber_cons (by rfl) _))
  | cons next items ih =>
    obtain ⟨hitem, hrest⟩ := List.forall_mem_cons.1 h
    rw [itemsText_cons_cons] at hfuel ⊢
    rw [List.length_append, List.length_cons] at hfuel
    obtain ⟨fuel, rfl⟩ := Nat.exists_eq_add_of_le' (show 1 ≤ fuel by omega)
    have hread := hitem (fuel + 1) (',' :: (itemsText (next :: items) ++ ']' :: rest)) (by omega)
      (endsNumber_cons (by rfl) _)
    rw [List.append_assoc, List.cons_append, readItems_comma hread, ih hrest (by omega)]
    rfl

/-- The fields of an object are added to those already read if all names differ. -/
theorem readFields_fieldsText {field : String × Json} {fields done : List (String × Json)}
    (h : ∀ each ∈ field :: fields, each.2.ReadsBack)
    (hnames : ((done ++ field :: fields).map Prod.fst).Nodup) {fuel : Nat}
    (hfuel : 2 * (fieldsText (field :: fields)).length ≤ fuel) (rest : List Char) :
    readFields (fuel + 2) done (fieldsText (field :: fields) ++ '\x7d' :: rest) =
      some (done ++ field :: fields, rest) := by
  induction fields generalizing field done fuel with
  | nil =>
    obtain ⟨name, value⟩ := field
    have hvalue : value.ReadsBack := h (name, value) (List.mem_singleton_self _)
    rw [fieldsText_singleton] at hfuel ⊢
    rw [List.length_append, List.length_cons] at hfuel
    have hread := hvalue fuel ('\x7d' :: rest) (by omega) (endsNumber_cons (by rfl) _)
    rw [List.append_assoc, List.cons_append, readFields_bracket hread, putField_of_nodup hnames]
  | cons next fields ih =>
    obtain ⟨name, value⟩ := field
    have hvalue : value.ReadsBack := h (name, value) (List.mem_cons_self ..)
    have hrest := fun each heach => h each (List.mem_cons_of_mem _ heach)
    rw [fieldsText_cons_cons] at hfuel ⊢
    simp only [List.length_append, List.length_cons] at hfuel
    obtain ⟨fuel, rfl⟩ := Nat.exists_eq_add_of_le' (show 1 ≤ fuel by omega)
    have hread := hvalue (fuel + 1) (',' :: (fieldsText (next :: fields) ++ '\x7d' :: rest))
      (by omega) (endsNumber_cons (by rfl) _)
    have hmoved : done ++ (name, value) :: next :: fields =
        (done ++ [(name, value)]) ++ next :: fields := by simp
    rw [List.append_assoc, List.cons_append, List.append_assoc, List.cons_append,
      readFields_comma hread, putField_of_nodup hnames, hmoved]
    exact ih hrest (hmoved ▸ hnames) (by omega)

theorem readsBack_array {items : List Json} (hplain : ∀ item ∈ items, item.Plain)
    (h : ∀ item ∈ items, item.ReadsBack) : (array items).ReadsBack := by
  intro fuel rest hfuel _
  cases items with
  | nil => rfl
  | cons item items =>
    rw [toList_compact_array] at hfuel ⊢
    simp only [List.length_cons, List.length_append, List.length_nil] at hfuel
    obtain ⟨fuel, rfl⟩ := Nat.exists_eq_add_of_le' (show 2 ≤ fuel by omega)
    have hstart : StartsValue (itemsText (item :: items) ++ ']' :: rest) := by
      have hitem := hplain item (List.mem_cons_self ..)
      cases items with
      | nil => simpa [itemsText_singleton] using startsValue_compact hitem (']' :: rest)
      | cons next items => simpa [itemsText_cons_cons] using startsValue_compact hitem _
    rw [List.cons_append, List.append_assoc, List.singleton_append, readValue_array hstart,
      readItems_itemsText h (by omega)]
    rfl

theorem readsBack_object {fields : List (String × Json)} (hnames : (fields.map Prod.fst).Nodup)
    (h : ∀ field ∈ fields, field.2.ReadsBack) : (object fields).ReadsBack := by
  intro fuel rest hfuel _
  cases fields with
  | nil => rfl
  | cons field fields =>
    rw [toList_compact_object] at hfuel ⊢
    simp only [List.length_cons, List.length_append, List.length_nil] at hfuel
    obtain ⟨fuel, rfl⟩ := Nat.exists_eq_add_of_le' (show 2 ≤ fuel by omega)
    have hread : readFields (fuel + 2) [] (fieldsText (field :: fields) ++ '\x7d' :: rest) =
        some ([] ++ field :: fields, rest) := readFields_fieldsText h hnames (by omega) rest
    obtain ⟨name, text, htext⟩ : ∃ name text,
        fieldsText (field :: fields) = (quotedString name).toList ++ text := by
      cases fields with
      | nil => exact ⟨_, _, fieldsText_singleton ..⟩
      | cons next fields => exact ⟨_, _, fieldsText_cons_cons ..⟩
    rw [htext, List.append_assoc] at hread
    rw [htext, List.cons_append, List.append_assoc, List.append_assoc, List.singleton_append,
      readValue_object, hread]
    rfl

/-- Values are read back, by induction on the value with one case for each form it can have. -/
theorem readsBack_of_plain : ∀ {json : Json}, json.Plain → json.ReadsBack
  | null, _ => fun _ _ _ _ => rfl
  | bool true, _ => fun _ _ _ _ => rfl
  | bool false, _ => fun _ _ _ _ => rfl
  | natural n, _ => readsBack_natural n
  | string text, _ => readsBack_string text
  | array items, h => readsBack_array (plainItems_iff.1 h) fun item hitem =>
      readsBack_of_plain (plainItems_iff.1 h item hitem)
  | object fields, h => readsBack_object h.1 fun field hfield =>
      readsBack_of_plain (plainFields_iff.1 h.2 field hfield)
termination_by json => sizeOf json
decreasing_by
  · have hsize := List.sizeOf_lt_of_mem hitem
    rw [array.sizeOf_spec]
    omega
  · have hsize := List.sizeOf_lt_of_mem hfield
    have hvalue : sizeOf field = 1 + sizeOf field.1 + sizeOf field.2 := rfl
    rw [object.sizeOf_spec]
    omega

/-- What is written is read back. -/
theorem read?_compact {json : Json} (h : json.Plain) : read? json.compact = some json := by
  have hread := readsBack_of_plain h (2 * json.compact.toList.length + 1) [] (by omega)
    (by simp [EndsNumber])
  rw [List.append_nil] at hread
  rw [read?, hread]
  rfl

end LexGen.Json
