import LexGen.Proofs.Json.RoundTrip
import LexGen.Proofs.Table.Loaded
import LexGen.Table.Stored

/-!
# Tables and their stored form

What is read from the stored form of a table is this table (`SavedTable.ofJson?_toJson`). The stored
form has 32 bits for each number, so the numbers of the table must fit in them
(`SavedTable.FitsWords`); of a table whose parts fit together it is enough that the states can be
counted and the priorities written with them. The stored form has no fractions, and its records have
each field once (`SavedTable.plain_toJson`), so it comes back unchanged from any text it is written
to.
-/

namespace LexGen

namespace Json

theorem word?_natural {n : Nat} (h : n < 4294967296) : (natural n).word? = some n := if_pos h

/-- A list is read back if each of its elements is. -/
theorem list?_map {α : Type} {toJson : α → Json} {ofJson? : Json → Option α} {list : List α}
    (h : ∀ element ∈ list, ofJson? (toJson element) = some element) :
    (array (list.map toJson)).list? ofJson? = some list := by
  rw [list?]
  induction list with
  | nil => rfl
  | cons element rest ih =>
    obtain ⟨helement, hrest⟩ := List.forall_mem_cons.1 h
    rw [List.map_cons, List.mapM_cons, helement, ih hrest]
    rfl

theorem plain_array_map {α : Type} {toJson : α → Json} (h : ∀ element, (toJson element).Plain)
    (list : List α) : (array (list.map toJson)).Plain := by
  refine plainItems_iff.2 ?_
  intro json hjson
  obtain ⟨element, _, rfl⟩ := List.mem_map.1 hjson
  exact h element

theorem char?_toString (c : Char) : (string c.toString).char? = some c := by
  simp [char?]

end Json

/-- All numbers of the table fit in 32 bits. -/
structure SavedTable.FitsWords (saved : SavedTable) : Prop where
  data_lt : ∀ target ∈ saved.data, target < 4294967296
  priority_lt : ∀ tag, some tag ∈ saved.accept → tag.priority < 4294967296
  states_lt : saved.states < 4294967296
  initial_lt : saved.initial < 4294967296

theorem RuleTag.ofJson?_toJson {tag : RuleTag} (h : tag.priority < 4294967296) :
    ofJson? tag.toJson = some tag := by
  have hrecord : tag.toJson.record? ["token_type", "priority"] =
      some [tag.tokenType.toJson, .natural tag.priority] := rfl
  have htype : TokenType.ofJson? tag.tokenType.toJson = some tag.tokenType := rfl
  have hpriority := Json.word?_natural h
  rw [ofJson?, hrecord]
  simp only [bind, Option.bind, htype, hpriority]
  rfl

/-- An entry is read back, also one that says that nothing is accepted. -/
theorem RuleTag.optional?_entryToJson {entry : Option RuleTag}
    (h : ∀ tag, entry = some tag → tag.priority < 4294967296) :
    Json.optional? ofJson? (entryToJson entry) = some entry := by
  cases entry with
  | none => rfl
  | some tag =>
    show (ofJson? tag.toJson).map some = _
    rw [ofJson?_toJson (h tag rfl)]
    rfl

theorem RuleTag.plain_entryToJson (entry : Option RuleTag) : (entryToJson entry).Plain := by
  cases entry with
  | none => trivial
  | some tag => exact ⟨by simp, trivial, trivial, trivial⟩

theorem Alphabet.plain_columnsToJson (columns : List Char) : (columnsToJson columns).Plain :=
  ⟨by simp, Json.plain_array_map (fun c => Json.plain_string c.toString) columns, trivial⟩

theorem Alphabet.columnsOfJson?_columnsToJson (columns : List Char) :
    columnsOfJson? (columnsToJson columns) = some columns :=
  Json.list?_map fun c _ => Json.char?_toString c

namespace SavedTable

variable {saved : SavedTable}

/-- The stored form of a table is read as this table. -/
theorem ofJson?_toJson (h : saved.FitsWords) : ofJson? saved.toJson = some saved := by
  have hdata := Json.list?_map fun target htarget =>
    Json.word?_natural (h.data_lt target (Array.mem_toList_iff.1 htarget))
  have haccept := Json.list?_map fun entry hentry =>
    RuleTag.optional?_entryToJson fun tag htag =>
      h.priority_lt tag (htag ▸ Array.mem_toList_iff.1 hentry)
  have hcolumns := Alphabet.columnsOfJson?_columnsToJson saved.columns
  have hstates := Json.word?_natural h.states_lt
  have hinitial := Json.word?_natural h.initial_lt
  have hrecord : saved.toJson.record? ["data", "accept", "alphabet", "states", "initial_state"] =
      some [.array (saved.data.toList.map .natural),
        .array (saved.accept.toList.map RuleTag.entryToJson),
        Alphabet.columnsToJson saved.columns, .natural saved.states, .natural saved.initial] := rfl
  rw [ofJson?, hrecord]
  simp only [bind, Option.bind, hdata, haccept, hcolumns, hstates, hinitial]
  rfl

/-- The stored form is made of natural numbers and texts, and no record has a field twice. -/
theorem plain_toJson (saved : SavedTable) : saved.toJson.Plain :=
  ⟨by simp, Json.plain_array_map Json.plain_natural _,
    Json.plain_array_map RuleTag.plain_entryToJson _, Alphabet.plain_columnsToJson saved.columns,
    Json.plain_natural saved.states, Json.plain_natural saved.initial, trivial⟩

end SavedTable

/-- In a table no number is larger than the number of states, apart from the priorities. -/
theorem Table.fitsWords {table : Table} (hstates : table.states < 4294967296)
    (hpriority : ∀ tag, some tag ∈ table.accept → tag.priority < 4294967296) :
    table.toSavedTable.FitsWords where
  data_lt target htarget := Nat.lt_trans (table.data_lt target htarget) hstates
  priority_lt := hpriority
  states_lt := hstates
  initial_lt := Nat.lt_trans table.initial_lt hstates

/-! ## Texts -/

/-- A way to write values to texts from which stored tables can be read back. -/
structure SavedTable.Codec where
  write : Json → String
  read? : String → Option Json
  read?_write : ∀ {saved : SavedTable}, saved.FitsWords →
    read? (write saved.toJson) = some saved.toJson

namespace SavedTable.Codec

/-- The text without any blanks. -/
def compact : Codec := ⟨Json.compact, Json.read?, fun _ => Json.read?_compact (plain_toJson _)⟩

/-- The text of a table. -/
def save (codec : Codec) (table : Table) : String := codec.write table.toSavedTable.toJson

/-- The table of a text; none if the text is not the stored form of a table, and an error if
something is found wrong with what is stored. -/
def load? (codec : Codec) (text : String) : Option (Except TableError SavedTable) :=
  ((codec.read? text).bind ofJson?).map check

/-- A table that was written is read back unchanged, and it passes all checks. -/
theorem load?_save (codec : Codec) {table : Table} (h : table.toSavedTable.FitsWords)
    (hentries : table.NoOverflow) :
    codec.load? (codec.save table) = some (.ok table.toSavedTable) := by
  have hread : codec.read? (codec.save table) = some table.toSavedTable.toJson :=
    codec.read?_write h
  rw [load?, hread, Option.bind_some, ofJson?_toJson h, Option.map_some, check_table hentries]

end SavedTable.Codec

end LexGen
