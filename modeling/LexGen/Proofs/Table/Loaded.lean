import LexGen.Table.Saved
import Mathlib.Data.List.Perm.Subperm

/-!
# Loaded tables

`SavedTable.check` asks one part of a stored table after the other what `SavedTable.Fits` asks of all
parts at once, with the number of entries that a machine word counts (`SavedTable.check_eq_ok_iff`).
Loading changes nothing. If the word holds this number (`SavedTable.NoOverflow`), exactly the stored
tables whose parts fit together are loaded, and these are the tables (`SavedTable.exists_table_iff`).
So it is with columns for different characters (`SavedTable.noOverflow_of_nodup`), since there are
not enough characters for more entries than the word can count. What is loaded otherwise never fits
together (`SavedTable.fitsTogether_iff_noOverflow`).
-/

namespace LexGen

/-- What is asked of a stored table that should have so many entries: an error state behind the others
that accepts nothing, and only numbers of states. -/
structure SavedTable.Fits (saved : SavedTable) (entries : Nat) : Prop where
  one_le_states : 1 ≤ saved.states
  data_size : saved.data.size = entries
  accept_size : saved.accept.size = saved.states
  back?_accept : saved.accept.back? = some none
  initial_lt : saved.initial < saved.states
  data_lt : ∀ target ∈ saved.data, target < saved.states

/-- The parts of a stored table fit together: it has as many entries as there are states and columns.
-/
abbrev SavedTable.FitsTogether (saved : SavedTable) : Prop :=
  saved.Fits (saved.states * saved.columns.length)

/-- A machine word of 64 bits holds the product of the states and columns. -/
def SavedTable.NoOverflow (saved : SavedTable) : Prop :=
  saved.states * saved.columns.length < UInt64.size

/-- All characters can be listed. -/
theorem exists_characters : ∃ characters : List Char,
    characters.length = 0x110000 ∧ ∀ c, c ∈ characters := by
  refine ⟨(List.range 0x110000).map Char.ofNat, by rw [List.length_map, List.length_range], ?_⟩
  intro c
  have hlt : c.toNat < 0x110000 := by
    rcases c.valid with hlow | ⟨_, hhigh⟩
    · exact Nat.lt_trans hlow (by decide)
    · exact hhigh
  exact List.mem_map.2 ⟨c.toNat, List.mem_range.2 hlt, Char.ofNat_toNat c⟩

namespace SavedTable

variable {saved loaded : SavedTable}

theorem outOfRange?_eq_none_iff : saved.outOfRange? = none ↔
    saved.initial < saved.states ∧ ∀ target ∈ saved.data, target < saved.states := by
  simp [outOfRange?]

theorem expectedEntries_eq_mod :
    saved.expectedEntries = saved.states * saved.columns.length % UInt64.size := by
  rw [expectedEntries, UInt64.toNat_mul]
  simp

/-- Where the word holds the product, it is the number of entries. -/
theorem NoOverflow.expectedEntries_eq (h : saved.NoOverflow) :
    saved.expectedEntries = saved.states * saved.columns.length := by
  rw [expectedEntries_eq_mod]
  exact Nat.mod_eq_of_lt h

/-- With different characters for the columns, and 32 bits for the number of states, nothing can
overflow. -/
theorem noOverflow_of_nodup (hstates : saved.states < 4294967296) (hcolumns : saved.columns.Nodup) :
    saved.NoOverflow := by
  obtain ⟨characters, hlength, hall⟩ := exists_characters
  have hle : saved.columns.length ≤ 0x110000 := by
    rw [← hlength]
    exact (hcolumns.subperm fun c _ => hall c).length_le
  calc
    saved.states * saved.columns.length ≤ 4294967296 * 0x110000 :=
      Nat.mul_le_mul (Nat.le_of_lt hstates) hle
    _ < UInt64.size := by decide

/-! ## The checks -/

theorem back?_accept_iff (h : saved.accept.size = saved.states) :
    saved.accept.back? = some none ↔ saved.accept[saved.states - 1]? = some none := by
  rw [Array.back?_eq_getElem?, h]

/-- A stored table is loaded exactly if its parts fit together with the number of entries that the
word counts, and what is loaded is what was stored. -/
theorem check_eq_ok_iff :
    saved.check = .ok loaded ↔ saved.Fits saved.expectedEntries ∧ loaded = saved := by
  constructor
  · intro h
    unfold check at h
    split at h
    next => cases h
    next hstates =>
      split at h
      next hdata =>
        split at h
        next haccept =>
          split at h
          next herror =>
            split at h
            next => cases h
            next hrange =>
              cases h
              obtain ⟨hinitial, htargets⟩ := outOfRange?_eq_none_iff.1 hrange
              exact ⟨⟨Nat.pos_of_ne_zero hstates, hdata, haccept, (back?_accept_iff haccept).2 herror,
                hinitial, htargets⟩, rfl⟩
          next => cases h
        next => cases h
      next => cases h
  · intro h
    obtain ⟨h, rfl⟩ := h
    have hrange := outOfRange?_eq_none_iff.2 ⟨h.initial_lt, h.data_lt⟩
    rw [check, if_neg (Nat.ne_of_gt h.one_le_states), if_pos h.data_size, if_pos h.accept_size,
      if_pos ((back?_accept_iff h.accept_size).1 h.back?_accept), hrange]

/-- Where nothing overflows, exactly the stored tables whose parts fit together are loaded. -/
theorem NoOverflow.check_eq_ok_iff (h : saved.NoOverflow) :
    saved.check = .ok loaded ↔ saved.FitsTogether ∧ loaded = saved := by
  rw [SavedTable.check_eq_ok_iff, h.expectedEntries_eq]

/-- The parts of what is loaded fit together exactly if nothing overflows, since the word counts no more
entries than it can hold. -/
theorem fitsTogether_iff_noOverflow (h : saved.check = .ok loaded) :
    loaded.FitsTogether ↔ loaded.NoOverflow := by
  obtain ⟨hfits, rfl⟩ := SavedTable.check_eq_ok_iff.1 h
  constructor
  · intro htogether
    rw [NoOverflow, ← htogether.data_size, hfits.data_size]
    exact UInt64.toNat_lt_size _
  · intro hword
    exact (hword.check_eq_ok_iff.1 h).1

/-- The stored tables whose parts fit together are the tables. -/
theorem exists_table_iff : (∃ table : Table, table.toSavedTable = saved) ↔ saved.FitsTogether := by
  constructor
  · intro h
    obtain ⟨table, rfl⟩ := h
    exact ⟨table.states_pos, table.data_size, table.accept_size,
      (back?_accept_iff table.accept_size).2 table.error_accept, table.initial_lt, table.data_lt⟩
  · intro h
    exact ⟨⟨saved, h.one_le_states, h.data_size, h.accept_size,
      (back?_accept_iff h.accept_size).1 h.back?_accept, h.initial_lt, h.data_lt⟩, rfl⟩

/-- What is loaded is a table if its columns are for different characters. -/
theorem exists_table_of_nodup (h : saved.check = .ok loaded) (hstates : loaded.states < 4294967296)
    (hcolumns : loaded.columns.Nodup) : ∃ table : Table, table.toSavedTable = loaded :=
  exists_table_iff.2 ((fitsTogether_iff_noOverflow h).2 (noOverflow_of_nodup hstates hcolumns))

/-- A table passes the checks. -/
theorem check_table {table : Table} (h : table.NoOverflow) :
    table.check = .ok table.toSavedTable :=
  h.check_eq_ok_iff.2 ⟨exists_table_iff.1 ⟨table, rfl⟩, rfl⟩

end SavedTable

/-! ## Look-ups -/

/-- The first column of a character is among the columns. -/
theorem SavedTable.lt_of_column? {saved : SavedTable} {c : Char} {column : Nat}
    (h : saved.column? c = some column) : column < saved.columns.length :=
  (List.idxOf?_eq_some_iff.1 h).1

namespace Table

variable {table : Table}

theorem isError_eq (state : Fin table.states) :
    table.isError state.val = decide (state = table.stuck) := by
  rw [Bool.eq_iff_iff, decide_eq_true_eq, SavedTable.isError, beq_iff_eq, Fin.ext_iff]
  rfl

/-- Each state has an entry that says what it accepts. -/
theorem accept?_eq (state : Fin table.states) :
    table.accept? state.val = .ok (table.tag state) := by
  have hlt : state.val < table.accept.size := by
    rw [table.accept_size]
    exact state.isLt
  rw [SavedTable.accept?, Array.getElem?_eq_getElem hlt]
  rfl

/-- With the first column of each character the look-up takes the step of the table. -/
theorem next?_eq (state : Fin table.states) (c : Char) :
    table.next? state.val c = .ok (table.next state c).val := by
  rw [SavedTable.next?, SavedTable.nextBy?, isError_eq, next]
  by_cases hstuck : state = table.stuck
  · rw [if_pos (decide_eq_true hstuck), if_pos hstuck]
  · rw [if_neg (by simpa using hstuck), if_neg hstuck, SavedTable.column?]
    split
    next hnone =>
      split
      next => rfl
      next hcolumn => cases hnone.symm.trans hcolumn
    next column hcolumn =>
      have hlt := cell_lt state.isLt (List.idxOf?_eq_some_iff.1 hcolumn).1
      simp only [Array.getElem?_eq_getElem hlt]
      split
      next hnone => cases hcolumn.symm.trans hnone
      next other hother =>
        cases hcolumn.symm.trans hother
        rfl

end Table

end LexGen
