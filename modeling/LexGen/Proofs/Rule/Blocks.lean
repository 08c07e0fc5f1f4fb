import LexGen.Proofs.Checked
import LexGen.Proofs.Nfa.Thompson
import LexGen.Proofs.Pattern.Grammatical
import LexGen.Rule.Combined
import LexGen.Rule.Language

/-!
# What the automaton of a rule set recognizes

The automaton of a rule set has one block for each rule (`Combined.placed`), and no path gets from
one block into another. So a path from the start accepts exactly at the end of the block of a rule
that matches its word, and the tag of its last state is the tag of that rule
(`Combined.Built.path_and_tag_iff`). States that accept are those with a tag
(`Combined.Built.isAccepting_iff`), and from every state there is a way to one of them
(`Combined.Built.live`). The edges read the literals of the patterns and nothing else
(`Combined.literals_nfaOf`).
-/

namespace LexGen

/-- From every state a path leads to one that accepts. -/
def Nfa.Live (nfa : Nfa) : Prop :=
  ∀ state, state < nfa.size → ∃ word target, nfa.Path state word target ∧
    nfa.isAccepting target = true

namespace Combined

/-- The expressions with the numbers of the first states of their blocks. -/
def placed (base : Nat) : List Regex → List (Nat × Regex)
  | [] => []
  | regex :: rest => (base, regex) :: placed (base + regex.size) rest

section Placed

variable {base : Nat} {regexes : List Regex}

theorem map_snd_placed : (placed base regexes).map Prod.snd = regexes := by
  induction regexes generalizing base with
  | nil => rfl
  | cons regex rest ih => rw [placed, List.map_cons, ih]

theorem length_placed : (placed base regexes).length = regexes.length := by
  have hmap : ((placed base regexes).map Prod.snd).length = regexes.length := by
    rw [map_snd_placed]
  rwa [List.length_map] at hmap

theorem entries_eq : entries base regexes = (placed base regexes).map fun p => p.1 + p.2.entry := by
  induction regexes generalizing base with
  | nil => rfl
  | cons regex rest ih => rw [entries, placed, List.map_cons, ih]

theorem ends_eq : ends base regexes = (placed base regexes).map fun p => p.1 + p.2.size - 1 := by
  induction regexes generalizing base with
  | nil => rfl
  | cons regex rest ih => rw [ends, placed, List.map_cons, ih]

theorem le_of_mem_placed {b : Nat} {regex : Regex} (h : (b, regex) ∈ placed base regexes) :
    base ≤ b := by
  induction regexes generalizing base with
  | nil => cases h
  | cons first rest ih =>
    rcases List.mem_cons.1 h with heq | h
    · cases heq
      exact Nat.le_refl _
    · have hle := ih h
      omega

/-- Blocks end one behind the other. -/
theorem pairwise_ends : (ends base regexes).Pairwise (· < ·) := by
  induction regexes generalizing base with
  | nil => exact .nil
  | cons regex rest ih =>
    have hpos := regex.entry_lt
    unfold ends
    refine List.pairwise_cons.2 ⟨?_, ih⟩
    intro other ho
    rw [ends_eq] at ho
    obtain ⟨⟨b, next⟩, hm, rfl⟩ := List.mem_map.1 ho
    have hle := le_of_mem_placed hm
    have hnext := next.entry_lt
    show base + regex.size - 1 < b + next.size - 1
    omega

theorem nodup_ends : (ends base regexes).Nodup := pairwise_ends.imp Nat.ne_of_lt

theorem hosts_of_mem_placed {nfa : Nfa} {b : Nat} {regex : Regex}
    (h : nfa.Hosts base (blocks base regexes)) (hm : (b, regex) ∈ placed base regexes) :
    nfa.Hosts b (regex.block b ⟨[], true⟩) := by
  induction regexes generalizing base with
  | nil => cases hm
  | cons first rest ih =>
    rw [blocks_cons, Nfa.hosts_append, Regex.length_block] at h
    rcases List.mem_cons.1 hm with heq | hm
    · cases heq
      exact h.1
    · exact ih h.2 hm

/-- Each state behind the start belongs to a block. -/
theorem exists_placed {state : Nat} (hbase : base ≤ state)
    (hlt : state < base + (blocks base regexes).length) :
    ∃ b regex, (b, regex) ∈ placed base regexes ∧ b ≤ state ∧ state < b + regex.size := by
  induction regexes generalizing base with
  | nil =>
    rw [blocks, List.length_nil] at hlt
    omega
  | cons first rest ih =>
    rw [blocks_cons, List.length_append, Regex.length_block] at hlt
    by_cases hs : state < base + first.size
    · exact ⟨base, first, List.mem_cons_self .., hbase, hs⟩
    · have hnext : base + first.size ≤ state := by omega
      obtain ⟨b, regex, hm, hb⟩ := ih hnext (by omega)
      exact ⟨b, regex, List.mem_cons_of_mem _ hm, hb⟩

end Placed

/-! ## The automaton of several expressions -/

section NfaOf

variable {regexes : List Regex}

theorem getElem?_nfaOf_zero (regexes : List Regex) :
    (nfaOf regexes).states[0]? = some (Regex.junction (entries 1 regexes)) := by
  simp [nfaOf]

theorem hosts_nfaOf (regexes : List Regex) : (nfaOf regexes).Hosts 1 (blocks 1 regexes) := by
  have hall : (nfaOf regexes).Hosts 0
      (Regex.junction (entries 1 regexes) :: blocks 1 regexes) := by
    intro i state hi
    rw [nfaOf, Nat.zero_add, List.getElem?_toArray, hi]
  exact (Nfa.hosts_cons.1 hall).2

theorem size_nfaOf (regexes : List Regex) :
    (nfaOf regexes).size = 1 + (blocks 1 regexes).length := by
  rw [Nfa.size, nfaOf, List.size_toArray, List.length_cons, Nat.add_comm]

theorem isAccepting_nfaOf_zero (regexes : List Regex) : (nfaOf regexes).isAccepting 0 = false :=
  Nfa.isAccepting_of_getElem? (getElem?_nfaOf_zero regexes)

/-- Exactly the ends of the blocks accept. -/
theorem isAccepting_nfaOf_iff {state : Nat} :
    (nfaOf regexes).isAccepting state = true ↔ state ∈ ends 1 regexes := by
  rw [ends_eq, List.mem_map]
  constructor
  · intro h
    have hne : state ≠ 0 := by
      rintro rfl
      rw [isAccepting_nfaOf_zero] at h
      cases h
    have hlt : state < 1 + (blocks 1 regexes).length := by
      rw [← size_nfaOf]
      by_contra hge
      rw [Nfa.isAccepting, Array.getElem?_eq_none (Nat.not_lt.1 hge)] at h
      cases h
    have hone : 1 ≤ state := by omega
    obtain ⟨b, regex, hm, hb, hs⟩ := exists_placed hone hlt
    have hhosts := hosts_of_mem_placed (hosts_nfaOf regexes) hm
    refine ⟨(b, regex), hm, ?_⟩
    by_contra hend
    have hbefore : state < b + regex.size - 1 := by
      have hne : b + regex.size - 1 ≠ state := hend
      omega
    rw [hhosts.isAccepting_eq_false hb hbefore] at h
    cases h
  · rintro ⟨⟨b, regex⟩, hm, rfl⟩
    exact (hosts_of_mem_placed (hosts_nfaOf regexes) hm).isAccepting_last

/-- A path that accepts is in the end of a block whose expression stands for its word. -/
theorem path_nfaOf_iff {target : Nat} {word : List Char} :
    (nfaOf regexes).Path 0 word target ∧ (nfaOf regexes).isAccepting target = true ↔
      ∃ b regex, (b, regex) ∈ placed 1 regexes ∧ target = b + regex.size - 1 ∧
        regex.Matches word := by
  constructor
  · rintro ⟨hpath, haccepting⟩
    have hne : target ≠ 0 := by
      rintro rfl
      rw [isAccepting_nfaOf_zero] at haccepting
      cases haccepting
    obtain ⟨n, hsteps⟩ := hpath.steps
    obtain ⟨m, exit, rfl, hexit, hrest⟩ := hsteps.junction (getElem?_nfaOf_zero regexes) hne
    rw [entries_eq] at hexit
    obtain ⟨⟨b, regex⟩, hm, rfl⟩ := List.mem_map.1 hexit
    have hhosts := hosts_of_mem_placed (hosts_nfaOf regexes) hm
    exact ⟨b, regex, hm, (hhosts.path_iff haccepting).1 hrest.path⟩
  · rintro ⟨b, regex, hm, rfl, hmatches⟩
    have hhosts := hosts_of_mem_placed (hosts_nfaOf regexes) hm
    refine ⟨?_, hhosts.isAccepting_last⟩
    refine .junction (getElem?_nfaOf_zero regexes) ?_ (hhosts.path_of_matches hmatches)
    rw [entries_eq]
    exact List.mem_map.2 ⟨(b, regex), hm, rfl⟩

theorem live_nfaOf (h : regexes ≠ []) : (nfaOf regexes).Live := by
  intro state hlt
  rw [size_nfaOf] at hlt
  by_cases hs : state = 0
  · obtain ⟨first, rest, rfl⟩ := List.exists_cons_of_ne_nil h
    obtain ⟨word, hword⟩ := first.exists_matches
    subst hs
    exact ⟨word, _, path_nfaOf_iff.2 ⟨1, first, List.mem_cons_self .., rfl, hword⟩⟩
  · have hone : 1 ≤ state := by omega
    obtain ⟨b, regex, hm, hb, hbelow⟩ := exists_placed hone hlt
    have hhosts := hosts_of_mem_placed (hosts_nfaOf regexes) hm
    obtain ⟨word, hpath⟩ := hhosts.exists_path_last hb hbelow
    exact ⟨word, _, hpath, hhosts.isAccepting_last⟩

end NfaOf

/-! ## Labels -/

/-- What the edges of states read, in their order. -/
def labels (states : List NfaState) : List Char :=
  states.flatMap fun state => state.edges.filterMap (·.label)

@[simp]
theorem labels_append (front back : List NfaState) :
    labels (front ++ back) = labels front ++ labels back := List.flatMap_append

@[simp]
theorem labels_nil : labels [] = [] := rfl

@[simp]
theorem labels_junction (targets : List Nat) (rest : List NfaState) :
    labels (Regex.junction targets :: rest) = labels rest := by
  simp [labels, Regex.junction]

/-- A block reads the literals of its expression in their order, and then what its last state
reads. -/
theorem labels_block (regex : Regex) (base : Nat) (last : NfaState) :
    labels (regex.block base last) = regex.postorder.filterMap Item.literal? ++ labels [last] := by
  have hoperator : ∀ op, [Item.operator op].filterMap Item.literal? = [] := fun _ => rfl
  induction regex generalizing base last with
  | literal c => simp [labels, Regex.block, Regex.postorder, Item.literal?]
  | concat left right ihl ihr => simp [Regex.block, Regex.postorder, hoperator, ihl, ihr]
  | union left right ihl ihr => simp [Regex.block, Regex.postorder, hoperator, ihl, ihr]
  | repeated mark inner ih => cases mark <;> simp [Regex.block, Regex.postorder, hoperator, ih]

theorem labels_blocks (base : Nat) (regexes : List Regex) : labels (blocks base regexes) =
    regexes.flatMap fun regex => regex.postorder.filterMap Item.literal? := by
  induction regexes generalizing base with
  | nil => rfl
  | cons regex rest ih =>
    have hlast : labels [⟨[], true⟩] = [] := rfl
    rw [blocks_cons, labels_append, labels_block, hlast, List.append_nil, ih, List.flatMap_cons]

/-- The automaton reads the literals of the expressions. -/
theorem literals_nfaOf (regexes : List Regex) : (nfaOf regexes).literals =
    regexes.flatMap fun regex => regex.postorder.filterMap Item.literal? := by
  show labels (Regex.junction (entries 1 regexes) :: blocks 1 regexes) = _
  rw [labels_junction, labels_blocks]

end Combined

end LexGen
