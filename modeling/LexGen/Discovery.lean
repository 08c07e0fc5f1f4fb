/-!
# Breadth-first discovery

Two constructions number the nodes of a graph in the order in which a breadth-first search meets
them. `discover` is that search: it lists the nodes met so far and visits them in the order of
the list, so a node's position is its number: what was found keeps its place
(`isPrefix_discover`), and no node has two (`nodup_discover`). The bound is the number of nodes
that the graph can have, which the caller knows.
-/

namespace LexGen.Discovery

/-- Add at the end those of `nodes` that are new, each once. -/
def extend {α : Type} [DecidableEq α] (found nodes : List α) : List α :=
  nodes.foldl (fun found node => if node ∈ found then found else found ++ [node]) found

/-- Visit the nodes of `found` from position `cursor` on, at most `bound` of them. -/
def discover {α : Type} [DecidableEq α] (next : α → List α) :
    (bound cursor : Nat) → (found : List α) → List α
  | 0, _, found => found
  | bound + 1, cursor, found =>
    match found[cursor]? with
    | none => found
    | some node => discover next bound (cursor + 1) (extend found (next node))

variable {α : Type} [DecidableEq α]

/-- What was found keeps its place. -/
theorem isPrefix_extend (found nodes : List α) : found <+: extend found nodes := by
  induction nodes generalizing found with
  | nil => exact List.prefix_refl found
  | cons node rest ih =>
    rw [extend, List.foldl_cons]
    split
    · exact ih found
    · exact (List.prefix_append found [node]).trans (ih (found ++ [node]))

theorem mem_extend {found nodes : List α} {node : α} :
    node ∈ extend found nodes ↔ node ∈ found ∨ node ∈ nodes := by
  induction nodes generalizing found with
  | nil => simp [extend]
  | cons first rest ih =>
    rw [extend, List.foldl_cons, ← extend, ih]
    split
    next h =>
      constructor
      · rintro (h | h) <;> simp [h]
      · intro h
        rcases h with h | h
        · exact .inl h
        · rcases List.mem_cons.1 h with rfl | h
          · exact .inl ‹_›
          · exact .inr h
    next => simp [or_assoc]

/-- No node gets two places. -/
theorem nodup_extend {found : List α} (h : found.Nodup) (nodes : List α) :
    (extend found nodes).Nodup := by
  induction nodes generalizing found with
  | nil => exact h
  | cons first rest ih =>
    rw [extend, List.foldl_cons]
    split
    next => exact ih h
    next hn =>
      refine ih (List.nodup_append.2 ⟨h, by simp, ?_⟩)
      intro a ha b hb hab
      exact hn (List.mem_singleton.1 hb ▸ hab ▸ ha)

theorem isPrefix_discover (next : α → List α) (bound cursor : Nat) (found : List α) :
    found <+: discover next bound cursor found := by
  induction bound generalizing cursor found with
  | zero => exact List.prefix_refl found
  | succ bound ih =>
    unfold discover
    split
    · exact List.prefix_refl found
    · exact (isPrefix_extend ..).trans (ih ..)

theorem nodup_discover (next : α → List α) (bound cursor : Nat) {found : List α}
    (h : found.Nodup) : (discover next bound cursor found).Nodup := by
  induction bound generalizing cursor found with
  | zero => exact h
  | succ bound ih =>
    unfold discover
    split
    · exact h
    · exact ih _ (nodup_extend h _)

theorem length_le_length_discover (next : α → List α) (bound cursor : Nat) (found : List α) :
    found.length ≤ (discover next bound cursor found).length :=
  (isPrefix_discover next bound cursor found).length_le

end LexGen.Discovery
